import Keyspace.Proofs.Runs
import Keyspace.Proofs.TaskOutcome

/-!
# The steps of a worker pool

The steps of a pool, inverted once: `WorkerPool.Transition` says what each step finds and leaves,
and what it shows of itself (`Event`), so that no later proof opens the step function again
(`transition_of_step?`). A pool shows which tasks it accepted, refused, took from its queue, began,
passed over because they were cancelled, and finished, and which workers left it.
-/

namespace Keyspace

/-- Where a task stands, without its outcome. -/
inductive Place where
  | queued
  | claimed
  | running
  | finished
deriving DecidableEq, Repr

/-- The place of a task in a state. -/
def TaskState.place {α : Type} : TaskState α → Place
  | .queued => .queued
  | .claimed => .claimed
  | .running => .running
  | .finished _ => .finished

namespace WorkerPool

/-- **What a step of a pool shows.** -/
inductive Event where
  | accepted (id : TaskId)
  | refused (f : Failure)
  | stopped
  | taken (id : TaskId)
  | began (id : TaskId)
  | skipped (id : TaskId)
  | finished (id : TaskId)
  | left (worker : Nat)
  | silent
deriving DecidableEq

variable {α : Type} {p p' : WorkerPool α}

/-- The task that a worker has in its hands. -/
def taskOf? (p : WorkerPool α) (worker : Nat) : Option TaskId :=
  match p.workers[worker]? with
  | some (.busy id) => some id
  | _ => none

/-- What a step shows. -/
def event (p : WorkerPool α) : Step α → Event
  | .submit work =>
    match p.submit work with
    | .ok (_, id) => .accepted id
    | .error f => .refused f
  | .stop => .stopped
  | .take _ =>
    match p.queue with
    | id :: _ => .taken id
    | [] => .silent
  | .begin worker =>
    match p.taskOf? worker with
    | some id => if p.isCancelled id then .skipped id else .began id
    | none => .silent
  | .finish worker =>
    match p.taskOf? worker with
    | some id => .finished id
    | none => .silent
  | .leave worker => .left worker
  | _ => .silent

/-- A pool as a machine. -/
def machine (α : Type) : Machine (WorkerPool α) (Step α) Event where
  step? := step?
  event := event

/-- The place of a task, if there is one of this name. -/
def place? (p : WorkerPool α) (id : TaskId) : Option Place :=
  (p.tasks[id]?).map fun t => t.state.place

/-- The pool with one more task, at the end of the queue. -/
def enqueue (p : WorkerPool α) (work : Work α) : WorkerPool α :=
  { p with queue := p.queue ++ [p.tasks.length], tasks := p.tasks ++ [{ work }] }

/-- The pool with a task at another place of its way. -/
def setState (p : WorkerPool α) (id : TaskId) (state : TaskState α) : WorkerPool α :=
  p.change id fun t => { t with state }

/-! ## What the steps find and leave -/

/-- The worker has a task in its hands. -/
def Holds (p : WorkerPool α) (worker : Nat) (id : TaskId) : Prop :=
  p.workers[worker]? = some (.busy id)

/-- **A step of a pool**: what it shows, and the pool after it. -/
inductive Transition (p : WorkerPool α) : Event → WorkerPool α → Prop
  | accepted (work : Work α) (running : p.stopping = false)
    (room : p.queue.length < p.capacity) :
    Transition p (.accepted p.tasks.length) (p.enqueue work)
  | refused {work : Work α} {f : Failure} (submitted : p.submit work = .error f) :
    Transition p (.refused f) p
  | cancelled (id : TaskId) : Transition p .silent (p.cancel id)
  | awaited (id : TaskId) : Transition p .silent (p.await id).2
  | opened (g : Gate) : Transition p .silent (p.openGate g)
  | stopped : Transition p .stopped p.stop
  | returned {stopper : Nat} {q : WorkerPool α} (returned : p.return? stopper = some q) :
    Transition p .silent q
  | taken {worker : Nat} {id : TaskId} {rest : List TaskId}
    (idle : p.workers[worker]? = some .idle) (front : p.queue = id :: rest) :
    Transition p (.taken id)
      ({ p with queue := rest, workers := p.workers.set worker (.busy id) }.setState id .claimed)
  | began {worker : Nat} {id : TaskId} {t : Task α} (holds : p.Holds worker id)
    (task : p.tasks[id]? = some t) (claimed : t.state = .claimed) (wanted : t.cancelled = false) :
    Transition p (.began id) ({ p with begun := p.begun ++ [id] }.setState id .running)
  | skipped {worker : Nat} {id : TaskId} {t : Task α} (holds : p.Holds worker id)
    (task : p.tasks[id]? = some t) (claimed : t.state = .claimed)
    (cancelled : t.cancelled = true) :
    Transition p (.skipped id)
      ({ p with workers := p.workers.set worker .idle }.setState id
        (.finished (.error .taskCancelled)))
  | finished {worker : Nat} {id : TaskId} {t : Task α} {outcome : Outcome α}
    (holds : p.Holds worker id) (task : p.tasks[id]? = some t) (running : t.state = .running)
    (gave : t.work.finish? p.isOpen t.cancelled = some outcome) :
    Transition p (.finished id)
      ({ p with workers := p.workers.set worker .idle }.setState id (.finished outcome))
  | left {worker : Nat} (idle : p.workers[worker]? = some .idle) (empty : p.queue = [])
    (stopping : p.stopping = true) :
    Transition p (.left worker) { p with workers := p.workers.set worker .gone }

theorem taskOf?_of_holds {worker : Nat} {id : TaskId} (h : p.Holds worker id) :
    p.taskOf? worker = some id := by
  rw [taskOf?, h]

theorem isCancelled_of_task {id : TaskId} {t : Task α} (h : p.tasks[id]? = some t) :
    p.isCancelled id = t.cancelled := by
  rw [isCancelled, h]
  rfl

/-- A submission is accepted exactly when the pool runs and its queue has room. -/
theorem submit_of_room (work : Work α) (running : p.stopping = false)
    (room : p.queue.length < p.capacity) :
    p.submit work = .ok (p.enqueue work, p.tasks.length) := by
  rw [submit, if_neg (Bool.eq_false_iff.mp running), if_neg (Nat.not_le_of_lt room)]
  rfl

/-- **A submission is refused exactly when the pool is stopping or its queue is full.** -/
theorem submit_refused_iff (p : WorkerPool α) (work : Work α) :
    (∃ f, p.submit work = .error f) ↔ p.stopping = true ∨ p.capacity ≤ p.queue.length := by
  constructor
  · rintro ⟨f, hf⟩
    rcases submit_eq_error hf with ⟨hstop, -⟩ | ⟨-, hfull, -⟩
    · exact .inl hstop
    · exact .inr hfull
  · intro h
    by_cases hstop : p.stopping = true
    · exact ⟨_, by rw [submit, if_pos hstop]⟩
    · exact ⟨_, by rw [submit, if_neg hstop, if_pos (h.resolve_left hstop)]⟩

theorem transition_of_submit (p : WorkerPool α) (work : Work α) :
    ∃ p', p.step? (.submit work) = some p' ∧ Transition p (p.event (.submit work)) p' := by
  cases hsubmit : p.submit work with
  | error f =>
    refine ⟨p, by simp only [step?, hsubmit], ?_⟩
    simp only [event, hsubmit]
    exact .refused hsubmit
  | ok r =>
    have haccepts : ¬ ∃ f, p.submit work = .error f := by
      rintro ⟨f, hf⟩
      rw [hsubmit] at hf
      cases hf
    have hopen := mt (submit_refused_iff p work).mpr haccepts
    obtain ⟨hstop, hroom⟩ := not_or.mp hopen
    have hrun := Bool.eq_false_iff.mpr hstop
    have hlt := Nat.lt_of_not_le hroom
    rw [submit_of_room work hrun hlt] at hsubmit
    cases hsubmit
    refine ⟨p.enqueue work, by simp only [step?, submit_of_room work hrun hlt], ?_⟩
    simp only [event, submit_of_room work hrun hlt]
    exact .accepted work hrun hlt

theorem transition_of_take? {worker : Nat} (h : p.take? worker = some p') :
    Transition p (p.event (.take worker)) p' := by
  obtain ⟨id, rest, hidle, hfront, rfl⟩ := eq_of_take? h
  simp only [event, hfront]
  exact .taken hidle hfront

theorem transition_of_begin? {worker : Nat} (h : p.begin? worker = some p') :
    Transition p (p.event (.begin worker)) p' := by
  obtain ⟨id, t, hholds, htask, hclaimed, hcase⟩ := eq_of_begin? h
  simp only [event, taskOf?_of_holds hholds, isCancelled_of_task htask]
  obtain ⟨hset, rfl⟩ | ⟨hset, rfl⟩ := hcase
  · rw [if_pos hset]
    exact .skipped hholds htask hclaimed hset
  · rw [if_neg (Bool.eq_false_iff.mp hset)]
    exact .began hholds htask hclaimed hset

theorem transition_of_finish? {worker : Nat} (h : p.finish? worker = some p') :
    Transition p (p.event (.finish worker)) p' := by
  obtain ⟨id, t, outcome, hholds, htask, hrunning, hgave, rfl⟩ := eq_of_finish? h
  simp only [event, taskOf?_of_holds hholds]
  exact .finished hholds htask hrunning hgave

theorem transition_of_leave? {worker : Nat} (h : p.leave? worker = some p') :
    Transition p (p.event (.leave worker)) p' := by
  obtain ⟨hidle, hempty, hstopping, rfl⟩ := eq_of_leave? h
  exact .left hidle hempty hstopping

/-- **Every step of a pool is a transition**, which shows what the step shows. -/
theorem transition_of_step? {a : Step α} (h : p.step? a = some p') :
    Transition p (p.event a) p' := by
  cases a with
  | submit work =>
    obtain ⟨q, hq, htrans⟩ := transition_of_submit p work
    rw [hq] at h
    cases h
    exact htrans
  | cancel id =>
    cases h
    exact .cancelled id
  | await id =>
    cases h
    exact .awaited id
  | openGate g =>
    cases h
    exact .opened g
  | stop =>
    cases h
    exact .stopped
  | «return» stopper => exact .returned h
  | take worker => exact transition_of_take? h
  | begin worker => exact transition_of_begin? h
  | finish worker => exact transition_of_finish? h
  | leave worker => exact transition_of_leave? h

/-! ## What the steps leave alone -/

/-- A change that keeps the state of a task keeps every place. -/
theorem place?_change (p : WorkerPool α) (id j : TaskId) {f : Task α → Task α}
    (hf : ∀ t, (f t).state = t.state) : (p.change id f).place? j = p.place? j := by
  rw [place?, place?, getElem?_change]
  split
  · rw [Option.map_map]
    congr 1
    funext t
    exact congrArg TaskState.place (hf t)
  · rfl

/-- A task whose state is set has the place of that state, and every other task keeps its own. -/
theorem place?_setState {id : TaskId} (hid : id < p.tasks.length) (j : TaskId)
    (state : TaskState α) :
    (p.setState id state).place? j = if id = j then some state.place else p.place? j := by
  rw [place?, place?, setState, getElem?_change]
  split
  · next heq =>
    subst heq
    rw [List.getElem?_eq_getElem hid]
    rfl
  · rfl

theorem place?_isSome_iff (p : WorkerPool α) (id : TaskId) :
    (p.place? id).isSome ↔ id < p.tasks.length := by
  rw [place?, Option.isSome_map]
  simp

/-- **What the pool keeps of its tasks**: capacity, queue, workers, beginnings, and every place. -/
structure Same (p p' : WorkerPool α) : Prop where
  capacity : p'.capacity = p.capacity
  queue : p'.queue = p.queue
  workers : p'.workers = p.workers
  begun : p'.begun = p.begun
  count : p'.tasks.length = p.tasks.length
  place : ∀ id, p'.place? id = p.place? id

theorem Same.refl (p : WorkerPool α) : Same p p :=
  ⟨rfl, rfl, rfl, rfl, rfl, fun _ => rfl⟩

/-- A change that keeps the state of its task leaves the pool the same. -/
theorem Same.change (p : WorkerPool α) (id : TaskId) {f : Task α → Task α}
    (hf : ∀ t, (f t).state = t.state) : Same p (p.change id f) :=
  ⟨rfl, rfl, rfl, rfl, List.length_modify .., fun j => p.place?_change id j hf⟩

theorem Same.await (p : WorkerPool α) (id : TaskId) : Same p (p.await id).2 := by
  unfold WorkerPool.await
  split
  · exact .refl p
  · next t _ =>
    split
    · exact .refl p
    · split
      · exact .change p id fun _ => rfl
      · exact .refl p

theorem stopping_await (p : WorkerPool α) (id : TaskId) : (p.await id).2.stopping = p.stopping := by
  unfold WorkerPool.await
  split
  · rfl
  · next t _ =>
    split
    · rfl
    · split <;> rfl

/-- A shutdown that returns changes the shutdowns alone. -/
theorem eq_of_return? {stopper : Nat} (h : p.return? stopper = some p') :
    ∃ s, p.stoppers[stopper]? = some s ∧ s.returned = false ∧
      (s.joins = true → ∀ w ∈ p.workers, w = .gone) ∧
      p' = { p with stoppers := p.stoppers.set stopper { s with returned := true } } := by
  unfold return? at h
  split at h
  · next s hs =>
    split at h
    · next hready =>
      cases h
      simp only [Bool.and_eq_true, Bool.not_eq_true', Bool.or_eq_true, List.all_eq_true,
        decide_eq_true_eq] at hready
      refine ⟨s, hs, hready.1, fun hjoins => ?_, rfl⟩
      exact hready.2.resolve_left (by rw [hjoins]; exact Bool.noConfusion)
    · cases h
  · cases h

end WorkerPool

end Keyspace
