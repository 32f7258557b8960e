import Keyspace.WorkerPool

/-!
# The outcome of a task whose handle is kept

A task is faithful as long as nobody has set its token or taken its result: what it then ends with
is the outcome of its own body. A pool keeps a task faithful through every step but a cancellation
and an await of that very task (`keeps_of_step?`), so that whoever keeps the handle to himself finds
there what the body gave, and nothing else.

The making of a pool (`create_eq_ok_iff`) and the steps of the workers are inverted before
(`eq_of_take?` and its like): each says what it finds, and gives the pool after it, so that no proof
about a step opens it again.
-/

namespace Keyspace

/-- **A faithful task**: nobody has set its token or taken its result. -/
structure Task.Faithful {α : Type} (t : Task α) : Prop where
  uncancelled : t.cancelled = false
  untaken : t.taken = false
  outcome : ∀ o, t.state = .finished o → o = t.work.outcome

/-- A body whose token is not set gives its own outcome. -/
theorem Work.finish?_eq_some {α : Type} {w : Work α} {isOpen : Gate → Bool} {o : Outcome α}
    (h : w.finish? isOpen false = some o) : o = w.outcome := by
  unfold Work.finish? at h
  split at h
  · cases hw : w.outcome with
    | ok a => simpa [hw] using h.symm
    | error f => simpa [hw] using h.symm
  · simp at h

namespace WorkerPool

variable {α : Type} {p p' : WorkerPool α}

/-! ## New pools -/

section New

variable {workers capacity : Nat}

/-- **A pool is made of any workers and any room but none**, and begins idle. -/
theorem create_eq_ok_iff : create workers capacity = .ok p ↔
    workers ≠ 0 ∧ capacity ≠ 0 ∧ p = { capacity, workers := List.replicate workers .idle } := by
  unfold create
  split
  · next hworkers => exact iff_of_false nofun fun h => h.1 hworkers
  · next hworkers =>
    split
    · next hcapacity => exact iff_of_false nofun fun h => h.2.1 hcapacity
    · next hcapacity =>
      rw [Except.ok.injEq, eq_comm]
      exact ⟨fun hp => ⟨hworkers, hcapacity, hp⟩, fun h => h.2.2⟩

theorem workers_ne_nil_of_create (h : create workers capacity = .ok p) : p.workers ≠ [] := by
  obtain ⟨hworkers, -, rfl⟩ := create_eq_ok_iff.mp h
  exact mt (List.replicate_eq_nil_iff Worker.idle).mp hworkers

end New

/-! ## The steps of the workers, inverted -/

section Workers

variable {worker : Nat}

theorem eq_of_take? (h : p.take? worker = some p') :
    ∃ id rest, p.workers[worker]? = some .idle ∧ p.queue = id :: rest ∧
      p' = { p with queue := rest, workers := p.workers.set worker (.busy id) }.change id
        fun t => { t with state := .claimed } := by
  unfold take? at h
  split at h
  · next id rest hidle hfront =>
    cases h
    exact ⟨id, rest, hidle, hfront, rfl⟩
  · cases h

theorem eq_of_begin? (h : p.begin? worker = some p') :
    ∃ id t, p.workers[worker]? = some (.busy id) ∧ p.tasks[id]? = some t ∧ t.state = .claimed ∧
      ((t.cancelled = true ∧ p' = { p with workers := p.workers.set worker .idle }.change id
          fun t => { t with state := .finished (.error .taskCancelled) }) ∨
        (t.cancelled = false ∧ p' = { p with begun := p.begun ++ [id] }.change id
          fun t => { t with state := .running })) := by
  unfold begin? at h
  split at h
  · next id hholds =>
    split at h
    · next work cancelled taken htask =>
      refine ⟨id, _, hholds, htask, rfl, ?_⟩
      cases cancelled with
      | true => exact .inl ⟨rfl, (Option.some.inj h).symm⟩
      | false => exact .inr ⟨rfl, (Option.some.inj h).symm⟩
    · cases h
  · cases h

theorem eq_of_finish? (h : p.finish? worker = some p') :
    ∃ id t outcome, p.workers[worker]? = some (.busy id) ∧ p.tasks[id]? = some t ∧
      t.state = .running ∧ t.work.finish? p.isOpen t.cancelled = some outcome ∧
      p' = { p with workers := p.workers.set worker .idle }.change id
        fun t => { t with state := .finished outcome } := by
  unfold finish? at h
  split at h
  · next id hholds =>
    split at h
    · next work cancelled taken htask =>
      obtain ⟨outcome, hgave, rfl⟩ := Option.map_eq_some_iff.mp h
      exact ⟨id, _, outcome, hholds, htask, rfl, hgave, rfl⟩
    · cases h
  · cases h

theorem eq_of_leave? (h : p.leave? worker = some p') :
    p.workers[worker]? = some .idle ∧ p.queue = [] ∧ p.stopping = true ∧
      p' = { p with workers := p.workers.set worker .gone } := by
  unfold leave? at h
  split at h
  · next hidle hempty =>
    split at h
    · next hstopping =>
      cases h
      exact ⟨hidle, hempty, hstopping, rfl⟩
    · cases h
  · cases h

end Workers

/-! ## Faithful tasks -/

/-- The second pool has the task of the first one, with the same body, still faithful. -/
def Keeps (p p' : WorkerPool α) (id : TaskId) : Prop :=
  ∀ t, p.tasks[id]? = some t → t.Faithful →
    ∃ t', p'.tasks[id]? = some t' ∧ t'.work = t.work ∧ t'.Faithful

theorem Keeps.of_tasks_eq {id : TaskId} (h : p'.tasks = p.tasks) : Keeps p p' id :=
  fun t ht hf => ⟨t, h ▸ ht, rfl, hf⟩

theorem getElem?_change (p : WorkerPool α) (id j : TaskId) (f : Task α → Task α) :
    (p.change id f).tasks[j]? = if id = j then p.tasks[j]?.map f else p.tasks[j]? := by
  simp only [change, List.getElem?_modify]
  split <;> simp

/-- A change of another task keeps the task. -/
theorem Keeps.of_change_ne {id j : TaskId} {f : Task α → Task α} {q : WorkerPool α}
    (hq : q.tasks = p.tasks) (hne : id ≠ j) : Keeps p (q.change id f) j := by
  refine fun t ht hf => ⟨t, ?_, rfl, hf⟩
  rw [getElem?_change, if_neg hne, hq, ht]

/-- A change of the state alone keeps the task, when a finished one has the outcome of its body. -/
theorem Keeps.of_change_state {id j : TaskId} {state : TaskState α} {q : WorkerPool α}
    (hq : q.tasks = p.tasks)
    (hstate : id = j → ∀ t, p.tasks[j]? = some t → t.Faithful →
      ∀ o, state = .finished o → o = t.work.outcome) :
    Keeps p (q.change id fun t => { t with state }) j := by
  intro t ht hf
  by_cases hid : id = j
  · refine ⟨{ t with state }, ?_, rfl, hf.uncancelled, hf.untaken, hstate hid t ht hf⟩
    rw [getElem?_change, if_pos hid, hq, ht, Option.map_some]
  · exact Keeps.of_change_ne hq hid t ht hf

/-- An accepted task comes last and is faithful, and the others are kept. -/
theorem submit_eq_ok {work : Work α} {id : TaskId} (h : p.submit work = .ok (p', id)) :
    id = p.tasks.length ∧ p'.tasks = p.tasks ++ [{ work := work }] := by
  unfold submit at h
  split at h
  · cases h
  · split at h
    · cases h
    · cases h
      exact ⟨rfl, rfl⟩

/-- A submission is refused by a pool that is stopped or full. -/
theorem submit_eq_error {work : Work α} {f : Failure} (h : p.submit work = .error f) :
    (p.stopping = true ∧ f = .poolStopped) ∨
      (p.stopping = false ∧ p.capacity ≤ p.queue.length ∧ f = .poolFull) := by
  unfold submit at h
  split at h
  · next hstop =>
    cases h
    exact .inl ⟨hstop, rfl⟩
  · next hstop =>
    split at h
    · next hfull =>
      cases h
      exact .inr ⟨by simpa using hstop, hfull, rfl⟩
    · cases h

theorem Keeps.of_submit {work : Work α} {id j : TaskId} (h : p.submit work = .ok (p', id)) :
    Keeps p p' j := by
  refine fun t ht hf => ⟨t, ?_, rfl, hf⟩
  rw [(submit_eq_ok h).2, List.getElem?_append_left (List.getElem?_eq_some_iff.mp ht).1, ht]

/-- An await of another task keeps the task. -/
theorem Keeps.of_await_ne {id j : TaskId} (hne : id ≠ j) : Keeps p (p.await id).2 j := by
  unfold await
  cases p.tasks[id]? with
  | none => exact .of_tasks_eq rfl
  | some t =>
    by_cases htaken : t.taken = true
    · simp only [htaken, if_true]
      exact .of_tasks_eq rfl
    · simp only [htaken, Bool.false_eq_true, if_false]
      cases t.state with
      | finished outcome => exact .of_change_ne rfl hne
      | _ => exact .of_tasks_eq rfl

/-- An await of a faithful task takes the outcome of its body, or finds it unfinished. -/
theorem await_of_faithful {id : TaskId} {t : Task α} (ht : p.tasks[id]? = some t)
    (hf : t.Faithful) :
    p.await id = (.ok none, p) ∨
      (t.state = .finished t.work.outcome ∧
        p.await id = (t.work.outcome.map some, p.change id fun t => { t with taken := true })) := by
  simp only [await, ht, hf.untaken, Bool.false_eq_true, if_false]
  cases hstate : t.state with
  | finished o =>
    refine .inr ⟨by rw [hf.outcome o hstate], ?_⟩
    simp only [hf.outcome o hstate]
  | _ => exact .inl rfl

theorem Keeps.of_take? {worker : Nat} {j : TaskId} (h : p.take? worker = some p') :
    Keeps p p' j := by
  obtain ⟨id, rest, -, -, rfl⟩ := eq_of_take? h
  exact .of_change_state rfl fun _ _ _ _ o ho => by cases ho

theorem Keeps.of_begin? {worker : Nat} {j : TaskId} (h : p.begin? worker = some p') :
    Keeps p p' j := by
  obtain ⟨id, t, -, htask, -, ⟨hset, rfl⟩ | ⟨-, rfl⟩⟩ := eq_of_begin? h
  · -- the token of a faithful task is not set, so that this worker has another one
    apply Keeps.of_change_state rfl
    intro hid t ht hf
    subst hid
    rw [htask] at ht
    cases ht
    cases hset.symm.trans hf.uncancelled
  · exact .of_change_state rfl fun _ _ _ _ o ho => by cases ho

theorem Keeps.of_finish? {worker : Nat} {j : TaskId} (h : p.finish? worker = some p') :
    Keeps p p' j := by
  obtain ⟨id, t, outcome, -, htask, -, hfin, rfl⟩ := eq_of_finish? h
  apply Keeps.of_change_state rfl
  intro hid t ht hf o ho
  subst hid
  rw [htask] at ht
  cases ht
  cases ho
  rw [hf.uncancelled] at hfin
  exact Work.finish?_eq_some hfin

/-- **A pool keeps a faithful task** through every step but its cancellation and its await. -/
theorem keeps_of_step? {a : Step α} {id : TaskId} (h : p.step? a = some p')
    (hcancel : a ≠ .cancel id) (hawait : a ≠ .await id) : Keeps p p' id := by
  cases a with
  | submit work =>
    simp only [step?] at h
    cases hs : p.submit work with
    | ok r =>
      obtain ⟨q, j⟩ := r
      simp only [hs, Option.some.injEq] at h
      exact .of_submit (h ▸ hs)
    | error f =>
      simp only [hs, Option.some.injEq] at h
      exact .of_tasks_eq (by rw [h])
  | cancel j =>
    cases h
    exact .of_change_ne rfl fun hid => hcancel (hid ▸ rfl)
  | await j =>
    cases h
    exact .of_await_ne fun hid => hawait (hid ▸ rfl)
  | openGate g =>
    cases h
    exact .of_tasks_eq rfl
  | stop =>
    cases h
    exact .of_tasks_eq rfl
  | «return» stopper =>
    simp only [step?, return?] at h
    split at h
    · split at h
      · cases h
        exact .of_tasks_eq rfl
      · cases h
    · cases h
  | take worker => exact .of_take? h
  | begin worker => exact .of_begin? h
  | finish worker => exact .of_finish? h
  | leave worker =>
    obtain ⟨-, -, -, rfl⟩ := eq_of_leave? h
    exact .of_tasks_eq rfl

end WorkerPool

end Keyspace
