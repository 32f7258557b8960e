import Keyspace.Proofs.PoolSteps

/-!
# What becomes of the tasks of a pool

A pool keeps **accounts** of its tasks (`WorkerPool.Accounts`). The tasks that were taken from the
queue, followed by those that are still in it, are the accepted ones in the order in which they were
accepted; a task has one place out of queue, hands of one worker, and finished; and a worker that
left did so when the pool was stopping and the queue was empty. Every step keeps the accounts, so
that they hold in every state that a run from a new pool reaches, whatever the callers do and
whenever the shutdown comes (`tasks_kept`).

When all workers have left, nothing changes any more: a stopping pool accepts nothing, and the
accounts say of every accepted task that it is finished.
-/

namespace Keyspace

namespace WorkerPool

/-- The task that an event accepts. -/
def Event.acceptance? : Event → Option TaskId
  | .accepted id => some id
  | _ => none

/-- The task that an event takes from the queue. -/
def Event.taking? : Event → Option TaskId
  | .taken id => some id
  | _ => none

/-- The task whose body an event begins. -/
def Event.beginning? : Event → Option TaskId
  | .began id => some id
  | _ => none

/-- The tasks that were accepted, in order. -/
def acceptedIn (trace : List Event) : List TaskId :=
  trace.filterMap Event.acceptance?

/-- The tasks that were taken from the queue, in order. -/
def takenIn (trace : List Event) : List TaskId :=
  trace.filterMap Event.taking?

/-- The tasks whose bodies began, in order. -/
def begunIn (trace : List Event) : List TaskId :=
  trace.filterMap Event.beginning?

theorem filterMap_snoc (f : Event → Option TaskId) (past : List Event) (e : Event) :
    (past ++ [e]).filterMap f = past.filterMap f ++ (f e).toList := by
  rw [List.filterMap_append, List.filterMap_cons, List.filterMap_nil]
  cases f e <;> rfl

theorem acceptedIn_snoc (past : List Event) (e : Event) :
    acceptedIn (past ++ [e]) = acceptedIn past ++ e.acceptance?.toList :=
  filterMap_snoc ..

theorem takenIn_snoc (past : List Event) (e : Event) :
    takenIn (past ++ [e]) = takenIn past ++ e.taking?.toList :=
  filterMap_snoc ..

theorem begunIn_snoc (past : List Event) (e : Event) :
    begunIn (past ++ [e]) = begunIn past ++ e.beginning?.toList :=
  filterMap_snoc ..

theorem stopped_mem_snoc {past : List Event} {e : Event} (he : e ≠ .stopped) :
    .stopped ∈ past ++ [e] ↔ .stopped ∈ past := by
  simp [he.symm]

variable {α : Type} {start p p' : WorkerPool α} {past : List Event} {e : Event} {id : TaskId}
  {worker : Nat}

/-- **The accounts of a pool** that began as `start`. -/
structure Accounts (start : WorkerPool α) (past : List Event) (p : WorkerPool α) : Prop where
  capacity : p.capacity = start.capacity
  staff : p.workers.length = start.workers.length
  room : p.queue.length ≤ p.capacity
  accepted : acceptedIn past = List.range p.tasks.length
  ordered : takenIn past ++ p.queue = List.range p.tasks.length
  started : begunIn past = p.begun
  once : p.begun.Nodup
  queued : ∀ id, p.place? id = some .queued ↔ id ∈ p.queue
  held : ∀ id, p.place? id = some .claimed ∨ p.place? id = some .running ↔
    ∃ worker, p.Holds worker id
  alone : ∀ v w id, p.Holds v id → p.Holds w id → v = w
  begun : ∀ id ∈ p.begun, p.place? id = some .running ∨ p.place? id = some .finished
  gone : .gone ∈ p.workers → p.stopping = true ∧ p.queue = []
  stopped : p.stopping = true ↔ .stopped ∈ past

/-- A new pool has idle workers and no tasks. -/
theorem Accounts.created {workers capacity : Nat} (h : create workers capacity = .ok p) :
    Accounts p [] p := by
  obtain ⟨-, -, rfl⟩ := create_eq_ok_iff.mp h
  have hfree : ∀ (worker : Nat) (w : Worker),
      (List.replicate workers Worker.idle)[worker]? = some w → w = .idle := by
    intro worker w hw
    exact (List.mem_replicate.mp (List.mem_of_getElem? hw)).2
  exact {
    capacity := rfl
    staff := rfl
    room := Nat.zero_le _
    accepted := rfl
    ordered := rfl
    started := rfl
    once := List.nodup_nil
    queued id := by simp [place?]
    held id := by
      refine iff_of_false (by simp [place?]) ?_
      rintro ⟨worker, hworker⟩
      cases hfree worker _ hworker
    alone v w id hv := by cases hfree v _ hv
    begun id hid := by cases hid
    gone hgone := by cases (List.mem_replicate.mp hgone).2
    stopped := by simp }

/-! ## Preservation -/

/-- A step that leaves the pool the same and takes no task any further keeps the accounts. -/
theorem Accounts.same (h : Accounts start past p) (hsame : Same p p')
    (hstopping : p'.stopping = true ↔ .stopped ∈ past ++ [e])
    (hquiet : e.acceptance? = none ∧ e.taking? = none ∧ e.beginning? = none) :
    Accounts start (past ++ [e]) p' := by
  have hholds : ∀ worker id, p'.Holds worker id ↔ p.Holds worker id := fun worker id => by
    rw [Holds, Holds, hsame.workers]
  exact {
    capacity := hsame.capacity.trans h.capacity
    staff := by rw [hsame.workers, h.staff]
    room := by rw [hsame.queue, hsame.capacity]; exact h.room
    accepted := by
      rw [acceptedIn_snoc, hquiet.1, Option.toList_none, List.append_nil, hsame.count]
      exact h.accepted
    ordered := by
      rw [takenIn_snoc, hquiet.2.1, Option.toList_none, List.append_nil, hsame.count,
        hsame.queue]
      exact h.ordered
    started := by
      rw [begunIn_snoc, hquiet.2.2, Option.toList_none, List.append_nil, hsame.begun]
      exact h.started
    once := by rw [hsame.begun]; exact h.once
    queued id := by rw [hsame.place, hsame.queue, h.queued]
    held id := by simp only [hsame.place, hholds, h.held]
    alone v w id hv hw := h.alone v w id ((hholds v id).mp hv) ((hholds w id).mp hw)
    begun id hid := by
      rw [hsame.place]
      exact h.begun id (hsame.begun ▸ hid)
    gone hgone := by
      obtain ⟨hstop, hempty⟩ := h.gone (hsame.workers ▸ hgone)
      refine ⟨hstopping.mpr ?_, hsame.queue.trans hempty⟩
      exact List.mem_append_left _ (h.stopped.mp hstop)
    stopped := hstopping }

/-- The queue lists no task twice. -/
theorem Accounts.nodup_queue (h : Accounts start past p) : p.queue.Nodup :=
  (List.nodup_append.mp (h.ordered ▸ List.nodup_range)).2.1

/-- A task with a place was accepted. -/
theorem lt_of_place? {place : Place} (h : p.place? id = some place) : id < p.tasks.length :=
  (p.place?_isSome_iff id).mp (Option.isSome_iff_exists.mpr ⟨place, h⟩)

/-! ### Places -/

/-- **A task has one place**: it is in the queue, in the hands of one worker, or behind that. -/
structure Located (p : WorkerPool α) : Prop where
  queued : ∀ id, p.place? id = some .queued ↔ id ∈ p.queue
  held : ∀ id, p.place? id = some .claimed ∨ p.place? id = some .running ↔
    ∃ worker, p.Holds worker id
  alone : ∀ v w id, p.Holds v id → p.Holds w id → v = w
  begun : ∀ id ∈ p.begun, p.place? id = some .running ∨ p.place? id = some .finished

theorem Accounts.located (h : Accounts start past p) : p.Located :=
  ⟨h.queued, h.held, h.alone, h.begun⟩

/-- A task that is accepted is in the queue, and the others are where they were. -/
theorem place?_enqueue (p : WorkerPool α) (work : Work α) (j : TaskId) :
    (p.enqueue work).place? j = if j = p.tasks.length then some .queued else p.place? j := by
  rw [place?, place?, enqueue, List.getElem?_append]
  split
  · next hlt => rw [if_neg (Nat.ne_of_lt hlt)]
  · next hge =>
    split
    · next heq => simp [heq, TaskState.place]
    · next hne =>
      have hafter : 1 ≤ j - p.tasks.length :=
        Nat.sub_pos_of_lt (Nat.lt_of_le_of_ne (Nat.le_of_not_lt hge) (Ne.symm hne))
      have hlast : ([{ work }] : List (Task α))[j - p.tasks.length]? = none :=
        List.getElem?_eq_none hafter
      rw [hlast, List.getElem?_eq_none (Nat.le_of_not_lt hge)]

theorem Located.enqueue (h : p.Located) (work : Work α) : (p.enqueue work).Located := by
  have hnone : p.place? p.tasks.length = none := by
    rw [place?, List.getElem?_eq_none (Nat.le_refl _)]
    rfl
  refine ⟨fun j => ?_, fun j => ?_, h.alone, fun j hj => ?_⟩
  · have hqueue : (p.enqueue work).queue = p.queue ++ [p.tasks.length] := rfl
    rw [place?_enqueue, hqueue, List.mem_append, List.mem_singleton, ← h.queued]
    split
    · next heq => simp [heq]
    · next hne => simp [hne]
  · rw [place?_enqueue]
    change _ ↔ ∃ worker, p.Holds worker j
    rw [← h.held]
    split
    · next heq => simp [heq, hnone]
    · rfl
  · have hold := h.begun j hj
    rw [place?_enqueue, if_neg]
    · exact hold
    · rintro rfl
      simp [hnone] at hold

/-- What a worker that is there does next is seen of that worker alone. -/
theorem holds_set {w : Worker} (hw : p.workers[worker]? = some w) (x : Worker) (v : Nat) :
    { p with workers := p.workers.set worker x }.Holds v id ↔
      if v = worker then x = .busy id else p.Holds v id := by
  have hlt : worker < p.workers.length := (List.getElem?_eq_some_iff.mp hw).1
  rw [Holds, Holds]
  split
  · next heq =>
    rw [heq, List.getElem?_set_self hlt, Option.some.injEq]
  · next hne => rw [List.getElem?_set_ne (Ne.symm hne)]

/-- An idle worker that takes a task holds it, and the others hold what they held. -/
theorem holds_busy (hidle : p.workers[worker]? = some .idle) (v : Nat) (j : TaskId) :
    { p with workers := p.workers.set worker (.busy id) }.Holds v j ↔
      (v = worker ∧ j = id) ∨ p.Holds v j := by
  rw [holds_set hidle, Worker.busy.injEq]
  split
  · next heq =>
    have hfree : ¬ p.Holds v j := fun hj => by
      rw [Holds, heq, hidle] at hj
      cases hj
    simp [heq, heq ▸ hfree, eq_comm]
  · next hne => simp [hne]

/-- A worker that is done with a task holds none, and no other task is concerned. -/
theorem Located.holds_idle (h : p.Located) (hholds : p.Holds worker id) (v : Nat) (j : TaskId) :
    { p with workers := p.workers.set worker .idle }.Holds v j ↔ j ≠ id ∧ p.Holds v j := by
  rw [holds_set hholds]
  split
  · next heq =>
    subst heq
    refine iff_of_false nofun ?_
    rintro ⟨hne, hj⟩
    rw [Holds, hholds] at hj
    cases hj
    exact hne rfl
  · next hne =>
    refine ⟨fun hj => ⟨?_, hj⟩, And.right⟩
    rintro rfl
    exact hne (h.alone v worker j hj hholds)

theorem Located.take (h : p.Located) {rest : List TaskId}
    (hidle : p.workers[worker]? = some .idle) (hfront : p.queue = id :: rest) (hid : id ∉ rest) :
    (setState { p with queue := rest, workers := p.workers.set worker (.busy id) } id
      .claimed).Located := by
  have hqueued : p.place? id = some .queued := (h.queued id).mpr (by simp [hfront])
  let q : WorkerPool α := { p with queue := rest, workers := p.workers.set worker (.busy id) }
  have hplace : ∀ j, (q.setState id .claimed).place? j =
      if id = j then some .claimed else p.place? j :=
    fun j => place?_setState (p := q) (lt_of_place? hqueued) j .claimed
  have hholds : ∀ v j, (q.setState id .claimed).Holds v j ↔
      (v = worker ∧ j = id) ∨ p.Holds v j := holds_busy hidle
  have hnot : ∀ v, ¬ p.Holds v id := fun v hv => by
    have hplace := (h.held id).mpr ⟨v, hv⟩
    simp [hqueued] at hplace
  refine ⟨fun j => ?_, fun j => ?_, fun v w j hv hw => ?_, fun j hj => ?_⟩
  · rw [hplace]
    change _ ↔ j ∈ rest
    split
    · next heq => exact iff_of_false (by simp) (heq ▸ hid)
    · next hne =>
      rw [h.queued, hfront]
      simp [Ne.symm hne]
  · rw [hplace, exists_congr fun v => hholds v j]
    split
    · next heq => exact iff_of_true (.inl rfl) ⟨worker, .inl ⟨rfl, heq.symm⟩⟩
    · next hne =>
      rw [h.held]
      exact exists_congr fun v => by simp [Ne.symm hne]
  · rcases (hholds v j).mp hv with ⟨hfirst, rfl⟩ | hv'
    · rcases (hholds w j).mp hw with ⟨hsecond, -⟩ | hw'
      · exact hfirst.trans hsecond.symm
      · exact absurd hw' (hnot w)
    · rcases (hholds w j).mp hw with ⟨-, rfl⟩ | hw'
      · exact absurd hv' (hnot v)
      · exact h.alone v w j hv' hw'
  · have hold := h.begun j hj
    rw [hplace, if_neg]
    · exact hold
    · rintro rfl
      simp [hqueued] at hold

theorem Located.begin (h : p.Located) (hclaimed : p.place? id = some .claimed) :
    (setState { p with begun := p.begun ++ [id] } id .running).Located := by
  let q : WorkerPool α := { p with begun := p.begun ++ [id] }
  have hplace : ∀ j, (q.setState id .running).place? j =
      if id = j then some .running else p.place? j :=
    fun j => place?_setState (p := q) (lt_of_place? hclaimed) j .running
  refine ⟨fun j => ?_, fun j => ?_, h.alone, fun j hj => ?_⟩
  · rw [hplace]
    change _ ↔ j ∈ p.queue
    rw [← h.queued]
    split
    · next heq => simp [← heq, hclaimed]
    · rfl
  · rw [hplace]
    change _ ↔ ∃ worker, p.Holds worker j
    rw [← h.held]
    split
    · next heq => simp [← heq, hclaimed]
    · rfl
  · rw [hplace]
    split
    · exact .inl rfl
    · next hne =>
      rcases List.mem_append.mp hj with hj | hj
      · exact h.begun j hj
      · exact absurd (List.mem_singleton.mp hj).symm hne

theorem Located.release (h : p.Located) (hholds : p.Holds worker id) (outcome : Outcome α) :
    (setState { p with workers := p.workers.set worker .idle } id (.finished outcome)).Located := by
  have hheld := (h.held id).mpr ⟨worker, hholds⟩
  have hlt : id < p.tasks.length := hheld.elim lt_of_place? lt_of_place?
  let q : WorkerPool α := { p with workers := p.workers.set worker .idle }
  have hplace : ∀ j, (q.setState id (.finished outcome)).place? j =
      if id = j then some .finished else p.place? j :=
    fun j => place?_setState (p := q) hlt j (.finished outcome)
  have hfreed : ∀ v j, (q.setState id (.finished outcome)).Holds v j ↔ j ≠ id ∧ p.Holds v j :=
    h.holds_idle hholds
  refine ⟨fun j => ?_, fun j => ?_, fun v w j hv hw => ?_, fun j hj => ?_⟩
  · rw [hplace]
    change _ ↔ j ∈ p.queue
    rw [← h.queued]
    split
    · next heq =>
      subst heq
      refine iff_of_false (by simp) fun hqueued => ?_
      simp [hqueued] at hheld
    · rfl
  · rw [hplace, exists_congr fun v => hfreed v j]
    split
    · next heq => simp [heq]
    · next hne => rw [h.held, exists_congr fun v => and_iff_right (Ne.symm hne)]
  · exact h.alone v w j ((hfreed v j).mp hv).2 ((hfreed w j).mp hw).2
  · rw [hplace]
    split
    · exact .inr rfl
    · exact h.begun j hj

/-! ### Accounts -/

theorem Accounts.accept (h : Accounts start past p) (work : Work α) (hrunning : p.stopping = false)
    (hroom : p.queue.length < p.capacity) :
    Accounts start (past ++ [.accepted p.tasks.length]) (p.enqueue work) := by
  have hcount : (p.enqueue work).tasks.length = p.tasks.length + 1 := List.length_append
  have hqueue : (p.enqueue work).queue = p.queue ++ [p.tasks.length] := rfl
  have hlocated := h.located.enqueue work
  exact {
    capacity := h.capacity
    staff := h.staff
    room := by
      rw [hqueue, List.length_append]
      exact hroom
    accepted := by
      rw [acceptedIn_snoc, h.accepted, hcount, List.range_succ]
      rfl
    ordered := by
      rw [takenIn_snoc, hqueue, hcount, List.range_succ, ← h.ordered]
      simp [Event.taking?]
    started := by
      rw [begunIn_snoc, h.started]
      exact List.append_nil _
    once := h.once
    queued := hlocated.queued
    held := hlocated.held
    alone := hlocated.alone
    begun := hlocated.begun
    gone hgone := by
      have hstop := (h.gone hgone).1
      rw [hrunning] at hstop
      cases hstop
    stopped := by
      rw [stopped_mem_snoc Event.noConfusion]
      exact h.stopped }

/-- An idle worker takes the first task of the queue into its hands. -/
theorem Accounts.take (h : Accounts start past p) {rest : List TaskId}
    (hidle : p.workers[worker]? = some .idle) (hfront : p.queue = id :: rest) :
    Accounts start (past ++ [.taken id])
      ({ p with queue := rest, workers := p.workers.set worker (.busy id) }.setState id
        .claimed) := by
  have hnodup : id ∉ rest ∧ rest.Nodup := List.nodup_cons.mp (hfront ▸ h.nodup_queue)
  have hlocated := h.located.take hidle hfront hnodup.1
  exact {
    capacity := h.capacity
    staff := List.length_set.trans h.staff
    room := by
      have hroom := h.room
      rw [hfront, List.length_cons] at hroom
      exact Nat.le_of_succ_le hroom
    accepted := by
      rw [acceptedIn_snoc, h.accepted]
      simp [setState, change, Event.acceptance?]
    ordered := by
      have hordered := h.ordered
      rw [hfront] at hordered
      rw [takenIn_snoc]
      simpa [setState, change, Event.taking?] using hordered
    started := by
      rw [begunIn_snoc, h.started]
      exact List.append_nil _
    once := h.once
    queued := hlocated.queued
    held := hlocated.held
    alone := hlocated.alone
    begun := hlocated.begun
    gone hgone := by
      rcases List.mem_or_eq_of_mem_set hgone with hold | hnew
      · have hempty := (h.gone hold).2
        rw [hfront] at hempty
        cases hempty
      · cases hnew
    stopped := by
      rw [stopped_mem_snoc Event.noConfusion]
      exact h.stopped }

/-- A worker begins the body of the task that it took. -/
theorem Accounts.begin (h : Accounts start past p) (hclaimed : p.place? id = some .claimed) :
    Accounts start (past ++ [.began id])
      ({ p with begun := p.begun ++ [id] }.setState id .running) := by
  have hlocated := h.located.begin hclaimed
  have hnew : id ∉ p.begun := fun hid => by
    have hold := h.begun id hid
    simp [hclaimed] at hold
  exact {
    capacity := h.capacity
    staff := h.staff
    room := h.room
    accepted := by
      rw [acceptedIn_snoc, h.accepted]
      simp [setState, change, Event.acceptance?]
    ordered := by
      rw [takenIn_snoc]
      simpa [setState, change, Event.taking?] using h.ordered
    started := by
      rw [begunIn_snoc, h.started]
      rfl
    once := by
      refine List.nodup_append.mpr ⟨h.once, by simp, fun j hj k hk => ?_⟩
      rw [List.mem_singleton.mp hk]
      rintro rfl
      exact hnew hj
    queued := hlocated.queued
    held := hlocated.held
    alone := hlocated.alone
    begun := hlocated.begun
    gone := h.gone
    stopped := by
      rw [stopped_mem_snoc Event.noConfusion]
      exact h.stopped }

/-- A worker is done with the task in its hands, whether its body ran or was passed over. -/
theorem Accounts.release (h : Accounts start past p) (hholds : p.Holds worker id)
    (outcome : Outcome α)
    (hquiet : e.acceptance? = none ∧ e.taking? = none ∧ e.beginning? = none)
    (he : e ≠ .stopped) :
    Accounts start (past ++ [e])
      ({ p with workers := p.workers.set worker .idle }.setState id (.finished outcome)) := by
  have hlocated := h.located.release hholds outcome
  exact {
    capacity := h.capacity
    staff := List.length_set.trans h.staff
    room := h.room
    accepted := by
      rw [acceptedIn_snoc, hquiet.1, h.accepted]
      simp [setState, change]
    ordered := by
      rw [takenIn_snoc, hquiet.2.1]
      simpa [setState, change] using h.ordered
    started := by
      rw [begunIn_snoc, hquiet.2.2, h.started]
      exact List.append_nil _
    once := h.once
    queued := hlocated.queued
    held := hlocated.held
    alone := hlocated.alone
    begun := hlocated.begun
    gone hgone := by
      rcases List.mem_or_eq_of_mem_set hgone with hold | hnew
      · exact h.gone hold
      · cases hnew
    stopped := by
      rw [stopped_mem_snoc he]
      exact h.stopped }

/-- An idle worker leaves a pool that is stopping and has an empty queue. -/
theorem Accounts.leave (h : Accounts start past p) (hidle : p.workers[worker]? = some .idle)
    (hempty : p.queue = []) (hstopping : p.stopping = true) :
    Accounts start (past ++ [.left worker]) { p with workers := p.workers.set worker .gone } := by
  let q : WorkerPool α := { p with workers := p.workers.set worker .gone }
  have hholds : ∀ v j, q.Holds v j ↔ p.Holds v j := by
    intro v j
    rw [holds_set hidle]
    split
    · next heq => simp [heq, Holds, hidle]
    · rfl
  exact {
    capacity := h.capacity
    staff := List.length_set.trans h.staff
    room := h.room
    accepted := by
      rw [acceptedIn_snoc, h.accepted]
      exact List.append_nil _
    ordered := by
      rw [takenIn_snoc]
      simpa [Event.taking?] using h.ordered
    started := by
      rw [begunIn_snoc, h.started]
      exact List.append_nil _
    once := h.once
    queued := h.queued
    held j := (h.held j).trans (exists_congr fun v => (hholds v j).symm)
    alone v w j hv hw := h.alone v w j ((hholds v j).mp hv) ((hholds w j).mp hw)
    begun := h.begun
    gone _ := ⟨hstopping, hempty⟩
    stopped := by
      rw [stopped_mem_snoc Event.noConfusion]
      exact h.stopped }

theorem place?_of_state {t : Task α} (ht : p.tasks[id]? = some t) :
    p.place? id = some t.state.place := by
  rw [place?, ht]
  rfl

/-- **Every step keeps the accounts.** -/
theorem Accounts.step (h : Accounts start past p) (htrans : Transition p e p') :
    Accounts start (past ++ [e]) p' := by
  cases htrans with
  | accepted work running room => exact h.accept work running room
  | refused _ =>
    exact h.same (.refl p)
      (by rw [stopped_mem_snoc Event.noConfusion]; exact h.stopped) ⟨rfl, rfl, rfl⟩
  | cancelled id =>
    exact h.same (.change p id fun _ => rfl)
      (by rw [stopped_mem_snoc Event.noConfusion]; exact h.stopped) ⟨rfl, rfl, rfl⟩
  | awaited id =>
    refine h.same (.await p id) ?_ ⟨rfl, rfl, rfl⟩
    rw [stopped_mem_snoc Event.noConfusion, stopping_await]
    exact h.stopped
  | opened g =>
    exact h.same ⟨rfl, rfl, rfl, rfl, rfl, fun _ => rfl⟩
      (by rw [stopped_mem_snoc Event.noConfusion]; exact h.stopped) ⟨rfl, rfl, rfl⟩
  | stopped => exact h.same ⟨rfl, rfl, rfl, rfl, rfl, fun _ => rfl⟩ (by simp [stop]) ⟨rfl, rfl, rfl⟩
  | returned hreturn =>
    obtain ⟨s, -, -, -, rfl⟩ := eq_of_return? hreturn
    exact h.same ⟨rfl, rfl, rfl, rfl, rfl, fun _ => rfl⟩
      (by rw [stopped_mem_snoc Event.noConfusion]; exact h.stopped) ⟨rfl, rfl, rfl⟩
  | taken idle front => exact h.take idle front
  | began _ task claimed _ =>
    exact h.begin (by rw [place?_of_state task, claimed]; rfl)
  | skipped holds _ _ _ => exact h.release holds _ ⟨rfl, rfl, rfl⟩ Event.noConfusion
  | finished holds _ _ _ => exact h.release holds _ ⟨rfl, rfl, rfl⟩ Event.noConfusion
  | left idle empty stopping => exact h.leave idle empty stopping

/-- **Every run keeps the accounts.** -/
theorem Accounts.run (h : Accounts start past p) {steps : List (Step α)}
    (hrun : (machine α).run? p steps = some p') :
    Accounts start (past ++ (machine α).trace p steps) p' :=
  Machine.run_induction_from (fun _ _ _ _ h hstep => h.step (transition_of_step? hstep)) h hrun

/-! ## The end of a pool -/

/-- **A closed pool**: it is stopping, and all workers have left. -/
structure Closed (p : WorkerPool α) : Prop where
  stopping : p.stopping = true
  gone : ∀ w ∈ p.workers, w = .gone

/-- In a pool whose workers have left, nobody is idle or has a task. -/
theorem Closed.not_idle (h : p.Closed) : p.workers[worker]? ≠ some .idle := fun hidle => by
  cases h.gone _ (List.mem_of_getElem? hidle)

theorem Closed.not_holds (h : p.Closed) : ¬ p.Holds worker id := fun hholds => by
  cases h.gone _ (List.mem_of_getElem? hholds)

/-- **A closed pool stays closed** and accepts nothing. -/
theorem Closed.step (h : p.Closed) (htrans : Transition p e p') :
    p'.Closed ∧ e.acceptance? = none := by
  cases htrans with
  | accepted _ running _ => exact absurd h.stopping (Bool.eq_false_iff.mp running)
  | refused _ => exact ⟨h, rfl⟩
  | cancelled id => exact ⟨⟨h.stopping, h.gone⟩, rfl⟩
  | awaited id =>
    refine ⟨⟨by rw [stopping_await]; exact h.stopping, ?_⟩, rfl⟩
    rw [(Same.await p id).workers]
    exact h.gone
  | opened g => exact ⟨⟨h.stopping, h.gone⟩, rfl⟩
  | stopped => exact ⟨⟨rfl, h.gone⟩, rfl⟩
  | returned hreturn =>
    obtain ⟨s, -, -, -, rfl⟩ := eq_of_return? hreturn
    exact ⟨⟨h.stopping, h.gone⟩, rfl⟩
  | taken idle _ => exact absurd idle h.not_idle
  | began holds _ _ _ => exact absurd holds h.not_holds
  | skipped holds _ _ _ => exact absurd holds h.not_holds
  | finished holds _ _ _ => exact absurd holds h.not_holds
  | left idle _ _ => exact absurd idle h.not_idle

theorem Closed.run (h : p.Closed) {steps : List (Step α)}
    (hrun : (machine α).run? p steps = some p') :
    p'.Closed ∧ acceptedIn ((machine α).trace p steps) = [] := by
  refine Machine.run_induction (P := fun past p => p.Closed ∧ acceptedIn past = []) ?_ ⟨h, rfl⟩ hrun
  rintro past p a p' ⟨hclosed, hnone⟩ hstep
  obtain ⟨hclosed', he⟩ := hclosed.step (transition_of_step? hstep)
  refine ⟨hclosed', ?_⟩
  change acceptedIn (past ++ [p.event a]) = []
  rw [acceptedIn_snoc, hnone, he]
  rfl

/-- A worker leaves a pool only when it is stopping and its queue is empty. -/
theorem Transition.of_gone (htrans : Transition p e p') (hbefore : p.workers[worker]? ≠ some .gone)
    (hafter : p'.workers[worker]? = some .gone) : p.stopping = true ∧ p.queue = [] := by
  -- only the worker of the step can have become another, and only by leaving is it gone
  have hset : ∀ {v : Nat} {w : Worker}, w ≠ .gone →
      (p.workers.set v w)[worker]? ≠ some .gone := by
    intro v w hw hgone
    by_cases hv : v = worker
    · subst hv
      have hmem := List.mem_of_getElem? hgone
      rw [List.getElem?_set] at hgone
      simp only [if_true] at hgone
      split at hgone
      · cases hgone
        exact hw rfl
      · cases hgone
    · rw [List.getElem?_set_ne hv] at hgone
      exact hbefore hgone
  cases htrans with
  | left _ empty stopping => exact ⟨stopping, empty⟩
  | taken _ _ => exact absurd hafter (hset fun h => by cases h)
  | skipped _ _ _ _ => exact absurd hafter (hset fun h => by cases h)
  | finished _ _ _ _ => exact absurd hafter (hset fun h => by cases h)
  | awaited id =>
    rw [(Same.await p id).workers] at hafter
    exact absurd hafter hbefore
  | returned hreturn =>
    obtain ⟨s, -, -, -, rfl⟩ := eq_of_return? hreturn
    exact absurd hafter hbefore
  | accepted _ _ _ | refused _ | cancelled _ | opened _ | stopped | began _ _ _ _ =>
    exact absurd hafter hbefore

/-! ## What callers can depend on -/

/-- The task has its outcome. -/
def Finished (p : WorkerPool α) (id : TaskId) : Prop :=
  ∃ t outcome, p.tasks[id]? = some t ∧ t.state = .finished outcome

/-- **Every accepted task is kept** through a trace that leads to a pool. -/
structure KeepsTasks (capacity : Nat) (trace : List Event) (p : WorkerPool α) : Prop where
  bounded : p.queue.length ≤ capacity
  /-- A submission is refused exactly by a pool that was stopped or whose queue is full. -/
  refuses : ∀ work, (∃ f, p.submit work = .error f) ↔
    .stopped ∈ trace ∨ p.queue.length = capacity
  unchanged : ∀ work f, p.submit work = .error f → p.step? (.submit work) = some p
  /-- An accepted task is in one place: in the queue, in the hands of a worker, or finished. -/
  placed : ∀ id ∈ acceptedIn trace,
    (id ∈ p.queue ∧ (∀ worker, ¬ p.Holds worker id) ∧ ¬ p.Finished id) ∨
    (id ∉ p.queue ∧ (∃ worker, p.Holds worker id ∧ ∀ v, p.Holds v id → v = worker) ∧
      ¬ p.Finished id) ∨
    (id ∉ p.queue ∧ (∀ worker, ¬ p.Holds worker id) ∧ p.Finished id)
  once : (begunIn trace).Nodup ∧ ∀ id ∈ begunIn trace, id ∈ acceptedIn trace
  /-- Those taken from the queue and those still in it are the accepted ones, in their order. -/
  ordered : takenIn trace ++ p.queue = acceptedIn trace ∧ (acceptedIn trace).Nodup
  exits : ∀ (a : Step α) (p' : WorkerPool α) (worker : Nat), p.step? a = some p' →
    p.workers[worker]? ≠ some .gone → p'.workers[worker]? = some .gone →
    .stopped ∈ trace ∧ p.queue = []
  /-- When all workers have left, the queue stays empty and every accepted task is finished. -/
  drained : (∀ w ∈ p.workers, w = .gone) → ∀ rest p', (machine α).run? p rest = some p' →
    p'.queue = [] ∧ acceptedIn (trace ++ (machine α).trace p rest) = acceptedIn trace ∧
      ∀ id ∈ acceptedIn trace, p'.Finished id

theorem finished_iff : p.Finished id ↔ p.place? id = some .finished := by
  rw [place?, Option.map_eq_some_iff]
  constructor
  · rintro ⟨t, outcome, ht, hstate⟩
    exact ⟨t, ht, by rw [hstate]; rfl⟩
  · rintro ⟨t, ht, hplace⟩
    cases hstate : t.state with
    | finished outcome => exact ⟨t, outcome, ht, hstate⟩
    | queued | claimed | running =>
      rw [hstate] at hplace
      cases hplace

/-- An accepted task has one place. -/
theorem Accounts.placed (h : Accounts start past p) (hid : id ∈ acceptedIn past) :
    (id ∈ p.queue ∧ (∀ worker, ¬ p.Holds worker id) ∧ ¬ p.Finished id) ∨
    (id ∉ p.queue ∧ (∃ worker, p.Holds worker id ∧ ∀ v, p.Holds v id → v = worker) ∧
      ¬ p.Finished id) ∨
    (id ∉ p.queue ∧ (∀ worker, ¬ p.Holds worker id) ∧ p.Finished id) := by
  rw [h.accepted, List.mem_range] at hid
  obtain ⟨place, hplace⟩ := Option.isSome_iff_exists.mp ((p.place?_isSome_iff id).mpr hid)
  have hqueued := h.queued id
  have hheld := h.held id
  rw [finished_iff, ← hqueued, ← not_exists, ← hheld, hplace]
  have hworker : (place = .claimed ∨ place = .running) →
      ∃ worker, p.Holds worker id ∧ ∀ v, p.Holds v id → v = worker := by
    intro hinhand
    obtain ⟨worker, hworker⟩ := hheld.mp (by rw [hplace]; simpa using hinhand)
    exact ⟨worker, hworker, fun v hv => h.alone v worker id hv hworker⟩
  cases place with
  | queued => exact .inl (by simp)
  | claimed => exact .inr (.inl ⟨by simp, hworker (.inl rfl), by simp⟩)
  | running => exact .inr (.inl ⟨by simp, hworker (.inr rfl), by simp⟩)
  | finished => exact .inr (.inr (by simp))

/-- In a pool whose workers have left, every accepted task is finished. -/
theorem Accounts.finished_of_closed (h : Accounts start past p) (hclosed : p.Closed)
    (hempty : p.queue = []) (hid : id ∈ acceptedIn past) : p.Finished id := by
  rcases h.placed hid with ⟨hqueued, -⟩ | ⟨-, ⟨worker, hworker, -⟩, -⟩ | ⟨-, -, hfinished⟩
  · rw [hempty] at hqueued
    cases hqueued
  · exact absurd hworker hclosed.not_holds
  · exact hfinished

/-- A pool that had workers and has lost them all is closed, and its queue is empty. -/
theorem Accounts.closed (h : Accounts start past p) (hstaff : start.workers ≠ [])
    (hgone : ∀ w ∈ p.workers, w = .gone) : p.Closed ∧ p.queue = [] := by
  have hsome : p.workers ≠ [] := by
    rw [← List.length_pos_iff, h.staff, List.length_pos_iff]
    exact hstaff
  obtain ⟨w, hw⟩ := List.exists_mem_of_ne_nil _ hsome
  obtain ⟨hstopping, hempty⟩ := h.gone (hgone w hw ▸ hw)
  exact ⟨⟨hstopping, hgone⟩, hempty⟩

/-- A pool whose accounts are kept keeps its tasks. -/
theorem Accounts.keepsTasks {steps : List (Step α)}
    (h : Accounts start ((machine α).trace start steps) p) (hstaff : start.workers ≠ []) :
    p.KeepsTasks start.capacity ((machine α).trace start steps) where
  bounded := h.capacity ▸ h.room
  refuses work := by
    rw [submit_refused_iff, h.stopped, ← h.capacity]
    exact or_congr_right
      ⟨fun hge => Nat.le_antisymm h.room hge, fun heq => Nat.le_of_eq heq.symm⟩
  unchanged work f hf := by simp only [step?, hf]
  placed id hid := h.placed hid
  once := by
    refine ⟨h.started ▸ h.once, fun id hid => ?_⟩
    rw [h.accepted, List.mem_range]
    rcases h.begun id (h.started ▸ hid) with hplace | hplace
    · exact lt_of_place? hplace
    · exact lt_of_place? hplace
  ordered := ⟨h.ordered.trans h.accepted.symm, h.accepted ▸ List.nodup_range⟩
  exits a p' worker hstep hbefore hafter := by
    obtain ⟨hstop, hempty⟩ := (transition_of_step? hstep).of_gone hbefore hafter
    exact ⟨h.stopped.mp hstop, hempty⟩
  drained hgone rest p' hrest := by
    obtain ⟨hclosed, -⟩ := h.closed hstaff hgone
    obtain ⟨hclosed', hnone⟩ := hclosed.run hrest
    have h' := h.run hrest
    have hempty := (h'.closed hstaff hclosed'.gone).2
    have hsame : acceptedIn ((machine α).trace start steps ++ (machine α).trace p rest) =
        acceptedIn ((machine α).trace start steps) := by
      rw [acceptedIn, List.filterMap_append]
      exact (congrArg (_ ++ ·) hnone).trans (List.append_nil _)
    exact ⟨hempty, hsame, fun id hid => h'.finished_of_closed hclosed' hempty (hsame ▸ hid)⟩

/-- **A pool of workers with room in its queue can be made, and it keeps its tasks** in every run.
-/
theorem tasks_kept {workers capacity : Nat} (hworkers : 0 < workers) (hcapacity : 0 < capacity) :
    ∃ start : WorkerPool α, create workers capacity = .ok start ∧
      start.workers.length = workers ∧
      ∀ steps p, (machine α).run? start steps = some p →
        p.KeepsTasks capacity ((machine α).trace start steps) := by
  have hcreate : create workers capacity = .ok
      { capacity, workers := List.replicate workers .idle : WorkerPool α } :=
    create_eq_ok_iff.mpr ⟨Nat.ne_of_gt hworkers, Nat.ne_of_gt hcapacity, rfl⟩
  refine ⟨_, hcreate, List.length_replicate, fun steps p hrun => ?_⟩
  exact ((Accounts.created hcreate).run hrun).keepsTasks (workers_ne_nil_of_create hcreate)

/-- A task that gives a number. -/
def counted (n : Int) : Work Int where
  outcome := .ok n

/-- Two idle workers and room for two tasks. -/
def pair : WorkerPool Int where
  capacity := 2
  workers := [.idle, .idle]

/-- A submission to the full queue is refused; a shutdown begins while two tasks wait, of which one
is cancelled; and the workers leave when both are done. -/
def drainingSteps : List (Step Int) :=
  [.submit (counted 1), .submit (counted 2), .submit (counted 0), .take 0, .submit (counted 3),
    .take 1, .submit (counted 4), .stop, .submit (counted 0), .begin 1, .finish 1, .begin 0,
    .take 1, .cancel 2, .begin 1, .take 1, .begin 1, .finish 1, .finish 0, .leave 0, .leave 1]

/-- The task that was cancelled in the queue was never begun. -/
theorem draining_kept : ∃ p, create 2 2 = .ok pair ∧
    (machine Int).run? pair drainingSteps = some p ∧
    acceptedIn ((machine Int).trace pair drainingSteps) = [0, 1, 2, 3] ∧
    begunIn ((machine Int).trace pair drainingSteps) = [1, 0, 3] ∧
    (∀ w ∈ p.workers, w = .gone) ∧
    p.KeepsTasks 2 ((machine Int).trace pair drainingSteps) := by
  obtain ⟨start, hcreate, -, hkept⟩ : ∃ start : WorkerPool Int, create 2 2 = .ok start ∧
      start.workers.length = 2 ∧ ∀ steps p, (machine Int).run? start steps = some p →
        p.KeepsTasks 2 ((machine Int).trace start steps) :=
    tasks_kept (by decide) (by decide)
  obtain rfl : pair = start := by
    cases hcreate
    rfl
  have hrun : (machine Int).run? pair drainingSteps = some _ := rfl
  exact ⟨_, rfl, hrun, rfl, rfl, by decide, hkept _ _ hrun⟩

end WorkerPool

end Keyspace
