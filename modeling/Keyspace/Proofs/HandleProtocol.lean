import Keyspace.Proofs.TaskProtocol
import Keyspace.Proofs.UpdateCourse

/-!
# What the owner of a task can depend on

The protocol of a handle (`WorkerPool.HandleProtocol`), for a task that a pool accepts in any state
that a run from a new pool reaches (`WorkerPool.Accepts`): a task that is cancelled before it begins
does not begin and ends as cancelled; a cancellation sets the token and does nothing else, and
nothing at all when the token is set already; when the body ignores it, or has ended, no run can
tell that it was made; and the outcome is given to the first await that finds it, and to no other.

The call of an update is such an owner. When its time is over while its task still waits, the task is
cancelled before it begins, and whatever the bucket and its pool do then, the update is not evaluated
(`BucketSystem.NotEvaluated`).
-/

namespace Keyspace

namespace WorkerPool

variable {α : Type} {p p' : WorkerPool α} {id : TaskId} {work : Work α} {t : Task α}
  {s s' : HandleState α} {steps : List (HandleStep α)} {e : HandleEvent α}
  {before after : List (HandleEvent α)}

/-! ## Tasks that were cancelled in time -/

/-- **What a pool makes of a task that was cancelled before it began.** -/
structure PassesOver (p : WorkerPool α) (id : TaskId) : Prop where
  unbegun : id ∉ p.begun
  only : ∀ o, p.Ended id o → o = .error .taskCancelled
  /-- The worker that has it in its hands ends it by its next step. -/
  next : ∀ worker, p.Holds worker id →
    ∃ p', p.begin? worker = some p' ∧ p'.Ended id (.error .taskCancelled)
  /-- When all workers have left, it has ended. -/
  last : (∀ w ∈ p.workers, w = .gone) → p.Ended id (.error .taskCancelled)

/-- A task that was cancelled before it began, in a pool that a run reached. -/
structure Spared (p : WorkerPool α) (id : TaskId) : Prop where
  reached : p.Reached
  doomed : ∃ t, p.tasks[id]? = some t ∧ t.Doomed
  unbegun : id ∉ p.begun

/-- The worker that has a doomed task in its hands passes over it. -/
theorem Spared.next (h : p.Spared id) {worker : Nat} (hholds : p.Holds worker id) :
    ∃ p', p.begin? worker = some p' ∧ p'.Ended id (.error .taskCancelled) := by
  obtain ⟨⟨start, past, -, haccounts⟩, ⟨t, ht, hdoomed⟩, -⟩ := h
  have hplace := (haccounts.held id).mpr ⟨worker, hholds⟩
  rw [place?_of_state ht] at hplace
  have hclaimed : t.state = .claimed := by
    rcases hdoomed.unbegun with hstate | hstate | hstate
    · rw [hstate] at hplace; simp [TaskState.place] at hplace
    · exact hstate
    · rw [hstate] at hplace; simp [TaskState.place] at hplace
  obtain ⟨work, cancelled, state, taken⟩ := t
  obtain rfl : cancelled = true := hdoomed.cancelled
  obtain rfl : state = .claimed := hclaimed
  refine ⟨{ p with workers := p.workers.set worker .idle }.setState id
    (.finished (.error .taskCancelled)), ?_,
    { work, cancelled := true, state := .finished (.error .taskCancelled), taken }, ?_, rfl⟩
  · rw [Holds] at hholds
    simp only [begin?, hholds, ht]
    rfl
  · rw [setState, getElem?_change, if_pos rfl, ht, Option.map_some]

/-- **A pool passes over a task that was cancelled in time.** -/
theorem Spared.passesOver (h : p.Spared id) : p.PassesOver id where
  unbegun := h.unbegun
  only o := by
    rintro ⟨t, ht, ho⟩
    obtain ⟨t', ht', hdoomed⟩ := h.doomed
    rw [ht] at ht'
    cases ht'
    exact hdoomed.outcome_eq ho
  next worker hholds := h.next hholds
  last hgone := by
    obtain ⟨⟨start, past, hstaff, haccounts⟩, ⟨t, ht, hdoomed⟩, -⟩ := h
    obtain ⟨hclosed, hempty⟩ := haccounts.closed hstaff hgone
    have haccepted : id ∈ acceptedIn past := by
      rw [haccounts.accepted, List.mem_range]
      exact (List.getElem?_eq_some_iff.mp ht).1
    obtain ⟨t', o, ht', ho⟩ := haccounts.finished_of_closed hclosed hempty haccepted
    rw [ht] at ht'
    cases ht'
    exact ⟨t, ht, hdoomed.outcome_eq ho ▸ ho⟩

/-- No step of a pool begins a doomed task, whether it uses the handle of the task or not. -/
theorem doomed_of_step? {b : Step α} (h : p.step? b = some p')
    (hqueued : ∀ j ∈ p.queue, p.place? j = some .queued) (ht : p.tasks[id]? = some t)
    (hdoomed : t.Doomed) :
    (∃ t', p'.tasks[id]? = some t' ∧ t'.Doomed) ∧ p.event b ≠ .began id := by
  cases huses : b.uses id with
  | false =>
    obtain ⟨t', ht', hmoved⟩ := moved_of_step? h hqueued huses ht
    obtain ⟨hdoomed', hne⟩ := hmoved.doomed hdoomed
    exact ⟨⟨t', ht', hdoomed'⟩, hne⟩
  | true =>
    cases b with
    | cancel j =>
      cases h
      obtain rfl : j = id := by simpa [Step.uses] using huses
      refine ⟨⟨{ t with cancelled := true }, ?_, ⟨rfl, hdoomed.unbegun⟩⟩, fun hbegan => ?_⟩
      · rw [cancel, getElem?_change, if_pos rfl, ht, Option.map_some]
      · cases hbegan
    | await j =>
      cases h
      obtain rfl : j = id := by simpa [Step.uses] using huses
      obtain ⟨t', ht', hlived⟩ := lived_of_await ht
      exact ⟨⟨t', ht', (hlived.doomed hdoomed).1⟩, fun hbegan => by cases hbegan⟩
    | submit _ | openGate _ | stop | «return» _ | take _ | begin _ | finish _ | leave _ =>
      cases huses

/-- **A task that was cancelled in time stays so**, whatever step a pool takes. -/
theorem Spared.step (h : p.Spared id) {b : Step α} (hstep : p.step? b = some p') : p'.Spared id := by
  obtain ⟨hreached, ⟨t, ht, hdoomed⟩, hunbegun⟩ := h
  obtain ⟨hdoomed', hne⟩ := doomed_of_step? hstep hreached.queued ht hdoomed
  exact ⟨hreached.step hstep, hdoomed', fun hmem =>
    ((transition_of_step? hstep).of_mem_begun hmem).elim hunbegun hne⟩

theorem Spared.run (h : p.Spared id) {steps : List (Step α)}
    (hrun : (machine α).run? p steps = some p') : p'.Spared id :=
  Machine.run_induction (P := fun _ p => p.Spared id) (fun _ _ _ _ h hstep => h.step hstep) h hrun

/-- A queued task that is cancelled is cancelled in time. -/
theorem spared_of_queued (hp : p.Reached) (hqueued : p.place? id = some .queued) :
    (p.cancel id).Spared id := by
  have hreached := hp.step (a := .cancel id) rfl
  obtain ⟨t, ht, hplace⟩ := Option.map_eq_some_iff.mp hqueued
  have hstate : t.state = .queued := by
    cases hstate : t.state with
    | queued => rfl
    | claimed | running | finished _ => rw [hstate] at hplace; cases hplace
  refine ⟨hreached, ⟨{ t with cancelled := true }, ?_, ⟨rfl, .inl hstate⟩⟩, fun hbegun => ?_⟩
  · rw [cancel, getElem?_change, if_pos rfl, ht, Option.map_some]
  · obtain ⟨start, past, -, haccounts⟩ := hp
    rcases haccounts.begun id hbegun with hplace | hplace
    · rw [hqueued] at hplace; cases hplace
    · rw [hqueued] at hplace; cases hplace

/-! ## Tasks that are deaf to their tokens -/

/-- **No run can tell whether the token of a deaf task is set.** -/
theorem run?_cancelled (hreached : s.pool.Reached) (ht : s.pool.tasks[id]? = some t)
    (hdeaf : t.Deaf) (rest : List (HandleStep α)) :
    (handle α id).run? (cancelled s id) rest =
        ((handle α id).run? s rest).map (cancelled · id) ∧
      (((handle α id).run? s rest).isSome →
        (handle α id).trace (cancelled s id) rest = (handle α id).trace s rest) := by
  induction rest generalizing s t with
  | nil => exact ⟨rfl, fun _ => rfl⟩
  | cons a rest ih =>
    obtain ⟨hcancelled, hevent⟩ := handle_cancelled ht hdeaf a
    simp only [Machine.run?, Machine.trace]
    cases hstep : (handle α id).step? s a with
    | none =>
      rw [hcancelled, hstep]
      exact ⟨rfl, fun hsome => absurd hsome Bool.false_ne_true⟩
    | some v =>
      obtain ⟨t', ht', hlived⟩ := lived_of_step? hstep hreached.queued ht
      obtain ⟨hrun, htrace⟩ := ih (reached_of_step? hstep hreached) ht' (hlived.deaf hdeaf)
      rw [hstep] at hcancelled hevent
      simp only [hcancelled, hevent rfl, Option.map_some, Option.bind_some]
      exact ⟨hrun, fun hsome => congrArg _ (htrace hsome)⟩

/-! ## The protocol -/

/-- **A task that a pool accepts**, in any state that a run from a new pool reaches. -/
inductive Accepts (work : Work α) : WorkerPool α → TaskId → Prop
  | intro {workers capacity : Nat} {start p p' : WorkerPool α} {past : List (Step α)} {id : TaskId}
    (created : create workers capacity = .ok start)
    (reached : (machine α).run? start past = some p) (accepted : p.submit work = .ok (p', id)) :
    Accepts work p' id

/-- **The protocol of the handle of a task**, after a trace that leads to a state. -/
structure HandleProtocol (id : TaskId) (work : Work α) (trace : List (HandleEvent α))
    (s : HandleState α) : Prop where
  /-- A task that is cancelled before it begins does not begin, and is passed over. -/
  skipped : ∀ before after, trace = before ++ .cancelled :: after →
    .pool (.began id) ∉ before → .pool (.began id) ∉ trace ∧ s.pool.PassesOver id
  /-- A cancellation sets the token, and changes nothing else. -/
  token : ∃ t, s.pool.tasks[id]? = some t ∧
    s.pool.cancel id = { s.pool with tasks := s.pool.tasks.set id { t with cancelled := true } }
  /-- A task that was cancelled is not changed by another cancellation. -/
  again : .cancelled ∈ trace → s.pool.cancel id = s.pool
  /-- When the task has ended, or its body has begun and ignores the token, a cancellation leaves
  every run possible that was, and no other, and every run shows the same. -/
  inert : (∃ e ∈ trace, e.Ends id) ∨ (.pool (.began id) ∈ trace ∧ work.polls = false) →
    ∀ rest, (handle α id).run? (cancelled s id) rest =
        ((handle α id).run? s rest).map (cancelled · id) ∧
      (((handle α id).run? s rest).isSome →
        (handle α id).trace (cancelled s id) rest = (handle α id).trace s rest)
  /-- A body that has begun and ignores the token ends with its own outcome. -/
  own : .pool (.began id) ∈ trace → work.polls = false → ∀ o, s.pool.Ended id o → o = work.outcome
  /-- So does any body that finishes before it is cancelled. -/
  finished : ∀ before after, trace = before ++ .pool (.finished id) :: after →
    .cancelled ∉ before → s.pool.Ended id work.outcome
  /-- The task has an outcome when the trace shows that it ended, and keeps it. -/
  ended : (∃ o, s.pool.Ended id o) ↔ ∃ e ∈ trace, e.Ends id
  stays : ∀ o, s.pool.Ended id o → ∀ rest s', (handle α id).run? s rest = some s' →
    s'.pool.Ended id o
  /-- As long as the task has not ended, every await gives nothing. -/
  unended : (∀ e ∈ trace, ¬ e.Ends id) → ∀ r ∈ resultsIn trace, r = .ok none
  /-- Every await before the task ended gave nothing; the first one after that gives the outcome, and
  all later ones are refused. -/
  delivered : ∀ before e after, trace = before ++ e :: after → e.Ends id →
    (∀ r ∈ resultsIn before, r = .ok none) ∧
      ∃ o, s.pool.Ended id o ∧ (resultsIn after = [] ∨
        ∃ later, resultsIn after = o.map some :: later ∧ ∀ r ∈ later, r = .error .resultTaken)
  /-- The owner can always go on: with an await, or with the end of the one that is under way. -/
  free : ∃ s', (handle α id).step? s (if s.waiting then .leave else .enter) = some s'

/-- A pool that accepts a task has it at the end of its queue, and has not begun it. -/
theorem Accepts.start (h : Accepts work p id) :
    p.Reached ∧ p.tasks[id]? = some { work } ∧ id ∉ p.begun := by
  obtain @⟨_, _, _, q, _, _, _, hcreated, hrun, haccepted⟩ := h
  obtain ⟨rfl, htasks⟩ := submit_eq_ok haccepted
  have ht : p.tasks[q.tasks.length]? = some { work } := htasks ▸ List.getElem?_concat_length
  have hstep : q.step? (.submit work) = some p := by simp only [step?, haccepted]
  obtain ⟨start, past, hstaff, haccounts⟩ := ((Reached.created hcreated).run hrun).step hstep
  refine ⟨⟨start, past, hstaff, haccounts⟩, ht, fun hbegun => ?_⟩
  rcases haccounts.begun _ hbegun with hplace | hplace
  · rw [place?_of_state ht] at hplace; cases hplace
  · rw [place?_of_state ht] at hplace; cases hplace

/-- A new task has not ended. -/
theorem pending_new (id : TaskId) (work : Work α) : Pending id [] ({ work } : Task α) :=
  .inr ⟨rfl, nofun, fun _ he => absurd he List.not_mem_nil, fun _ hr => absurd hr List.not_mem_nil⟩

section Handle

variable (h : Accepts work p id) (hrun : (handle α id).run? { pool := p } steps = some s)

include h hrun

/-- A task that is cancelled before it begins does not begin. -/
theorem Accepts.spared
    (htrace : (handle α id).trace { pool := p } steps = before ++ .cancelled :: after)
    (hbefore : .pool (.began id) ∉ before) :
    .pool (.began id) ∉ (handle α id).trace { pool := p } steps ∧ s.pool.Spared id := by
  obtain ⟨hreached, ht, hnew⟩ := h.start
  obtain ⟨rest, u, t₁, t₂, hunbegun, hlived, hu, ht₂, hrest, rfl⟩ :=
    exists_lived_of_trace (fun _ _ _ _ hQ hlived => hlived.unbegun hQ) hreached ht
      (.inr (.inl rfl)) hrun htrace
  have hdoomed : t₂.Doomed := by
    cases hlived with
    | cancelled => exact ⟨rfl, hunbegun.resolve_left hbefore⟩
  obtain ⟨hs, t, ht, hend, hafter⟩ := lived_of_run
    (Q := fun past t => t.Doomed ∧ .pool (.began id) ∉ past)
    (fun past e t t' hQ hlived => by
      obtain ⟨hdoomed', hne⟩ := hlived.doomed hQ.1
      exact ⟨hdoomed', by simpa [hQ.2] using hne.symm⟩)
    hu ht₂ ⟨hdoomed, List.not_mem_nil⟩ hrest
  have hnever : .pool (.began id) ∉ (handle α id).trace { pool := p } steps := by
    rw [htrace]
    simp [hbefore, hafter]
  exact ⟨hnever, hs, ⟨t, ht, hend⟩, fun hbegun => hnever (began_of_mem_begun hnew hrun hbegun)⟩

/-- A body that has begun and ignores its token keeps its own outcome. -/
theorem Accepts.own (hbegan : .pool (.began id) ∈ (handle α id).trace { pool := p } steps)
    (hpolls : work.polls = false) :
    ∃ t, s.pool.tasks[id]? = some t ∧ t.Own ∧ t.work = work := by
  obtain ⟨hreached, ht, -⟩ := h.start
  obtain ⟨before, after, htrace⟩ := List.append_of_mem hbegan
  obtain ⟨rest, u, t₁, t₂, hwork, hlived, hu, ht₂, hrest, -⟩ :=
    exists_lived_of_trace (Q := fun _ t => t.work = work)
      (fun _ _ _ _ hQ hlived => hlived.work_eq.trans hQ) hreached ht rfl hrun htrace
  have hwork₂ := hlived.work_eq.trans hwork
  have hown : t₂.Own := ⟨.inl ⟨hlived.running, by rw [hwork₂, hpolls]⟩⟩
  exact (lived_of_run (Q := fun _ t => t.Own ∧ t.work = work)
    (fun _ _ _ _ hQ hlived => ⟨hlived.own hQ.1, hlived.work_eq.trans hQ.2⟩)
    hu ht₂ ⟨hown, hwork₂⟩ hrest).2

/-- A body that finishes before it is cancelled keeps its own outcome. -/
theorem Accepts.finished
    (htrace : (handle α id).trace { pool := p } steps = before ++ .pool (.finished id) :: after)
    (hbefore : .cancelled ∉ before) : s.pool.Ended id work.outcome := by
  obtain ⟨hreached, ht, -⟩ := h.start
  obtain ⟨rest, u, t₁, t₂, ⟨hwork, hmarked⟩, hlived, hu, ht₂, hrest, -⟩ :=
    exists_lived_of_trace (Q := fun past t => t.work = work ∧ Marked past t)
      (fun _ _ _ _ hQ hlived => ⟨hlived.work_eq.trans hQ.1, hlived.marked hQ.2⟩) hreached ht
      ⟨rfl, by simp [Marked]⟩ hrun htrace
  have huncancelled : t₁.cancelled = false := Bool.eq_false_iff.mpr (mt hmarked.mp hbefore)
  have hfinished := hlived.finished_of_uncancelled huncancelled
  rw [hwork] at hfinished
  exact (lived_of_run (Q := fun _ t => t.state = .finished work.outcome)
    (fun _ _ _ _ hQ hlived => hlived.finished_eq hQ) hu ht₂ hfinished hrest).2

/-- The awaits before the task ended gave nothing, and those after it settle the outcome. -/
theorem Accepts.delivered
    (htrace : (handle α id).trace { pool := p } steps = before ++ e :: after) (hends : e.Ends id) :
    (∀ r ∈ resultsIn before, r = .ok none) ∧
      ∃ o t, s.pool.tasks[id]? = some t ∧ Settled o after t := by
  obtain ⟨hreached, ht, -⟩ := h.start
  obtain ⟨rest, u, t₁, t₂, hpending, hlived, hu, ht₂, hrest, rfl⟩ :=
    exists_lived_of_trace (fun _ _ _ _ hQ hlived => hlived.pending hQ) hreached ht
      (pending_new id work) hrun htrace
  obtain ⟨hunfinished, ⟨o, ho⟩, htaken⟩ := hlived.ended hends
  have hunended : Unended id before t₁ :=
    hpending.resolve_left fun ⟨⟨o, hfinished⟩, _⟩ => hunfinished o hfinished
  refine ⟨hunended.results, o, ?_⟩
  exact (lived_of_run (fun _ _ _ _ hQ hlived => hlived.settled hQ) hu ht₂
    ⟨ho, .inl ⟨htaken.trans hunended.untaken, rfl⟩⟩ hrest).2

/-- **The handle of an accepted task keeps its protocol**, in every run. -/
theorem Accepts.protocol : HandleProtocol id work ((handle α id).trace { pool := p } steps) s := by
  obtain ⟨hreached, ht, -⟩ := h.start
  obtain ⟨hs, t, htask, hmarked, hpending⟩ := lived_of_run
    (Q := fun past t => Marked past t ∧ Pending id past t)
    (fun _ _ _ _ hQ hlived => ⟨hlived.marked hQ.1, hlived.pending hQ.2⟩) hreached ht
    ⟨by simp [Marked], pending_new id work⟩ hrun
  have hunique : ∀ {t'}, s.pool.tasks[id]? = some t' → t' = t := fun ht' =>
    Option.some.inj (ht'.symm.trans htask)
  have hended : (∃ o, s.pool.Ended id o) ↔
      ∃ e ∈ (handle α id).trace { pool := p } steps, e.Ends id := by
    rcases hpending with ⟨⟨o, ho⟩, hshown⟩ | hunended
    · exact iff_of_true ⟨o, t, htask, ho⟩ hshown
    · refine iff_of_false ?_ ?_
      · rintro ⟨o, t', ht', ho⟩
        exact hunended.unfinished o (hunique ht' ▸ ho)
      · rintro ⟨e, he, hends⟩
        exact hunended.unshown e he hends
  exact {
    skipped before after htrace hbefore := by
      obtain ⟨hnever, hspared⟩ := h.spared hrun htrace hbefore
      exact ⟨hnever, hspared.passesOver⟩
    token := ⟨t, htask, cancel_eq htask⟩
    again hcancelled := cancel_of_cancelled htask (hmarked.mpr hcancelled)
    inert hcase rest := by
      have hdeaf : t.Deaf := by
        rcases hcase with hshown | ⟨hbegan, hpolls⟩
        · obtain ⟨o, t', ht', ho⟩ := hended.mpr hshown
          exact .inr ⟨o, hunique ht' ▸ ho⟩
        · obtain ⟨t', ht', hown, -⟩ := h.own hrun hbegan hpolls
          exact hunique ht' ▸ hown.deaf
      exact run?_cancelled hs htask hdeaf rest
    own hbegan hpolls o := by
      rintro ⟨t', ht', ho⟩
      obtain ⟨t'', ht'', hown, hwork⟩ := h.own hrun hbegan hpolls
      rw [ht'] at ht''
      cases ht''
      rcases hown.begun with ⟨hrunning, -⟩ | hfinished
      · rw [ho] at hrunning; cases hrunning
      · rw [ho, hwork] at hfinished; exact TaskState.finished.inj hfinished
    finished before after htrace hbefore := h.finished hrun htrace hbefore
    ended := hended
    stays o := by
      rintro ⟨t', ht', ho⟩ rest s' hrest
      exact (lived_of_run (Q := fun _ t => t.state = .finished o)
        (fun _ _ _ _ hQ hlived => hlived.finished_eq hQ) hs ht' ho hrest).2
    unended hnot := by
      rcases hpending with ⟨-, e, he, hends⟩ | hunended
      · exact absurd hends (hnot e he)
      · exact hunended.results
    delivered before e after htrace hends := by
      obtain ⟨hbefore, o, t', ht', hfinished, hresults⟩ := h.delivered hrun htrace hends
      refine ⟨hbefore, o, ⟨t', ht', hfinished⟩, ?_⟩
      rcases hresults with ⟨-, hnone⟩ | ⟨-, hlater⟩
      · exact .inl hnone
      · exact .inr hlater
    free := by
      cases hwaiting : s.waiting <;> simp [handle, hwaiting] }

end Handle

end WorkerPool

/-! ## Updates that are given up -/

namespace BucketSystem

open WorkerPool (create)

variable {V : Type} [Storable V] {s s' start t : BucketSystem V} {call : CallId}
  {c : UpdateCall V} {claim : ClaimId} {task : TaskId} {past : List (Step V)}

/-- Whatever step the system takes, its pool takes steps of a pool. -/
theorem exists_pool_run {e : Event V} (h : Transition s e s') :
    ∃ steps, (WorkerPool.machine (Product V)).run? s.pool steps = some s'.pool := by
  cases h with
  | called _ | put _ _ | rejected | got _ | removed _ | notRemoved _ => exact ⟨[], rfl⟩
  | @worked step pool _ stepped =>
    exact ⟨[step], Machine.run?_singleton stepped⟩
  | @turned _ c _ _ _ turn =>
    cases turn with
    | present _ _ | absent _ _ | claim _ | lock _ _ | read _ _ | missing _ _ | refused _ _ | store _
    | free _ _ | «return» _ _ => exact ⟨[], rfl⟩
    | @accepted claim v pool task _ accepted =>
      have hstep : s.pool.step? (.submit (Storable.evaluate v c.update c.function)) = some pool := by
        simp only [WorkerPool.step?, accepted]
      exact ⟨[.submit _], Machine.run?_singleton hstep⟩
    | @gave claim task w pool _ result =>
      obtain rfl : (s.pool.await task).2 = pool := congrArg Prod.snd result
      exact ⟨[.await task], rfl⟩
    | @gaveNothing claim task p pool _ result _ =>
      obtain rfl : (s.pool.await task).2 = pool := congrArg Prod.snd result
      exact ⟨[.await task, .cancel task], rfl⟩
    | @failed claim task f pool _ result =>
      obtain rfl : (s.pool.await task).2 = pool := congrArg Prod.snd result
      exact ⟨[.await task, .cancel task], rfl⟩
    | @expired claim task _ _ => exact ⟨[.cancel task], rfl⟩

/-- **The call of an update is given up while its task waits** in the queue. -/
structure GivesUp (start : BucketSystem V) (past : List (Step V)) (s s' : BucketSystem V)
    (call : CallId) (c : UpdateCall V) (claim : ClaimId) (task : TaskId) : Prop where
  reached : start.run? past = some s
  found : s.calls.find? call = some c
  awaits : c.stage = .awaiting claim task
  waits : s.pool.place? task = some .queued
  expired : s.step? (.expire call) = some s'

/-- **The update of a call is not evaluated** from a state on, though its task was submitted. -/
structure NotEvaluated (trace : List (Event V)) (s s' : BucketSystem V) (call : CallId)
    (c : UpdateCall V) (task : TaskId) : Prop where
  /-- The body of the task is the evaluation of the value that the call read. -/
  submitted : ∃ v, .act call c.key (.read (some v)) ∈ trace ∧
    ∃ t, s.pool.tasks[task]? = some t ∧ t.work = Storable.evaluate v c.update c.function
  /-- Whatever comes next, the pool passes over the task. -/
  never : ∀ rest t, s'.run? rest = some t → t.pool.PassesOver task

/-- A call that is given up cancels its task. -/
theorem pool_of_expire (hc : s.calls.find? call = some c) (hstage : c.stage = .awaiting claim task)
    (h : s.step? (.expire call) = some s') : s'.pool = s.pool.cancel task := by
  obtain ⟨⟨_, log⟩, hexpire, rfl⟩ := Option.map_eq_some_iff.mp h
  cases turn_of_expire? hc hexpire with
  | expired stage _ =>
    rw [hstage] at stage
    cases stage
    rfl

/-- The pool of a run is one that a run of pools reaches. -/
theorem reached_of_run {workers capacity : Nat} (hpool : create workers capacity = .ok start.pool)
    (hrun : start.run? past = some s) : s.pool.Reached :=
  run_induction (P := fun _ s => s.pool.Reached)
    (fun _ _ _ _ h htrans => h.run (exists_pool_run htrans).choose_spec) (.created hpool) hrun

/-- A task that was cancelled in time stays so through a run of the system. -/
theorem spared_of_run (h : s.pool.Spared task) (hrun : s.run? past = some t) : t.pool.Spared task :=
  run_induction (P := fun _ s => s.pool.Spared task)
    (fun _ _ _ _ h htrans => h.run (exists_pool_run htrans).choose_spec) h hrun

/-- **An update that is given up while its task waits is not evaluated.** -/
theorem GivesUp.notEvaluated {workers capacity : Nat} (hrest : start.AtRest)
    (hpool : create workers capacity = .ok start.pool)
    (h : GivesUp start past s s' call c claim task) :
    NotEvaluated (start.trace past) s s' call c task where
  submitted := by
    have hshown := (recorded_of_run hrest h.reached).shown call c h.found
    simp only [Shown, h.awaits] at hshown
    obtain ⟨v, t, hacts, ht, hwork⟩ := hshown
    have hmem : Act.read (some v) ∈ actsOf call (start.trace past) := by
      rw [hacts]
      simp
    obtain ⟨key, hread⟩ := mem_actsOf.mp hmem
    obtain ⟨c', hc', rfl⟩ := (recorded_of_run hrest h.reached).keyed call key _ hread
    rw [h.found] at hc'
    cases hc'
    exact ⟨v, hread, t, ht, hwork⟩
  never rest t hrun := by
    have hspared := WorkerPool.spared_of_queued (reached_of_run hpool h.reached) h.waits
    rw [← pool_of_expire h.found h.awaits h.expired] at hspared
    exact (spared_of_run hspared hrun).passesOver

end BucketSystem

namespace WorkerPool

/-- **The handles of tasks keep their protocol**, whatever the pool does between their calls; and an
update that is given up while its task waits is not evaluated afterwards. -/
theorem handles_keep_protocol :
    (∀ (α : Type) (work : Work α) (p : WorkerPool α) (id : TaskId), Accepts work p id →
      ∀ steps s, (handle α id).run? { pool := p } steps = some s →
        HandleProtocol id work ((handle α id).trace { pool := p } steps) s) ∧
    ∀ (V : Type) [Storable V] (start : BucketSystem V) (workers capacity : Nat), start.AtRest →
      create workers capacity = .ok start.pool → ∀ past s s' call c claim task,
        BucketSystem.GivesUp start past s s' call c claim task →
          BucketSystem.NotEvaluated (start.trace past) s s' call c task :=
  ⟨fun _ _ _ _ h _ _ hrun => h.protocol hrun,
    fun _ _ _ _ _ hrest hpool _ _ _ _ _ _ _ h => h.notEvaluated hrest hpool⟩

/-- A pool of one worker that has accepted a task. -/
def engaged : WorkerPool Int where
  capacity := 1
  workers := [.idle]
  queue := [0]
  tasks := [{ work := counted 5 }]

/-- An await that gives nothing, two cancellations while the task is in the hands of its worker, and
two awaits after the worker has passed over it. -/
def cancellingSteps : List (HandleStep Int) :=
  [.enter, .leave, .pool (.take 0), .cancel, .cancel, .pool (.begin 0), .enter, .leave, .enter]

/-- The update of a gated value, up to its await. -/
def waitingSteps : List (BucketSystem.Step Value) :=
  [.put [107] (some (.gated [103] [110])), .call BucketSystem.gatedCall, .advance 0, .advance 0,
    .advance 0, .advance 0, .advance 0]

/-- The task ends as cancelled and its outcome is given once; the update is given up, and the worker
that takes its task passes over it. -/
theorem cancelling_keeps_protocol :
    (∃ s, (handle Int 0).run? { pool := engaged } cancellingSteps = some s ∧
      resultsIn ((handle Int 0).trace { pool := engaged } cancellingSteps) =
        [.ok none, .error .taskCancelled, .error .resultTaken] ∧
      HandleProtocol 0 (counted 5) ((handle Int 0).trace { pool := engaged } cancellingSteps) s) ∧
    ∃ s s' t c claim, BucketSystem.GivesUp .idle waitingSteps s s' 0 c claim 0 ∧
      s'.run? [.pool (.take 0), .pool (.begin 0)] = some t ∧ t.pool.begun = [] ∧
      BucketSystem.NotEvaluated (BucketSystem.trace .idle waitingSteps) s s' 0 c 0 := by
  constructor
  · have hcreate : create 1 1 = .ok { capacity := 1, workers := [.idle] : WorkerPool Int } := rfl
    have hrun : ∀ start, (machine Int).run? start [] = some start := fun _ => rfl
    have haccepts : Accepts (counted 5) engaged 0 := .intro hcreate (hrun _) rfl
    exact ⟨_, rfl, rfl, handles_keep_protocol.1 Int _ _ _ haccepts _ _ rfl⟩
  · have hgivesUp : BucketSystem.GivesUp .idle waitingSteps _ _ 0 _ _ 0 :=
      { reached := rfl, found := rfl, awaits := rfl, waits := rfl, expired := rfl }
    exact ⟨_, _, _, _, _, hgivesUp, rfl, rfl,
      handles_keep_protocol.2 Value .idle 1 1 BucketSystem.atRest_idle rfl _ _ _ _ _ _ _ hgivesUp⟩

end WorkerPool

end Keyspace
