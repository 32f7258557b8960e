import Keyspace.Proofs.TaskToken

/-!
# The protocol of a task's handle

The owner of a task has its handle, by which he awaits its result and cancels it
(`WorkerPool.handle`). An await takes time: it is entered, and left with the result or, when its time
is over, with nothing; workers take their steps and cancellations come in between. Calls of the
handle that come one after the other, in any order and however the steps of the pool fall between
them, keep the protocol of `WorkerPool.HandleProtocol`.

What the handle sees of the pool is a task alone: every step enters or leaves an await, sets the token
or moves the task (`WorkerPool.Lived`), and each part of the protocol is about these.
-/

namespace Keyspace

/-- **What the owner of a task does and gets**, and what the pool shows between. -/
inductive HandleEvent (α : Type) where
  /-- An await is entered. -/
  | entered
  /-- An await is left with its result, or refused because the result was taken. -/
  | gave (result : Outcome (Option α))
  | cancelled
  | pool (e : WorkerPool.Event)

/-- The result of an await. -/
def HandleEvent.result? {α : Type} : HandleEvent α → Option (Outcome (Option α))
  | gave result => some result
  | _ => none

/-- The task ends at this event: a worker passes over it or finishes it. -/
def HandleEvent.Ends {α : Type} (id : TaskId) : HandleEvent α → Prop
  | .pool (.skipped j) | .pool (.finished j) => j = id
  | _ => False

/-- The calls of a handle, and the steps of the pool. -/
inductive HandleStep (α : Type) where
  | enter
  | leave
  | cancel
  | pool (step : WorkerPool.Step α)

/-- **A pool and the handle of one of its tasks.** -/
structure HandleState (α : Type) where
  pool : WorkerPool α
  /-- Whether an await is under way. -/
  waiting : Bool := false

namespace WorkerPool

variable {α : Type}

/-- Whether the result of a task was taken. -/
def isTaken (p : WorkerPool α) (id : TaskId) : Bool :=
  (p.tasks[id]?).any Task.taken

/-- **The handle of a task**: one await at a time, which is refused at once when the result was taken
and may be left at any time, and cancellations, which come at all times. -/
def handle (α : Type) (id : TaskId) : Machine (HandleState α) (HandleStep α) (HandleEvent α) where
  step? s
    | .enter =>
      if s.waiting then none
      else some (if s.pool.isTaken id then s else { s with waiting := true })
    | .leave => if s.waiting then some { pool := (s.pool.await id).2 } else none
    | .cancel => some { s with pool := s.pool.cancel id }
    | .pool a => if a.uses id then none else (s.pool.step? a).map fun pool => { s with pool }
  event s
    | .enter => if s.pool.isTaken id then .gave (.error .resultTaken) else .entered
    | .leave => .gave (s.pool.await id).1
    | .cancel => .cancelled
    | .pool a => .pool (s.pool.event a)

/-- The results of the awaits, in order. -/
def resultsIn (trace : List (HandleEvent α)) : List (Outcome (Option α)) :=
  trace.filterMap HandleEvent.result?

/-! ## What a step means for the task -/

/-- **What a step of a handle finds and leaves of its task.** -/
inductive Lived (id : TaskId) : HandleEvent α → Task α → Task α → Prop
  | entered {t : Task α} (untaken : t.taken = false) : Lived id .entered t t
  | refused {t : Task α} (taken : t.taken = true) : Lived id (.gave (.error .resultTaken)) t t
  | unfinished {t : Task α} (untaken : t.taken = false) (unfinished : ∀ o, t.state ≠ .finished o) :
    Lived id (.gave (.ok none)) t t
  | delivered {t : Task α} {o : Outcome α} (untaken : t.taken = false)
    (finished : t.state = .finished o) : Lived id (.gave (o.map some)) t { t with taken := true }
  | cancelled {t : Task α} : Lived id .cancelled t { t with cancelled := true }
  | moved {e : Event} {t t' : Task α} (moved : Moved id e t t') : Lived id (.pool e) t t'

variable {s s' : HandleState α} {id : TaskId} {t t' : Task α} {a : HandleStep α} {e : HandleEvent α}

/-- The await that is left takes the result if it is there and was not taken. -/
theorem lived_of_await {p : WorkerPool α} (ht : p.tasks[id]? = some t) :
    ∃ t', (p.await id).2.tasks[id]? = some t' ∧ Lived id (.gave (p.await id).1) t t' := by
  unfold await
  simp only [ht]
  split
  · next htaken => exact ⟨t, ht, .refused htaken⟩
  · next htaken =>
    have huntaken := Bool.eq_false_iff.mpr htaken
    split
    · next o hfinished =>
      refine ⟨{ t with taken := true }, ?_, .delivered huntaken hfinished⟩
      rw [getElem?_change, if_pos rfl, ht, Option.map_some]
    · next hunfinished => exact ⟨t, ht, .unfinished huntaken hunfinished⟩

/-- **Every step of a handle is one of these.** -/
theorem lived_of_step? (h : (handle α id).step? s a = some s')
    (hqueued : ∀ j ∈ s.pool.queue, s.pool.place? j = some .queued)
    (ht : s.pool.tasks[id]? = some t) :
    ∃ t', s'.pool.tasks[id]? = some t' ∧ Lived id ((handle α id).event s a) t t' := by
  cases a with
  | enter =>
    simp only [handle] at h ⊢
    have htaken : s.pool.isTaken id = t.taken := by rw [isTaken, ht]; rfl
    rw [htaken] at h ⊢
    split at h
    · cases h
    · cases h
      cases hcase : t.taken with
      | true => exact ⟨t, by simpa [hcase] using ht, .refused hcase⟩
      | false => exact ⟨t, by simpa [hcase] using ht, .entered hcase⟩
  | leave =>
    simp only [handle] at h ⊢
    split at h
    · cases h
      exact lived_of_await ht
    · cases h
  | cancel =>
    cases h
    refine ⟨{ t with cancelled := true }, ?_, .cancelled⟩
    change (s.pool.cancel id).tasks[id]? = _
    rw [cancel, getElem?_change, if_pos rfl, ht, Option.map_some]
  | pool a =>
    simp only [handle] at h ⊢
    split at h
    · cases h
    · next huses =>
      obtain ⟨pool, hpool, rfl⟩ := Option.map_eq_some_iff.mp h
      obtain ⟨t', ht', hmoved⟩ :=
        moved_of_step? hpool hqueued (Bool.eq_false_iff.mpr huses) ht
      exact ⟨t', ht', .moved hmoved⟩

/-- A pool that a run from a new one reached: its accounts are kept, and it began with workers. -/
def Reached (p : WorkerPool α) : Prop :=
  ∃ start past, start.workers ≠ [] ∧ Accounts start past p

theorem Reached.created {workers capacity : Nat} {p : WorkerPool α}
    (h : create workers capacity = .ok p) : p.Reached :=
  ⟨p, [], workers_ne_nil_of_create h, .created h⟩

theorem Reached.step {p p' : WorkerPool α} (h : p.Reached) {a : Step α}
    (hstep : p.step? a = some p') : p'.Reached := by
  obtain ⟨start, past, hstaff, haccounts⟩ := h
  exact ⟨start, _, hstaff, haccounts.step (transition_of_step? hstep)⟩

theorem Reached.run {p p' : WorkerPool α} (h : p.Reached) {steps : List (Step α)}
    (hrun : (machine α).run? p steps = some p') : p'.Reached :=
  Machine.run_induction (P := fun _ p => p.Reached) (fun _ _ _ _ h hstep => h.step hstep) h hrun

theorem Reached.queued {p : WorkerPool α} (h : p.Reached) :
    ∀ j ∈ p.queue, p.place? j = some .queued := by
  obtain ⟨start, past, -, haccounts⟩ := h
  exact fun j hj => (haccounts.queued j).mpr hj

/-- A step of a handle leaves the pool alone, or is a step of the pool; what that shows, the handle
shows. -/
theorem pool_of_step? (h : (handle α id).step? s a = some s') :
    s'.pool = s.pool ∨ ∃ b, s.pool.step? b = some s'.pool ∧
      (s.pool.event b = .silent ∨ (handle α id).event s a = .pool (s.pool.event b)) := by
  cases a with
  | enter =>
    simp only [handle] at h
    split at h
    · cases h
    · cases h
      left
      split <;> rfl
  | leave =>
    simp only [handle] at h
    split at h
    · cases h
      exact .inr ⟨.await id, rfl, .inl rfl⟩
    · cases h
  | cancel =>
    cases h
    exact .inr ⟨.cancel id, rfl, .inl rfl⟩
  | pool b =>
    simp only [handle] at h
    split at h
    · cases h
    · obtain ⟨pool, hpool, rfl⟩ := Option.map_eq_some_iff.mp h
      exact .inr ⟨b, hpool, .inr rfl⟩

theorem reached_of_step? (h : (handle α id).step? s a = some s') (hs : s.pool.Reached) :
    s'.pool.Reached := by
  rcases pool_of_step? h with heq | ⟨b, hb, -⟩
  · exact heq ▸ hs
  · exact hs.step hb

/-- **What every step of a handle keeps of its task, a run keeps.** -/
theorem lived_of_run {Q : List (HandleEvent α) → Task α → Prop}
    (step : ∀ past e t t', Q past t → Lived id e t t' → Q (past ++ [e]) t')
    (hreached : s.pool.Reached) (ht : s.pool.tasks[id]? = some t) (h : Q [] t)
    {steps : List (HandleStep α)} (hrun : (handle α id).run? s steps = some s') :
    s'.pool.Reached ∧
      ∃ t', s'.pool.tasks[id]? = some t' ∧ Q ((handle α id).trace s steps) t' := by
  refine Machine.run_induction (P := fun past u => u.pool.Reached ∧
    ∃ t', u.pool.tasks[id]? = some t' ∧ Q past t') ?_ ⟨hreached, t, ht, h⟩ hrun
  rintro past u a v ⟨hu, t, ht, hQ⟩ hstep
  obtain ⟨t', ht', hlived⟩ := lived_of_step? hstep hu.queued ht
  exact ⟨reached_of_step? hstep hu, t', ht', step past _ t t' hQ hlived⟩

/-- **What every step keeps holds when an event of the trace comes about**: the run is cut at the step
that shows the event, which the task lives through. -/
theorem exists_lived_of_trace {Q : List (HandleEvent α) → Task α → Prop}
    (step : ∀ past e t t', Q past t → Lived id e t t' → Q (past ++ [e]) t')
    (hreached : s.pool.Reached) (ht : s.pool.tasks[id]? = some t) (h : Q [] t)
    {steps : List (HandleStep α)} (hrun : (handle α id).run? s steps = some s')
    {before after : List (HandleEvent α)}
    (htrace : (handle α id).trace s steps = before ++ e :: after) :
    ∃ rest u t₁ t₂, Q before t₁ ∧ Lived id e t₁ t₂ ∧ u.pool.Reached ∧
      u.pool.tasks[id]? = some t₂ ∧ (handle α id).run? u rest = some s' ∧
      (handle α id).trace u rest = after := by
  obtain ⟨first, a, rest, u, v, -, hfirst, rfl, hstep, rfl, hrest, hafter⟩ :=
    Machine.exists_step_of_trace hrun htrace
  obtain ⟨hu, t₁, ht₁, hQ⟩ := lived_of_run step hreached ht h hfirst
  obtain ⟨t₂, ht₂, hlived⟩ := lived_of_step? hstep hu.queued ht₁
  exact ⟨rest, v, t₁, t₂, hQ, hlived, reached_of_step? hstep hu, ht₂, hrest, hafter⟩

/-! ## The parts of the protocol -/

theorem resultsIn_snoc (past : List (HandleEvent α)) (e : HandleEvent α) :
    resultsIn (past ++ [e]) = resultsIn past ++ e.result?.toList := by
  rw [resultsIn, resultsIn, List.filterMap_append, List.filterMap_cons, List.filterMap_nil]
  cases e.result? <;> rfl

/-- **The task has not ended**: the awaits gave nothing and took nothing. -/
structure Unended (id : TaskId) (past : List (HandleEvent α)) (t : Task α) : Prop where
  untaken : t.taken = false
  unfinished : ∀ o, t.state ≠ .finished o
  unshown : ∀ e ∈ past, ¬ e.Ends id
  results : ∀ r ∈ resultsIn past, r = .ok none

/-- A task has ended when the trace shows that it did. -/
def Pending (id : TaskId) (past : List (HandleEvent α)) (t : Task α) : Prop :=
  ((∃ o, t.state = .finished o) ∧ ∃ e ∈ past, e.Ends id) ∨ Unended id past t

/-- Once the task has ended, the first await takes its outcome, and all later ones are refused. -/
structure Settled (o : Outcome α) (past : List (HandleEvent α)) (t : Task α) : Prop where
  finished : t.state = .finished o
  results : (t.taken = false ∧ resultsIn past = []) ∨
    (t.taken = true ∧ ∃ later, resultsIn past = o.map some :: later ∧
      ∀ r ∈ later, r = .error .resultTaken)

/-- The token of the task is set when it was cancelled. -/
def Marked (past : List (HandleEvent α)) (t : Task α) : Prop :=
  t.cancelled = true ↔ .cancelled ∈ past

/-- An event that does not concern a task does not end it. -/
theorem not_ends_of_apart {e : Event} (h : e.concerns id = false) :
    ¬ (HandleEvent.pool e : HandleEvent α).Ends id := by
  cases e with
  | skipped j | finished j => simpa [HandleEvent.Ends, Event.concerns] using h
  | accepted _ | refused _ | stopped | taken _ | began _ | left _ | silent => exact not_false

theorem Lived.settled {past : List (HandleEvent α)} {o : Outcome α} (hlived : Lived id e t t')
    (h : Settled o past t) : Settled o (past ++ [e]) t' := by
  have hquiet : e.result?.toList = [] → resultsIn (past ++ [e]) = resultsIn past := by
    intro hnone
    rw [resultsIn_snoc, hnone, List.append_nil]
  obtain ⟨hfinished, hresults⟩ := h
  cases hlived with
  | entered _ => exact ⟨hfinished, by rw [hquiet rfl]; exact hresults⟩
  | refused taken =>
    obtain ⟨huntaken, -⟩ | ⟨-, later, hlater, hrefused⟩ := hresults
    · rw [huntaken] at taken; cases taken
    · refine ⟨hfinished, .inr ⟨taken, later ++ [.error .resultTaken], ?_, fun r hr => ?_⟩⟩
      · rw [resultsIn_snoc, hlater]
        rfl
      · rcases List.mem_append.mp hr with hold | hlast
        · exact hrefused r hold
        · exact List.mem_singleton.mp hlast
  | unfinished _ unfinished => exact absurd hfinished (unfinished o)
  | @delivered t o' untaken finished =>
    obtain rfl : o' = o := by
      rw [hfinished] at finished
      exact (TaskState.finished.inj finished).symm
    obtain ⟨-, hnone⟩ | ⟨taken, -⟩ := hresults
    · refine ⟨hfinished, .inr ⟨rfl, [], ?_, fun r hr => by cases hr⟩⟩
      rw [resultsIn_snoc, hnone]
      rfl
    · rw [untaken] at taken; cases taken
  | cancelled => exact ⟨hfinished, by rw [hquiet rfl]; exact hresults⟩
  | moved moved =>
    refine ⟨(moved.finished_eq hfinished).1, ?_⟩
    rw [hquiet rfl, moved.same.2.2]
    exact hresults

theorem Lived.marked {past : List (HandleEvent α)} (hlived : Lived id e t t') (h : Marked past t) :
    Marked (past ++ [e]) t' := by
  have hother : e ≠ .cancelled → t'.cancelled = t.cancelled → Marked (past ++ [e]) t' := by
    intro he hsame
    have hlast : HandleEvent.cancelled ∈ past ++ [e] ↔ .cancelled ∈ past := by simp [he.symm]
    rw [Marked, hsame]
    exact h.trans hlast.symm
  cases hlived with
  | cancelled => exact iff_of_true rfl (List.mem_append_right _ List.mem_cons_self)
  | moved moved => exact hother nofun moved.same.2.1
  | entered _ | refused _ | unfinished _ _ | delivered _ _ => exact hother nofun rfl

/-- Whatever a task lives through, it keeps its body. -/
theorem Lived.work_eq (hlived : Lived id e t t') : t'.work = t.work := by
  cases hlived with
  | moved moved => exact moved.same.1
  | entered _ | refused _ | unfinished _ _ | delivered _ _ | cancelled => rfl

/-- A task that begins runs. -/
theorem Lived.running (hlived : Lived id (.pool (.began id)) t t') : t'.state = .running := by
  cases hlived with
  | moved moved =>
    cases moved with
    | apart apart => simp [Event.concerns] at apart
    | began _ _ => rfl

/-- A task that ends has its outcome, which nobody has taken. -/
theorem Lived.ended (hlived : Lived id e t t') (hends : e.Ends id) :
    (∀ o, t.state ≠ .finished o) ∧ (∃ o, t'.state = .finished o) ∧ t'.taken = t.taken := by
  cases hlived with
  | entered _ | refused _ | unfinished _ _ | delivered _ _ | cancelled => exact hends.elim
  | moved moved =>
    cases moved with
    | apart apart => exact absurd hends (not_ends_of_apart apart)
    | taken _ | began _ _ => exact hends.elim
    | skipped claimed _ => exact ⟨by simp [claimed], ⟨_, rfl⟩, rfl⟩
    | finished running _ => exact ⟨by simp [running], ⟨_, rfl⟩, rfl⟩

/-- A task that finishes before it is cancelled has the outcome of its body. -/
theorem Lived.finished_of_uncancelled (hlived : Lived id (.pool (.finished id)) t t')
    (h : t.cancelled = false) : t'.state = .finished t.work.outcome := by
  cases hlived with
  | moved moved =>
    cases moved with
    | apart apart => simp [Event.concerns] at apart
    | finished _ gave =>
      rw [h] at gave
      exact congrArg TaskState.finished (Work.finish?_eq_some gave)

/-- **A doomed task stays doomed**, and does not begin. -/
theorem Lived.doomed (hlived : Lived id e t t') (h : t.Doomed) :
    t'.Doomed ∧ e ≠ .pool (.began id) := by
  cases hlived with
  | moved moved =>
    obtain ⟨hdoomed, hnot⟩ := moved.doomed h
    exact ⟨hdoomed, fun heq => hnot (HandleEvent.pool.inj heq)⟩
  | cancelled => exact ⟨⟨rfl, h.unbegun⟩, nofun⟩
  | delivered _ _ => exact ⟨⟨h.cancelled, h.unbegun⟩, nofun⟩
  | entered _ | refused _ | unfinished _ _ => exact ⟨h, nofun⟩

/-- A task that keeps the outcome of its body keeps it whatever is called. -/
theorem Lived.own (hlived : Lived id e t t') (h : t.Own) : t'.Own := by
  cases hlived with
  | moved moved => exact moved.own h
  | cancelled | delivered _ _ => exact ⟨h.begun⟩
  | entered _ | refused _ | unfinished _ _ => exact h

/-- **A task that ended keeps its outcome.** -/
theorem Lived.finished_eq (hlived : Lived id e t t') {o : Outcome α} (h : t.state = .finished o) :
    t'.state = .finished o := by
  cases hlived with
  | moved moved => exact (moved.finished_eq h).1
  | cancelled | delivered _ _ | entered _ | refused _ | unfinished _ _ => exact h

/-- **Until the task ends, awaits give nothing and take nothing.** -/
theorem Lived.pending {past : List (HandleEvent α)} (hlived : Lived id e t t')
    (h : Pending id past t) : Pending id (past ++ [e]) t' := by
  rcases h with ⟨⟨o, ho⟩, d, hd, hends⟩ | ⟨huntaken, hunfinished, hunshown, hresults⟩
  · exact .inl ⟨⟨o, hlived.finished_eq ho⟩, d, List.mem_append_left _ hd, hends⟩
  · have hnext : t'.taken = false → (∀ o, t'.state ≠ .finished o) → ¬ e.Ends id →
        (∀ r ∈ e.result?, r = .ok none) → Pending id (past ++ [e]) t' := by
      intro huntaken' hunfinished' hnot hresult
      refine .inr ⟨huntaken', hunfinished', fun d hd => ?_, fun r hr => ?_⟩
      · rcases List.mem_append.mp hd with hold | hlast
        · exact hunshown d hold
        · exact List.mem_singleton.mp hlast ▸ hnot
      · rw [resultsIn_snoc] at hr
        rcases List.mem_append.mp hr with hold | hlast
        · exact hresults r hold
        · exact hresult r (Option.mem_toList.mp hlast)
    cases hlived with
    | entered _ | cancelled => exact hnext huntaken hunfinished not_false nofun
    | refused taken => rw [huntaken] at taken; cases taken
    | unfinished _ _ =>
      refine hnext huntaken hunfinished not_false fun r hr => ?_
      exact (Option.mem_some.mp hr).symm
    | delivered _ finished => exact absurd finished (hunfinished _)
    | moved moved =>
      cases moved with
      | apart apart => exact hnext huntaken hunfinished (not_ends_of_apart apart) nofun
      | taken _ | began _ _ => exact hnext huntaken nofun not_false nofun
      | skipped _ _ | finished _ _ =>
        exact .inl ⟨⟨_, rfl⟩, _, List.mem_append_right _ List.mem_cons_self, rfl⟩

/-- A task that is deaf to its token stays so. -/
theorem Lived.deaf (hlived : Lived id e t t') (h : t.Deaf) : t'.Deaf := by
  cases hlived with
  | moved moved =>
    obtain ⟨hrunning, hpolls⟩ | ⟨o, ho⟩ := h
    · cases moved with
      | apart _ => exact .inl ⟨hrunning, hpolls⟩
      | taken queued => rw [queued] at hrunning; cases hrunning
      | began claimed _ => rw [claimed] at hrunning; cases hrunning
      | skipped _ _ | finished _ _ => exact .inr ⟨_, rfl⟩
    · exact .inr ⟨o, (moved.finished_eq ho).1⟩
  | cancelled | delivered _ _ | entered _ | refused _ | unfinished _ _ => exact h

/-- Before it begins, a task waits, or it was passed over. -/
def Unbegun (id : TaskId) (past : List (HandleEvent α)) (t : Task α) : Prop :=
  .pool (.began id) ∈ past ∨
    t.state = .queued ∨ t.state = .claimed ∨ t.state = .finished (.error .taskCancelled)

theorem Lived.unbegun {past : List (HandleEvent α)} (hlived : Lived id e t t')
    (h : Unbegun id past t) : Unbegun id (past ++ [e]) t' := by
  rcases h with hbegan | hstate
  · exact .inl (List.mem_append_left _ hbegan)
  · cases hlived with
    | moved moved =>
      cases moved with
      | apart _ => exact .inr hstate
      | taken _ => exact .inr (.inr (.inl rfl))
      | began _ _ => exact .inl (List.mem_append_right _ List.mem_cons_self)
      | skipped _ _ => exact .inr (.inr (.inr rfl))
      | finished running _ =>
        rw [running] at hstate
        obtain h | h | h := hstate <;> cases h
    | cancelled | delivered _ _ | entered _ | refused _ | unfinished _ _ => exact .inr hstate

/-- The list of the tasks that began grows with every beginning. -/
theorem Transition.begun_eq {p p' : WorkerPool α} {e : Event} (h : Transition p e p') :
    p'.begun = p.begun ++ e.beginning?.toList := by
  cases h with
  | began _ _ _ _ => rfl
  | awaited id => exact (Same.await p id).begun.trans (List.append_nil _).symm
  | returned hreturn =>
    obtain ⟨s, -, -, -, rfl⟩ := eq_of_return? hreturn
    exact (List.append_nil _).symm
  | accepted _ _ _ | refused _ | cancelled _ | opened _ | stopped | taken _ _ | skipped _ _ _ _
  | finished _ _ _ _ | left _ _ _ => exact (List.append_nil _).symm

/-- A task is among those that began when it was before, or begins at the step. -/
theorem Transition.of_mem_begun {p p' : WorkerPool α} {e : Event} (h : Transition p e p')
    (hid : id ∈ p'.begun) : id ∈ p.begun ∨ e = .began id := by
  rw [h.begun_eq] at hid
  rcases List.mem_append.mp hid with hold | hlast
  · exact .inl hold
  · cases e with
    | began j => exact .inr (congrArg Event.began (List.mem_singleton.mp hlast).symm)
    | accepted _ | refused _ | stopped | taken _ | skipped _ | finished _ | left _ | silent =>
      cases hlast

/-- A task that had not begun is among those that began when it began on the way. -/
theorem began_of_mem_begun (hnew : id ∉ s.pool.begun) {steps : List (HandleStep α)}
    (hrun : (handle α id).run? s steps = some s') (h : id ∈ s'.pool.begun) :
    .pool (.began id) ∈ (handle α id).trace s steps := by
  refine Machine.run_induction (P := fun past u => id ∈ u.pool.begun → .pool (.began id) ∈ past)
    ?_ (fun hid => absurd hid hnew) hrun h
  intro past u a v hu hstep hid
  rcases pool_of_step? hstep with heq | ⟨b, hb, hshown⟩
  · exact List.mem_append_left _ (hu (heq ▸ hid))
  · rcases (transition_of_step? hb).of_mem_begun hid with hold | hbegan
    · exact List.mem_append_left _ (hu hold)
    · rcases hshown with hsilent | hshown
      · rw [hsilent] at hbegan
        cases hbegan
      · rw [hshown, hbegan]
        exact List.mem_append_right _ List.mem_cons_self

/-! ## The token of a task that is deaf to it -/

/-- The handle after a cancellation. -/
def cancelled (s : HandleState α) (id : TaskId) : HandleState α :=
  { s with pool := s.pool.cancel id }

theorem isTaken_cancel (p : WorkerPool α) (id : TaskId) :
    (p.cancel id).isTaken id = p.isTaken id := by
  rw [isTaken, isTaken, cancel, getElem?_change, if_pos rfl]
  cases p.tasks[id]? <;> rfl

/-- **A step of a handle does not depend on a token that concerns nobody**, and shows the same. -/
theorem handle_cancelled (ht : s.pool.tasks[id]? = some t) (hdeaf : t.Deaf) (a : HandleStep α) :
    (handle α id).step? (cancelled s id) a = ((handle α id).step? s a).map (cancelled · id) ∧
      (((handle α id).step? s a).isSome →
        (handle α id).event (cancelled s id) a = (handle α id).event s a) := by
  have hwaiting : (cancelled s id).waiting = s.waiting := rfl
  have hpool : (cancelled s id).pool = s.pool.cancel id := rfl
  cases a with
  | enter =>
    simp only [handle, hwaiting, hpool, isTaken_cancel, implies_true, and_true]
    split
    · rfl
    · split <;> rfl
  | leave =>
    simp only [handle, hwaiting, hpool, await_cancel, implies_true, and_true]
    split <;> rfl
  | cancel => exact ⟨congrArg some rfl, fun _ => rfl⟩
  | pool b =>
    simp only [handle, hpool, step?_cancel ht hdeaf]
    split
    · exact ⟨rfl, nofun⟩
    · cases hstep : s.pool.step? b with
      | none => exact ⟨rfl, nofun⟩
      | some q => exact ⟨rfl, fun _ => congrArg HandleEvent.pool (event_cancel ht hdeaf hstep)⟩

end WorkerPool

end Keyspace
