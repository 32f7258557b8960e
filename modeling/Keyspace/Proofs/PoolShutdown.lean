import Keyspace.Proofs.PoolTasks

/-!
# What the return of a shutdown says

The first call of shutdown takes the workers over and waits for all of them to leave; any other call
finds no workers to wait for and returns at once. So a return says that the pool is drained
(`WorkerPool.Drained`) if the first call has returned, by that return or before it, and then the
pool stays drained (`shutdown_drains`). A call that overlaps the first one can return while a task
is still running (`overlapping_return`): all that its return says is that no task is accepted any
more.

Two facts carry this through every run (`Stops`): the first call is the one that took the workers
over, and once it has returned all workers are gone.
-/

namespace Keyspace

namespace WorkerPool

variable {α : Type} {start p q p' : WorkerPool α} {past : List Event} {e : Event} {stopper : Nat}
  {steps : List (Step α)}

/-- The call took the workers over. -/
def TookOver (p : WorkerPool α) (stopper : Nat) : Prop :=
  ∃ s, p.stoppers[stopper]? = some s ∧ s.joins = true

/-- The call has returned. -/
def Returned (p : WorkerPool α) (stopper : Nat) : Prop :=
  ∃ s, p.stoppers[stopper]? = some s ∧ s.returned = true

/-- **A drained pool**: every task that was accepted is finished, the queue is empty, and no worker
has a task in its hands. -/
structure Drained (trace : List Event) (p : WorkerPool α) : Prop where
  finished : ∀ id ∈ acceptedIn trace, p.Finished id
  queue : p.queue = []
  free : ∀ worker id, ¬ p.Holds worker id

/-- **What returning shutdowns say** of a pool that a trace leads to. -/
structure ShutsDown (trace : List Event) (p : WorkerPool α) : Prop where
  /-- The workers are taken over by the first call, and by no other. -/
  owner : ∀ stopper, p.TookOver stopper ↔ stopper = 0 ∧ p.stoppers ≠ []
  /-- When a call returns and the one that took the workers over has returned, by that or before
  it, the pool is drained, and stays so. -/
  drained : ∀ stopper q, p.return? stopper = some q →
    ∀ owner, q.TookOver owner → q.Returned owner →
      q.Drained trace ∧ ∀ rest p', (machine α).run? q rest = some p' →
        p'.Drained (trace ++ (machine α).trace q rest)
  /-- When any call returns, no task is accepted any more. -/
  refuses : ∀ stopper q, p.return? stopper = some q →
    ∀ rest p', (machine α).run? q rest = some p' →
      acceptedIn (trace ++ (machine α).trace q rest) = acceptedIn trace
  /-- A call that did not take the workers over waits for nothing. -/
  waitless : ∀ stopper, stopper < p.stoppers.length → ¬ p.TookOver stopper →
    ¬ p.Returned stopper → (p.return? stopper).isSome

/-! ### The calls of shutdown through a run -/

/-- **What holds of the calls of shutdown.** -/
structure Stops (p : WorkerPool α) : Prop where
  first : ∀ stopper, p.TookOver stopper ↔ stopper = 0 ∧ p.stoppers ≠ []
  stopping : p.stoppers ≠ [] → p.stopping = true
  closed : p.Returned 0 → p.Closed

theorem Stops.created {workers capacity : Nat} (h : create workers capacity = .ok p) : Stops p := by
  have hnone : p.stoppers = [] := by
    obtain ⟨-, -, rfl⟩ := create_eq_ok_iff.mp h
    rfl
  refine ⟨fun stopper => ?_, fun hsome => absurd hnone hsome, ?_⟩
  · rw [hnone]
    exact iff_of_false (by simp [TookOver, hnone]) (by simp)
  · rintro ⟨s, hs, -⟩
    rw [hnone] at hs
    cases hs

theorem stoppers_await (p : WorkerPool α) (id : TaskId) :
    (p.await id).2.stoppers = p.stoppers := by
  unfold WorkerPool.await
  split
  · rfl
  · split
    · rfl
    · split <;> rfl

/-- The steps of the workers, and those of callers that are no shutdowns, leave the calls of
shutdown alone. -/
theorem Stops.keep (h : Stops p) (htrans : Transition p e p')
    (hstoppers : p'.stoppers = p.stoppers) (hstopping : p'.stopping = p.stopping) : Stops p' where
  first stopper := by
    rw [TookOver, hstoppers]
    exact h.first stopper
  stopping hsome := hstopping.trans (h.stopping (hstoppers ▸ hsome))
  closed hreturned := by
    rw [Returned, hstoppers] at hreturned
    exact ((h.closed hreturned).step htrans).1

/-- The first call finds the workers, a later one does not. -/
theorem Stops.stop (h : Stops p) : Stops p.stop where
  first stopper := by
    have hany : p.stoppers.any Stopper.joins = !p.stoppers.isEmpty := by
      cases hstoppers : p.stoppers with
      | nil => rfl
      | cons s rest =>
        obtain ⟨s', hs', hjoins⟩ := (h.first 0).mpr ⟨rfl, by simp [hstoppers]⟩
        rw [hstoppers] at hs'
        cases hs'
        simp [hjoins]
    have hnew : p.stop.stoppers = p.stoppers ++ [{ joins := p.stoppers.isEmpty }] := by
      simp [WorkerPool.stop, hany]
    have hold := h.first stopper
    simp only [TookOver] at hold ⊢
    rw [hnew]
    rcases Nat.lt_trichotomy stopper p.stoppers.length with hlt | heq | hgt
    · rw [List.getElem?_append_left hlt, hold]
      have hsome : p.stoppers ≠ [] := List.ne_nil_of_length_pos (Nat.zero_lt_of_lt hlt)
      simp [hsome]
    · subst heq
      simp [List.length_eq_zero_iff]
    · rw [List.getElem?_eq_none (by simp; omega)]
      simp
      omega
  stopping _ := rfl
  closed hreturned := by
    obtain ⟨s, hs, hret⟩ := hreturned
    simp only [WorkerPool.stop, List.getElem?_append] at hs
    split at hs
    · exact ⟨rfl, (h.closed ⟨s, hs, hret⟩).gone⟩
    · rw [List.getElem?_singleton] at hs
      split at hs
      · cases hs
        cases hret
      · cases hs

/-- A call that returns took over what it took over before. -/
theorem tookOver_return (hreturn : p.return? stopper = some q) (owner : Nat) :
    q.TookOver owner ↔ p.TookOver owner := by
  obtain ⟨s, hs, -, -, rfl⟩ := eq_of_return? hreturn
  obtain ⟨hlt, hget⟩ := List.getElem?_eq_some_iff.mp hs
  simp only [TookOver, List.getElem?_set]
  split
  · next heq =>
    subst heq
    simp [hlt, hget]
  · rfl

theorem returned_return (hreturn : p.return? stopper = some q) (owner : Nat) :
    q.Returned owner ↔ owner = stopper ∨ p.Returned owner := by
  obtain ⟨s, hs, -, -, rfl⟩ := eq_of_return? hreturn
  simp only [Returned, List.getElem?_set]
  split
  · next heq =>
    subst heq
    simp [(List.getElem?_eq_some_iff.mp hs).1]
  · next hne => simp [Ne.symm hne]

/-- The call that took the workers over returns when they are gone. -/
theorem Stops.returned (h : Stops p) (hreturn : p.return? stopper = some q) : Stops q := by
  have htook := tookOver_return hreturn
  have hreturned := returned_return hreturn
  obtain ⟨s, hs, -, hgone, rfl⟩ := eq_of_return? hreturn
  have hsome : p.stoppers ≠ [] := by
    rintro hnil
    rw [hnil] at hs
    cases hs
  refine ⟨fun owner => ?_, fun _ => h.stopping hsome, fun hfirst => ?_⟩
  · rw [htook, h.first]
    simp [hsome]
  · rcases (hreturned 0).mp hfirst with rfl | hbefore
    · obtain ⟨s', hs', hjoins⟩ := (h.first 0).mpr ⟨rfl, hsome⟩
      rw [hs] at hs'
      cases hs'
      exact ⟨h.stopping hsome, hgone hjoins⟩
    · exact ⟨h.stopping hsome, (h.closed hbefore).gone⟩

theorem Stops.step (h : Stops p) (htrans : Transition p e p') : Stops p' := by
  have hkeep := h.keep htrans
  cases htrans with
  | stopped => exact h.stop
  | returned hreturn => exact h.returned hreturn
  | awaited id => exact hkeep (stoppers_await p id) (stopping_await p id)
  | accepted | refused | cancelled | opened | taken | began | skipped | finished | left =>
    exact hkeep rfl rfl

theorem Stops.run (h : Stops p) (hrun : (machine α).run? p steps = some p') : Stops p' :=
  Machine.run_induction (P := fun _ p => Stops p)
    (fun _ _ _ _ h hstep => h.step (transition_of_step? hstep)) h hrun

/-! ### What a return says -/

/-- A pool whose workers are gone is drained. -/
theorem Accounts.drained (h : Accounts start past p) (hstaff : start.workers ≠ [])
    (hclosed : p.Closed) : p.Drained past := by
  have hempty := (h.closed hstaff hclosed.gone).2
  exact ⟨fun _ hid => h.finished_of_closed hclosed hempty hid, hempty,
    fun _ _ => hclosed.not_holds⟩

/-- A pool that is stopping goes on stopping, and accepts nothing. -/
theorem Transition.of_stopping (htrans : Transition p e p') (h : p.stopping = true) :
    p'.stopping = true ∧ e.acceptance? = none := by
  cases htrans with
  | accepted _ running _ => exact absurd h (Bool.eq_false_iff.mp running)
  | stopped => exact ⟨rfl, rfl⟩
  | awaited id => exact ⟨(stopping_await p id).trans h, rfl⟩
  | returned hreturn =>
    obtain ⟨s, -, -, -, rfl⟩ := eq_of_return? hreturn
    exact ⟨h, rfl⟩
  | refused | cancelled | opened | taken | began | skipped | finished | left => exact ⟨h, rfl⟩

theorem acceptedIn_of_stopping (h : p.stopping = true)
    (hrun : (machine α).run? p steps = some p') : acceptedIn ((machine α).trace p steps) = [] := by
  have hboth : p'.stopping = true ∧ acceptedIn ((machine α).trace p steps) = [] := by
    refine Machine.run_induction
      (P := fun past p => p.stopping = true ∧ acceptedIn past = []) ?_ ⟨h, rfl⟩ hrun
    rintro past p a p' ⟨hstopping, hnone⟩ hstep
    obtain ⟨hstopping', he⟩ := (transition_of_step? hstep).of_stopping hstopping
    refine ⟨hstopping', ?_⟩
    change acceptedIn (past ++ [p.event a]) = []
    rw [acceptedIn_snoc, hnone, he]
    rfl
  exact hboth.2

/-- Once the call that took the workers over has returned, the pool is drained in every state that
follows. -/
theorem Accounts.drained_of_returned (h : Accounts start past p) (hstops : Stops p)
    (hstaff : start.workers ≠ []) (hreturn : p.return? stopper = some q) (hfirst : q.Returned 0)
    (hrun : (machine α).run? q steps = some p') :
    p'.Drained (past ++ (machine α).trace q steps) := by
  have hclosed := ((hstops.returned hreturn).closed hfirst).run hrun
  have hdrained := ((h.step (.returned hreturn)).run hrun).drained hstaff hclosed.1
  -- the return itself accepts nothing
  have hsame : acceptedIn (past ++ [.silent] ++ (machine α).trace q steps) =
      acceptedIn (past ++ (machine α).trace q steps) := by
    simp only [acceptedIn, List.filterMap_append, List.filterMap_cons, List.filterMap_nil,
      Event.acceptance?, List.append_nil]
  exact ⟨fun id hid => hdrained.finished id (hsame ▸ hid), hdrained.queue, hdrained.free⟩

/-- **What returning shutdowns say**, in every state of every run of a new pool. -/
theorem shutdown_drains {workers capacity : Nat} (hcreate : create workers capacity = .ok start)
    (hrun : (machine α).run? start steps = some p) :
    p.ShutsDown ((machine α).trace start steps) := by
  have haccounts := (Accounts.created hcreate).run hrun
  have hstops := (Stops.created hcreate).run hrun
  have hstaff := workers_ne_nil_of_create hcreate
  refine ⟨hstops.first, ?_, ?_, ?_⟩
  · intro stopper q hreturn owner hownes hreturned
    obtain ⟨rfl, -⟩ := ((hstops.returned hreturn).first owner).mp hownes
    have hdrained {rest : List (Step α)} {p' : WorkerPool α}
        (hrest : (machine α).run? q rest = some p') :=
      haccounts.drained_of_returned hstops hstaff hreturn hreturned hrest
    refine ⟨?_, fun rest p' hrest => hdrained hrest⟩
    simpa [Machine.trace] using @hdrained [] q rfl
  · intro stopper q hreturn rest p' hrest
    obtain ⟨s, hs, -⟩ := (returned_return hreturn stopper).mpr (.inl rfl)
    have hsome : q.stoppers ≠ [] := by
      rintro hnil
      rw [hnil] at hs
      cases hs
    have hnone := acceptedIn_of_stopping ((hstops.returned hreturn).stopping hsome) hrest
    rw [acceptedIn, List.filterMap_append]
    exact (congrArg (_ ++ ·) hnone).trans (List.append_nil _)
  · intro stopper hlt howner hreturned
    have hs : p.stoppers[stopper]? = some p.stoppers[stopper] := List.getElem?_eq_getElem hlt
    have hjoins : p.stoppers[stopper].joins = false :=
      Bool.eq_false_iff.mpr fun hjoins => howner ⟨_, hs, hjoins⟩
    have hwaiting : p.stoppers[stopper].returned = false :=
      Bool.eq_false_iff.mpr fun hret => hreturned ⟨_, hs, hret⟩
    simp [return?, hs, hjoins, hwaiting]

/-- A task is running when two shutdowns begin. The second returns before the task is finished, the
first after it. -/
def overlappingSteps : List (Step Int) :=
  [.submit (counted 1), .take 0, .begin 0, .stop, .stop, .return 1, .finish 0, .leave 0, .leave 1]

/-- The first call's return finds the pool drained. -/
theorem overlapping_drained : ∃ p q, create 2 2 = .ok pair ∧
    (machine Int).run? pair overlappingSteps = some p ∧ p.return? 0 = some q ∧
    q.TookOver 0 ∧ q.Drained ((machine Int).trace pair overlappingSteps) := by
  have hcreate : create 2 2 = .ok pair := rfl
  have hrun : (machine Int).run? pair overlappingSteps = some _ := rfl
  have hkept := shutdown_drains hcreate hrun
  exact ⟨_, _, hcreate, hrun, rfl, ⟨_, rfl, rfl⟩,
    (hkept.drained 0 _ rfl 0 ⟨_, rfl, rfl⟩ ⟨_, rfl, rfl⟩).1⟩

/-- **A call that overlaps the first one returns while a task is running.** -/
theorem overlapping_return : ∃ p q, create 2 2 = .ok pair ∧
    (machine Int).run? pair (overlappingSteps.take 5) = some p ∧ p.return? 1 = some q ∧
    q.Holds 0 0 ∧ ¬ q.Drained ((machine Int).trace pair (overlappingSteps.take 5)) := by
  refine ⟨_, _, rfl, rfl, rfl, rfl, fun h => h.free 0 0 rfl⟩

end WorkerPool

end Keyspace
