import Keyspace.Proofs.UpdateOwnership

/-!
# Updates return

No state that a run from rest reaches is stuck. A call that does not wait for a lock has a turn: an
await that finds its task unfinished ends when the time of the call is over, and to give a lock free
or to drop a claim is always possible, because the claim is the call's. A call that waits for a lock
finds it free, or another call holds it and has a turn. Every turn lowers the rank of its call, so
that the calls alone, with no help of any worker, come to their ends (`Sound.can_settle`).
-/

namespace Keyspace

variable {V : Type}

/-- The rank of the stage at which a call stands. -/
def callRank (p : CallId × UpdateCall V) : Nat :=
  p.2.stage.rank

namespace BucketSystem

variable {s s' t : BucketSystem V} {id : CallId} {c : UpdateCall V}

/-- A step by which a call goes on: it advances or is given up. -/
def Step.Of (id : CallId) (a : Step V) : Prop :=
  a = .advance id ∨ a = .expire id

variable [Storable V]

/-- A call that can advance has a turn. -/
theorem turn_of_isSome (hc : s.calls.find? id = some c) (h : (s.advance? id).isSome) :
    ∃ a act s', Step.Of id a ∧ s.step? a = some s' ∧ Turn s id c act s' := by
  obtain ⟨⟨s', log⟩, hadv⟩ := Option.isSome_iff_exists.mp h
  exact ⟨.advance id, s.nextAct c, s', .inl rfl, by simp only [step?, hadv, Option.map_some],
    turn_of_advance? hc hadv⟩

/-- **A call that neither waits for a lock nor is done has a turn.** -/
theorem Sound.can_turn (h : Sound s) (hc : s.calls.find? id = some c)
    (hlocking : ∀ claim, c.stage ≠ .locking claim) (hdone : ∀ r, c.stage ≠ .done r) :
    ∃ a act s', Step.Of id a ∧ s.step? a = some s' ∧ Turn s id c act s' := by
  cases hstage : c.stage with
  | locking claim => exact absurd hstage (hlocking claim)
  | done r => exact absurd hstage (hdone r)
  | checking | reading _ =>
    refine turn_of_isSome hc ?_
    simp only [advance?, hc, hstage]
    split <;> rfl
  | claiming | submitting _ _ | storing _ _ =>
    refine turn_of_isSome hc ?_
    simp only [advance?, hc, hstage, Option.isSome_some]
  | awaiting claim task =>
    cases hawait : s.pool.await task with
    | mk result pool =>
      have htake : result ≠ .ok none → (s.advance? id).isSome := by
        intro hfinished
        simp only [advance?, hc, hstage, take?, hawait]
        cases result with
        | error f => rfl
        | ok product =>
          cases product with
          | none => exact absurd rfl hfinished
          | some p =>
            cases p with
            | value v => cases v <;> rfl
            | number n => rfl
      by_cases hfinished : result = .ok none
      · -- the task is not finished: the time of the call may be over
        subst hfinished
        have hexp : s.expire? id = some (s.giveUp id c claim task) := by
          simp only [expire?, hc, hstage, hawait]
        exact ⟨.expire id, .expired, (s.giveUp id c claim task).1, .inr rfl,
          by simp only [step?, hexp, Option.map_some], turn_of_expire? hc hexp⟩
      · exact turn_of_isSome hc (htake hfinished)
  | freeing claim r =>
    obtain ⟨entry, hclaim⟩ := h.held.claimed id c claim .holding hc (by rw [hstage]; rfl)
    obtain ⟨e, _, hat⟩ := h.held.sound.at?_of_find? hclaim
    refine turn_of_isSome hc ?_
    simp only [advance?, hc, hstage, KeyLocks.free?, hat, Option.map_some, Option.isSome_some]
  | dropping claim r =>
    obtain ⟨entry, hclaim⟩ := h.held.claimed id c claim .releasing hc (by rw [hstage]; rfl)
    obtain ⟨e, _, hat⟩ := h.held.sound.at?_of_find? hclaim
    refine turn_of_isSome hc ?_
    simp only [advance?, hc, hstage, KeyLocks.drop?, hat, Option.map_some, Option.isSome_some]

/-- **No deadlock**: while a call is not done, some call has a turn. -/
theorem Sound.can_go_on (h : Sound s) (hc : s.calls.find? id = some c)
    (hdone : ∀ r, c.stage ≠ .done r) :
    ∃ j d a act s', s.calls.find? j = some d ∧ Step.Of j a ∧ s.step? a = some s' ∧
      Turn s j d act s' := by
  by_cases hlocking : ∃ claim, c.stage = .locking claim
  · obtain ⟨claim, hstage⟩ := hlocking
    obtain ⟨entry, hclaim⟩ := h.held.claimed id c claim .waiting hc (by rw [hstage]; rfl)
    obtain ⟨e, he, hat⟩ := h.held.sound.at?_of_find? hclaim
    cases howner : e.owner with
    | none =>
      obtain ⟨a, act, s', hof, hstep, hturn⟩ := turn_of_isSome hc (by
        simp only [advance?, hc, hstage, KeyLocks.acquire?, hat, howner, Option.isNone_none,
          if_true, Option.map_some, Option.isSome_some])
      exact ⟨id, c, a, act, s', hc, hof, hstep, hturn⟩
    | some k =>
      -- the owner is the claim of a call that has locked the key, and it does not wait
      obtain ⟨x, hx, _, hholding⟩ := (h.held.sound.owned c.key e k he).mp howner
      obtain ⟨j, d, st, hd, hst⟩ := h.held.owned k x hx
      obtain ⟨entry', hentry'⟩ := h.held.claimed j d k st hd hst
      rw [hx] at hentry'
      cases hentry'
      rw [show st = .holding from hholding] at hst
      obtain ⟨a, act, s', hof, hstep, hturn⟩ := h.can_turn hd
        (fun _ hs => by rw [hs] at hst; cases hst) (fun _ hs => by rw [hs] at hst; cases hst)
      exact ⟨j, d, a, act, s', hd, hof, hstep, hturn⟩
  · obtain ⟨a, act, s', hof, hstep, hturn⟩ :=
      h.can_turn hc (fun claim hs => hlocking ⟨claim, hs⟩) hdone
    exact ⟨id, c, a, act, s', hc, hof, hstep, hturn⟩

/-- **The calls come to their ends by themselves**, in at most as many steps as their ranks allow. -/
theorem Sound.can_settle (h : Sound s) :
    ∃ steps t, s.run? steps = some t ∧ (∀ a ∈ steps, ∃ j, Step.Of j a) ∧
      steps.length ≤ s.calls.total callRank ∧
      ∀ id c, s.calls.find? id = some c → ∃ r, t.result? id = some r := by
  generalize hn : s.calls.total callRank = n
  induction n using Nat.strongRecOn generalizing s with
  | _ n ih =>
    by_cases hall : ∀ id c, s.calls.find? id = some c → ∃ r, c.stage = .done r
    · refine ⟨[], s, rfl, fun a ha => (by cases ha), Nat.zero_le _, ?_⟩
      intro id c hc
      obtain ⟨r, hr⟩ := hall id c hc
      exact ⟨r, result?_eq_some_iff.mpr ⟨c, hc, hr⟩⟩
    · obtain ⟨id, hall⟩ := Classical.not_forall.mp hall
      obtain ⟨c, hall⟩ := Classical.not_forall.mp hall
      obtain ⟨hc, hdone⟩ := Classical.not_imp.mp hall
      obtain ⟨j, d, a, act, s', hd, hof, hstep, hturn⟩ :=
        h.can_go_on hc fun r hr => hdone ⟨r, hr⟩
      obtain ⟨stage, hcalls, _, hrank⟩ := hturn.calls_eq
      have hless : s'.calls.total callRank < n := by
        have hput := Assoc.total_put_old hd { d with stage } callRank
        have hlower : callRank (j, { d with stage }) < callRank (j, d) := hrank
        rw [← hn, hcalls]
        omega
      have hs' : Sound s' := h.step (transition_of_step? hstep)
      obtain ⟨steps, t, hrun, hsteps, hlength, hdone'⟩ := ih _ hless hs' rfl
      refine ⟨a :: steps, t, ?_, ?_, ?_, ?_⟩
      · exact (Machine.run?_cons hstep steps).trans hrun
      · intro b hb
        rcases List.mem_cons.mp hb with rfl | hb
        · exact ⟨j, hof⟩
        · exact hsteps b hb
      · rw [List.length_cons]
        omega
      · intro i e he
        by_cases hij : i = j
        · exact hdone' i { d with stage } (by rw [hcalls, Assoc.find?_put, if_pos hij])
        · exact hdone' i e (by rw [hcalls, Assoc.find?_put, if_neg hij, he])

end BucketSystem

end Keyspace
