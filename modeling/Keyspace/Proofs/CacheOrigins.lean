import Keyspace.Proofs.CacheAlone
import Keyspace.Proofs.CacheInvalidation

/-!
# Where cached snapshots come from

What is cached for a name at the end of a run was cached at its beginning or was published on the
way (`cached_since`), and what was published on the way is newer than everything from before it
(`le_id_of_published`). A request keeps its name through a run, so that what a trace shows of it can
be read with the names of the last state (`name?_of_run`).
-/

namespace Keyspace

namespace SnapshotCache

variable {c c' t : SnapshotCache} {now : Int64} {id : RequestId} {r : Request} {a : Step}
  {made : Cached} {name : Bytes} {steps : List (Int64 × Step)}

/-- **A step is a new request, an invalidation, or a turn of the request that takes it.** -/
theorem step?_cases (h : c.step? now a = some c') :
    (∃ m less ttl, a = .request m less ttl ∧ c' = (c.request m less ttl).1) ∨
    (∃ m, a = .invalidate m ∧ c' = c.invalidate m) ∨
    ∃ id r, a.Of id ∧ c.requests.find? id = some r ∧ Turn c now id r (c.event now a) c' := by
  have turned : ∀ id, a.Of id →
      (∃ r, c.requests.find? id = some r ∧ Turn c now id r (c.event now a) c') →
      ∃ id r, a.Of id ∧ c.requests.find? id = some r ∧ Turn c now id r (c.event now a) c' := by
    rintro id hown ⟨r, hr, turn⟩
    exact ⟨id, r, hown, hr, turn⟩
  cases a with
  | request m less ttl =>
    cases h
    exact .inl ⟨m, less, ttl, rfl, rfl⟩
  | invalidate m =>
    cases h
    exact .inr (.inl ⟨m, rfl, rfl⟩)
  | look i => exact .inr (.inr (turned i rfl (turn_of_look? h)))
  | join i => exact .inr (.inr (turned i rfl (turn_of_join? h)))
  | acquire i => exact .inr (.inr (turned i rfl (turn_of_acquire? h)))
  | review i => exact .inr (.inr (turned i rfl (turn_of_review? h)))
  | begin i => exact .inr (.inr (turned i rfl (turn_of_begin? h)))
  | enumerate i keys => exact .inr (.inr (turned i rfl (turn_of_enumerate? h)))
  | publish i => exact .inr (.inr (turned i rfl (turn_of_publish? h)))
  | leave i => exact .inr (.inr (turned i rfl (turn_of_leave? h)))
  | drop i => exact .inr (.inr (turned i rfl (turn_of_drop? h)))

/-- A request that is there is not touched by a new one. -/
theorem Sound.find?_request_old (hs : Sound c) (hr : c.requests.find? id = some r) (m : Bytes)
    (less : Comparison) (ttl : Int64) : (c.request m less ttl).1.requests.find? id = some r := by
  rw [find?_request, if_neg, hr]
  rintro rfl
  rw [hs.fresh _ (Nat.le_refl _)] at hr
  cases hr

/-! ## Snapshots -/

theorem find?_snapshots_invalidate (c : SnapshotCache) (m name : Bytes) :
    (c.invalidate m).snapshots.find? name = if name = m then none else c.snapshots.find? name :=
  Assoc.find?_erase ..

/-- **What is cached was cached before, or was published since.** -/
theorem cached_since (hrun : c.run? steps = some t) (hcached : t.snapshots.find? name = some made) :
    c.snapshots.find? name = some made ∨ ∃ j, .published j made ∈ c.trace steps := by
  let P (past : List Event) (u : SnapshotCache) : Prop :=
    ∀ made, u.snapshots.find? name = some made →
      c.snapshots.find? name = some made ∨ ∃ j, .published j made ∈ past
  have later : ∀ {past e u u'}, P past u → (∀ made, u'.snapshots.find? name = some made →
      u.snapshots.find? name = some made ∨ ∃ j, e = .published j made) → P (past ++ [e]) u' := by
    intro past e u u' h hback made hmade
    rcases hback made hmade with hold | ⟨j, rfl⟩
    · rcases h made hold with hfirst | ⟨j, hj⟩
      · exact .inl hfirst
      · exact .inr ⟨j, List.mem_append_left _ hj⟩
    · exact .inr ⟨j, List.mem_append_right _ List.mem_cons_self⟩
  refine run_induction (P := P) ?_ (fun made hmade => .inl hmade) hrun made hcached
  intro past u now e u' h htrans
  apply later h
  intro made hmade
  cases htrans with
  | requested m less ttl => exact .inl hmade
  | invalidated m =>
    rw [find?_snapshots_invalidate] at hmade
    split at hmade
    · cases hmade
    · exact .inl hmade
  | @turned i _ _ _ hr turn =>
    rcases turn.find?_snapshot hmade with hold | ⟨-, _, _, -, -, hshown⟩
    · exact .inl hold
    · exact .inr ⟨i, hshown⟩

/-- **What is published is newer than everything from before.** -/
theorem le_id_of_published (hrun : c.run? steps = some t) :
    c.nextSnapshot ≤ t.nextSnapshot ∧
      ∀ j made, .published j made ∈ c.trace steps → c.nextSnapshot ≤ made.id := by
  refine run_induction (P := fun past u => c.nextSnapshot ≤ u.nextSnapshot ∧
    ∀ j made, .published j made ∈ past → c.nextSnapshot ≤ made.id) ?_
    ⟨Nat.le_refl _, fun j made h => by cases h⟩ hrun
  rintro past u now e u' ⟨hle, hpast⟩ htrans
  have hstep : u.nextSnapshot ≤ u'.nextSnapshot ∧ ∀ j made, e = .published j made →
      made.id = u.nextSnapshot := by
    cases htrans with
    | requested _ _ _ | invalidated _ => exact ⟨Nat.le_refl _, fun j made h => by cases h⟩
    | turned _ turn =>
      cases turn with
      | published _ =>
        refine ⟨Nat.le_succ _, fun j made h => ?_⟩
        cases h
        rfl
      | _ => exact ⟨Nat.le_refl _, fun j made h => by cases h⟩
  refine ⟨Nat.le_trans hle hstep.1, fun j made hj => ?_⟩
  rcases List.mem_append.mp hj with hj | hj
  · exact hpast j made hj
  · rw [hstep.2 j made (List.mem_singleton.mp hj).symm]
    exact hle

/-- In a cache that was empty once, everything that is cached is older than the next snapshot. -/
theorem lt_nextSnapshot_of_cached (hrun : ({} : SnapshotCache).run? steps = some t)
    (hcached : t.snapshots.find? name = some made) : made.id < t.nextSnapshot := by
  refine run_induction (P := fun _ u => ∀ made, u.snapshots.find? name = some made →
    made.id < u.nextSnapshot) ?_ (fun made h => by cases h) hrun made hcached
  intro past u now e u' h htrans made hmade
  cases htrans with
  | requested m less ttl => exact h made hmade
  | invalidated m =>
    rw [find?_snapshots_invalidate] at hmade
    split at hmade
    · cases hmade
    · exact h made hmade
  | turned hr turn =>
    cases turn with
    | published _ =>
      have hput : (u.snapshots.put _ _).find? name = some made := hmade
      rw [Assoc.find?_put] at hput
      split at hput
      · cases hput
        exact Nat.lt_succ_self _
      · exact Nat.lt_succ_of_lt (h made hput)
    | _ => exact h made hmade

/-! ## Names -/

/-- The name that a request is for. -/
def name? (c : SnapshotCache) (id : RequestId) : Option Bytes :=
  (c.requests.find? id).map Request.name

theorem name?_eq_some_iff :
    c.name? id = some name ↔ ∃ r, c.requests.find? id = some r ∧ r.name = name :=
  Option.map_eq_some_iff

theorem name?_of_step (hs : Sound c) (hname : c.name? id = some name)
    (hstep : c.step? now a = some c') : c'.name? id = some name := by
  rw [name?_eq_some_iff] at hname ⊢
  obtain ⟨r, hr, hname⟩ := hname
  rcases step?_cases hstep with ⟨m, less, ttl, -, rfl⟩ | ⟨m, -, rfl⟩ | ⟨j, q, -, hq, turn⟩
  · exact ⟨r, hs.find?_request_old hr .., hname⟩
  · exact ⟨r, hr, hname⟩
  · by_cases hj : id = j
    · subst hj
      rw [hr] at hq
      cases hq
      obtain ⟨stage, hrequests, -⟩ := turn.requests_eq
      exact ⟨{ r with stage }, by rw [hrequests, Assoc.find?_put, if_pos rfl], hname⟩
    · exact ⟨r, by rw [turn.find?_other hj, hr], hname⟩

/-- **A request keeps its name.** -/
theorem name?_of_run (hs : Sound c) (hname : c.name? id = some name)
    (hrun : c.run? steps = some t) : t.name? id = some name := by
  induction steps generalizing c with
  | nil =>
    cases hrun
    exact hname
  | cons timed rest ih =>
    obtain ⟨c₁, hstep, hrest, -⟩ := Machine.run?_cons_eq_some hrun
    exact ih (hs.step (transition_of_step? hstep)) (name?_of_step hs hname hstep) hrest

end SnapshotCache

end Keyspace
