import Keyspace.Proofs.CacheSteps

/-!
# Locks of the snapshot cache

What every reachable cache keeps to (`SnapshotCache.Sound`): a request that refers to a lock refers
to the one that is registered for its name, a name with a snapshot has a lock, and a lock has one
owner at most. Locks come and go with `invalidate`, which takes a lock away only when no request
refers to it; that two names never share a lock is what lets it ask about the lock alone.

The requests of a name that enumerate keys own the lock of the name, so that there is one of them at
most; that and the rest of what the locks are for is `single_flight`.
-/

namespace Keyspace

/-- The request is between the beginning of its enumeration and its publication. -/
def RequestStage.Computing : RequestStage → Prop
  | .enumerating _ => True
  | .enumerated _ _ => True
  | _ => False

/-- A request that computes owns a lock. -/
theorem RequestStage.Computing.owned {stage : RequestStage} (h : stage.Computing) :
    ∃ lock, stage.owned? = some lock := by
  cases stage with
  | enumerating lock => exact ⟨lock, rfl⟩
  | enumerated lock _ => exact ⟨lock, rfl⟩
  | _ => exact absurd h id

/-- A request refers to the lock that it owns. -/
theorem RequestStage.lock?_of_owned? {stage : RequestStage} {lock : Nat}
    (h : stage.owned? = some lock) : stage.lock? = some lock := by
  cases stage with
  | holding _ _ | lacking _ | enumerating _ | enumerated _ _ | leaving _ _ => exact h
  | _ => cases h

namespace SnapshotCache

variable {c c' : SnapshotCache} {now : Int64} {id : RequestId} {r : Request} {e : Event}

/-- **The cache is sound.** -/
structure Sound (c : SnapshotCache) : Prop where
  keys : c.requests.keys.Nodup
  fresh : ∀ id, c.nextRequest ≤ id → c.requests.find? id = none
  registered : ∀ id r lock, c.requests.find? id = some r → r.stage.lock? = some lock →
    c.locks.find? r.name = some lock
  guarded : ∀ name, (c.snapshots.find? name).isSome → (c.locks.find? name).isSome
  exclusive : ∀ i j r q lock, c.requests.find? i = some r → c.requests.find? j = some q →
    r.stage.owned? = some lock → q.stage.owned? = some lock → i = j
  numbered : ∀ name lock, c.locks.find? name = some lock → lock < c.nextLock
  distinct : ∀ m n lock, c.locks.find? m = some lock → c.locks.find? n = some lock → m = n

/-- A cache without snapshots, locks and requests is sound. -/
theorem Sound.empty : Sound {} where
  keys := List.nodup_nil
  fresh _ _ := rfl
  registered _ _ _ h := by cases h
  guarded _ h := by cases h
  exclusive _ _ _ _ _ h := by cases h
  numbered _ _ h := by cases h
  distinct _ _ _ h := by cases h

/-! ## Preservation -/

/-- A request that goes to a stage whose lock is the one of its name, and which it owned before or
nobody owns, leaves the cache sound. -/
theorem Sound.move (h : Sound c) (hr : c.requests.find? id = some r) {stage : RequestStage}
    (hlock : ∀ lock, stage.lock? = some lock → c.locks.find? r.name = some lock)
    (howned : ∀ lock, stage.owned? = some lock →
      r.stage.owned? = some lock ∨ c.isOwned lock = false) : Sound (c.move id r stage) where
  keys := Assoc.nodup_keys_put h.keys _ _
  fresh j hj := by
    rw [find?_move, if_neg, h.fresh j hj]
    rintro rfl
    rw [h.fresh j hj] at hr
    cases hr
  registered j q lock hq hl := by
    rw [find?_move] at hq
    split at hq
    · cases hq
      exact hlock lock hl
    · exact h.registered j q lock hq hl
  guarded := h.guarded
  exclusive i j q p lock hq hp hi hj := by
    -- another owner of the lock owned it before, when the request that moves did or nobody
    have halone : ∀ k p, k ≠ id → c.requests.find? k = some p → stage.owned? = some lock →
        p.stage.owned? ≠ some lock := by
      intro k p hk hp hstage hown
      rcases howned lock hstage with hbefore | hfree
      · exact hk (h.exclusive k id p r lock hp hr hown hbefore)
      · exact owned?_ne_of_isOwned_eq_false hfree hp hown
    rw [find?_move] at hq hp
    split at hq
    · next hi' =>
      cases hq
      split at hp
      · next hj' => exact hi'.trans hj'.symm
      · next hj' => exact absurd hj (halone j p hj' hp hi)
    · next hi' =>
      split at hp
      · cases hp
        exact absurd hi (halone i q hi' hq hj)
      · exact h.exclusive i j q p lock hq hp hi hj
  numbered := h.numbered
  distinct := h.distinct

/-- A new request refers to no lock. -/
theorem Sound.request (h : Sound c) (name : Bytes) (less : Comparison) (timeToLive : Int64) :
    Sound (c.request name less timeToLive).1 where
  keys := Assoc.nodup_keys_put h.keys _ _
  fresh j hj := by
    rw [find?_request, if_neg (Nat.ne_of_gt hj)]
    exact h.fresh j (Nat.le_of_succ_le hj)
  registered j q lock hq hl := by
    rw [find?_request] at hq
    split at hq
    · cases hq
      cases hl
    · exact h.registered j q lock hq hl
  guarded := h.guarded
  exclusive i j q p lock hq hp hi hj := by
    rw [find?_request] at hq hp
    split at hq
    · cases hq
      cases hi
    · split at hp
      · cases hp
        cases hj
      · exact h.exclusive i j q p lock hq hp hi hj
  numbered := h.numbered
  distinct := h.distinct

/-- A lock that is made for a name without one is like no other, and no request of the name refers
to a lock. -/
theorem Sound.withLock (h : Sound c) {name : Bytes} (hnone : c.locks.find? name = none) :
    Sound (c.withLock name) where
  keys := h.keys
  fresh := h.fresh
  registered j q lock hq hl := by
    have hfound := h.registered j q lock hq hl
    simp only [SnapshotCache.withLock]
    rw [Assoc.find?_put, if_neg, hfound]
    intro hname
    rw [hname, hnone] at hfound
    cases hfound
  guarded m hm := by
    simp only [SnapshotCache.withLock]
    rw [Assoc.find?_put]
    split
    · rfl
    · exact h.guarded m hm
  exclusive := h.exclusive
  numbered m lock hm := by
    simp only [SnapshotCache.withLock] at hm ⊢
    rw [Assoc.find?_put] at hm
    split at hm
    · cases hm
      exact Nat.lt_succ_self _
    · exact Nat.lt_succ_of_lt (h.numbered m lock hm)
  distinct m n lock hm hn := by
    have hold : ∀ k, c.locks.find? k ≠ some c.nextLock := fun k hk =>
      Nat.lt_irrefl _ (h.numbered k _ hk)
    simp only [SnapshotCache.withLock] at hm hn
    rw [Assoc.find?_put] at hm hn
    split at hm
    · next hmname =>
      cases hm
      split at hn
      · next hnname => exact hmname.trans hnname.symm
      · exact absurd hn (hold n)
    · split at hn
      · cases hn
        exact absurd hm (hold m)
      · exact h.distinct m n lock hm hn

/-- A snapshot that is made for a name with a lock leaves the cache sound. -/
theorem Sound.withSnapshot (h : Sound c) {name : Bytes} (hlock : (c.locks.find? name).isSome)
    (made : Cached) : Sound (c.withSnapshot name made) where
  keys := h.keys
  fresh := h.fresh
  registered := h.registered
  guarded m hm := by
    simp only [SnapshotCache.withSnapshot] at hm
    rw [Assoc.find?_put] at hm
    split at hm
    · next hname => exact hname ▸ hlock
    · exact h.guarded m hm
  exclusive := h.exclusive
  numbered := h.numbered
  distinct := h.distinct

/-- The locks after an invalidation: the one of the name is there as long as a request refers to it.
-/
theorem find?_locks_invalidate (c : SnapshotCache) (name m : Bytes) :
    (c.invalidate name).locks.find? m =
      if m = name ∧ ∀ lock, c.locks.find? name = some lock → c.isReferred lock = false then none
      else c.locks.find? m := by
  cases hlock : c.locks.find? name with
  | none =>
    simp only [SnapshotCache.invalidate, hlock, reduceCtorEq, false_implies, implies_true, and_true]
    split
    · next hm => rw [hm, hlock]
    · rfl
  | some lock =>
    simp only [SnapshotCache.invalidate, hlock, Option.some.injEq, forall_eq']
    cases c.isReferred lock with
    | true => simp only [if_true, reduceCtorEq, and_false, if_false]
    | false => simp only [Bool.false_eq_true, if_false, Assoc.find?_erase, and_true]

/-- **The lock of a name outlives an invalidation exactly if a request of the name refers to it.**
-/
theorem Sound.find?_invalidate_eq_none_iff (h : Sound c) (name : Bytes) :
    (c.invalidate name).locks.find? name = none ↔
      ∀ id r, c.requests.find? id = some r → r.name = name → r.stage.lock? = none := by
  rw [find?_locks_invalidate]
  constructor
  · intro hnone id r hr hname
    cases hl : r.stage.lock? with
    | none => rfl
    | some lock =>
      have hlock : c.locks.find? name = some lock := hname ▸ h.registered id r lock hr hl
      split at hnone
      · next hfree => exact absurd hl (lock?_ne_of_isReferred_eq_false (hfree.2 lock hlock) hr)
      · rw [hlock] at hnone
        cases hnone
  · intro hfree
    refine if_pos ⟨rfl, fun lock hlock => ?_⟩
    -- a request that refers to the lock is one of the name, because no other name has this lock
    refine Bool.eq_false_iff.mpr fun href => ?_
    obtain ⟨⟨id, r⟩, hmem, hl⟩ := List.any_eq_true.mp href
    have hr : c.requests.find? id = some r := Assoc.find?_of_mem h.keys hmem
    have hl : r.stage.lock? = some lock := by simpa using hl
    have hname := h.distinct r.name name lock (h.registered id r lock hr hl) hlock
    rw [hfree id r hr hname] at hl
    cases hl

/-- **An invalidation leaves the cache sound**: it takes no lock that a request refers to. -/
theorem Sound.invalidate (h : Sound c) (name : Bytes) : Sound (c.invalidate name) where
  keys := h.keys
  fresh := h.fresh
  registered j q lock hq hl := by
    have hfound := h.registered j q lock hq hl
    rw [find?_locks_invalidate, if_neg, hfound]
    rintro ⟨hname, hfree⟩
    exact lock?_ne_of_isReferred_eq_false (hfree lock (hname ▸ hfound)) hq hl
  guarded m hm := by
    have hsnapshot : (c.invalidate name).snapshots = c.snapshots.erase name := rfl
    rw [hsnapshot, Assoc.find?_erase] at hm
    rw [find?_locks_invalidate]
    split at hm
    · cases hm
    · next hname =>
      rw [if_neg fun hboth => hname hboth.1]
      exact h.guarded m hm
  exclusive := h.exclusive
  numbered m lock hm := by
    rw [find?_locks_invalidate] at hm
    split at hm
    · cases hm
    · exact h.numbered m lock hm
  distinct m n lock hm hn := by
    rw [find?_locks_invalidate] at hm hn
    split at hm
    · cases hm
    · split at hn
      · cases hn
      · exact h.distinct m n lock hm hn

/-- A turn of a request leaves the cache sound. -/
theorem Sound.turn (h : Sound c) (hr : c.requests.find? id = some r)
    (turn : Turn c now id r e c') : Sound c' := by
  -- a request with a lock goes on with the same lock, or without any
  have onwards : ∀ {c : SnapshotCache}, Sound c → c.requests.find? id = some r →
      ∀ {stage : RequestStage},
      (∀ lock, stage.lock? = some lock → r.stage.lock? = some lock) →
      (∀ lock, stage.owned? = some lock → r.stage.owned? = some lock) →
      Sound (c.move id r stage) := by
    intro c h hr stage hlock howned
    exact h.move hr (fun lock hl => h.registered id r lock hr (hlock lock hl))
      fun lock hl => .inl (howned lock hl)
  cases turn with
  | missed _ _ | outdated _ _ _ | served _ _ _ | dropped _ =>
    exact onwards h hr (fun lock hl => by cases hl) fun lock hl => by cases hl
  | joined _ found =>
    refine h.move hr (fun lock hl => ?_) fun lock hl => by cases hl
    cases hl
    exact found
  | made _ absent =>
    refine (h.withLock absent).move hr (fun lock hl => ?_) fun lock hl => by cases hl
    cases hl
    exact (Assoc.find?_put ..).trans (if_pos rfl)
  | acquired stage free =>
    refine h.move hr (fun lock hl => ?_) fun lock hl => ?_
    · exact h.registered id r lock hr (by rw [stage]; exact hl)
    · cases hl
      exact .inr free
  | taken stage _ _ | lacked stage _ | began stage | gave _ stage | failed _ stage =>
    exact onwards h hr (fun lock hl => by rw [stage]; exact hl) fun lock hl => by
      rw [stage]; exact hl
  | published stage =>
    have hlock := h.registered id r _ hr (by rw [stage]; rfl)
    have hsome : (c.locks.find? r.name).isSome := by rw [hlock]; rfl
    exact onwards (h.withSnapshot hsome _) hr (fun lock hl => by rw [stage]; exact hl)
      fun lock hl => by rw [stage]; exact hl
  | left stage =>
    exact onwards h hr (fun lock hl => by rw [stage]; exact hl) fun lock hl => by cases hl

/-- **A step leaves the cache sound.** -/
theorem Sound.step (h : Sound c) (htrans : Transition c now e c') : Sound c' := by
  cases htrans with
  | requested name less ttl => exact h.request name less ttl
  | turned hr turn => exact h.turn hr turn
  | invalidated name => exact h.invalidate name

/-- **A run leaves the cache sound.** -/
theorem Sound.of_run (h : Sound c) {steps : List (Int64 × Step)} {t : SnapshotCache}
    (hrun : c.run? steps = some t) : Sound t :=
  run_induction (P := fun _ c => Sound c) (fun _ _ _ _ _ h htrans => h.step htrans) h hrun

/-! ## Consequences -/

/-- A lock is free when no request that a look-up finds owns it. -/
theorem isOwned_eq_false (hkeys : c.requests.keys.Nodup) {lock : Nat}
    (hnone : ∀ id r, c.requests.find? id = some r → r.stage.owned? ≠ some lock) :
    c.isOwned lock = false := by
  refine List.any_eq_false.mpr ?_
  rintro ⟨id, r⟩ hmem
  simpa using hnone id r (Assoc.find?_of_mem hkeys hmem)

/-- Requests of one name that both own a lock are the same request. -/
theorem Sound.owner_unique (h : Sound c) {i j : RequestId} {r q : Request}
    (hr : c.requests.find? i = some r) (hq : c.requests.find? j = some q)
    (hname : r.name = q.name) (hi : ∃ lock, r.stage.owned? = some lock)
    (hj : ∃ lock, q.stage.owned? = some lock) : i = j := by
  obtain ⟨l, hl⟩ := hi
  obtain ⟨k, hk⟩ := hj
  have hfound := h.registered i r l hr (RequestStage.lock?_of_owned? hl)
  rw [hname, h.registered j q k hq (RequestStage.lock?_of_owned? hk)] at hfound
  cases hfound
  exact h.exclusive i j r q l hr hq hl hk

/-- Requests of one name that both compute are the same request. -/
theorem Sound.computing_unique (h : Sound c) {i j : RequestId} {r q : Request}
    (hr : c.requests.find? i = some r) (hq : c.requests.find? j = some q)
    (hname : r.name = q.name) (hi : r.stage.Computing) (hj : q.stage.Computing) : i = j :=
  h.owner_unique hr hq hname hi.owned hj.owned

/-- **Single flight.** In every cache that a run from the empty one reaches, a request that refers
to a lock refers to the one registered for its name; a name with a snapshot has a lock; at most one
request of a name is between the beginning of its enumeration and its publication; and an
invalidation leaves no snapshot of its name, nor, exactly when no request of the name refers to it,
the lock. -/
theorem single_flight {steps : List (Int64 × Step)}
    (hrun : ({} : SnapshotCache).run? steps = some c) :
    (∀ id r lock, c.requests.find? id = some r → r.stage.lock? = some lock →
      c.locks.find? r.name = some lock) ∧
    (∀ name, (c.snapshots.find? name).isSome → (c.locks.find? name).isSome) ∧
    (∀ i j r q, c.requests.find? i = some r → c.requests.find? j = some q → r.name = q.name →
      r.stage.Computing → q.stage.Computing → i = j) ∧
    ∀ name, (c.invalidate name).snapshots.find? name = none ∧
      ((c.invalidate name).locks.find? name = none ↔
        ∀ id r, c.requests.find? id = some r → r.name = name → r.stage.lock? = none) := by
  have h : Sound c := Sound.empty.of_run hrun
  refine ⟨h.registered, h.guarded, ?_, ?_⟩
  · intro i j r q hr hq hname hi hj
    exact h.computing_unique hr hq hname hi hj
  · intro name
    have hsnapshot : (c.invalidate name).snapshots = c.snapshots.erase name := rfl
    refine ⟨?_, h.find?_invalidate_eq_none_iff name⟩
    rw [hsnapshot, Assoc.find?_erase, if_pos rfl]

/-- Two requests of one name: the first enumerates the keys, the second waits for its lock. -/
def crowdedSteps : List (Int64 × Step) :=
  [(0, .request [115] Bytes.less 1000), (0, .look 0), (0, .join 0), (0, .acquire 0), (0, .review 0),
    (0, .begin 0), (0, .request [115] Bytes.less 1000), (0, .look 1), (0, .join 1)]

/-- The second request refers to the lock that the first owns, and the lock outlives an
invalidation. -/
theorem crowded_single_flight : ∃ c, ({} : SnapshotCache).run? crowdedSteps = some c ∧
    (∃ r, c.requests.find? 0 = some r ∧ r.stage.Computing) ∧
    (∃ r, c.requests.find? 1 = some r ∧ r.stage.lock? = some 0) ∧
    (c.invalidate [115]).locks.find? [115] = some 0 ∧
    (∀ id r lock, c.requests.find? id = some r → r.stage.lock? = some lock →
      c.locks.find? r.name = some lock) ∧
    (∀ name, (c.snapshots.find? name).isSome → (c.locks.find? name).isSome) ∧
    (∀ i j r q, c.requests.find? i = some r → c.requests.find? j = some q → r.name = q.name →
      r.stage.Computing → q.stage.Computing → i = j) ∧
    ∀ name, (c.invalidate name).snapshots.find? name = none ∧
      ((c.invalidate name).locks.find? name = none ↔
        ∀ id r, c.requests.find? id = some r → r.name = name → r.stage.lock? = none) := by
  have hrun : ({} : SnapshotCache).run? crowdedSteps = some _ := rfl
  exact ⟨_, hrun, ⟨_, rfl, trivial⟩, ⟨_, rfl, rfl⟩, rfl, single_flight hrun⟩

end SnapshotCache

end Keyspace
