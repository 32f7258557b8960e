import Keyspace.BucketSystem
import Keyspace.Proofs.CacheOrigins
import Keyspace.Proofs.Runs
import Keyspace.Proofs.UpdateSteps

/-!
# The steps of range queries

A range query asks the snapshot cache of its bucket for a snapshot, and if it has to make one it
visits the shards of the map one at a time, while accesses, updates and other queries go on.
`QueriedBucket` is a bucket with its updates and with the enumerations of its queries, and its
machine takes a step of any of them: a step of the bucket's system, a step of a request of the
cache, an invalidation, or a visit. Each name of a snapshot stands for one of the built-in orders.

A run shows which map each visit saw, which snapshots were published, and what was answered. The
steps are inverted once, to `QueriedBucket.Transition`.
-/

namespace Keyspace

variable {V : Type}

/-- **A bucket that is queried for ranges**: with its updates, and the enumerations of the requests
of its snapshot cache. -/
structure QueriedBucket (V : Type) where
  system : BucketSystem V
  enumerations : Assoc RequestId Enumeration := []

/-- Whether a step of the cache is neither the arrival of a request nor the end of its enumeration.
-/
def SnapshotCache.Step.isInner : SnapshotCache.Step → Bool
  | .request _ _ _ => false
  | .enumerate _ _ => false
  | _ => true

namespace QueriedBucket

/-- The snapshot cache, which is empty before the first query. -/
def cache (s : QueriedBucket V) : SnapshotCache :=
  s.system.bucket.cache.getD {}

/-- The map of the bucket. -/
def map (s : QueriedBucket V) : ShardedMap V :=
  s.system.bucket.map

/-- The enumeration of a request, which has visited nothing before its first visit. -/
def enumeration (s : QueriedBucket V) (id : RequestId) : Enumeration :=
  (s.enumerations.find? id).getD {}

/-- The bucket with a change of its snapshot cache. -/
def withCache (s : QueriedBucket V) (c : SnapshotCache) : QueriedBucket V :=
  { s with system := { s.system with bucket := { s.system.bucket with cache := some c } } }

/-- The steps of a bucket that is queried. -/
inductive Step (V : Type) where
  /-- An access, a step of an update, or one of the pool. -/
  | system (step : BucketSystem.Step V)
  /-- A query comes and asks for the snapshot of a name. -/
  | query (name : Bytes) (timeToLive : Int64)
  /-- A step of a request, or an invalidation. -/
  | cache (now : Int64) (step : SnapshotCache.Step)
  /-- The enumeration of a request visits the next shard. -/
  | visit (id : RequestId)
  /-- The enumeration of a request has visited all shards. -/
  | gather (id : RequestId)
  /-- A query whose request is done answers a range, and the request is forgotten. -/
  | answer (id : RequestId) (range : Range)

/-- **What a step shows**: the map that a visit sees, a snapshot that is published, or an answer and
the snapshot that it is read off. -/
inductive Event (V : Type) where
  | visited (id : RequestId) (map : ShardedMap V)
  | published (id : RequestId) (made : Cached)
  | answered (name : Bytes) (range : Range) (made : Cached) (answer : List Bytes)
  | silent

/-- What a step of the cache shows. -/
def Event.ofCache : SnapshotCache.Event → Event V
  | .published id made => .published id made
  | _ => .silent

/-- The answer of a request that is done. -/
def answered? (c : SnapshotCache) (id : RequestId) (range : Range) : Option (Event V) :=
  match c.requests.find? id with
  | some { name, stage := .done (.ok made), .. } =>
    some (.answered name range made (made.snapshot.keysInRange range))
  | _ => none

/-- The bucket after a step; `none` for a step that is not possible. -/
def step? [Storable V] (orders : Bytes → KeyOrder) (s : QueriedBucket V) :
    Step V → Option (QueriedBucket V)
  | .system a => (s.system.step? a).map fun system => { s with system }
  | .query name timeToLive =>
    some (s.withCache (s.cache.request name (orders name).less timeToLive).1)
  | .cache now a => if a.isInner then (s.cache.step? now a).map s.withCache else none
  | .visit id =>
    if s.cache.isEnumerating id then
      ((s.enumeration id).visit? s.map).map fun e =>
        { s with enumerations := s.enumerations.put id e }
    else none
  | .gather id =>
    match (s.enumeration id).visit? s.map with
    | some _ => none
    | none => (s.cache.enumerate? id (.ok (s.enumeration id).found)).map s.withCache
  | .answer id range =>
    (answered? (V := V) s.cache id range).map fun _ => s.withCache (s.cache.forget id)

/-- What a step shows. -/
def event (s : QueriedBucket V) : Step V → Event V
  | .cache now a => .ofCache (s.cache.event now a)
  | .visit id => .visited id s.map
  | .answer id range => (answered? s.cache id range).getD .silent
  | _ => .silent

/-- A bucket that is queried as a machine. -/
def machine [Storable V] (orders : Bytes → KeyOrder) :
    Machine (QueriedBucket V) (Step V) (Event V) where
  step? := step? orders
  event := event

variable {orders : Bytes → KeyOrder} {s s' : QueriedBucket V} {id : RequestId}

/-- **A step of a bucket that is queried**: what it shows, and the bucket after it. -/
inductive Transition [Storable V] (orders : Bytes → KeyOrder) (s : QueriedBucket V) :
    Event V → QueriedBucket V → Prop
  | worked {e : Keyspace.Event V} {system : BucketSystem V}
    (moved : BucketSystem.Transition s.system e system) :
    Transition orders s .silent { s with system }
  | queried (name : Bytes) (timeToLive : Int64) :
    Transition orders s .silent (s.withCache (s.cache.request name (orders name).less timeToLive).1)
  | turned {now : Int64} {id : RequestId} {r : Request} {e : SnapshotCache.Event} {c : SnapshotCache}
    (request : s.cache.requests.find? id = some r) (turn : SnapshotCache.Turn s.cache now id r e c)
    (inner : ∀ keys, e ≠ .gave id keys) :
    Transition orders s (.ofCache e) (s.withCache c)
  | invalidated (name : Bytes) :
    Transition orders s .silent (s.withCache (s.cache.invalidate name))
  | visited {id : RequestId} {r : Request} {lock : Nat} {e : Enumeration}
    (request : s.cache.requests.find? id = some r) (stage : r.stage = .enumerating lock)
    (visit : (s.enumeration id).visit? s.map = some e) :
    Transition orders s (.visited id s.map) { s with enumerations := s.enumerations.put id e }
  | gathered {id : RequestId} {r : Request} {lock : Nat}
    (request : s.cache.requests.find? id = some r) (stage : r.stage = .enumerating lock)
    (ended : (s.enumeration id).visit? s.map = none) :
    Transition orders s .silent
      (s.withCache (s.cache.move id r (.enumerated lock (s.enumeration id).found)))
  | answered {id : RequestId} {r : Request} {made : Cached}
    (request : s.cache.requests.find? id = some r) (done : r.stage = .done (.ok made))
    (range : Range) :
    Transition orders s (.answered r.name range made (made.snapshot.keysInRange range))
      (s.withCache (s.cache.forget id))

theorem exists_of_isEnumerating {c : SnapshotCache} (h : c.isEnumerating id = true) :
    ∃ r lock, c.requests.find? id = some r ∧ r.stage = .enumerating lock := by
  unfold SnapshotCache.isEnumerating at h
  split at h
  · next hr => exact ⟨_, _, hr, rfl⟩
  · cases h

theorem answered?_eq_some {c : SnapshotCache} {range : Range} {e : Event V}
    (h : answered? c id range = some e) :
    ∃ r made, c.requests.find? id = some r ∧ r.stage = .done (.ok made) ∧
      e = .answered r.name range made (made.snapshot.keysInRange range) := by
  unfold answered? at h
  split at h
  · next hr =>
    cases h
    exact ⟨_, _, hr, rfl, rfl⟩
  · cases h

/-- An inner step of the cache is an invalidation or a turn that is not the end of an enumeration.
-/
theorem transition_of_inner [Storable V] {now : Int64} {a : SnapshotCache.Step} {c : SnapshotCache}
    (hinner : a.isInner = true) (h : s.cache.step? now a = some c) :
    Transition orders s (.ofCache (s.cache.event now a)) (s.withCache c) := by
  rcases SnapshotCache.step?_cases h with
    ⟨name, less, ttl, rfl, -⟩ | ⟨name, rfl, rfl⟩ | ⟨id, r, -, hr, turn⟩
  · cases hinner
  · exact .invalidated name
  · refine .turned hr turn fun keys hgave => ?_
    cases a with
    | enumerate _ _ => cases hinner
    | publish _ =>
      simp only [SnapshotCache.event] at hgave
      split at hgave <;> cases hgave
    | _ => cases hgave

/-- **Every step is a transition**, which shows what the step shows. -/
theorem transition_of_step? [Storable V] {a : Step V} (h : s.step? orders a = some s') :
    Transition orders s (s.event a) s' := by
  cases a with
  | system a =>
    obtain ⟨system, hsystem, rfl⟩ := Option.map_eq_some_iff.mp h
    exact .worked (BucketSystem.transition_of_step? hsystem)
  | query name ttl =>
    cases h
    exact .queried name ttl
  | cache now a =>
    simp only [step?] at h
    split at h
    · next hinner =>
      obtain ⟨c, hc, rfl⟩ := Option.map_eq_some_iff.mp h
      exact transition_of_inner hinner hc
    · cases h
  | visit id =>
    simp only [step?] at h
    split at h
    · next henumerating =>
      obtain ⟨e, hvisit, rfl⟩ := Option.map_eq_some_iff.mp h
      obtain ⟨r, lock, hr, hstage⟩ := exists_of_isEnumerating henumerating
      exact .visited hr hstage hvisit
    · cases h
  | gather id =>
    simp only [step?] at h
    split at h
    · cases h
    · next hover =>
      obtain ⟨c, hc, rfl⟩ := Option.map_eq_some_iff.mp h
      unfold SnapshotCache.enumerate? at hc
      split at hc
      · next hr =>
        cases hc
        exact .gathered hr rfl hover
      · cases hc
  | answer id range =>
    obtain ⟨e, he, rfl⟩ := Option.map_eq_some_iff.mp h
    simp only [event, he, Option.getD_some]
    obtain ⟨r, made, hr, hdone, rfl⟩ := answered?_eq_some he
    exact .answered hr hdone range

/-! ## What the steps leave alone -/

@[simp] theorem cache_withCache (s : QueriedBucket V) (c : SnapshotCache) :
    (s.withCache c).cache = c := rfl

@[simp] theorem map_withCache (s : QueriedBucket V) (c : SnapshotCache) :
    (s.withCache c).map = s.map := rfl

@[simp] theorem enumeration_withCache (s : QueriedBucket V) (c : SnapshotCache) (id : RequestId) :
    (s.withCache c).enumeration id = s.enumeration id := rfl

/-- A request's own visits are the only ones that its enumeration knows of. -/
theorem enumeration_put (s : QueriedBucket V) (id j : RequestId) (e : Enumeration) :
    ({ s with enumerations := s.enumerations.put id e } : QueriedBucket V).enumeration j =
      if j = id then e else s.enumeration j := by
  rw [enumeration, Assoc.find?_put]
  split
  · rfl
  · rfl

end QueriedBucket

/-- Accesses and updates leave the snapshot cache alone. -/
theorem BucketSystem.Transition.cache_eq [Storable V] {s s' : BucketSystem V} {e : Event V}
    (htrans : Transition s e s') : s'.bucket.cache = s.bucket.cache := by
  cases htrans with
  | turned _ turn => cases turn <;> rfl
  | _ => rfl

end Keyspace
