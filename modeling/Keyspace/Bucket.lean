import Keyspace.Flush
import Keyspace.KeyLocks
import Keyspace.ShardedMap
import Keyspace.SnapshotCache
import Keyspace.WorkerPool

/-!
# Buckets

A bucket is the authority over the keys of one partition: a sharded map, the locks on its keys, and,
from the first range query on, a cache of sorted snapshots. Reads, `put` and `remove` are single
accesses to the map and take no lock; updates take several steps and stand in
`Keyspace.BucketSystem`. A bucket never stores a null value. Of what it stores it knows only what
`Storable` says.
-/

namespace Keyspace

/-- **A bucket.** -/
structure Bucket (V : Type) where
  name : Bytes
  map : ShardedMap V
  locks : KeyLocks := {}
  cache : Option SnapshotCache := none

namespace Bucket

variable {V : Type}

/-- An empty bucket. The shards are made before it is asked whether there is a pool for updates. -/
def create (name : Bytes) (hash : Bytes → Nat) (shards : Nat) (hasExecutor : Bool) :
    Outcome (Bucket V) :=
  match ShardedMap.create hash shards with
  | .error f => .error f
  | .ok map => if hasExecutor then .ok { name, map } else .error (.noExecutor name)

/-- The number of keys. -/
def size (b : Bucket V) : Nat :=
  b.map.size

/-- The keys, in no particular order. -/
def keys (b : Bucket V) : List Bytes :=
  b.map.keys

/-- A value is stored under a key, in place of any other. -/
def put (b : Bucket V) (key : Bytes) (value : Option V) : Outcome (Bucket V) :=
  match value with
  | none => .error (.nullValue key)
  | some v => .ok { b with map := b.map.put key (some v) }

/-- The value of a key. -/
def get (b : Bucket V) (key : Bytes) : Outcome V :=
  match b.map.get? key with
  | some v => .ok v
  | none => .error (.keyMissing key)

/-- The value of a key if it satisfies a predicate. A key that is missing is a failure, a predicate
that does not hold is not. -/
def conditionalGet [Storable V] (b : Bucket V) (key : Bytes) (p : Predicate) (c : Condition) :
    Outcome (Option V) :=
  match b.get key with
  | .error f => .error f
  | .ok v =>
    match Storable.satisfies v p c with
    | .ok true => .ok (some v)
    | .ok false => .ok none
    | .error f => .error (.predicateUndecided key f.message)

/-- A key is removed. -/
def remove (b : Bucket V) (key : Bytes) : Outcome (Bucket V) :=
  match b.map.remove key with
  | (true, map) => .ok { b with map }
  | (false, _) => .error (.keyMissing key)

/-- The deliveries for a list of keys; those that are missing are skipped. -/
def deliveries (b : Bucket V) (keys : List Bytes) : List (Delivery V) :=
  keys.filterMap fun key => (b.map.get? key).map fun value => { bucket := b.name, key, value }

/-- **Entries are handed to the storage layer**, if there is one. -/
def flush (b : Bucket V) (hook : Option (FlushHook V)) (keys : List Bytes) : FlushReport V :=
  match hook with
  | none => {}
  | some hook => Delivery.report hook (b.deliveries keys)

/-- A condition selects keys, and the selection is flushed in one call. -/
def flushSelected (b : Bucket V) (hook : Option (FlushHook V)) (condition : FlushCondition) :
    Selection × FlushReport V :=
  let selection := Selection.ofKeys condition b.name b.keys
  (selection, if selection.chosen.isEmpty then {} else b.flush hook selection.chosen)

/-- **The keys in a range**, off the snapshot of a name: one that is in the cache and fresh, or a
new one with the given comparison and lifetime. -/
def keysInRange (b : Bucket V) (r : Range) (less : Comparison) (snapshot : Bytes)
    (timeToLive : Int64) (clock : Clock) : Outcome (List Bytes) × Bucket V :=
  let (result, cache) :=
    (b.cache.getD {}).getOrCompute (.ok b.keys) snapshot less timeToLive clock
  let b := { b with cache := some cache }
  match result with
  | some (.ok made) => (.ok (made.snapshot.keysInRange r), b)
  | some (.error f) => (.error f, b)
  | none => (.ok [], b)

end Bucket

end Keyspace
