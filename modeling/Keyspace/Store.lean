import Keyspace.BucketSession
import Keyspace.StoreConfig

/-!
# Stores

A store is a registry of named buckets that share one worker pool for their updates. Buckets are
known by their **instance**, so that a bucket that was removed from the registry can still be used,
and one that is created anew under its name is another. Registering a name makes its slot first and
fills it when the bucket has been made; a bucket that cannot be made leaves an empty slot.
-/

namespace Keyspace

/-- The numbers of bucket instances, in the order of their creation. -/
abbrev Instance := Nat

/-- The names of buckets in ascending order, each with its instance or with an empty slot. -/
abbrev Registry := Assoc Bytes (Option Instance)

/-- A name in its place in a registry. -/
def Registry.insert (r : Registry) (name : Bytes) (slot : Option Instance) : Registry :=
  match r with
  | [] => [(name, slot)]
  | (n, s) :: rest =>
    if name = n then (name, slot) :: rest
    else if Bytes.less name n then (name, slot) :: (n, s) :: rest
    else (n, s) :: insert rest name slot

/-- **A store.** -/
structure Store (V : Type) where
  hash : Bytes → Nat
  shards : Nat
  workers : Nat
  pool : WorkerPool (Product V)
  registry : Registry := []
  /-- Every bucket that was created, by instance. -/
  buckets : List (Bucket V) := []

namespace Store

variable {V : Type}

/-- A store without buckets. -/
def create (hash : Bytes → Nat) (workers queue shards : Nat) : Outcome (Store V × Log) := do
  let pool ← WorkerPool.create workers queue
  return ({ hash, shards, workers, pool },
    .say (Bytes.ascii "Store started with " ++ Bytes.ofNat workers ++
      Bytes.ascii " update workers"))

/-- The slot of a name. -/
def get (s : Store V) (name : Bytes) : Outcome (Option Instance) :=
  match s.registry.find? name with
  | some slot => .ok slot
  | none => .error (.bucketMissing name)

/-- A bucket is created in a slot that was made for it. -/
def fill (s : Store V) (name : Bytes) : Outcome Instance × Store V × Log :=
  match Bucket.create name s.hash s.shards true with
  | .error f => (.error f, s, {})
  | .ok b =>
    (.ok s.buckets.length,
      { s with
        registry := s.registry.insert name (some s.buckets.length)
        buckets := s.buckets ++ [b] },
      .say (Bytes.ascii "Created bucket " ++ name))

/-- **The bucket of a name**, created if there is none. -/
def getOrCreate (s : Store V) (name : Bytes) : Outcome Instance × Store V × Log :=
  match s.registry.find? name with
  | some (some i) => (.ok i, s, {})
  | some none => s.fill name
  | none => { s with registry := s.registry.insert name none }.fill name

/-- A name is removed from the registry. -/
def remove (s : Store V) (name : Bytes) : Outcome (Store V) :=
  if s.registry.has name then .ok { s with registry := s.registry.erase name }
  else .error (.bucketMissing name)

/-- The registered names, in ascending order. -/
def names (s : Store V) : List Bytes :=
  s.registry.keys

/-- The instances in the registry, in the order of their names. -/
def registered (s : Store V) : List Instance :=
  s.registry.filterMap Prod.snd

/-- The buckets in the registry, in the order of their names. -/
def current (s : Store V) : List (Bucket V) :=
  s.registered.filterMap fun i => s.buckets[i]?

/-- Buckets are flushed in turn, until the storage layer fails: the keys that the condition was
asked about, and what came of it. -/
def flushEach (hook : Option (FlushHook V)) (condition : FlushCondition) :
    List (Bucket V) → List (Bytes × List Bytes) × FlushReport V
  | [] => ([], {})
  | b :: rest =>
    let (selection, report) := b.flushSelected hook condition
    match report.failure with
    | some _ => ([(b.name, selection.asked)], report)
    | none =>
      let (asked, later) := flushEach hook condition rest
      ((b.name, selection.asked) :: asked,
        { later with delivered := report.delivered ++ later.delivered })

/-- **The entries that a condition selects are flushed**, bucket by bucket. -/
def flush (s : Store V) (hook : Option (FlushHook V)) (condition : FlushCondition) :
    List (Bytes × List Bytes) × FlushReport V :=
  flushEach hook condition s.current

/-- The session of an instance at a given time. -/
def session? (s : Store V) (i : Instance) (now : Int) : Option (BucketSession V) :=
  (s.buckets[i]?).map fun b => .ofBucket b s.pool now

/-- The store after the session of an instance. -/
def absorb (s : Store V) (i : Instance) (session : BucketSession V) : Store V :=
  { s with pool := session.pool, buckets := s.buckets.set i session.bucket }

/-- The registry is emptied and the pool shut down. -/
def destroy (s : Store V) : Store V × Log :=
  ({ s with registry := [], pool := s.pool.shutdown 1 }, .say (Bytes.ascii "Store stopped"))

end Store

end Keyspace
