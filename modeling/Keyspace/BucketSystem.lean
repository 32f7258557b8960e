import Keyspace.Bucket
import Keyspace.Log

/-!
# Updates of a bucket

An update is a read, an evaluation in the worker pool and a write, under the lock of its key. As a
**call** it goes through the stages of `UpdateStage`, one step each: the key is checked for,
claimed, locked, read; the evaluation is submitted and awaited; its value is stored; the lock is
given free and the claim dropped. `BucketSystem` is a bucket with the pool and the calls that are
under way, and `BucketSystem.step?` lets any of them, any worker, or a caller of `put`, `get` or
`remove` take the next step.

A call ends without a write when the key is missing at its check or under its lock, when the pool
refuses the evaluation, when the evaluation fails or gives nothing, and when it is given up because
its time is over (`BucketSystem.expire?`). The task of a call that is given up is cancelled;
whatever it gives later reaches nobody. The handle of a task is the call's own: while a call awaits
a task, nobody else cancels it or takes its result.
-/

namespace Keyspace

/-- The names of calls. -/
abbrev CallId := Nat

/-- Where the call of an update stands. -/
inductive UpdateStage (V : Type) where
  | checking
  | claiming
  | locking (claim : ClaimId)
  | reading (claim : ClaimId)
  | submitting (claim : ClaimId) (value : V)
  | awaiting (claim : ClaimId) (task : TaskId)
  | storing (claim : ClaimId) (value : V)
  | freeing (claim : ClaimId) (result : Outcome Unit)
  | dropping (claim : ClaimId) (result : Outcome Unit)
  | done (result : Outcome Unit)

/-- **The call of an update**; its time is in milliseconds. -/
structure UpdateCall (V : Type) where
  key : Bytes
  update : Update
  function : Function
  timeout : Int
  stage : UpdateStage V := .checking

/-- **A bucket, the pool of its updates, and the calls that are under way.** -/
structure BucketSystem (V : Type) where
  bucket : Bucket V
  pool : WorkerPool (Product V)
  calls : Assoc CallId (UpdateCall V) := []
  nextCall : CallId := 0

namespace BucketSystem

variable {V : Type}

/-- A new call. -/
def call (s : BucketSystem V) (c : UpdateCall V) : BucketSystem V × CallId :=
  ({ s with
      calls := s.calls.put s.nextCall { c with stage := .checking }
      nextCall := s.nextCall + 1 },
    s.nextCall)

/-- A call goes to another stage. -/
def move (s : BucketSystem V) (id : CallId) (c : UpdateCall V) (stage : UpdateStage V) :
    BucketSystem V :=
  { s with calls := s.calls.put id { c with stage } }

/-- The system with a change of the locks on keys. -/
def withLocks (s : BucketSystem V) (locks : KeyLocks) : BucketSystem V :=
  { s with bucket := { s.bucket with locks } }

/-- The system with a change of the stored values. -/
def withMap (s : BucketSystem V) (map : ShardedMap V) : BucketSystem V :=
  { s with bucket := { s.bucket with map } }

/-- A line about a call: what the bucket did with the update of its key, and what else there is to
say. -/
def report (s : BucketSystem V) (c : UpdateCall V) (deed rest : Bytes) : Log :=
  .warn (Bytes.ascii "Bucket " ++ s.bucket.name ++ Bytes.ascii " " ++ deed ++
    Bytes.ascii " update of " ++ c.key ++ rest)

/-- The evaluation is submitted to the pool. -/
def submit [Storable V] (s : BucketSystem V) (id : CallId) (c : UpdateCall V) (claim : ClaimId)
    (value : V) : BucketSystem V × Log :=
  match s.pool.submit (Storable.evaluate value c.update c.function) with
  | .ok (pool, task) => ({ s with pool }.move id c (.awaiting claim task), {})
  | .error f =>
    (s.move id c (.freeing claim (.error (.updateUnscheduled f.message))),
      { err := s.pool.submissionLog } ++
        s.report c (Bytes.ascii "could not schedule") (Bytes.ascii ": " ++ f.message))

/-- A call is given up because its time is over or its evaluation gave nothing. -/
def giveUp (s : BucketSystem V) (id : CallId) (c : UpdateCall V) (claim : ClaimId)
    (task : TaskId) : BucketSystem V × Log :=
  ({ s with pool := s.pool.cancel task }.move id c (.freeing claim (.error .updateExpired)),
    s.report c (Bytes.ascii "cancelled")
      (Bytes.ascii " after " ++ Bytes.ofInt c.timeout ++ Bytes.ascii "ms"))

/-- The result of a finished evaluation is taken. -/
def take? (s : BucketSystem V) (id : CallId) (c : UpdateCall V) (claim : ClaimId)
    (task : TaskId) : Option (BucketSystem V × Log) :=
  match s.pool.await task with
  | (.ok none, _) => none
  | (.ok (some (.value (some v))), pool) => some ({ s with pool }.move id c (.storing claim v), {})
  | (.ok (some _), pool) => some ({ s with pool }.giveUp id c claim task)
  | (.error f, pool) =>
    some ({ s with pool := pool.cancel task }.move id c
        (.freeing claim (.error (.updateFailed f.message))),
      s.report c (Bytes.ascii "cancelled") (Bytes.ascii " after failure: " ++ f.message))

/-- **The next step of a call**, and what it prints. -/
def advance? [Storable V] (s : BucketSystem V) (id : CallId) : Option (BucketSystem V × Log) :=
  match s.calls.find? id with
  | none => none
  | some c =>
    match c.stage with
    | .checking =>
      if s.bucket.map.contains c.key then some (s.move id c .claiming, {})
      else some (s.move id c (.done (.error (.keyMissing c.key))), {})
    | .claiming =>
      let (locks, claim) := s.bucket.locks.claim c.key
      some ((s.withLocks locks).move id c (.locking claim), {})
    | .locking claim =>
      (s.bucket.locks.acquire? claim).map fun locks =>
        ((s.withLocks locks).move id c (.reading claim), {})
    | .reading claim =>
      match s.bucket.map.get? c.key with
      | none => some (s.move id c (.freeing claim (.error (.keyMissing c.key))), {})
      | some v => some (s.move id c (.submitting claim v), {})
    | .submitting claim v => some (s.submit id c claim v)
    | .awaiting claim task => s.take? id c claim task
    | .storing claim v =>
      some ((s.withMap (s.bucket.map.put c.key (some v))).move id c (.freeing claim (.ok ())), {})
    | .freeing claim result =>
      (s.bucket.locks.free? claim).map fun locks =>
        ((s.withLocks locks).move id c (.dropping claim result), {})
    | .dropping claim result =>
      (s.bucket.locks.drop? claim).map fun locks =>
        ((s.withLocks locks).move id c (.done result), {})
    | .done _ => none

/-- A call whose evaluation has not finished is given up. -/
def expire? (s : BucketSystem V) (id : CallId) : Option (BucketSystem V × Log) :=
  match s.calls.find? id with
  | none => none
  | some c =>
    match c.stage with
    | .awaiting claim task =>
      match s.pool.await task with
      | (.ok none, _) => some (s.giveUp id c claim task)
      | _ => none
    | _ => none

/-- The result of a call that is done. -/
def result? (s : BucketSystem V) (id : CallId) : Option (Outcome Unit) :=
  match s.calls.find? id with
  | some { stage := .done result, .. } => some result
  | _ => none

/-- Whether a call awaits a task. -/
def awaits (s : BucketSystem V) (task : TaskId) : Bool :=
  s.calls.any fun (_, c) =>
    match c.stage with
    | .awaiting _ t => t = task
    | _ => false

/-- Whether a step of the pool needs the handle of a task that a call awaits. -/
def reserved (s : BucketSystem V) : WorkerPool.Step (Product V) → Bool
  | .cancel task => s.awaits task
  | .await task => s.awaits task
  | _ => false

/-- The steps of the system. -/
inductive Step (V : Type) where
  | call (c : UpdateCall V)
  | advance (id : CallId)
  | expire (id : CallId)
  | put (key : Bytes) (value : Option V)
  | get (key : Bytes)
  | remove (key : Bytes)
  | pool (step : WorkerPool.Step (Product V))

/-- The system after one step; `none` for a step that is not possible. A `get`, and a `put` or
`remove` that fails, leave the bucket as it is. -/
def step? [Storable V] (s : BucketSystem V) : Step V → Option (BucketSystem V)
  | .call c => some (s.call c).1
  | .advance id => (s.advance? id).map Prod.fst
  | .expire id => (s.expire? id).map Prod.fst
  | .put key value =>
    match s.bucket.put key value with
    | .ok bucket => some { s with bucket }
    | .error _ => some s
  | .get _ => some s
  | .remove key =>
    match s.bucket.remove key with
    | .ok bucket => some { s with bucket }
    | .error _ => some s
  | .pool step =>
    if s.reserved step then none else (s.pool.step? step).map fun pool => { s with pool }

end BucketSystem

end Keyspace
