import Keyspace.BucketSystem

/-!
# Buckets in time

A `BucketSession` runs the calls of a bucket as far as they go. It **settles** when no call and no
worker can take a step; then only time can bring on something new: the earliest call whose time is
over is given up, and the session settles again. A caller that waits for a call waits through as
many of these moments as it takes. Times are nanoseconds; the time of a call is counted from the
moment at which its evaluation was submitted.
-/

namespace Keyspace

/-- **A bucket's calls in time**, with those that run in the background, in the order of their
start. -/
structure BucketSession (V : Type) where
  system : BucketSystem V
  now : Int := 0
  deadlines : Assoc CallId Int := []
  background : List (Bytes × CallId) := []

namespace BucketSession

variable {V : Type}

/-- The session of a bucket that nobody calls. -/
def ofBucket (bucket : Bucket V) (pool : WorkerPool (Product V)) (now : Int) : BucketSession V :=
  { system := { bucket, pool }, now }

/-- A session of a new bucket with a new pool, which is made first. -/
def create (name : Bytes) (hash : Bytes → Nat) (workers queue shards : Nat)
    (hasExecutor : Bool) : Outcome (BucketSession V) := do
  let pool ← WorkerPool.create workers queue
  let bucket ← Bucket.create name hash shards hasExecutor
  return ofBucket bucket pool 0

/-- The bucket. -/
def bucket (s : BucketSession V) : Bucket V :=
  s.system.bucket

/-- The pool. -/
def pool (s : BucketSession V) : WorkerPool (Product V) :=
  s.system.pool

/-- The session with another bucket. -/
def withBucket (s : BucketSession V) (bucket : Bucket V) : BucketSession V :=
  { s with system := { s.system with bucket } }

/-- The session with another pool. -/
def withPool (s : BucketSession V) (pool : WorkerPool (Product V)) : BucketSession V :=
  { s with system := { s.system with pool } }

/-- The next step of a call. A call whose evaluation was just submitted gets its deadline. -/
def advanceCall? [Storable V] (s : BucketSession V) (id : CallId) :
    Option (BucketSession V × Log) :=
  (s.system.advance? id).map fun (system, log) =>
    let deadlines :=
      match system.calls.find? id with
      | some { stage := .awaiting _ _, timeout, .. } =>
        s.deadlines.put id (s.now + timeout * 1000000)
      | _ => s.deadlines.erase id
    ({ s with system, deadlines }, log)

/-- The next step of the first call, or else the first worker, that can take one. -/
def advance? [Storable V] (s : BucketSession V) : Option (BucketSession V × Log) :=
  (s.system.calls.findSome? fun c => s.advanceCall? c.1).or
    ((s.pool.advance?).map fun pool => (s.withPool pool, {}))

/-- At most `bound` steps. -/
def advance [Storable V] (s : BucketSession V) : Nat → BucketSession V × Log
  | 0 => (s, {})
  | bound + 1 =>
    match s.advance? with
    | none => (s, {})
    | some (s, log) =>
      let (s, later) := advance s bound
      (s, log ++ later)

/-- The number of steps that bring the session to rest at most: ten of each call, three of each task
that there is or may come, one of each worker. -/
def stepBound (s : BucketSession V) : Nat :=
  13 * s.system.calls.length + 3 * s.pool.tasks.length + s.pool.workers.length

/-- **Calls and workers go on until none of them can.** -/
def settle [Storable V] (s : BucketSession V) : BucketSession V × Log :=
  s.advance s.stepBound

/-- The earliest deadline, and the call that it belongs to. -/
def earliest? (s : BucketSession V) : Option (CallId × Int) :=
  s.deadlines.foldl
    (fun best d =>
      match best with
      | none => some d
      | some b => if d.2 < b.2 then some d else some b)
    none

/-- The moment of the earliest deadline: its call is given up, and the session settles. -/
def expireNext? [Storable V] (s : BucketSession V) : Option (BucketSession V × Log) :=
  match s.earliest? with
  | none => none
  | some (id, moment) =>
    let s := { s with now := max s.now moment, deadlines := s.deadlines.erase id }
    match s.system.expire? id with
    | none => some (s, {})
    | some (system, log) =>
      let (s, later) := { s with system }.settle
      some (s, log ++ later)

/-- Deadlines up to a moment come to pass, at most `bound` of them. -/
def expireUntil [Storable V] (s : BucketSession V) (moment : Int) : Nat → BucketSession V × Log
  | 0 => (s, {})
  | bound + 1 =>
    match s.earliest? with
    | none => (s, {})
    | some (_, first) =>
      if moment < first then (s, {})
      else
        match s.expireNext? with
        | none => (s, {})
        | some (s, log) =>
          let (s, later) := expireUntil s moment bound
          (s, log ++ later)

/-- **Time passes** until a moment. -/
def passUntil [Storable V] (s : BucketSession V) (moment : Int) : BucketSession V × Log :=
  let (s, log) := s.expireUntil moment s.system.calls.length
  ({ s with now := max s.now moment }, log)

/-- A caller waits for a call through at most `bound` deadlines. -/
def waitFor [Storable V] (s : BucketSession V) (id : CallId) : Nat → BucketSession V × Log
  | 0 => (s, {})
  | bound + 1 =>
    match s.system.result? id with
    | some _ => (s, {})
    | none =>
      match s.expireNext? with
      | none => (s, {})
      | some (s, log) =>
        let (s, later) := waitFor s id bound
        (s, log ++ later)

/-- The result of a call, which is forgotten. A call that nothing can bring to its end counts as
expired. -/
def collect (s : BucketSession V) (id : CallId) : Outcome Unit × BucketSession V :=
  ((s.system.result? id).getD (.error .updateExpired),
    { s with system := { s.system with calls := s.system.calls.erase id } })

/-- A caller waits for a call and takes its result. -/
def join [Storable V] (s : BucketSession V) (id : CallId) : Outcome Unit × BucketSession V × Log :=
  let (s, first) := s.settle
  let (s, later) := s.waitFor id s.system.calls.length
  let (result, s) := s.collect id
  (result, s, first ++ later)

/-- **An update** whose caller waits for it. -/
def update [Storable V] (s : BucketSession V) (call : UpdateCall V) :
    Outcome Unit × BucketSession V × Log :=
  let (system, id) := s.system.call call
  { s with system }.join id

/-- An update in the background. -/
def launch [Storable V] (s : BucketSession V) (label : Bytes) (call : UpdateCall V) :
    BucketSession V × Log :=
  let (system, id) := s.system.call call
  { s with system, background := s.background ++ [(label, id)] }.settle

/-- The updates in the background are waited for, in the order of their start. -/
def joinEach [Storable V] (s : BucketSession V) :
    List (Bytes × CallId) → List (Bytes × Outcome Unit) × BucketSession V × Log
  | [] => ([], s, {})
  | (label, id) :: rest =>
    let (result, s, first) := s.join id
    let (results, s, later) := joinEach s rest
    ((label, result) :: results, s, first ++ later)

/-- A gate is opened, and all updates in the background are waited for. -/
def openGate [Storable V] (s : BucketSession V) (name : Bytes) :
    List (Bytes × Outcome Unit) × BucketSession V × Log :=
  let s := s.withPool (s.pool.openGate (.named name))
  { s with background := [] }.joinEach s.background

/-- `times` updates one after another: how many of them failed. -/
def updateEach [Storable V] (s : BucketSession V) (call : UpdateCall V) :
    Nat → Nat × BucketSession V × Log
  | 0 => (0, s, {})
  | times + 1 =>
    let (result, s, first) := s.update call
    let (failures, s, later) := updateEach s call times
    ((if result.isOk then failures else failures + 1), s, first ++ later)

/-- A caller waits some time for the result of a task; a negative time is none. -/
def awaitTask [Storable V] (s : BucketSession V) (id : TaskId) (timeout : Int) :
    Outcome (Option (Product V)) × BucketSession V × Log :=
  match s.pool.await id with
  | (.ok none, _) =>
    let (s, log) := s.passUntil (s.now + max 0 timeout * 1000000)
    let (result, pool) := s.pool.await id
    (result, s.withPool pool, log)
  | (result, pool) => (result, s.withPool pool, {})

end BucketSession

end Keyspace
