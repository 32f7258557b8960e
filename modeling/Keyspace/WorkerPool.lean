import Keyspace.Task

/-!
# The worker pool

A fixed number of workers takes tasks from a bounded queue, first come, first served. A worker takes
a task (`take?`), looks at its token and begins its body or ends it as cancelled (`begin?`),
finishes it when the body gives its outcome (`finish?`), and leaves when the pool is stopping and
the queue is empty (`leave?`). Each is one step of one worker; submissions, cancellations and
shutdowns fall anywhere between them. `WorkerPool.settle` lets the workers go on until none of them
can.

Only the first shutdown takes the workers over, and only it waits for them to leave.
-/

namespace Keyspace

/-- What a worker does. -/
inductive Worker where
  | idle
  | busy (task : TaskId)
  | gone
deriving DecidableEq, Repr

/-- A call of shutdown: whether it took the workers over, and whether it has returned. -/
structure Stopper where
  joins : Bool
  returned : Bool := false
deriving DecidableEq, Repr

/-- **A worker pool.** -/
structure WorkerPool (α : Type) where
  capacity : Nat
  workers : List Worker
  stopping : Bool := false
  queue : List TaskId := []
  tasks : List (Task α) := []
  /-- The gates that were opened. -/
  opened : List Gate := []
  /-- The tasks whose bodies began, in order. -/
  begun : List TaskId := []
  stoppers : List Stopper := []

namespace WorkerPool

variable {α : Type}

/-- A pool of idle workers with an empty queue. -/
def create (workers capacity : Nat) : Outcome (WorkerPool α) :=
  if workers = 0 then .error .noWorkers
  else if capacity = 0 then .error .noQueue
  else .ok { capacity, workers := List.replicate workers .idle }

/-- The number of workers that belong to the pool: none after a shutdown took them over. -/
def workerCount (p : WorkerPool α) : Nat :=
  if p.stoppers.any Stopper.joins then 0 else p.workers.length

/-- The number of waiting tasks. -/
def queuedCount (p : WorkerPool α) : Nat :=
  p.queue.length

/-- Whether a gate was opened. -/
def isOpen (p : WorkerPool α) (g : Gate) : Bool :=
  p.opened.contains g

/-- A change of one task. -/
def change (p : WorkerPool α) (id : TaskId) (f : Task α → Task α) : WorkerPool α :=
  { p with tasks := p.tasks.modify id f }

/-! ## The callers -/

/-- A task is put at the end of the queue, unless the pool is stopped or the queue is full. -/
def submit (p : WorkerPool α) (work : Work α) : Outcome (WorkerPool α × TaskId) :=
  if p.stopping then .error .poolStopped
  else if p.capacity ≤ p.queue.length then .error .poolFull
  else
    .ok ({ p with queue := p.queue ++ [p.tasks.length], tasks := p.tasks ++ [{ work }] },
      p.tasks.length)

/-- The line that a full pool prints when it refuses a task. -/
def refusal (p : WorkerPool α) : Bytes :=
  Bytes.ascii "WorkerPool rejected task: " ++ Bytes.ofNat p.queue.length ++
    Bytes.ascii " tasks already queued"

/-- What a submission prints. -/
def submissionLog (p : WorkerPool α) : List Bytes :=
  if !p.stopping && p.capacity ≤ p.queue.length then [p.refusal] else []

/-- The token of a task is set. -/
def cancel (p : WorkerPool α) (id : TaskId) : WorkerPool α :=
  p.change id fun t => { t with cancelled := true }

/-- Whether the token of a task is set. -/
def isCancelled (p : WorkerPool α) (id : TaskId) : Bool :=
  (p.tasks[id]?).any Task.cancelled

/-- The result of a task, taken once: a failure if it was taken before, nothing if the task is not
finished. The outcome of the task is its own, a failure of its body included. -/
def await (p : WorkerPool α) (id : TaskId) : Outcome (Option α) × WorkerPool α :=
  match p.tasks[id]? with
  | none => (.error .resultTaken, p)
  | some t =>
    if t.taken then (.error .resultTaken, p)
    else
      match t.state with
      | .finished outcome => (outcome.map some, p.change id fun t => { t with taken := true })
      | _ => (.ok none, p)

/-- A gate is opened. -/
def openGate (p : WorkerPool α) (g : Gate) : WorkerPool α :=
  { p with opened := g :: p.opened }

/-- The gates that bodies wait for are all opened. -/
def openAll (p : WorkerPool α) : WorkerPool α :=
  { p with
    opened := (p.tasks.filterMap fun t =>
      match t.work.waits with
      | .gate g => some g
      | _ => none) ++ p.opened }

/-- A shutdown begins: no more tasks are accepted, and the first shutdown takes the workers over. -/
def stop (p : WorkerPool α) : WorkerPool α :=
  { p with
    stopping := true
    stoppers := p.stoppers ++ [{ joins := !p.stoppers.any Stopper.joins }] }

/-- A shutdown returns: one that took the workers over only when all of them left. -/
def return? (p : WorkerPool α) (stopper : Nat) : Option (WorkerPool α) :=
  match p.stoppers[stopper]? with
  | some s =>
    if !s.returned && (!s.joins || p.workers.all (· = .gone)) then
      some { p with stoppers := p.stoppers.set stopper { s with returned := true } }
    else none
  | none => none

/-! ## The workers -/

/-- An idle worker takes the task at the front of the queue. -/
def take? (p : WorkerPool α) (worker : Nat) : Option (WorkerPool α) :=
  match p.workers[worker]?, p.queue with
  | some .idle, id :: rest =>
    some ({ p with queue := rest, workers := p.workers.set worker (.busy id) }.change id
      fun t => { t with state := .claimed })
  | _, _ => none

/-- A worker begins the task that it took, or ends it if it was cancelled before. -/
def begin? (p : WorkerPool α) (worker : Nat) : Option (WorkerPool α) :=
  match p.workers[worker]? with
  | some (.busy id) =>
    match p.tasks[id]? with
    | some { cancelled, state := .claimed, .. } =>
      if cancelled then
        some ({ p with workers := p.workers.set worker .idle }.change id
          fun t => { t with state := .finished (.error .taskCancelled) })
      else
        some ({ p with begun := p.begun ++ [id] }.change id fun t => { t with state := .running })
    | _ => none
  | _ => none

/-- A worker finishes its task, whose body has nothing to wait for. -/
def finish? (p : WorkerPool α) (worker : Nat) : Option (WorkerPool α) :=
  match p.workers[worker]? with
  | some (.busy id) =>
    match p.tasks[id]? with
    | some { work, cancelled, state := .running, .. } =>
      (work.finish? p.isOpen cancelled).map fun outcome =>
        { p with workers := p.workers.set worker .idle }.change id
          fun t => { t with state := .finished outcome }
    | _ => none
  | _ => none

/-- An idle worker leaves a pool that is stopping and has no task left for it. -/
def leave? (p : WorkerPool α) (worker : Nat) : Option (WorkerPool α) :=
  match p.workers[worker]?, p.queue with
  | some .idle, [] =>
    if p.stopping then some { p with workers := p.workers.set worker .gone } else none
  | _, _ => none

/-- The next step of a worker. -/
def workerStep? (p : WorkerPool α) (worker : Nat) : Option (WorkerPool α) :=
  (p.take? worker).or <| (p.begin? worker).or <| (p.finish? worker).or <| p.leave? worker

/-- The next step of the first worker that can take one. -/
def advance? (p : WorkerPool α) : Option (WorkerPool α) :=
  (List.range p.workers.length).findSome? p.workerStep?

/-- At most `bound` steps of the workers. -/
def advance (p : WorkerPool α) : Nat → WorkerPool α
  | 0 => p
  | bound + 1 =>
    match p.advance? with
    | none => p
    | some p => advance p bound

/-- **The workers go on until none of them can.** A task takes three steps of its worker and a
worker leaves once, which bounds their number. -/
def settle (p : WorkerPool α) : WorkerPool α :=
  p.advance (3 * p.tasks.length + p.workers.length)

/-- Shutdowns by `callers` at once, from beginning to end, with all gates open. -/
def shutdown (p : WorkerPool α) (callers : Nat) : WorkerPool α :=
  let before := p.stoppers.length
  let p := ((List.range callers).foldl (fun p _ => p.stop) p.openAll).settle
  (List.range callers).foldl (fun p i => (p.return? (before + i)).getD p) p

/-- The steps of a pool. -/
inductive Step (α : Type) where
  | submit (work : Work α)
  | cancel (id : TaskId)
  | await (id : TaskId)
  | openGate (g : Gate)
  | stop
  | return (stopper : Nat)
  | take (worker : Nat)
  | begin (worker : Nat)
  | finish (worker : Nat)
  | leave (worker : Nat)

/-- The pool after one step; `none` for a step that is not possible. A refused submission leaves the
pool as it is. -/
def step? (p : WorkerPool α) : Step α → Option (WorkerPool α)
  | .submit work =>
    match p.submit work with
    | .ok (p, _) => some p
    | .error _ => some p
  | .cancel id => some (p.cancel id)
  | .await id => some (p.await id).2
  | .openGate g => some (p.openGate g)
  | .stop => some p.stop
  | .return stopper => p.return? stopper
  | .take worker => p.take? worker
  | .begin worker => p.begin? worker
  | .finish worker => p.finish? worker
  | .leave worker => p.leave? worker

end WorkerPool

end Keyspace
