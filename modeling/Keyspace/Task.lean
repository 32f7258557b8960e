import Keyspace.Failure

/-!
# Tasks

A task has a body (`Work`), a token that says whether it was cancelled, and a result that can be
taken once. A body may wait before it gives its result: for a gate to open, or for its own
cancellation. A body that **polls** its token ends as cancelled when the token is set while it
waits, or before it hands over a result; one that does not keeps its own outcome.
-/

namespace Keyspace

/-- What a body can wait for: a gate with a name, or the release of the task itself. -/
inductive Gate where
  | named (name : Bytes)
  | ofTask (id : Bytes)
deriving DecidableEq, Repr

/-- What a body waits for. -/
inductive Wait where
  | nothing
  | gate (g : Gate)
  | cancellation
deriving DecidableEq, Repr

/-- **The body of a task**: what it waits for, whether it polls its token, and what it gives. -/
structure Work (α : Type) where
  waits : Wait := .nothing
  polls : Bool := false
  outcome : Outcome α

namespace Work

variable {α : Type}

/-- Whether the body has no more to wait for. -/
def isFree (w : Work α) (isOpen : Gate → Bool) : Bool :=
  match w.waits with
  | .nothing => true
  | .gate g => isOpen g
  | .cancellation => false

/-- What the body gives when it goes on, unless it has to wait. -/
def finish? (w : Work α) (isOpen : Gate → Bool) (cancelled : Bool) : Option (Outcome α) :=
  if w.isFree isOpen then
    match w.outcome with
    | .ok a => some (if w.polls && cancelled then .error .taskCancelled else .ok a)
    | .error f => some (.error f)
  else if w.polls && cancelled then some (.error .taskCancelled)
  else none

end Work

/-- Where a task stands. -/
inductive TaskState (α : Type) where
  | queued
  /-- Taken from the queue by a worker that has not looked at the token. -/
  | claimed
  | running
  | finished (outcome : Outcome α)

/-- **A task.** -/
structure Task (α : Type) where
  work : Work α
  cancelled : Bool := false
  state : TaskState α := .queued
  /-- Whether the result was taken. -/
  taken : Bool := false

/-- The names of tasks, in the order in which they were accepted. -/
abbrev TaskId := Nat

end Keyspace
