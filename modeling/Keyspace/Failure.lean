import Keyspace.Bytes

/-!
# Failures

Every operation that can fail fails with a `Failure`, which names the **cause**. Three things are
read off a cause: its `Failure.Kind`, the `Failure.Code` that a store operation's failure carries,
and its `Failure.message`. A message is a terminated text: it ends before its first zero byte, also
where it quotes a key or another failure's message.
-/

namespace Keyspace

/-- The codes of failed store operations. -/
inductive Failure.Code where
  | notFound
  | updateCancelled
  | internalError
deriving DecidableEq, Repr

/-- The number of a code. -/
def Failure.Code.number : Failure.Code → Nat
  | .notFound => 1
  | .updateCancelled => 2
  | .internalError => 3

/-- The name of a code. -/
def Failure.Code.name : Failure.Code → Bytes
  | .notFound => Bytes.ascii "NOT_FOUND"
  | .updateCancelled => Bytes.ascii "UPDATE_CANCELLED"
  | .internalError => Bytes.ascii "INTERNAL_ERROR"

/-- The code with a given number. -/
def Failure.Code.ofNumber? (n : Nat) : Option Failure.Code :=
  [Failure.Code.notFound, .updateCancelled, .internalError].find? fun c => c.number = n

/-- The name that belongs to a number, whether or not a code has it. -/
def Failure.Code.nameOfNumber (n : Nat) : Bytes :=
  match Failure.Code.ofNumber? n with
  | some c => c.name
  | none => Bytes.ascii "UNKNOWN"

/-- The kinds of failure that a caller can tell apart. -/
inductive Failure.Kind where
  | store (code : Failure.Code)
  | taskCancelled
  | malformedPattern
  | invalidArgument
  | outOfRange
  | lengthError
  | logicError
  | runtimeError
deriving DecidableEq, Repr

/-- **The causes of failure.** -/
inductive Failure where
  /-- No value is stored under the key. -/
  | keyMissing (key : Bytes)
  /-- No bucket has the name. -/
  | bucketMissing (name : Bytes)
  /-- The evaluation of an update failed, for the reason given. -/
  | updateFailed (reason : Bytes)
  /-- The evaluation of an update gave nothing in time, or nothing at all. -/
  | updateExpired
  /-- The evaluation of an update could not be handed to the pool. -/
  | updateUnscheduled (reason : Bytes)
  /-- A predicate could not be evaluated on the value of the key. -/
  | predicateUndecided (key reason : Bytes)
  /-- The task was cancelled. -/
  | taskCancelled
  /-- The expression is no pattern. -/
  | malformedPattern
  /-- The bound of a hash is not positive. -/
  | hashBound (max : Int)
  /-- A predicate without a colon. -/
  | predicateForm (text : Bytes)
  /-- A predicate with nothing in front of its colon. -/
  | predicateType (text : Bytes)
  /-- The named function was not given a parameter that it needs. -/
  | parameterMissing (parameter function : Bytes)
  /-- A counter or its increment is not an integer of 64 bits. -/
  | notAnInteger (role text : Bytes)
  /-- A counter would leave the integers of 64 bits. -/
  | counterOverflow (text : Bytes) (increment : Int)
  /-- A null value cannot be stored. -/
  | nullValue (key : Bytes)
  /-- A map without shards. -/
  | noShards
  /-- More elements than room can be reserved for. -/
  | noRoom
  /-- A pool without workers. -/
  | noWorkers
  /-- A pool without room for a waiting task. -/
  | noQueue
  /-- A bucket without a pool for its updates. -/
  | noExecutor (bucket : Bytes)
  /-- The pool takes no more tasks. -/
  | poolStopped
  /-- The pool has no room for another waiting task. -/
  | poolFull
  /-- The result of a task was taken before. -/
  | resultTaken
  /-- An argument that is not of the form `--flag=value`. -/
  | flagForm (argument : Bytes)
  /-- The value of a flag is no positive word of 64 bits. -/
  | flagValue (flag text : Bytes)
  /-- More partitions than a node can count. -/
  | tooManyPartitions (text : Bytes)
  /-- A flag that does not exist. -/
  | flagUnknown (flag : Bytes)
  /-- A parameter that is not of the form `name=value`. -/
  | assignmentForm (token : Bytes)
  /-- The limit of a range command does not start with a numeral. -/
  | limitForm
  /-- The limit of a range command is no word of 64 bits. -/
  | limitRange
  /-- Raised by a stored value, a task or a flush hook, which choose the kind and the text. -/
  | raised (kind : Failure.Kind) (text : Bytes)
deriving DecidableEq, Repr

namespace Failure

/-- The kind of a failure. -/
def kind : Failure → Kind
  | keyMissing _ => .store .notFound
  | bucketMissing _ => .store .notFound
  | updateFailed _ => .store .updateCancelled
  | updateExpired => .store .updateCancelled
  | updateUnscheduled _ => .store .internalError
  | predicateUndecided _ _ => .store .internalError
  | taskCancelled => .taskCancelled
  | malformedPattern => .malformedPattern
  | poolStopped => .runtimeError
  | poolFull => .runtimeError
  | resultTaken => .logicError
  | limitRange => .outOfRange
  | noRoom => .lengthError
  | raised k _ => k
  | _ => .invalidArgument

/-- The code of a failed store operation. -/
def code? (f : Failure) : Option Code :=
  match f.kind with
  | .store c => some c
  | _ => none

open Bytes in
/-- The wording of a failure, before it is cut to a terminated text. -/
def wording : Failure → Bytes
  | keyMissing key => ascii "Key not found: " ++ key
  | bucketMissing name => ascii "Bucket not found: " ++ name
  | updateFailed reason => ascii "Update cancelled due to failure: " ++ reason
  | updateExpired => ascii "Update cancelled due to long execution time."
  | updateUnscheduled reason => ascii "Update could not be scheduled: " ++ reason
  | predicateUndecided key reason =>
    ascii "Predicate evaluation failed for key " ++ key ++ ascii ": " ++ reason
  | taskCancelled => ascii "Task cancelled"
  | malformedPattern => ascii "Malformed pattern"
  | hashBound max => ascii "Hash range must be positive, got " ++ ofInt max
  | predicateForm text =>
    ascii "Wrong predicate format, expected <type>:<expression>: " ++ text
  | predicateType text => ascii "Missing condition type in predicate: " ++ text
  | parameterMissing parameter function =>
    ascii "Missing '" ++ parameter ++ ascii "' parameter for function " ++ function
  | notAnInteger role text => ascii "Not an integer " ++ role ++ ascii ": " ++ text
  | counterOverflow text increment =>
    ascii "Counter overflow: " ++ text ++ ascii " + " ++ ofInt increment
  | nullValue key => ascii "Cannot put a null value for key: " ++ key
  | noShards => ascii "Bucket map needs at least one shard"
  | noRoom => ascii "vector::reserve"
  | noWorkers => ascii "Worker pool needs at least one thread"
  | noQueue => ascii "Worker pool queue capacity must be positive"
  | noExecutor bucket => ascii "Bucket " ++ bucket ++ ascii " needs an update executor"
  | poolStopped => ascii "Worker pool is stopped"
  | poolFull => ascii "Worker pool queue is full"
  | resultTaken => ascii "Task result already consumed"
  | flagForm argument => ascii "Expected --flag=value, got: " ++ argument
  | flagValue flag text =>
    ascii "Invalid value for " ++ flag ++ ascii ": '" ++ text ++ ascii "'"
  | tooManyPartitions text => ascii "Too many partitions: " ++ text
  | flagUnknown flag => ascii "Unknown flag: " ++ flag
  | assignmentForm token => ascii "Expected name=value, got: " ++ token
  | limitForm => ascii "stoull"
  | limitRange => ascii "stoull"
  | raised _ text => text

/-- **The message of a failure**: its wording as a terminated text. -/
def message (f : Failure) : Bytes :=
  f.wording.terminated

end Failure

/-- What an operation gives: a result or a failure. -/
abbrev Outcome (α : Type) := Except Failure α

theorem Outcome.bind_eq_ok_iff {α β : Type} {x : Outcome α} {f : α → Outcome β} {b : β} :
    (x >>= f) = .ok b ↔ ∃ a, x = .ok a ∧ f a = .ok b := by
  cases x with
  | error e =>
    refine ⟨nofun, ?_⟩
    rintro ⟨a, ha, -⟩
    cases ha
  | ok a =>
    refine ⟨fun h => ⟨a, rfl, h⟩, ?_⟩
    rintro ⟨a', ha, h⟩
    cases ha
    exact h

theorem Outcome.bind_eq_error_iff {α β : Type} {x : Outcome α} {f : α → Outcome β} {e : Failure} :
    (x >>= f) = .error e ↔ x = .error e ∨ ∃ a, x = .ok a ∧ f a = .error e := by
  cases x with
  | error e' =>
    constructor
    · intro h
      cases h
      exact .inl rfl
    · rintro (h | ⟨a, ha, -⟩)
      · cases h
        rfl
      · cases ha
  | ok a =>
    refine ⟨fun h => .inr ⟨a, rfl, h⟩, ?_⟩
    rintro (h | ⟨a', ha, h⟩)
    · cases h
    · cases ha
      exact h

end Keyspace
