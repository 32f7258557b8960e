import Keyspace.Predicate
import Keyspace.Task
import Keyspace.Update

/-!
# Stored values

A bucket stores values of any type that answers two questions (`Storable`): whether a value
satisfies a predicate, and what an update makes of it, which is the body of a task. Nothing else is
known of a value.

`Value` is such a type. Texts are the values of the store itself. The other values are known by how
their evaluation behaves: it waits for its cancellation, gives nothing, fails, or waits for a gate
and then gives a text or fails.
-/

namespace Keyspace

/-- What the task of an update, or any other task of the pool, gives. -/
inductive Product (V : Type) where
  | value (v : Option V)
  | number (n : Int)
deriving DecidableEq, Repr

/-- **What a bucket asks of the values that it stores.** -/
class Storable (V : Type) where
  /-- Whether a value satisfies a predicate under a condition. -/
  satisfies (v : V) (p : Predicate) (c : Condition) : Outcome Bool
  /-- The evaluation of an update on a value. It may give nothing. -/
  evaluate (v : V) (u : Update) (f : Function) : Work (Product V)

/-- **Some of the values are texts**: an update makes of them what its function makes of the text. -/
def Textual {V : Type} [Storable V] (text : Bytes → V) : Prop :=
  ∀ (t : Bytes) (u : Update) (f : Function),
    (Storable.evaluate (text t) u f).outcome = (f.apply u t).map fun t => .value (some (text t))

/-- **Texts, and values that are known by their evaluation.** -/
inductive Value where
  | text (text : Bytes)
  /-- Waits until its task is cancelled. -/
  | stuck
  /-- Gives nothing. -/
  | nothing
  | failing (reason : Bytes)
  /-- Waits for a gate and gives a text. -/
  | gated (gate text : Bytes)
  /-- Waits for a gate and fails. -/
  | gatedFailing (gate reason : Bytes)
deriving DecidableEq, Repr

namespace Value

/-- A value as a text. -/
def render : Value → Bytes
  | text t => t
  | stuck => Bytes.ascii "<stuck>"
  | nothing => Bytes.ascii "<nothing>"
  | failing _ => Bytes.ascii "<fail>"
  | gated _ _ => Bytes.ascii "<gate>"
  | gatedFailing _ _ => Bytes.ascii "<gate-fail>"

/-- A failure with a text of its own. -/
def failure (reason : Bytes) : Failure :=
  .raised .runtimeError reason

/-- **Whether a value satisfies a predicate** under a condition. -/
def satisfies (v : Value) (p : Predicate) (c : Condition) : Outcome Bool :=
  match v with
  | text t => c.holds p.expression t
  | stuck => .ok false
  | failing reason => .error (failure reason)
  | _ => .ok true

/-- **The evaluation of an update** on a value. -/
def evaluate (v : Value) (u : Update) (f : Function) : Work (Product Value) :=
  match v with
  | text t => { polls := true, outcome := (f.apply u t).map fun t => .value (some (.text t)) }
  | stuck => { waits := .cancellation, polls := true, outcome := .error .taskCancelled }
  | nothing => { outcome := .ok (.value none) }
  | failing reason => { outcome := .error (failure reason) }
  | gated gate t => { waits := .gate (.named gate), outcome := .ok (.value (some (.text t))) }
  | gatedFailing gate reason =>
    { waits := .gate (.named gate), outcome := .error (failure reason) }

instance : Storable Value := ⟨satisfies, evaluate⟩

/-- The texts of the store are such texts. -/
theorem textual : Textual text :=
  fun _ _ _ => rfl

/-- What an update makes of a text under a token that may be set. -/
def applyText (t : Bytes) (u : Update) (f : Function) (cancelled : Bool) : Outcome Bytes :=
  match (f.apply u t) with
  | .error e => .error e
  | .ok t => if cancelled then .error .taskCancelled else .ok t

end Value

end Keyspace
