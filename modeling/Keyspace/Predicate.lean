import Keyspace.Regex.Parse
import Keyspace.Regex.Search
import Keyspace.Failure

/-!
# Predicates and conditions

A conditional read carries a **predicate**, a condition's name and an expression, written with a
colon between them. The **condition** says what the expression means: the text itself, its
beginning, a segment of it, or a pattern that holds somewhere in it.
-/

namespace Keyspace

/-- A condition's name and an expression. -/
structure Predicate where
  type : Bytes
  expression : Bytes
deriving DecidableEq, Repr

/-- **The predicate that a text writes**: the first colon parts name and expression. -/
def Predicate.parse (text : Bytes) : Outcome Predicate :=
  match text.splitAtFirst 58 with
  | none => .error (.predicateForm text)
  | some ([], _) => .error (.predicateType text)
  | some (type, expression) => .ok { type, expression }

/-- What an expression says about a text. -/
inductive Condition where
  | equals
  | beginsWith
  | contains
  | pattern
deriving DecidableEq, Repr

namespace Condition

/-- The conditions and their names. -/
def names : List (Bytes × Condition) :=
  [(Bytes.ascii "equals", equals), (Bytes.ascii "prefix", beginsWith),
   (Bytes.ascii "contains", contains), (Bytes.ascii "regex", pattern)]

/-- The condition with a given name. -/
def ofName? (name : Bytes) : Option Condition :=
  names.lookup name

/-- **Whether a text meets a condition.** -/
def holds (c : Condition) (expression text : Bytes) : Outcome Bool :=
  match c with
  | equals => .ok (text = expression)
  | beginsWith => .ok (expression.startsText text)
  | contains => .ok (expression.occursIn text)
  | pattern =>
    match Regex.Pattern.ofBytes? expression with
    | none => .error .malformedPattern
    | some p => .ok (p.search text)

end Condition

end Keyspace
