import Keyspace.Regex.ByteSet

/-!
# Patterns

The syntax tree of a regular expression. Alternatives are tried from left to right and a loop tries
one more round first, unless it is **reluctant**. Groups that capture are numbered from one, in the
order of their opening parentheses.
-/

namespace Keyspace.Regex

/-- Conditions on a place in the text that consume nothing. -/
inductive Anchor where
  | textStart
  | textEnd
  | wordEdge (negated : Bool)
deriving DecidableEq, Repr

/-- **Patterns.** -/
inductive Pattern where
  /-- Holds anywhere. -/
  | empty
  /-- One byte of the set. -/
  | one (set : ByteSet)
  | seq (first second : Pattern)
  | alt (left right : Pattern)
  /-- Remembers what its body covers as group `number`. -/
  | group (number : Nat) (body : Pattern)
  /-- The text that the group covered last; fails as long as it covered nothing. -/
  | backref (number : Nat)
  | anchor (condition : Anchor)
  /-- Whether the body holds here, without consuming what it covers. -/
  | ahead (negated : Bool) (body : Pattern)
  /-- Rounds of the body, as many as there are, at least one if `nonempty`. -/
  | loop (nonempty reluctant : Bool) (body : Pattern)
  /-- `fixed` copies of the body, then up to `extra` more. -/
  | copies (fixed extra : Nat) (reluctant : Bool) (body : Pattern)
deriving DecidableEq, Repr

end Keyspace.Regex
