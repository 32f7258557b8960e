import Keyspace.Regex.Pattern
import Keyspace.Regex.Token

/-!
# Items of a regular expression

Between the tokens and the tree stand the items: a whole bracketed set is one item, and so is a
quantifier with its count and its mark of reluctance. In a set, a dash between two bytes makes a
range; a dash at either end of the set, or after a range, is a byte like any other; a dash after a
class is refused.
-/

namespace Keyspace.Regex

/-- What an opening parenthesis opens. -/
inductive Opener where
  | capture
  | plain
  | ahead (negated : Bool)
deriving DecidableEq, Repr

/-- How often the part in front of a quantifier is repeated. -/
inductive Quantity where
  | any
  | some
  | optional
  | exactly (n : Nat)
  | atLeast (n : Nat)
  | between (low high : Nat)
deriving DecidableEq, Repr

/-- The items. -/
inductive Item where
  | one (set : ByteSet)
  | backref (number : Nat)
  | anchor (condition : Anchor)
  | opening (kind : Opener)
  | closing
  | bar
  | quantifier (quantity : Quantity) (reluctant : Bool)
deriving DecidableEq, Repr

/-- What stands in front of the next member of a set. -/
inductive Previous where
  | nothing
  | byte (b : UInt8)
  | named
deriving DecidableEq, Repr

/-- **A set as far as it is read**: the previous byte is held back, since a dash may make it the low
end of a range. -/
structure SetDraft where
  negated : Bool
  members : List Member := []
  previous : Previous := .nothing
deriving DecidableEq, Repr

namespace SetDraft

/-- The draft with the byte that was held back. -/
def flushed (d : SetDraft) : List Member :=
  match d.previous with
  | .byte b => d.members ++ [.byte b]
  | _ => d.members

/-- A byte is read. -/
def push (d : SetDraft) (b : UInt8) : SetDraft :=
  { d with members := d.flushed, previous := .byte b }

/-- A class or a letter in either case is read. -/
def pushNamed (d : SetDraft) (m : Member) : SetDraft :=
  { d with members := d.flushed ++ [m], previous := .named }

/-- A range is read whose low end was held back. -/
def pushRange (d : SetDraft) (low high : UInt8) : Option SetDraft :=
  if high.toInt8 < low.toInt8 then none
  else some { d with members := d.members ++ [.range low high], previous := .nothing }

/-- The finished set. -/
def done (d : SetDraft) : ByteSet :=
  ⟨d.negated, d.flushed⟩

end SetDraft

namespace Item

/-- The item of a token that is one by itself. -/
def ofToken? : Token → Option Item
  | .byte b => some (.one (.single b))
  | .anyByte => some (.one .withinLine)
  | .backref n => some (.backref n)
  | .escapedClass c negated => some (.one ⟨negated, [.inClass c]⟩)
  | .openGroup => some (.opening .capture)
  | .openPlain => some (.opening .plain)
  | .openAhead negated => some (.opening (.ahead negated))
  | .close => some .closing
  | .bar => some .bar
  | .textStart => some (.anchor .textStart)
  | .textEnd => some (.anchor .textEnd)
  | .wordEdge negated => some (.anchor (.wordEdge negated))
  | _ => none

/-- The draft after a token of a set that is neither a dash nor the end of the set. -/
def readMember (d : SetDraft) : Token → Option SetDraft
  | .byte b => some (d.push b)
  | .namedByte name => (byteNamed? name).map d.push
  | .namedLetter name => (byteNamed? name).map fun b => d.pushNamed (.anyCase b)
  | .namedClass name => (ByteClass.ofName? name).map fun c => d.pushNamed (.inClass c)
  | .escapedClass c negated =>
    some (d.pushNamed (if negated then .notInClass c else .inClass c))
  | _ => none

/-- The items of a list of tokens, where `draft` is the set that is being read. A question mark
directly after a quantifier makes it reluctant. -/
def listFrom : Option SetDraft → List Token → Option (List Item)
  | none, [] => some []
  | some _, [] => none
  | none, .openSet negated :: .dash :: ts =>
    listFrom (some { negated, previous := .byte 45 }) ts
  | none, .openSet negated :: ts => listFrom (some { negated }) ts
  | none, .star :: .question :: ts => (listFrom none ts).map (.quantifier .any true :: ·)
  | none, .star :: ts => (listFrom none ts).map (.quantifier .any false :: ·)
  | none, .plus :: .question :: ts => (listFrom none ts).map (.quantifier .some true :: ·)
  | none, .plus :: ts => (listFrom none ts).map (.quantifier .some false :: ·)
  | none, .question :: .question :: ts =>
    (listFrom none ts).map (.quantifier .optional true :: ·)
  | none, .question :: ts => (listFrom none ts).map (.quantifier .optional false :: ·)
  | none, .openCount :: .number n :: .closeCount :: .question :: ts =>
    (listFrom none ts).map (.quantifier (.exactly n) true :: ·)
  | none, .openCount :: .number n :: .closeCount :: ts =>
    (listFrom none ts).map (.quantifier (.exactly n) false :: ·)
  | none, .openCount :: .number n :: .comma :: .closeCount :: .question :: ts =>
    (listFrom none ts).map (.quantifier (.atLeast n) true :: ·)
  | none, .openCount :: .number n :: .comma :: .closeCount :: ts =>
    (listFrom none ts).map (.quantifier (.atLeast n) false :: ·)
  | none, .openCount :: .number n :: .comma :: .number m :: .closeCount :: .question :: ts =>
    (listFrom none ts).map (.quantifier (.between n m) true :: ·)
  | none, .openCount :: .number n :: .comma :: .number m :: .closeCount :: ts =>
    (listFrom none ts).map (.quantifier (.between n m) false :: ·)
  | none, t :: ts =>
    match ofToken? t with
    | none => none
    | some item => (listFrom none ts).map (item :: ·)
  | some d, .closeSet :: ts => (listFrom none ts).map (.one d.done :: ·)
  | some d, .dash :: .closeSet :: ts => (listFrom none ts).map (.one (d.push 45).done :: ·)
  | some d, .dash :: .byte high :: ts =>
    match d.previous with
    | .named => none
    | .byte low => (d.pushRange low high).bind fun d => listFrom (some d) ts
    | .nothing => listFrom (some ((d.push 45).push high)) ts
  | some d, .dash :: .dash :: ts =>
    match d.previous with
    | .named => none
    | .byte low => (d.pushRange low 45).bind fun d => listFrom (some d) ts
    | .nothing => listFrom (some (d.push 45)) (.dash :: ts)
  | some d, .dash :: ts =>
    match d.previous with
    | .nothing => listFrom (some (d.push 45)) ts
    | _ => none
  | some d, t :: ts => (readMember d t).bind fun d => listFrom (some d) ts

/-- **The items of an expression.** -/
def list? (expression : Bytes) : Option (List Item) :=
  (Token.list? expression).bind (listFrom none)

end Item

end Keyspace.Regex
