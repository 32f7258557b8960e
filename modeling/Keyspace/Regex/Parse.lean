import Keyspace.Regex.Item

/-!
# From items to a pattern

The items are read from left to right with a stack of open parentheses (`Level`). Each part of the
tree is kept with the number of states that an automaton for it takes (`Part`): `live` states belong
to one copy of the part, `built` states also count the copies that a quantifier made of it and then
did without. An expression whose automaton would take more than `stateLimit` states is refused.

A quantifier needs a part in front of it, and neither an anchor nor a look-ahead is one. A
back-reference needs a group that is closed when the reference is read.
-/

namespace Keyspace.Regex

/-- The largest number of states of an automaton. -/
def stateLimit : Nat := 100000

/-- **A part of the tree** with the number of its states. -/
structure Part where
  pattern : Pattern
  live : Nat
  built : Nat
deriving Repr

namespace Part

/-- A part of one state. -/
def leaf (p : Pattern) : Part := ⟨p, 1, 1⟩

/-- One part after another. -/
def andThen (a b : Part) : Part :=
  ⟨.seq a.pattern b.pattern, a.live + b.live, a.built + b.built⟩

/-- One part or else another, with a state where they part and one where they meet. -/
def orElse (a b : Part) : Part :=
  ⟨.alt a.pattern b.pattern, a.live + b.live + 2, a.built + b.built + 2⟩

/-- A part with `n` states around it. -/
def wrapped (n : Nat) (p : Pattern) (a : Part) : Part :=
  ⟨p, a.live + n, a.built + n⟩

/-- `fixed` copies of a part and up to `extra` more, each of these with a state that may skip it. -/
def copied (fixed extra : Nat) (reluctant : Bool) (a : Part) : Part :=
  let states := 2 + fixed * a.live + extra * (a.live + 1)
  ⟨.copies fixed extra reluctant a.pattern, states, a.built + states⟩

/-- `fixed` copies of a part and a loop over one more. -/
def copiedLoop (fixed : Nat) (reluctant : Bool) (a : Part) : Part :=
  let states := 2 + (fixed + 1) * a.live
  ⟨.seq (.copies fixed 0 reluctant a.pattern) (.loop false reluctant a.pattern), states,
    a.built + states⟩

/-- A part under a quantifier; counts must not go down. -/
def repeated (reluctant : Bool) (a : Part) : Quantity → Option Part
  | .any => some (a.wrapped 1 (.loop false reluctant a.pattern))
  | .some => some (a.wrapped 1 (.loop true reluctant a.pattern))
  | .optional => some (a.wrapped 2 (.copies 0 1 reluctant a.pattern))
  | .exactly n => some (a.copied n 0 reluctant)
  | .atLeast n => some (a.copiedLoop n reluctant)
  | .between low high => if high < low then none else some (a.copied low (high - low) reluctant)

/-- A list of parts in a row. -/
def inRow : List Part → Part
  | [] => leaf .empty
  | a :: rest => a.andThen (inRow rest)

end Part

/-- What an open parenthesis waits for. -/
inductive Enclosure where
  | whole
  | capture (number : Nat)
  | plain
  | ahead (negated : Bool)
deriving DecidableEq, Repr

/-- **An open parenthesis**: the alternatives that are complete, and the parts of the one that is
being read, last part first. -/
structure Level where
  enclosure : Enclosure
  alternatives : Option Part := none
  parts : List Part := []
  /-- Whether a quantifier may follow. -/
  repeatable : Bool := false
deriving Repr

namespace Level

/-- The level with one more part. -/
def push (l : Level) (a : Part) (repeatable : Bool) : Level :=
  { l with parts := a :: l.parts, repeatable }

/-- The part that the level has become. -/
def content (l : Level) : Part :=
  let last := Part.inRow l.parts.reverse
  match l.alternatives with
  | none => last
  | some left => left.orElse last

/-- The level at the start of its next alternative. -/
def nextAlternative (l : Level) : Level :=
  { l with alternatives := some l.content, parts := [], repeatable := false }

/-- The level with its last part under a quantifier. -/
def quantify (l : Level) (quantity : Quantity) (reluctant : Bool) : Option Level :=
  match l.repeatable, l.parts with
  | true, a :: rest => (a.repeated reluctant quantity).map fun a => { l with parts := a :: rest }
  | _, _ => none

/-- The level around a closed one. -/
def close (outer inner : Level) : Level :=
  let a := inner.content
  match inner.enclosure with
  | .capture n => outer.push (a.wrapped 2 (.group n a.pattern)) true
  | .ahead negated => outer.push (a.wrapped 2 (.ahead negated a.pattern)) false
  | _ => outer.push (a.wrapped 1 a.pattern) true

/-- Whether the level is the body of a group. -/
def captures (l : Level) (number : Nat) : Bool :=
  l.enclosure = .capture number

end Level

namespace Pattern

/-- The part that a list of items stands for, read inside `level`, which is inside the levels of
`outer`, after `groups` groups were opened. -/
def read : Level → List Level → Nat → List Item → Option Part
  | level, [], _, [] => some level.content
  | _, _ :: _, _, [] => none
  | level, outer, groups, .one set :: rest =>
    read (level.push (.leaf (.one set)) true) outer groups rest
  | level, outer, groups, .anchor condition :: rest =>
    read (level.push (.leaf (.anchor condition)) false) outer groups rest
  | level, outer, groups, .backref n :: rest =>
    if n = 0 || groups < n || (level :: outer).any fun l => l.captures n then none
    else read (level.push (.leaf (.backref n)) true) outer groups rest
  | level, outer, groups, .opening .capture :: rest =>
    read { enclosure := .capture (groups + 1) } (level :: outer) (groups + 1) rest
  | level, outer, groups, .opening .plain :: rest =>
    read { enclosure := .plain } (level :: outer) groups rest
  | level, outer, groups, .opening (.ahead negated) :: rest =>
    read { enclosure := .ahead negated } (level :: outer) groups rest
  | _, [], _, .closing :: _ => none
  | level, around :: outer, groups, .closing :: rest =>
    read (around.close level) outer groups rest
  | level, outer, groups, .bar :: rest => read level.nextAlternative outer groups rest
  | level, outer, groups, .quantifier quantity reluctant :: rest =>
    match level.quantify quantity reluctant with
    | none => none
    | some level => read level outer groups rest

/-- **The pattern of an expression**, unless it is malformed. Besides the states of its parts an
automaton has one state before them and two after them. -/
def ofBytes? (expression : Bytes) : Option Pattern :=
  match (Item.list? expression).bind (read { enclosure := .whole } [] 0) with
  | some whole => if whole.built + 3 ≤ stateLimit then some whole.pattern else none
  | none => none

end Pattern

end Keyspace.Regex
