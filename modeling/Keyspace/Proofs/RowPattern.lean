import Keyspace.Predicate

/-!
# Patterns that are rows

Many expressions have no alternatives, no repetition and no groups: they are a **row** of single
bytes and anchors. Such an expression (`Spells`) is read as the pattern of its row, with one state
for each part (`Spells.part?_eq`), and the search for a row is a walk (`Row.walk?`): each part is
passed or not, nothing is tried twice, and what follows the row is asked at most once
(`attempt_row`).

An expression is refused for its size alone where its automaton would have more than `stateLimit`
states. `Pattern.ofAnySize?` is the reading without that limit.
-/

namespace Keyspace.Regex

/-! ### Rows -/

/-- **The parts of a row.** -/
inductive Atom where
  | one (set : ByteSet)
  | anchor (condition : Anchor)
deriving DecidableEq, Repr

namespace Atom

/-- The item that an atom is read from. -/
def item : Atom → Item
  | one set => .one set
  | anchor condition => .anchor condition

def pattern : Atom → Pattern
  | one set => .one set
  | anchor condition => .anchor condition

/-- The spot behind an atom; none where the atom does not hold. -/
def pass? (s : Spot) : Atom → Option Spot
  | one set =>
    match s.rest with
    | [] => none
    | b :: rest => if set.mem b then some { s with previous := some b, rest } else none
  | anchor condition => if s.meets condition then some s else none

end Atom

/-- A row of atoms. -/
abbrev Row := List Atom

namespace Row

/-- **The pattern of a row.** -/
def pattern : Row → Pattern
  | [] => .empty
  | a :: row => .seq a.pattern (pattern row)

/-- The spot behind a row; none where one of its atoms does not hold. -/
def walk? : Row → Spot → Option Spot
  | [], s => some s
  | a :: row, s => (a.pass? s).bind (walk? row)

/-- The row of the bytes of a text. -/
def literal (text : Bytes) : Row :=
  text.map fun b => .one (.single b)

end Row

/-! ### Reading -/

/-- A byte that stands for itself outside of brackets. -/
def isPlain (b : UInt8) : Bool :=
  !([92, 40, 91, 123, 41, 94, 36, 46, 42, 43, 63, 124] : Bytes).contains b

/-- **An expression spells a row.** -/
inductive Spells : Bytes → Row → Prop where
  | nil : Spells [] []
  | plain {b rest row} : isPlain b = true → Spells rest row →
    Spells (b :: rest) (.one (.single b) :: row)
  | textStart {rest row} : Spells rest row → Spells (94 :: rest) (.anchor .textStart :: row)
  | textEnd {rest row} : Spells rest row → Spells (36 :: rest) (.anchor .textEnd :: row)

variable {expression rest text : Bytes} {row : Row} {b : UInt8}

theorem Spells.length_eq (h : Spells expression row) : row.length = expression.length := by
  induction h with
  | nil => rfl
  | plain _ _ ih | textStart _ ih | textEnd _ ih => simp only [List.length_cons, ih]

theorem Spells.append {row' : Row} (h : Spells expression row) (h' : Spells rest row') :
    Spells (expression ++ rest) (row ++ row') := by
  induction h with
  | nil => exact h'
  | plain hb _ ih => exact .plain hb ih
  | textStart _ ih => exact .textStart ih
  | textEnd _ ih => exact .textEnd ih

/-- A text of plain bytes spells itself. -/
theorem spells_literal (h : ∀ b ∈ text, isPlain b = true) : Spells text (Row.literal text) := by
  induction text with
  | nil => exact .nil
  | cons b text ih =>
    obtain ⟨hb, htext⟩ := List.forall_mem_cons.mp h
    exact .plain hb (ih htext)

theorem Token.outside_of_isPlain (hb : isPlain b = true) (rest : Bytes) :
    Token.outside b rest = some (.byte b, .outside, rest) := by
  simp only [isPlain, List.contains_eq_mem, Bool.not_eq_true', decide_eq_false_iff_not,
    List.mem_cons, List.not_mem_nil, or_false, not_or] at hb
  simp [Token.outside, hb]

/-- **An expression is read as the items of a row**, whatever the bound on its length. -/
def ReadAs (expression : Bytes) (row : Row) : Prop :=
  ∀ bound, expression.length ≤ bound → ∃ tokens,
    Token.listFrom bound .outside expression = some tokens ∧
    Item.listFrom none tokens = some (row.map Atom.item)

/-- One byte in front that is a token and an item by itself. -/
theorem ReadAs.cons {token : Token} {a : Atom} (h : ReadAs rest row)
    (htoken : Token.outside b rest = some (token, .outside, rest))
    (hitem : ∀ tokens, Item.listFrom none (token :: tokens) =
      (Item.listFrom none tokens).map (a.item :: ·)) : ReadAs (b :: rest) (a :: row) := by
  intro bound hbound
  cases bound with
  | zero => exact absurd hbound (Nat.not_succ_le_zero rest.length)
  | succ bound =>
    obtain ⟨tokens, htokens, hitems⟩ := h bound (Nat.le_of_succ_le_succ hbound)
    refine ⟨token :: tokens, ?_, ?_⟩
    · simp only [Token.listFrom, Token.next, htoken, htokens, Option.map_some]
    · rw [hitem, hitems, Option.map_some, List.map_cons]

theorem Spells.readAs (h : Spells expression row) : ReadAs expression row := by
  induction h with
  | nil => exact fun bound _ => ⟨[], by cases bound <;> rfl, rfl⟩
  | @plain b rest row hb _ ih =>
    exact ih.cons (Token.outside_of_isPlain hb rest) fun _ => rfl
  | textStart _ ih => exact ih.cons rfl fun _ => rfl
  | textEnd _ ih => exact ih.cons rfl fun _ => rfl

/-- **The items of an expression that spells a row** are those of the row. -/
theorem Spells.list?_eq (h : Spells expression row) :
    Item.list? expression = some (row.map Atom.item) := by
  obtain ⟨tokens, htokens, hitems⟩ := h.readAs expression.length (Nat.le_refl _)
  rw [Item.list?, Token.list?, htokens, Option.bind_some, hitems]

/-! ### Parts and their size -/

/-- The parts of a row, with one state each. -/
def Row.parts (row : Row) : List Part :=
  row.map fun a : Atom => .leaf a.pattern

/-- The level after the atoms of a row. -/
theorem read_row (row : Row) (level : Level) (groups : Nat) :
    Pattern.read level [] groups (row.map Atom.item) =
      some { level with parts := row.parts.reverse ++ level.parts }.content := by
  induction row generalizing level with
  | nil => rfl
  | cons a row ih =>
    have hparts : Row.parts (a :: row) = .leaf a.pattern :: Row.parts row := rfl
    rw [hparts, List.reverse_cons, List.append_assoc, List.singleton_append, List.map_cons]
    cases a with
    | one set => exact ih (level.push (.leaf (.one set)) true)
    | anchor condition => exact ih (level.push (.leaf (.anchor condition)) false)

/-- A row has one state for each atom, and one for its end. -/
theorem inRow_parts (row : Row) :
    Part.inRow row.parts = ⟨row.pattern, row.length + 1, row.length + 1⟩ := by
  induction row with
  | nil => rfl
  | cons a row ih =>
    have hparts : Row.parts (a :: row) = .leaf a.pattern :: Row.parts row := rfl
    rw [hparts, Part.inRow, ih]
    simp only [Part.andThen, Part.leaf, Row.pattern, List.length_cons, Nat.add_comm 1]

/-- **The part that an expression stands for**, whatever its size. -/
def part? (expression : Bytes) : Option Part :=
  (Item.list? expression).bind (Pattern.read { enclosure := .whole } [] 0)

/-- **The pattern of an expression, whatever its size.** -/
def Pattern.ofAnySize? (expression : Bytes) : Option Pattern :=
  (part? expression).map Part.pattern

/-- **An expression has its pattern unless it is too large.** -/
theorem ofBytes?_eq (expression : Bytes) : Pattern.ofBytes? expression =
    (part? expression).bind fun whole =>
      if whole.built + 3 ≤ stateLimit then some whole.pattern else none := by
  rw [Pattern.ofBytes?, ← part?]
  cases part? expression <;> rfl

theorem Spells.part?_eq (h : Spells expression row) :
    part? expression = some ⟨row.pattern, row.length + 1, row.length + 1⟩ := by
  rw [part?, h.list?_eq, Option.bind_some, read_row, ← inRow_parts row]
  simp only [Level.content, List.append_nil, List.reverse_reverse]

/-! ### Searching -/

/-- An atom keeps the groups. -/
theorem Atom.groups_of_pass? {a : Atom} {s t : Spot} (h : a.pass? s = some t) :
    t.groups = s.groups := by
  cases a with
  | one set =>
    simp only [Atom.pass?] at h
    split at h
    · cases h
    · split at h
      · cases h
        rfl
      · cases h
  | anchor condition =>
    simp only [Atom.pass?] at h
    split at h
    · cases h
      rfl
    · cases h

theorem attempt_atom (a : Atom) (atStart : Bool) (site : Site) (s : Spot) (k : Following) :
    Pattern.attempt atStart a.pattern site s k =
      match a.pass? s with
      | some t => k t
      | none => .failed s.groups := by
  cases a with
  | one set =>
    simp only [Atom.pattern, Pattern.attempt, Atom.pass?]
    cases s.rest with
    | nil => rfl
    | cons b rest =>
      simp only
      split <;> rfl
  | anchor condition =>
    simp only [Atom.pattern, Pattern.attempt, Atom.pass?]
    split <;> rfl

/-- **The attempt to meet a row is a walk.** -/
theorem attempt_row (row : Row) (atStart : Bool) (site : Site) (s : Spot) (k : Following) :
    Pattern.attempt atStart row.pattern site s k =
      match row.walk? s with
      | some t => k t
      | none => .failed s.groups := by
  induction row generalizing site s with
  | nil => rfl
  | cons a row ih =>
    rw [Row.pattern, Pattern.attempt, attempt_atom, Row.walk?]
    cases hpass : a.pass? s with
    | none => rfl
    | some t =>
      rw [Option.bind_some, ← Atom.groups_of_pass? hpass]
      exact ih _ t

theorem holdsAt_row (row : Row) (atStart : Bool) (previous : Option UInt8) (rest : Bytes) :
    row.pattern.holdsAt atStart previous rest = (row.walk? { previous, rest }).isSome := by
  rw [Pattern.holdsAt, attempt_row]
  cases row.walk? { previous, rest } <;> rfl

theorem startsText_cons_cons (b c : UInt8) (text rest : Bytes) :
    Bytes.startsText (b :: text) (c :: rest) = (decide (c = b) && Bytes.startsText text rest) := by
  rw [Bytes.startsText, List.isPrefixOf_cons_cons, Bool.beq_comm]
  rfl

theorem mem_single (b c : UInt8) : (ByteSet.single b).mem c = decide (c = b) := by
  simp [ByteSet.mem, ByteSet.single, Member.covers]

/-- One byte of a text is skipped, and then the others. -/
theorem Spot.skip_cons (s : Spot) (b : UInt8) (text : Bytes) :
    s.skip (b :: text) = Spot.skip { s with previous := some b, rest := s.rest.tail } text := by
  simp only [Spot.skip, List.getLast?_cons, List.length_cons, ← List.drop_tail]
  cases text.getLast? <;> rfl

/-- **A text in a row** is passed where it stands. -/
theorem walk?_literal (text : Bytes) (row : Row) (s : Spot) :
    Row.walk? (Row.literal text ++ row) s =
      if Bytes.startsText text s.rest then row.walk? (s.skip text) else none := by
  induction text generalizing s with
  | nil => rfl
  | cons b text ih =>
    have hliteral : Row.literal (b :: text) = .one (.single b) :: Row.literal text := rfl
    rw [hliteral, List.cons_append, Row.walk?, Atom.pass?]
    cases hrest : s.rest with
    | nil => rfl
    | cons c rest =>
      rw [startsText_cons_cons, Spot.skip_cons, hrest, List.tail_cons]
      simp only [mem_single]
      by_cases hbyte : c = b
      · subst hbyte
        simp only [decide_true, if_true, Option.bind_some, Bool.true_and, ih]
      · simp only [hbyte, decide_false, Bool.false_eq_true, if_false, Option.bind_none,
          Bool.false_and]

end Keyspace.Regex
