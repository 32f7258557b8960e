import Keyspace.Proofs.RowPattern
import Keyspace.Value
import Mathlib.Data.List.Infix

/-!
# What conditions mean

A condition says of an expression that it is the text, that the text begins with it, that it occurs
in the text, or that it is a pattern that holds somewhere in the text. The first three are relations
of lists, each of which implies the next (`Condition.conditions_agree`).

The fourth agrees with them on expressions of letters and digits. Such an expression spells a row
(`Regex.Spells`), so that searching for it is to walk along it from every place of the text
(`search_literal`); with a start of text in front the walk is possible only from the first place
(`search_fromStart`), and with an end of text behind, only if nothing is left. Bytes that end lines,
and zero bytes, are bytes like any others there.

`Condition.holdsAtAnySize` is the condition for patterns of any size. The condition itself refuses
a pattern of more states than `Regex.stateLimit`, and is that condition for all others
(`holds_pattern_eq`).
-/

namespace Keyspace

/-! ### Segments -/

namespace Bytes

variable {segment text : Bytes}

theorem startsText_iff : startsText segment text = true ↔ segment <+: text :=
  List.isPrefixOf_iff_prefix

theorem occursIn_iff : occursIn segment text = true ↔ segment <:+: text := by
  induction text with
  | nil => rw [occursIn, List.isEmpty_iff, List.infix_nil]
  | cons b text ih => rw [occursIn, Bool.or_eq_true, startsText_iff, ih, List.infix_cons_iff]

/-- A text that begins with a segment and has nothing left behind it is the segment. -/
theorem eq_of_startsText (h : startsText segment text = true)
    (hrest : text.drop segment.length = []) : text = segment := by
  have hprefix := List.prefix_iff_eq_append.mp (startsText_iff.mp h)
  rw [hrest, List.append_nil] at hprefix
  exact hprefix.symm

end Bytes

/-! ### Searching for a text -/

namespace Regex

variable {expression text : Bytes} {b : UInt8}

/-- **A letter or a digit stands for itself.** -/
theorem isPlain_of_isAlnum (h : ByteClass.isAlnum b = true) : isPlain b = true := by
  rw [isPlain, Bool.not_eq_true', List.contains_eq_mem, decide_eq_false_iff_not]
  intro hmem
  have hspecial : ([92, 40, 91, 123, 41, 94, 36, 46, 42, 43, 63, 124] : Bytes).all
      (fun c => !ByteClass.isAlnum c) = true := by decide
  have hother := List.all_eq_true.mp hspecial b hmem
  rw [h] at hother
  cases hother

theorem holdsAt_literal (text : Bytes) (atStart : Bool) (previous : Option UInt8) (rest : Bytes) :
    (Row.literal text).pattern.holdsAt atStart previous rest = Bytes.startsText text rest := by
  have hwalk := walk?_literal text [] { previous, rest }
  rw [List.append_nil] at hwalk
  rw [holdsAt_row, hwalk]
  split
  · next h => exact h.symm
  · next h => exact (Bool.eq_false_iff.mpr h).symm

/-- **The pattern of a text holds where the text occurs.** -/
theorem search_literal (segment text : Bytes) :
    (Row.literal segment).pattern.search text = Bytes.occursIn segment text := by
  rw [Pattern.search, holdsAt_literal]
  induction text with
  | nil =>
    rw [Pattern.searchAfter, Bool.or_false, Bytes.occursIn]
    cases segment <;> rfl
  | cons b text ih => rw [Pattern.searchAfter, holdsAt_literal, ih, Bytes.occursIn]

/-- Behind the start of a text, no row that begins with it holds. -/
theorem searchAfter_fromStart (row : Row) (text : Bytes) :
    (Row.pattern (.anchor .textStart :: row)).searchAfter text = false := by
  induction text with
  | nil => rfl
  | cons b text ih =>
    rw [Pattern.searchAfter, ih, Bool.or_false, holdsAt_row]
    rfl

/-- **A row that begins with the start of a text** holds if the walk from there does. -/
theorem search_fromStart (row : Row) (text : Bytes) :
    (Row.pattern (.anchor .textStart :: row)).search text =
      (row.walk? { previous := none, rest := text }).isSome := by
  rw [Pattern.search, searchAfter_fromStart, Bool.or_false, holdsAt_row]
  rfl

theorem search_prefix (segment text : Bytes) :
    (Row.pattern (.anchor .textStart :: Row.literal segment)).search text =
      Bytes.startsText segment text := by
  rw [search_fromStart, ← holdsAt_row (Row.literal segment) true, holdsAt_literal]

theorem search_whole (segment text : Bytes) :
    (Row.pattern (.anchor .textStart :: (Row.literal segment ++ [.anchor .textEnd]))).search text =
      decide (text = segment) := by
  rw [search_fromStart, walk?_literal]
  split
  · next hstarts =>
    -- behind the segment, the walk asks whether anything is left
    have hend : (Row.walk? [.anchor .textEnd]
        (Spot.skip { previous := none, rest := text } segment)).isSome =
          (text.drop segment.length).isEmpty := by
      by_cases hempty : (text.drop segment.length).isEmpty = true <;>
        simp [Row.walk?, Atom.pass?, Spot.meets, Spot.skip, hempty]
    rw [hend, Bool.eq_iff_iff, List.isEmpty_iff, decide_eq_true_iff]
    constructor
    · exact Bytes.eq_of_startsText hstarts
    · rintro rfl
      exact List.drop_length
  · next hstarts =>
    refine (decide_eq_false ?_).symm
    rintro rfl
    exact hstarts (Bytes.startsText_iff.mpr List.prefix_rfl)

/-- Whether the automaton of an expression is within the limit; a malformed one has none. -/
def fits (expression : Bytes) : Bool :=
  match part? expression with
  | some whole => whole.built + 3 ≤ stateLimit
  | none => true

/-- The automaton of a row has four states beside the ones of the expression's bytes. -/
theorem Spells.fits_iff {row : Row} (h : Spells expression row) :
    fits expression = true ↔ expression.length + 4 ≤ stateLimit := by
  rw [fits, h.part?_eq, ← h.length_eq]
  exact decide_eq_true_iff

theorem Spells.ofAnySize?_eq {row : Row} (h : Spells expression row) :
    Pattern.ofAnySize? expression = some row.pattern := by
  rw [Pattern.ofAnySize?, h.part?_eq, Option.map_some]

end Regex

/-! ### Conditions -/

namespace Condition

variable {expression text : Bytes}

/-- **Whether a text meets a condition**, where patterns may be of any size. -/
def holdsAtAnySize (c : Condition) (expression text : Bytes) : Outcome Bool :=
  match c with
  | pattern =>
    match Regex.Pattern.ofAnySize? expression with
    | none => .error .malformedPattern
    | some p => .ok (p.search text)
  | c => c.holds expression text

/-- **The limit is all that a pattern's size matters for.** -/
theorem holds_pattern_eq (expression text : Bytes) : pattern.holds expression text =
    if Regex.fits expression then pattern.holdsAtAnySize expression text
    else .error .malformedPattern := by
  cases hpart : Regex.part? expression with
  | none =>
    simp only [holds, holdsAtAnySize, Regex.ofBytes?_eq, Regex.Pattern.ofAnySize?, Regex.fits, hpart]
    rfl
  | some whole =>
    simp only [holds, holdsAtAnySize, Regex.ofBytes?_eq, Regex.Pattern.ofAnySize?, Regex.fits, hpart,
      Option.bind_some, Option.map_some, decide_eq_true_eq]
    by_cases hfits : whole.built + 3 ≤ Regex.stateLimit <;> simp only [hfits, if_true, if_false]

theorem holdsAtAnySize_of_spells {row : Regex.Row} (h : Regex.Spells expression row) :
    pattern.holdsAtAnySize expression text = .ok (row.pattern.search text) := by
  simp only [holdsAtAnySize, h.ofAnySize?_eq]

theorem beginsWith_eq (expression text : Bytes) :
    beginsWith.holds expression text = .ok (decide (expression <+: text)) := by
  rw [holds, Except.ok.injEq, Bool.eq_iff_iff, Bytes.startsText_iff, decide_eq_true_iff]

theorem contains_eq_occurs (expression text : Bytes) :
    contains.holds expression text = .ok (decide (expression <:+: text)) := by
  rw [holds, Except.ok.injEq, Bool.eq_iff_iff, Bytes.occursIn_iff, decide_eq_true_iff]

/-- **What the conditions mean, and where they agree.** -/
structure Agree (expression text : Bytes) : Prop where
  /-- A stored text satisfies a predicate as the condition says of its expression. -/
  satisfied : ∀ type c, (Value.text text).satisfies ⟨type, expression⟩ c = c.holds expression text
  same : equals.holds expression text = .ok (decide (text = expression))
  initial : beginsWith.holds expression text = .ok (decide (expression <+: text))
  longer : text.length < expression.length → beginsWith.holds expression text = .ok false
  occurs : contains.holds expression text = .ok (decide (expression <:+: text))
  empty : contains.holds [] text = .ok true
  initial_of_same : equals.holds expression text = .ok true →
    beginsWith.holds expression text = .ok true
  occurs_of_initial : beginsWith.holds expression text = .ok true →
    contains.holds expression text = .ok true
  /-- A pattern of letters and digits occurs, alone; begins the text, behind a start of text; and is
  the text, between its start and its end. -/
  patterns : (∀ b ∈ expression, Regex.ByteClass.isAlnum b = true) →
    pattern.holdsAtAnySize expression text = contains.holds expression text ∧
    pattern.holdsAtAnySize (94 :: expression) text = beginsWith.holds expression text ∧
    pattern.holdsAtAnySize (94 :: expression ++ [36]) text = equals.holds expression text
  /-- Only the size of a pattern makes the condition differ from the one at any size. -/
  limited : ∀ e, pattern.holds e text =
    if Regex.fits e then pattern.holdsAtAnySize e text else .error .malformedPattern
  fitting : (∀ b ∈ expression, Regex.ByteClass.isAlnum b = true) →
    (Regex.fits expression = true ↔ expression.length + 4 ≤ Regex.stateLimit) ∧
    (Regex.fits (94 :: expression) = true ↔ expression.length + 5 ≤ Regex.stateLimit) ∧
    (Regex.fits (94 :: expression ++ [36]) = true ↔ expression.length + 6 ≤ Regex.stateLimit)

theorem conditions_agree (expression text : Bytes) : Agree expression text := by
  have hspells (h : ∀ b ∈ expression, Regex.ByteClass.isAlnum b = true) :
      Regex.Spells expression (Regex.Row.literal expression) :=
    Regex.spells_literal fun b hb => Regex.isPlain_of_isAlnum (h b hb)
  have hwhole (h : ∀ b ∈ expression, Regex.ByteClass.isAlnum b = true) :
      Regex.Spells (94 :: expression ++ [36]) _ :=
    (hspells h).textStart.append (.textEnd .nil)
  exact {
    satisfied := fun type c => rfl
    same := rfl
    initial := beginsWith_eq expression text
    longer := fun hlt => by
      rw [beginsWith_eq, decide_eq_false]
      intro hprefix
      exact Nat.not_lt.mpr hprefix.length_le hlt
    occurs := contains_eq_occurs expression text
    empty := by rw [contains_eq_occurs, decide_eq_true List.nil_infix]
    initial_of_same := fun h => by
      rw [holds, Except.ok.injEq, decide_eq_true_iff] at h
      rw [beginsWith_eq, decide_eq_true (h ▸ List.prefix_rfl)]
    occurs_of_initial := fun h => by
      rw [beginsWith_eq, Except.ok.injEq, decide_eq_true_iff] at h
      rw [contains_eq_occurs, decide_eq_true h.isInfix]
    patterns := fun h => by
      refine ⟨?_, ?_, ?_⟩
      · rw [holdsAtAnySize_of_spells (hspells h), Regex.search_literal]
        rfl
      · rw [holdsAtAnySize_of_spells (hspells h).textStart, Regex.search_prefix]
        rfl
      · rw [holdsAtAnySize_of_spells (hwhole h), List.cons_append, Regex.search_whole]
        rfl
    limited := fun e => holds_pattern_eq e text
    fitting := fun h => by
      refine ⟨(hspells h).fits_iff, (hspells h).textStart.fits_iff, ?_⟩
      rw [(hwhole h).fits_iff, List.length_append, List.length_cons]
      rfl }

/-- The end of a text is not the end of a line. -/
example : pattern.holds (Bytes.ascii "^a1$") (Bytes.ascii "a1\n") = .ok false := by
  rfl

end Condition

end Keyspace
