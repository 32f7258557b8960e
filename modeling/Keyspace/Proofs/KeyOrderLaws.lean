import Keyspace.Proofs.IntegerReaders
import Keyspace.Proofs.KeyOrders

/-!
# The laws of the built-in orders

Each built-in order is a strict total order on all byte strings (`KeyOrder.built_in_laws`): of two
different keys exactly one comes before the other, whatever mixture of integers, spellings of one
integer, numerals out of range and other texts they are taken from.

What the orders say is stated apart from how they compare. Texts are ordered by their first
different byte, without sign, and an initial segment comes first (`Bytes.Precedes`). In the numeric
order the integers that the keys read as decide (`Numeral.Reads`): a key that reads as an integer
comes before one that does not and before one that reads as a greater integer, and where both read
alike, as the same integer or as none, they are ordered as texts (`numeric_iff_reads`).
-/

namespace Keyspace

/-! ### Texts -/

namespace Bytes

/-- **The order of texts**, byte by byte. -/
inductive Precedes : Bytes → Bytes → Prop where
  /-- A proper initial segment comes first. -/
  | segment (front : Bytes) (y : UInt8) (ys : Bytes) : Precedes front (front ++ y :: ys)
  /-- The first different byte decides, by its value without sign. -/
  | byte (front : Bytes) {x y : UInt8} (xs ys : Bytes) : x.toNat < y.toNat →
    Precedes (front ++ x :: xs) (front ++ y :: ys)

variable {a b : Bytes} {x y : UInt8}

theorem Precedes.cons (h : Precedes a b) (x : UInt8) : Precedes (x :: a) (x :: b) := by
  cases h with
  | segment front y ys => exact .segment (x :: a) y ys
  | byte front xs ys hlt => exact .byte (x :: front) xs ys hlt

/-- Nothing comes before the empty text. -/
theorem Precedes.ne_nil (h : Precedes a b) : b ≠ [] := by
  cases h <;> exact List.append_ne_nil_of_right_ne_nil _ (List.cons_ne_nil _ _)

/-- Behind a common first byte, the rest decides. -/
theorem precedes_cons_iff : Precedes (x :: a) (y :: b) ↔ x < y ∨ x = y ∧ Precedes a b := by
  constructor
  · intro h
    generalize hleft : x :: a = left at h
    generalize hright : y :: b = right at h
    cases h with
    | segment front z zs =>
      subst hleft
      obtain ⟨rfl, rfl⟩ := List.cons.inj hright
      exact .inr ⟨rfl, .segment a z zs⟩
    | byte front xs ys hlt =>
      cases front with
      | nil =>
        obtain ⟨rfl, rfl⟩ := List.cons.inj hleft
        obtain ⟨rfl, rfl⟩ := List.cons.inj hright
        exact .inl hlt
      | cons z front =>
        obtain ⟨rfl, rfl⟩ := List.cons.inj hleft
        obtain ⟨rfl, rfl⟩ := List.cons.inj hright
        exact .inr ⟨rfl, .byte front xs ys hlt⟩
  · rintro (hlt | ⟨rfl, h⟩)
    · exact .byte [] a b hlt
    · exact h.cons x

/-- **The comparison of texts decides their order.** -/
theorem less_iff_precedes : less a b = true ↔ Precedes a b := by
  induction a generalizing b with
  | nil =>
    cases b with
    | nil => exact iff_of_false nofun fun h => h.ne_nil rfl
    | cons y ys => exact iff_of_true rfl (.segment [] y ys)
  | cons x xs ih =>
    cases b with
    | nil => exact iff_of_false nofun fun h => h.ne_nil rfl
    | cons y ys =>
      rw [precedes_cons_iff, ← ih, less]
      by_cases hlt : x < y
      · simp [hlt]
      · by_cases heq : x = y <;> simp [hlt, heq]

end Bytes

/-! ### Keys -/

/-- In a table that lists everything under its own name a name finds what has it. -/
theorem lookup_eq_some_iff_of_named {α : Type} {table : List (Bytes × α)} {name : α → Bytes}
    (hnamed : ∀ entry ∈ table, entry.1 = name entry.2) (hlisted : ∀ x, table.lookup (name x) = some x)
    {text : Bytes} {x : α} : table.lookup text = some x ↔ text = name x := by
  constructor
  · intro h
    obtain ⟨before, after, rfl, -⟩ := List.lookup_eq_some_iff.mp h
    exact hnamed (text, x) (List.mem_append_right before List.mem_cons_self)
  · rintro rfl
    exact hlisted x

namespace KeyOrder

variable {a b : Bytes}

/-- The name of an order. -/
def name : KeyOrder → Bytes
  | lexicalAscending => Bytes.ascii "lexical-asc"
  | lexicalDescending => Bytes.ascii "lexical-desc"
  | numeric => Bytes.ascii "numeric"

theorem ofName?_eq_some_iff {text : Bytes} {order : KeyOrder} :
    ofName? text = some order ↔ text = order.name :=
  lookup_eq_some_iff_of_named (by decide) fun order => by cases order <;> decide

/-- Two keys are read alike exactly if they read as the same integers. -/
theorem integer?_eq_iff_reads :
    integer? a = integer? b ↔ ∀ n, Numeral.Reads a n ↔ Numeral.Reads b n := by
  have hread {key : Bytes} {n : Int} :
      Numeral.Reads key n ↔ ∃ w, integer? key = some w ∧ w.toInt = n := by
    rw [integer?_eq_int64?]
    exact Numeral.reads_iff
  constructor
  · intro heq n
    rw [hread, hread, heq]
  · intro h
    refine Option.ext fun w => ?_
    rw [integer?_eq_some_iff, integer?_eq_some_iff]
    exact h w.toInt

/-- **What the numeric order says**: the integers that the keys read as decide, and where there is
nothing between them, the texts. -/
theorem numeric_iff_reads : numeric.less a b = true ↔
    (∃ m, Numeral.Reads a m ∧ ∀ n, Numeral.Reads b n → m < n) ∨
      (∀ n, Numeral.Reads a n ↔ Numeral.Reads b n) ∧ Bytes.Precedes a b := by
  rw [less_numeric_iff, integer?_eq_iff_reads, Bytes.less_iff_precedes]
  refine or_congr_left ?_
  constructor
  · rintro ⟨m, ha, hlt⟩
    refine ⟨m.toInt, integer?_eq_some_iff.mp ha, fun n hb => ?_⟩
    obtain ⟨w, hw, rfl⟩ := Numeral.reads_iff.mp hb
    exact Int64.lt_iff_toInt_lt.mp (hlt w ((integer?_eq_int64? b).trans hw))
  · rintro ⟨m, ha, hlt⟩
    obtain ⟨w, hw, rfl⟩ := Numeral.reads_iff.mp ha
    refine ⟨w, (integer?_eq_int64? a).trans hw, fun v hv => ?_⟩
    exact Int64.lt_iff_toInt_lt.mpr (hlt v.toInt (integer?_eq_some_iff.mp hv))

/-- Spellings of the same integer, numerals out of range, and texts that are nearly numerals. -/
example : Comparison.Increasing numeric.less
    [Bytes.ascii "-1", Bytes.ascii "\t0", Bytes.ascii "-0", Bytes.ascii "+1", Bytes.ascii "01",
      Bytes.ascii "1", Bytes.ascii "9223372036854775807", Bytes.ascii "", Bytes.ascii "+",
      Bytes.ascii "1\x00", Bytes.ascii "9223372036854775808", [255]] := by
  decide +kernel

/-- **The laws of the built-in orders.** -/
structure BuiltInLaws : Prop where
  /-- They are the orders that are known by name. -/
  named : ∀ text order, ofName? text = some order ↔ text = order.name
  irreflexive : ∀ (order : KeyOrder) a, order.less a a = false
  transitive : ∀ (order : KeyOrder) a b c, order.less a b = true → order.less b c = true →
    order.less a c = true
  /-- Of two different keys exactly one comes before the other. -/
  decided : ∀ (order : KeyOrder) a b, a ≠ b → (order.less a b = true ↔ order.less b a = false)
  ascending : ∀ a b, lexicalAscending.less a b = true ↔ Bytes.Precedes a b
  descending : ∀ a b, lexicalDescending.less a b = true ↔ Bytes.Precedes b a
  /-- A key that reads as an integer comes before every key that does not. -/
  integersFirst : ∀ a b, (∃ m, Numeral.Reads a m) → (∀ n, ¬ Numeral.Reads b n) →
    numeric.less a b = true
  byValue : ∀ a b m n, Numeral.Reads a m → Numeral.Reads b n → m ≠ n →
    (numeric.less a b = true ↔ m < n)
  /-- Keys that read as the same integer, or as none, are ordered as texts. -/
  asTexts : ∀ a b, (∀ n, Numeral.Reads a n ↔ Numeral.Reads b n) →
    (numeric.less a b = true ↔ Bytes.Precedes a b)

theorem built_in_laws : BuiltInLaws where
  named _ _ := ofName?_eq_some_iff
  irreflexive order := (strictTotal order).irrefl
  transitive order := (strictTotal order).trans
  decided order a b hne := by
    have hstrict := strictTotal order
    constructor
    · exact hstrict.strictWeak.asymm
    · intro hba
      rcases hstrict.connected a b hne with hab | hba'
      · exact hab
      · exact absurd hba' (Bool.eq_false_iff.mp hba)
  ascending _ _ := Bytes.less_iff_precedes
  descending _ _ := Bytes.less_iff_precedes
  integersFirst a b ha hb := by
    obtain ⟨m, hm⟩ := ha
    exact numeric_iff_reads.mpr (.inl ⟨m, hm, fun n hn => absurd hn (hb n)⟩)
  byValue a b m n ha hb hne := by
    rw [numeric_iff_reads]
    constructor
    · rintro (⟨k, hk, hlt⟩ | ⟨hsame, -⟩)
      · rw [ha.unique hk]
        exact hlt n hb
      · exact absurd (((hsame m).mp ha).unique hb) hne
    · intro hlt
      refine .inl ⟨m, ha, fun k hk => ?_⟩
      rwa [← hb.unique hk]
  asTexts a b hsame := by
    rw [numeric_iff_reads]
    constructor
    · rintro (⟨m, hm, hlt⟩ | ⟨-, htexts⟩)
      · exact absurd (hlt m ((hsame m).mp hm)) (Int.lt_irrefl m)
      · exact htexts
    · intro htexts
      exact .inr ⟨hsame, htexts⟩

end KeyOrder

end Keyspace
