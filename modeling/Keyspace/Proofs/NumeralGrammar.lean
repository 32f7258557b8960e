import Keyspace.Numeral
import Mathlib.Data.List.Induction
import Mathlib.Data.List.TakeWhile
import Mathlib.Data.Nat.Digits.Defs

/-!
# The grammar of decimal numerals

A text denotes an integer in decimal (`Numeral.Denotes`) if it is white space, then a sign or none,
then one or more digits, and nothing else. The scanner reads what denotes an integer as that integer,
up to where digits stop (`Numeral.Denotes.scan_append`), and what it reads denotes an integer
(`Numeral.exists_denotes_of_scan`). A word of 64 bits is read modulo `2 ^ 64`
(`Numeral.word64?_front_iff`), so it is the integer itself only if that is not negative.
-/

namespace Keyspace

theorem Bytes.isDigit_iff (d : UInt8) : isDigit d = true ↔ 48 ≤ d.toNat ∧ d.toNat ≤ 57 := by
  simp only [isDigit, Bool.and_eq_true, decide_eq_true_eq, UInt8.le_iff_toNat_le]
  rfl

namespace Numeral

/-- One or more digits. -/
structure AreDigits (digits : Bytes) : Prop where
  nonempty : digits ≠ []
  digit : ∀ d ∈ digits, Bytes.isDigit d = true

/-- What digits denote by their places, the last of them being the lowest. -/
def decimal (digits : Bytes) : Nat :=
  Nat.ofDigits 10 (digits.reverse.map fun d => d.toNat - 48)

/-- **The integer that a text denotes in decimal.** -/
inductive Denotes : Bytes → Int → Prop where
  | blank {b text n} : Bytes.isBlank b = true → Denotes text n → Denotes (b :: text) n
  | plain {digits} : AreDigits digits → Denotes digits (decimal digits)
  | plus {digits} : AreDigits digits → Denotes (43 :: digits) (decimal digits)
  | minus {digits} : AreDigits digits → Denotes (45 :: digits) (-decimal digits)

variable {b : UInt8} {digits text rest : Bytes} {n m : Int}

/-- Digits read from the front denote what they denote by their places. -/
theorem ofDigits_eq_decimal (digits : Bytes) : ofDigits digits = decimal digits := by
  induction digits using List.reverseRecOn with
  | nil => rfl
  | append_singleton digits d ih =>
    simp only [ofDigits, decimal, List.foldl_append, List.foldl_cons, List.foldl_nil,
      List.reverse_append, List.reverse_cons, List.reverse_nil, List.nil_append, List.cons_append,
      List.map_cons, Nat.ofDigits_cons] at ih ⊢
    rw [ih, Nat.add_comm]

/-! ### The scanner reads the grammar -/

theorem scan_of_blank (hb : Bytes.isBlank b = true) : scan (b :: text) = scan text := by
  simp only [scan, List.dropWhile_cons_of_pos hb]

/-- Digits stop in front of a text that does not begin with one. -/
def Stops (rest : Bytes) : Prop :=
  ∀ d ∈ rest.head?, Bytes.isDigit d = false

theorem Stops.nil : Stops [] :=
  nofun

/-- Digits behind the sign that was read are scanned up to where they stop. -/
theorem scan_append_of_sign {negative : Bool} (hdigits : AreDigits digits) (hstops : Stops rest)
    (hsign : scanSign (text.dropWhile Bytes.isBlank) = (negative, digits ++ rest)) :
    scan text = some (⟨negative, decimal digits⟩, rest) := by
  have hrest : rest.takeWhile Bytes.isDigit = [] ∧ rest.dropWhile Bytes.isDigit = rest := by
    cases rest with
    | nil => exact ⟨rfl, rfl⟩
    | cons d rest =>
      have hd : ¬ Bytes.isDigit d = true := Bool.eq_false_iff.mp (hstops d rfl)
      exact ⟨List.takeWhile_cons_of_neg hd, List.dropWhile_cons_of_neg hd⟩
  have htake : (digits ++ rest).takeWhile Bytes.isDigit = digits := by
    rw [List.takeWhile_append_of_pos hdigits.digit, hrest.1, List.append_nil]
  have hdrop : (digits ++ rest).dropWhile Bytes.isDigit = rest := by
    rw [List.dropWhile_append_of_pos hdigits.digit, hrest.2]
  have hempty : ¬ digits.isEmpty = true := by simpa using hdigits.nonempty
  simp only [scan, hsign, htake, hdrop, if_neg hempty, ofDigits_eq_decimal]

/-- A text of digits only, behind the sign that was read, is scanned to its end. -/
theorem scan_of_sign {negative : Bool} (hdigits : AreDigits digits)
    (hsign : scanSign (text.dropWhile Bytes.isBlank) = (negative, digits)) :
    scan text = some (⟨negative, decimal digits⟩, []) :=
  scan_append_of_sign hdigits .nil (hsign.trans (by rw [List.append_nil]))

/-- Neither white space nor a sign stands in front of digits. -/
theorem AreDigits.scanSign_append (h : AreDigits digits) (rest : Bytes) :
    scanSign ((digits ++ rest).dropWhile Bytes.isBlank) = (false, digits ++ rest) := by
  obtain ⟨d, digits, rfl⟩ := List.exists_cons_of_ne_nil h.nonempty
  have hd := (Bytes.isDigit_iff d).mp (h.digit d List.mem_cons_self)
  have hblank : ¬ Bytes.isBlank d = true := by
    simp only [Bytes.isBlank, Bool.or_eq_true, Bool.and_eq_true, decide_eq_true_eq,
      UInt8.le_iff_toNat_le, ← UInt8.toNat_inj, UInt8.reduceToNat]
    omega
  have hminus : d ≠ 45 := by
    rintro rfl
    exact absurd hd (by decide)
  have hplus : d ≠ 43 := by
    rintro rfl
    exact absurd hd (by decide)
  rw [List.cons_append, List.dropWhile_cons_of_neg hblank]
  simp only [scanSign, if_neg hminus, if_neg hplus]

theorem AreDigits.scanSign_eq (h : AreDigits digits) :
    scanSign (digits.dropWhile Bytes.isBlank) = (false, digits) := by
  have hscan := h.scanSign_append []
  rwa [List.append_nil] at hscan

/-- What denotes an integer is scanned as that integer, up to where digits stop. -/
theorem Denotes.scan_append (h : Denotes text n) (hstops : Stops rest) :
    ∃ m, scan (text ++ rest) = some (m, rest) ∧ m.value = n := by
  induction h with
  | blank hb _ ih =>
    rw [List.cons_append, scan_of_blank hb]
    exact ih
  | plain hdigits =>
    exact ⟨_, scan_append_of_sign hdigits hstops (hdigits.scanSign_append rest), rfl⟩
  | plus hdigits =>
    refine ⟨⟨false, _⟩, scan_append_of_sign hdigits hstops ?_, rfl⟩
    rw [List.cons_append, List.dropWhile_cons_of_neg (by decide)]
    rfl
  | minus hdigits =>
    refine ⟨⟨true, _⟩, scan_append_of_sign hdigits hstops ?_, rfl⟩
    rw [List.cons_append, List.dropWhile_cons_of_neg (by decide)]
    rfl

theorem Denotes.scan_eq (h : Denotes text n) : ∃ m, scan text = some (m, []) ∧ m.value = n := by
  have hscan := h.scan_append .nil
  rwa [List.append_nil] at hscan

/-- The sign at the front of a text: a minus sign, a plus sign, or none. -/
theorem scanSign_cases (text : Bytes) :
    (∃ rest, text = 45 :: rest ∧ scanSign text = (true, rest)) ∨
      (∃ rest, text = 43 :: rest ∧ scanSign text = (false, rest)) ∨
      scanSign text = (false, text) := by
  cases text with
  | nil => exact .inr (.inr rfl)
  | cons b rest =>
    simp only [scanSign]
    by_cases hminus : b = 45
    · exact .inl ⟨rest, by rw [hminus], if_pos hminus⟩
    · by_cases hplus : b = 43
      · exact .inr (.inl ⟨rest, by rw [hplus], by rw [if_neg hminus, if_pos hplus]⟩)
      · exact .inr (.inr (by rw [if_neg hminus, if_neg hplus]))

/-- What is scanned denotes the integer that was read, and stops in front of what is left. -/
theorem exists_denotes_of_scan {m : Numeral} (h : scan text = some (m, rest)) :
    ∃ numeral, text = numeral ++ rest ∧ Denotes numeral m.value ∧ Stops rest := by
  induction text with
  | nil => cases h
  | cons b text ih =>
    by_cases hb : Bytes.isBlank b = true
    · obtain ⟨numeral, rfl, hdenotes, hstops⟩ := ih (by rwa [scan_of_blank hb] at h)
      exact ⟨b :: numeral, rfl, .blank hb hdenotes, hstops⟩
    -- behind the sign, the text is digits and what is left
    have hscanned {negative : Bool} {text' : Bytes}
        (hsign : scanSign (b :: text) = (negative, text')) :
        ∃ digits, text' = digits ++ rest ∧ AreDigits digits ∧ m = ⟨negative, decimal digits⟩ ∧
          Stops rest := by
      simp only [scan, List.dropWhile_cons_of_neg hb, hsign] at h
      split at h
      · cases h
      · next hempty =>
        injection h with h
        injection h with hm hrest
        refine ⟨text'.takeWhile Bytes.isDigit, ?_, ⟨by simpa using hempty, fun d hd =>
          List.mem_takeWhile_imp hd⟩, ?_, fun d hd => ?_⟩
        · rw [← hrest, List.takeWhile_append_dropWhile]
        · rw [← hm, ofDigits_eq_decimal]
        · rw [← hrest] at hd
          have hnot := List.head?_dropWhile_not Bytes.isDigit text'
          rw [hd] at hnot
          exact Bool.eq_false_iff.mpr (by simpa using hnot)
    obtain ⟨rest', htext, hsign⟩ | ⟨rest', htext, hsign⟩ | hsign := scanSign_cases (b :: text)
    · obtain ⟨digits, rfl, hdigits, rfl, hstops⟩ := hscanned hsign
      exact ⟨45 :: digits, htext, .minus hdigits, hstops⟩
    · obtain ⟨digits, rfl, hdigits, rfl, hstops⟩ := hscanned hsign
      exact ⟨43 :: digits, htext, .plus hdigits, hstops⟩
    · obtain ⟨digits, htext, hdigits, rfl, hstops⟩ := hscanned hsign
      exact ⟨digits, htext, .plain hdigits, hstops⟩

/-- What is scanned to its end denotes the integer that was read. -/
theorem denotes_of_scan {m : Numeral} (h : scan text = some (m, [])) : Denotes text m.value := by
  obtain ⟨numeral, rfl, hdenotes, -⟩ := exists_denotes_of_scan h
  rwa [List.append_nil]

/-- A text denotes one integer at most. -/
theorem Denotes.unique (h : Denotes text n) (h' : Denotes text m) : n = m := by
  obtain ⟨a, ha, rfl⟩ := h.scan_eq
  obtain ⟨b, hb, rfl⟩ := h'.scan_eq
  rw [ha] at hb
  cases hb
  rfl

/-! ### Words of 64 bits -/

/-- A word is the integer of its numeral modulo `2 ^ 64`. -/
theorem toNat_word (m : Numeral) :
    ((if m.negative then -(UInt64.ofNat m.magnitude) else UInt64.ofNat m.magnitude).toNat : Int) =
      m.value % 2 ^ 64 := by
  cases hm : m.negative with
  | false => simp only [value, hm, Bool.false_eq_true, if_false, UInt64.toNat_ofNat']; norm_cast
  | true =>
    simp only [value, hm, if_true, UInt64.toNat_neg, UInt64.toNat_ofNat', UInt64.size]
    omega

/-- **The word at the front of a text**: a numeral that denotes an integer of a magnitude below
`2 ^ 64`, as long as its digits go on; and the word is that integer modulo `2 ^ 64`. -/
theorem word64?_front_iff {w : UInt64} : word64? text = some (w, rest) ↔
    ∃ numeral n, text = numeral ++ rest ∧ Denotes numeral n ∧ Stops rest ∧ n.natAbs < 2 ^ 64 ∧
      (w.toNat : Int) = n % 2 ^ 64 := by
  have hmagnitude (m : Numeral) : m.value.natAbs = m.magnitude := by
    unfold value
    split <;> omega
  constructor
  · intro h
    unfold word64? at h
    split at h
    · next m rest hm =>
      split at h
      · next hlt =>
        cases h
        obtain ⟨numeral, rfl, hdenotes, hstops⟩ := exists_denotes_of_scan hm
        exact ⟨numeral, m.value, rfl, hdenotes, hstops, by rw [hmagnitude]; exact hlt,
          toNat_word m⟩
      · cases h
    · cases h
  · rintro ⟨numeral, n, rfl, hn, hstops, hlt, hw⟩
    obtain ⟨m, hm, rfl⟩ := hn.scan_append hstops
    rw [hmagnitude] at hlt
    have hlt : m.magnitude < UInt64.size := hlt
    simp only [word64?, hm, if_pos hlt]
    rw [← toNat_word] at hw
    rw [UInt64.toNat_inj.mp (Int.ofNat.inj hw)]

/-- **A whole text read as a word**: it denotes an integer of a magnitude below `2 ^ 64`, and the
word is that integer modulo `2 ^ 64`. -/
theorem word64?_eq_some_iff {w : UInt64} : word64? text = some (w, []) ↔
    ∃ n, Denotes text n ∧ n.natAbs < 2 ^ 64 ∧ (w.toNat : Int) = n % 2 ^ 64 := by
  rw [word64?_front_iff]
  constructor
  · rintro ⟨numeral, n, rfl, hn, -, hlt, hw⟩
    exact ⟨n, by rwa [List.append_nil], hlt, hw⟩
  · rintro ⟨n, hn, hlt, hw⟩
    exact ⟨text, n, (List.append_nil text).symm, hn, .nil, hlt, hw⟩

end Numeral

end Keyspace
