import Keyspace.KeyOrder
import Keyspace.Proofs.CounterSum

/-!
# Readers of integers

Keys and counters are read as integers by two readers of their own. Both look at a **scan** of the
text up to its first zero byte, which reports the integer, brought into range, how many bytes it
took, and whether the integer was out of range (`Numeral.Scanned`). They look at different parts of
that report: the reader of keys at the flag and at where the scan ended (`KeyOrder.byEnd?`), the
reader of counters first at whether anything was taken, then at the flag, and last at the count
(`Function.byCount`).

**The law** (`Numeral.readers_agree`): both accept exactly the texts that are white space, a sign or
none, and digits, and denote an integer of 64 bits, and they read that integer. What is written of
an integer is among these texts, so the result of a counter is again a counter, and a numeric key.
-/

namespace Keyspace

namespace Numeral

/-- **What a scan reports.** -/
structure Scanned where
  /-- The integer, or the end of the range that it lies beyond. -/
  value : Int64
  /-- How many bytes were taken; none without a numeral. -/
  taken : Nat
  outOfRange : Bool
deriving DecidableEq, Repr

/-- The integer of 64 bits that is nearest to the one that a numeral denotes. -/
def nearest (n : Numeral) : Int64 :=
  if inInt64 n.value then Int64.ofInt n.value
  else if n.negative then Int64.minValue
  else Int64.maxValue

/-- **The scan of a text** up to its first zero byte. -/
def scanWord (text : Bytes) : Scanned :=
  match scan text.terminated with
  | some (n, rest) => ⟨n.nearest, text.terminated.length - rest.length, !inInt64 n.value⟩
  | none => ⟨0, 0, false⟩

theorem scanWord_of_some {text rest : Bytes} {n : Numeral}
    (h : scan text.terminated = some (n, rest)) : scanWord text =
      ⟨n.nearest, text.terminated.length - rest.length, !inInt64 n.value⟩ := by
  rw [scanWord, h]

theorem scanWord_of_none {text : Bytes} (h : scan text.terminated = none) :
    scanWord text = ⟨0, 0, false⟩ := by
  rw [scanWord, h]

/-- Why a text has no integer at its front. -/
inductive ScanError where
  | nothingTaken
  | outOfRange
deriving DecidableEq, Repr

/-- The integer at the front of a text and the number of its bytes. -/
def frontInteger (text : Bytes) : Except ScanError (Int64 × Nat) :=
  let report := scanWord text
  if report.taken = 0 then .error .nothingTaken
  else if report.outOfRange then .error .outOfRange
  else .ok (report.value, report.taken)

end Numeral

/-- **The reader of keys**, by the flag and the end of the scan. -/
def KeyOrder.byEnd? (key : Bytes) : Option Int64 :=
  if key.isEmpty then none
  else
    let report := Numeral.scanWord key
    if report.outOfRange || report.taken ≠ key.length then none else some report.value

/-- **The reader of counters**, by the way the scan fails and the count of what it took. -/
def Function.byCount (role text : Bytes) : Outcome Int64 :=
  match Numeral.frontInteger text with
  | .error _ => .error (.notAnInteger role text)
  | .ok (value, taken) =>
    if taken ≠ text.length then .error (.notAnInteger role text) else .ok value

/-! ### Terminated texts -/

namespace Bytes

theorem length_terminated_le (text : Bytes) : (terminated text).length ≤ text.length :=
  (List.takeWhile_prefix _).length_le

/-- A text that is as long as its part before the first zero byte has no zero byte. -/
theorem terminated_eq_self_of_length {text : Bytes} (h : (terminated text).length = text.length) :
    terminated text = text :=
  (List.takeWhile_prefix _).eq_of_length h

end Bytes

namespace Numeral

variable {text digits : Bytes} {n : Int} {w : Int64}

/-- A numeral has no zero byte. -/
theorem Denotes.terminated_eq (h : Denotes text n) : text.terminated = text := by
  have hdigits {digits : Bytes} (h : AreDigits digits) : ∀ d ∈ digits, decide (d ≠ 0) = true := by
    intro d hd
    refine decide_eq_true ?_
    rintro rfl
    exact absurd (h.digit 0 hd) (by decide)
  refine List.takeWhile_eq_self_iff.mpr ?_
  induction h with
  | @blank b text n hb _ ih =>
    rw [List.forall_mem_cons]
    refine ⟨decide_eq_true ?_, ih⟩
    rintro rfl
    exact absurd hb (by decide)
  | plain h => exact hdigits h
  | plus h => exact List.forall_mem_cons.mpr ⟨by decide, hdigits h⟩
  | minus h => exact List.forall_mem_cons.mpr ⟨by decide, hdigits h⟩

/-- **The form of a numeral**: white space, a sign or none, and digits. -/
theorem denotes_iff_form : Denotes text n ↔ ∃ blanks sign digits, text = blanks ++ sign ++ digits ∧
    (∀ b ∈ blanks, Bytes.isBlank b = true) ∧ AreDigits digits ∧
    ((sign = [] ∨ sign = [43]) ∧ n = decimal digits ∨ sign = [45] ∧ n = -decimal digits) := by
  constructor
  · intro h
    induction h with
    | @blank b text n hb _ ih =>
      obtain ⟨blanks, sign, digits, rfl, hblanks, hdigits, hsign⟩ := ih
      exact ⟨b :: blanks, sign, digits, rfl, List.forall_mem_cons.mpr ⟨hb, hblanks⟩, hdigits, hsign⟩
    | @plain digits hdigits =>
      exact ⟨[], [], digits, rfl, nofun, hdigits, .inl ⟨.inl rfl, rfl⟩⟩
    | @plus digits hdigits =>
      exact ⟨[], [43], digits, rfl, nofun, hdigits, .inl ⟨.inr rfl, rfl⟩⟩
    | @minus digits hdigits =>
      exact ⟨[], [45], digits, rfl, nofun, hdigits, .inr ⟨rfl, rfl⟩⟩
  · rintro ⟨blanks, sign, digits, rfl, hblanks, hdigits, hsign⟩
    induction blanks with
    | nil =>
      rcases hsign with ⟨rfl | rfl, rfl⟩ | ⟨rfl, rfl⟩
      · exact .plain hdigits
      · exact .plus hdigits
      · exact .minus hdigits
    | cons b blanks ih =>
      obtain ⟨hb, hblanks⟩ := List.forall_mem_cons.mp hblanks
      exact .blank hb (ih hblanks)

end Numeral

/-! ### The reader of keys -/

namespace KeyOrder

variable {key : Bytes} {w : Int64}

/-- **A key is read as a whole**: the part before the first zero byte ends where the key ends only
if that part is the key. -/
theorem integer?_eq_int64? (key : Bytes) : integer? key = Numeral.int64? key := by
  have hlength := Bytes.length_terminated_le key
  by_cases hwhole : key.terminated = key
  · rw [integer?, Numeral.int64?, hwhole]
    cases hscan : Numeral.scan key with
    | none => rfl
    | some p =>
      obtain ⟨m, rest⟩ := p
      have hkey : key ≠ [] := by
        rintro rfl
        cases hscan
      have hpos := List.length_pos_iff.mpr hkey
      cases rest with
      | nil => exact if_pos rfl
      | cons b rest =>
        refine if_neg fun heq => ?_
        rw [List.length_cons] at heq
        omega
  · -- then the scan ends before the key does, and the key is no numeral
    have hshort : key.terminated.length < key.length :=
      Nat.lt_of_le_of_ne hlength fun heq => hwhole (Bytes.terminated_eq_self_of_length heq)
    have hnone : Numeral.int64? key = none := by
      cases hread : Numeral.int64? key with
      | none => rfl
      | some w => exact absurd (Numeral.int64?_eq_some_iff.mp hread).terminated_eq hwhole
    rw [hnone, integer?]
    split
    · exact if_neg (by omega)
    · rfl

theorem integer?_eq_some_iff : integer? key = some w ↔ Numeral.Reads key w.toInt := by
  rw [integer?_eq_int64?, Numeral.reads_iff]
  constructor
  · intro h
    exact ⟨w, h, rfl⟩
  · rintro ⟨v, hv, heq⟩
    rw [hv, Int64.toInt_inj.mp heq]

theorem isSome_integer?_iff : (integer? key).isSome ↔ ∃ n, Numeral.Reads key n := by
  constructor
  · intro h
    obtain ⟨w, hw⟩ := Option.isSome_iff_exists.mp h
    exact ⟨w.toInt, integer?_eq_some_iff.mp hw⟩
  · rintro ⟨n, hn⟩
    obtain ⟨w, hw, -⟩ := Numeral.reads_iff.mp hn
    rw [integer?_eq_int64?, hw]
    rfl

/-- The reader that looks at the flag and the end of the scan is the one of the numeric order. -/
theorem byEnd?_eq (key : Bytes) : byEnd? key = integer? key := by
  cases key with
  | nil => rfl
  | cons b key =>
    simp only [byEnd?, integer?, List.isEmpty_cons, Bool.false_eq_true, if_false]
    cases hscan : Numeral.scan (Bytes.terminated (b :: key)) with
    | none => simp [Numeral.scanWord_of_none hscan]
    | some p =>
      obtain ⟨m, rest⟩ := p
      simp only [Numeral.scanWord_of_some hscan, Numeral.toInt64?, Numeral.nearest]
      cases Numeral.inInt64 m.value <;> simp

end KeyOrder

/-! ### The reader of counters -/

namespace Function

variable {role text : Bytes} {w : Int64}

theorem integer_eq_ok_iff : integer role text = .ok w ↔ Numeral.Reads text w.toInt := by
  rw [← KeyOrder.integer?_eq_some_iff, KeyOrder.integer?_eq_int64?, integer]
  cases Numeral.int64? text with
  | none => exact iff_of_false nofun nofun
  | some v => simp

/-- It fails where the reader of keys finds no integer. -/
theorem integer_eq_error_iff :
    integer role text = .error (.notAnInteger role text) ↔ KeyOrder.integer? text = none := by
  rw [KeyOrder.integer?_eq_int64?, integer]
  cases Numeral.int64? text with
  | none => exact iff_of_true rfl rfl
  | some v => exact iff_of_false nofun nofun

/-- The reader that looks at the failure of the scan and its count is the one of counters. -/
theorem byCount_eq (role text : Bytes) : byCount role text = integer role text := by
  have hread : integer role text =
      (KeyOrder.integer? text).elim (.error (.notAnInteger role text)) .ok := by
    cases hint : Numeral.int64? text <;>
      simp only [KeyOrder.integer?_eq_int64?, integer, hint, Option.elim_none, Option.elim_some]
  rw [hread]
  simp only [byCount, KeyOrder.integer?, Numeral.frontInteger]
  cases hscan : Numeral.scan (Bytes.terminated text) with
  | none => simp [Numeral.scanWord_of_none hscan]
  | some p =>
    obtain ⟨m, rest⟩ := p
    have htext : text.length ≠ 0 := by
      intro hzero
      obtain rfl := List.eq_nil_of_length_eq_zero hzero
      cases hscan
    simp only [Numeral.scanWord_of_some hscan, Numeral.toInt64?, Numeral.nearest]
    by_cases htaken : text.terminated.length - rest.length = text.length
    · -- the whole text was taken, so the range decides
      cases Numeral.inInt64 m.value <;> simp [htaken, htext]
    · by_cases hnothing : text.terminated.length - rest.length = 0
      · simp [hnothing, Ne.symm htext]
      · cases Numeral.inInt64 m.value <;> simp [htaken, hnothing]

end Function

/-! ### The law -/

namespace Numeral

/-- **The two readers of integers agree**, and read what is written. -/
structure ReadersAgree : Prop where
  /-- Keys are read as the integers that they denote. -/
  key : ∀ key w, KeyOrder.integer? key = some w ↔ Reads key w.toInt
  /-- Counters are read alike, and with the failure of their reader where keys are none. -/
  counter : ∀ role text w, Function.integer role text = .ok w ↔ KeyOrder.integer? text = some w
  refused : ∀ role text, Function.integer role text = .error (.notAnInteger role text) ↔
    KeyOrder.integer? text = none
  /-- What is accepted is white space, a sign or none, and digits, within the range. -/
  accepted : ∀ text, (KeyOrder.integer? text).isSome ↔ ∃ blanks sign digits,
    text = blanks ++ sign ++ digits ∧ (∀ b ∈ blanks, Bytes.isBlank b = true) ∧ AreDigits digits ∧
    ((sign = [] ∨ sign = [43]) ∧ decimal digits ≤ 2 ^ 63 - 1 ∨
      sign = [45] ∧ decimal digits ≤ 2 ^ 63)
  /-- Both readers are the ones over the scan of the text. -/
  scanned : ∀ role text, KeyOrder.byEnd? text = KeyOrder.integer? text ∧
    Function.byCount role text = Function.integer role text
  /-- The text of an integer is read as that integer. -/
  written : ∀ n : Int64, KeyOrder.integer? (Bytes.ofInt n.toInt) = some n ∧
    ∀ role, Function.integer role (Bytes.ofInt n.toInt) = .ok n
  /-- The result of a counter is a counter and a numeric key. -/
  counted : ∀ u text out, Function.counter.apply u text = .ok out →
    ∃ sum, u.Sums text sum.toInt ∧ KeyOrder.integer? out = some sum ∧
      ∀ role, Function.integer role out = .ok sum

theorem readers_agree : ReadersAgree where
  key _ _ := KeyOrder.integer?_eq_some_iff
  counter role text w := Function.integer_eq_ok_iff.trans KeyOrder.integer?_eq_some_iff.symm
  refused _ _ := Function.integer_eq_error_iff
  accepted text := by
    rw [KeyOrder.isSome_integer?_iff]
    constructor
    · rintro ⟨n, hdenotes, hlow, hhigh⟩
      obtain ⟨blanks, sign, digits, htext, hblanks, hdigits, hsign⟩ := denotes_iff_form.mp hdenotes
      refine ⟨blanks, sign, digits, htext, hblanks, hdigits, ?_⟩
      rcases hsign with ⟨hplain, rfl⟩ | ⟨hminus, rfl⟩
      · exact .inl ⟨hplain, by omega⟩
      · exact .inr ⟨hminus, by omega⟩
    · rintro ⟨blanks, sign, digits, htext, hblanks, hdigits, ⟨hplain, hrange⟩ | ⟨hminus, hrange⟩⟩
      · refine ⟨decimal digits, denotes_iff_form.mpr ?_, by omega⟩
        exact ⟨blanks, sign, digits, htext, hblanks, hdigits, .inl ⟨hplain, rfl⟩⟩
      · refine ⟨-decimal digits, denotes_iff_form.mpr ?_, by omega⟩
        exact ⟨blanks, sign, digits, htext, hblanks, hdigits, .inr ⟨hminus, rfl⟩⟩
  scanned role text := ⟨KeyOrder.byEnd?_eq text, Function.byCount_eq role text⟩
  written n := by
    have hreads : Reads (Bytes.ofInt n.toInt) n.toInt := reads_iff.mpr ⟨n, int64?_ofInt n, rfl⟩
    exact ⟨KeyOrder.integer?_eq_some_iff.mpr hreads, fun role =>
      Function.integer_eq_ok_iff.mpr hreads⟩
  counted u text out h := by
    obtain ⟨sum, hsum, hcanonical⟩ := Function.count_eq_ok_iff.mp h
    have hreads : Reads out sum := ⟨hcanonical.denotes, hsum.range⟩
    obtain ⟨w, -, rfl⟩ := reads_iff.mp hreads
    exact ⟨w, hsum, KeyOrder.integer?_eq_some_iff.mpr hreads, fun role =>
      Function.integer_eq_ok_iff.mpr hreads⟩

end Numeral

end Keyspace
