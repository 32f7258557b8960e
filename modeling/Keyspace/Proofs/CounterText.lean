import Keyspace.Proofs.NumeralGrammar
import Keyspace.Value

/-!
# Counters as texts

The decimal text of an integer of 64 bits reads as that integer (`Numeral.int64?_ofInt`), and a
counter that is updated reads as the exact sum of what it read before and the increment
(`Function.count_eq_ok`): the addition of 64 bits is only reached when it cannot overflow.
-/

namespace Keyspace

namespace Bytes

/-- The byte of a decimal digit. -/
theorem toNat_digit {d : Nat} (h : d < 10) : ((48 + d).toUInt8).toNat = 48 + d := by
  show (48 + d) % 256 = 48 + d
  omega

theorem isDigit_digit {d : Nat} (h : d < 10) : isDigit (48 + d).toUInt8 = true := by
  simp only [isDigit, Bool.and_eq_true, decide_eq_true_eq, UInt8.le_iff_toNat_le, toNat_digit h]
  exact ⟨Nat.le_add_right 48 d, by show 48 + d ≤ 57; omega⟩

/-- The text of a natural number has digits only, and at least one. -/
theorem digits_ofNat (n : Nat) : ofNat n ≠ [] ∧ ∀ d ∈ ofNat n, isDigit d = true := by
  induction n using Nat.strongRecOn with
  | _ n ih =>
    rw [ofNat]
    split
    · next hn =>
      refine ⟨by simp, ?_⟩
      intro d hd
      rw [List.mem_singleton.mp hd]
      exact isDigit_digit hn
    · next hn =>
      obtain ⟨_, hdigits⟩ := ih (n / 10) (by omega)
      refine ⟨by simp, ?_⟩
      intro d hd
      rcases List.mem_append.mp hd with hd | hd
      · exact hdigits d hd
      · rw [List.mem_singleton.mp hd]
        exact isDigit_digit (Nat.mod_lt n (by decide))

end Bytes

namespace Numeral

/-- **The digits of a natural number denote it.** -/
theorem ofDigits_ofNat (n : Nat) : ofDigits (Bytes.ofNat n) = n := by
  induction n using Nat.strongRecOn with
  | _ n ih =>
    rw [Bytes.ofNat]
    split
    · next hn =>
      simp only [ofDigits, List.foldl_cons, List.foldl_nil, Bytes.toNat_digit hn]
      omega
    · next hn =>
      have hmod : n % 10 < 10 := Nat.mod_lt n (by decide)
      have hrest := ih (n / 10) (by omega)
      simp only [ofDigits] at hrest
      simp only [ofDigits, List.foldl_append, List.foldl_cons, List.foldl_nil, hrest,
        Bytes.toNat_digit hmod]
      omega

theorem areDigits_ofNat (n : Nat) : AreDigits (Bytes.ofNat n) :=
  ⟨(Bytes.digits_ofNat n).1, (Bytes.digits_ofNat n).2⟩

/-- A number is scanned to its end, behind its sign or behind none. -/
theorem scan_ofInt (n : Int) :
    scan (Bytes.ofInt n) = some (⟨decide (n < 0), n.natAbs⟩, []) := by
  have hdigits := areDigits_ofNat n.natAbs
  have hdecimal : decimal (Bytes.ofNat n.natAbs) = n.natAbs := by
    rw [← ofDigits_eq_decimal, ofDigits_ofNat]
  by_cases hneg : n < 0
  · have hsign : scanSign ((Bytes.ofInt n).dropWhile Bytes.isBlank) =
        (true, Bytes.ofNat n.natAbs) := by
      rw [Bytes.ofInt, if_pos hneg, List.dropWhile_cons_of_neg (by decide)]
      rfl
    rw [scan_of_sign hdigits hsign, hdecimal, decide_eq_true hneg]
  · have hsign : scanSign ((Bytes.ofInt n).dropWhile Bytes.isBlank) =
        (false, Bytes.ofNat n.natAbs) := by
      rw [Bytes.ofInt, if_neg hneg]
      exact hdigits.scanSign_eq
    rw [scan_of_sign hdigits hsign, hdecimal, decide_eq_false hneg]

/-- **The text of an integer of 64 bits reads as that integer.** -/
theorem int64?_ofInt (n : Int64) : int64? (Bytes.ofInt n.toInt) = some n := by
  have hvalue : (⟨decide (n.toInt < 0), n.toInt.natAbs⟩ : Numeral).value = n.toInt := by
    by_cases hneg : n.toInt < 0
    · simp only [value, hneg, decide_true, if_true]
      omega
    · simp only [value, hneg, decide_false, Bool.false_eq_true, if_false]
      omega
  have hrange : inInt64 n.toInt = true := by
    have hmin : Int64.minValue.toInt = -9223372036854775808 := rfl
    have hmax : Int64.maxValue.toInt = 9223372036854775807 := rfl
    have hlow := n.le_toInt
    have hhigh := n.toInt_lt
    simp only [inInt64, Bool.and_eq_true, decide_eq_true_eq]
    omega
  simp only [int64?, scan_ofInt, toInt64?, hvalue, hrange, if_true, Int64.ofInt_toInt]

end Numeral

/-- What an update adds to a counter: its parameter `delta`, or one. -/
def Update.increment (u : Update) : Int :=
  match u.parameter? (Bytes.ascii "delta") with
  | some delta => ((Numeral.int64? delta).map Int64.toInt).getD 0
  | none => 1

namespace Function

/-- A sum that does not overflow is exact. -/
theorem toInt_add_of_not_overflows {a b : Int64} (h : overflows a b = false) :
    (a + b).toInt = a.toInt + b.toInt := by
  have ha := a.toInt_lt
  have ha' := a.le_toInt
  have hb := b.toInt_lt
  have hb' := b.le_toInt
  have hmax : (Int64.maxValue - b).toInt = ((2 ^ 63 - 1) - b.toInt).bmod (2 ^ 64) := by
    rw [Int64.toInt_sub]
    rfl
  have hmin : (Int64.minValue - b).toInt = (-2 ^ 63 - b.toInt).bmod (2 ^ 64) := by
    rw [Int64.toInt_sub]
    rfl
  have hzero : (0 : Int64).toInt = 0 := rfl
  simp only [overflows, Bool.or_eq_false_iff, Bool.and_eq_false_iff, decide_eq_false_iff_not,
    Int64.lt_iff_toInt_lt, hmax, hmin, hzero] at h
  rw [Int64.toInt_add]
  simp only [Int.bmod_def] at h ⊢
  omega

/-- An integer that was read is what the text reads as. -/
theorem integer_eq_ok {role text : Bytes} {n : Int64} (h : integer role text = .ok n) :
    Numeral.int64? text = some n := by
  unfold integer at h
  split at h
  · next m hm =>
    cases h
    exact hm
  · cases h

/-- **A counter after an update reads as the exact sum.** -/
theorem count_eq_ok {u : Update} {text out : Bytes} (h : count u text = .ok out) :
    ∃ n m, Numeral.int64? text = some n ∧ Numeral.int64? out = some m ∧
      m.toInt = n.toInt + u.increment := by
  unfold count at h
  cases hn : integer (Bytes.ascii "counter value") text with
  | error f => simp only [hn, bind, Except.bind, reduceCtorEq] at h
  | ok n =>
    -- the increment that the update reads is the one that it names
    have hsum : ∃ d : Int64, d.toInt = u.increment ∧
        (if overflows n d then .error (.counterOverflow text d.toInt)
          else .ok (Bytes.ofInt (n + d).toInt) : Outcome Bytes) = .ok out := by
      cases hparameter : u.parameter? (Bytes.ascii "delta") with
      | none =>
        refine ⟨1, by simp only [Update.increment, hparameter]; rfl, ?_⟩
        simpa only [hn, hparameter, bind, Except.bind] using h
      | some delta =>
        cases hd : integer (Bytes.ascii "delta") delta with
        | error f => simp only [hn, hparameter, hd, bind, Except.bind, reduceCtorEq] at h
        | ok d =>
          refine ⟨d, ?_, by simpa only [hn, hparameter, hd, bind, Except.bind] using h⟩
          simp only [Update.increment, hparameter, integer_eq_ok hd, Option.map_some,
            Option.getD_some]
    obtain ⟨d, hincrement, hout⟩ := hsum
    split at hout
    · cases hout
    · next hover =>
      cases hout
      refine ⟨n, n + d, integer_eq_ok hn, Numeral.int64?_ofInt _, ?_⟩
      rw [toInt_add_of_not_overflows (Bool.eq_false_iff.mpr hover), hincrement]

end Function

end Keyspace
