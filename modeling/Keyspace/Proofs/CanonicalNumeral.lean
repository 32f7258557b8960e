import Keyspace.Proofs.CounterText
import Keyspace.Proofs.SignedArithmetic

/-!
# Canonical numerals

A text reads as an integer of 64 bits exactly when it denotes that integer in decimal
(`Numeral.int64?_eq_some_iff`). Many texts denote one integer; one of them is canonical
(`Numeral.Canonical`), and it is the one that is written (`Numeral.canonical_iff`).
-/

namespace Keyspace

namespace Numeral

/-- **The canonical text of an integer**: no white space, no plus sign, no zero in front of other
digits, and no minus sign in front of zero. -/
inductive Canonical : Bytes → Int → Prop where
  | zero : Canonical [48] 0
  | positive {d rest} : AreDigits (d :: rest) → d ≠ 48 →
    Canonical (d :: rest) (decimal (d :: rest))
  | negative {d rest} : AreDigits (d :: rest) → d ≠ 48 →
    Canonical (45 :: d :: rest) (-decimal (d :: rest))

variable {text rest : Bytes} {n : Int} {w : Int64} {d : UInt8}

/-- **A text reads as the integer of 64 bits that it denotes**, and as no other. -/
theorem int64?_eq_some_iff : int64? text = some w ↔ Denotes text w.toInt := by
  constructor
  · intro h
    unfold int64? at h
    split at h
    · next m hm =>
      unfold toInt64? at h
      split at h
      · next hrange =>
        cases h
        rw [toInt_ofInt hrange]
        exact denotes_of_scan hm
      · cases h
    · cases h
  · intro h
    obtain ⟨m, hm, hvalue⟩ := h.scan_eq
    simp only [int64?, hm, toInt64?, hvalue, inInt64_toInt, if_true, Int64.ofInt_toInt]

/-- One more digit at the end is one more place. -/
theorem decimal_snoc (digits : Bytes) (d : UInt8) :
    decimal (digits ++ [d]) = 10 * decimal digits + (d.toNat - 48) := by
  rw [← ofDigits_eq_decimal, ← ofDigits_eq_decimal, ofDigits, List.foldl_append]
  rfl

/-- A digit is written from its number. -/
theorem digit_eq (hd : Bytes.isDigit d = true) : (48 + (d.toNat - 48)).toUInt8 = d := by
  obtain ⟨hlow, hhigh⟩ := (Bytes.isDigit_iff d).mp hd
  rw [← UInt8.toNat_inj, Bytes.toNat_digit (by omega)]
  omega

/-- Digits without a zero in front denote a positive number. -/
theorem decimal_pos (hdigits : AreDigits (d :: rest)) (hd : d ≠ 48) : 0 < decimal (d :: rest) := by
  obtain ⟨hlow, -⟩ := (Bytes.isDigit_iff d).mp (hdigits.digit d List.mem_cons_self)
  have hne : d.toNat ≠ 48 := fun heq => hd (UInt8.toNat_inj.mp heq)
  induction rest using List.reverseRecOn with
  | nil =>
    have hsingle := decimal_snoc [] d
    rw [List.nil_append] at hsingle
    omega
  | append_singleton rest e ih =>
    have hrest : AreDigits (d :: rest) := by
      refine ⟨List.cons_ne_nil d rest, fun x hx => hdigits.digit x ?_⟩
      rw [← List.cons_append]
      exact List.mem_append_left _ hx
    have hpos := ih hrest
    rw [← List.cons_append, decimal_snoc]
    omega

/-- **Digits without a zero in front are what is written of the number that they denote.** -/
theorem ofNat_decimal (hdigits : AreDigits (d :: rest)) (hd : d ≠ 48) :
    Bytes.ofNat (decimal (d :: rest)) = d :: rest := by
  induction rest using List.reverseRecOn with
  | nil =>
    have hdigit := hdigits.digit d List.mem_cons_self
    obtain ⟨hlow, hhigh⟩ := (Bytes.isDigit_iff d).mp hdigit
    have hsingle : decimal [d] = d.toNat - 48 := by
      have hsnoc := decimal_snoc [] d
      rw [List.nil_append] at hsnoc
      exact hsnoc.trans (by simp [decimal])
    rw [hsingle, Bytes.ofNat, if_pos (by omega), digit_eq hdigit]
  | append_singleton rest e ih =>
    have hall := hdigits.digit
    rw [← List.cons_append] at hall
    have hrest : AreDigits (d :: rest) :=
      ⟨List.cons_ne_nil d rest, fun x hx => hall x (List.mem_append_left _ hx)⟩
    have hlast : Bytes.isDigit e = true := hall e (List.mem_append_right _ List.mem_cons_self)
    obtain ⟨hlow, hhigh⟩ := (Bytes.isDigit_iff e).mp hlast
    -- the places in front are not empty, so the number has more than one digit
    have hpos := decimal_pos hrest hd
    have hquotient : (10 * decimal (d :: rest) + (e.toNat - 48)) / 10 = decimal (d :: rest) := by
      omega
    have hremainder : (10 * decimal (d :: rest) + (e.toNat - 48)) % 10 = e.toNat - 48 := by
      omega
    rw [← List.cons_append, decimal_snoc, Bytes.ofNat, if_neg (by omega), hquotient, hremainder,
      ih hrest, digit_eq hlast]

/-- What is written of a positive number has no zero in front. -/
theorem exists_ofNat_eq_cons {n : Nat} (hn : n ≠ 0) :
    ∃ d rest, Bytes.ofNat n = d :: rest ∧ d ≠ 48 := by
  induction n using Nat.strongRecOn with
  | _ n ih =>
    rw [Bytes.ofNat]
    split
    · next hlt =>
      refine ⟨_, [], rfl, fun heq => ?_⟩
      have hdigit := Bytes.toNat_digit hlt
      rw [heq] at hdigit
      exact hn (by simpa using hdigit.symm)
    · next hge =>
      obtain ⟨d, rest, heq, hd⟩ := ih (n / 10) (by omega) (by omega)
      exact ⟨d, rest ++ _, by rw [heq, List.cons_append], hd⟩

theorem ofInt_zero : Bytes.ofInt 0 = [48] := by
  rw [Bytes.ofInt, if_neg (Int.lt_irrefl 0), Int.natAbs_zero, Bytes.ofNat, if_pos (by decide)]
  rfl

/-- **What is written of an integer is its canonical text**, the only one that it has. -/
theorem canonical_iff : Canonical text n ↔ text = Bytes.ofInt n := by
  constructor
  · intro h
    cases h with
    | zero => exact ofInt_zero.symm
    | @positive d rest hdigits hd =>
      rw [Bytes.ofInt, if_neg (by omega), Int.natAbs_natCast, ofNat_decimal hdigits hd]
    | @negative d rest hdigits hd =>
      have hpos := decimal_pos hdigits hd
      rw [Bytes.ofInt, if_pos (by omega), Int.natAbs_neg, Int.natAbs_natCast,
        ofNat_decimal hdigits hd]
  · rintro rfl
    by_cases hzero : n = 0
    · rw [hzero, ofInt_zero]
      exact .zero
    obtain ⟨d, rest, heq, hd⟩ := exists_ofNat_eq_cons (Int.natAbs_ne_zero.mpr hzero)
    have hdigits : AreDigits (d :: rest) := heq ▸ areDigits_ofNat n.natAbs
    have hdecimal : decimal (d :: rest) = n.natAbs := by
      rw [← heq, ← ofDigits_eq_decimal, ofDigits_ofNat]
    by_cases hneg : n < 0
    · have hn : n = -(decimal (d :: rest) : Int) := by omega
      rw [Bytes.ofInt, if_pos hneg, heq, hn]
      exact .negative hdigits hd
    · have hn : n = (decimal (d :: rest) : Int) := by omega
      rw [Bytes.ofInt, if_neg hneg, heq, hn]
      exact .positive hdigits hd

theorem Canonical.denotes (h : Canonical text n) : Denotes text n := by
  cases h with
  | zero => exact .plain ⟨List.cons_ne_nil 48 [], fun d hd => by rw [List.mem_singleton.mp hd]; rfl⟩
  | positive hdigits _ => exact .plain hdigits
  | negative hdigits _ => exact .minus hdigits

end Numeral

end Keyspace
