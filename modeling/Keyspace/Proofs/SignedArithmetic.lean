import Keyspace.Numeral
import Mathlib.Algebra.Group.Int.Defs

/-!
# Signed arithmetic that is defined only where it is exact

An operation on signed words of 64 bits that wraps always has a result. The operations here have one
only where the result among the integers is a word again (`Signed.add?_eq_some_iff` and its like), and
none elsewhere. So an evaluation by them that comes to its end is one in which no intermediate value
overflows.
-/

namespace Keyspace

namespace Numeral

/-- The integers of 64 bits with sign, in numbers. -/
theorem inInt64_iff (n : Int) : inInt64 n = true ↔ -2 ^ 63 ≤ n ∧ n ≤ 2 ^ 63 - 1 := by
  simp only [inInt64, Bool.and_eq_true, decide_eq_true_eq]
  exact Iff.rfl

theorem inInt64_toInt (w : Int64) : inInt64 w.toInt = true :=
  (inInt64_iff _).mpr ⟨w.le_toInt, Int.le_sub_one_of_lt w.toInt_lt⟩

theorem toInt_ofInt {n : Int} (h : inInt64 n = true) : (Int64.ofInt n).toInt = n := by
  obtain ⟨hlow, hhigh⟩ := (inInt64_iff n).mp h
  exact Int64.toInt_ofInt_of_le hlow (Int.lt_of_le_sub_one hhigh)

end Numeral

namespace Signed

variable {a b c : Int64} {n : Int}

/-- The word that is an integer, if there is one. -/
def word? (n : Int) : Option Int64 :=
  if Numeral.inInt64 n then some (Int64.ofInt n) else none

/-- The sum of two words, where it is one. -/
def add? (a b : Int64) : Option Int64 :=
  word? (a.toInt + b.toInt)

/-- The difference of two words, where it is one. -/
def sub? (a b : Int64) : Option Int64 :=
  word? (a.toInt - b.toInt)

/-- The opposite of a word, where it is one. -/
def neg? (a : Int64) : Option Int64 :=
  word? (-a.toInt)

/-- The remainder of a division that truncates, where the quotient is defined: the divisor is not
zero, and the quotient is a word. -/
def rem? (a b : Int64) : Option Int64 :=
  if b.toInt = 0 then none
  else (word? (a.toInt.tdiv b.toInt)).bind fun _ => word? (a.toInt.tmod b.toInt)

/-- The word of 32 bits that a word is, if it is one. -/
def narrow? (a : Int64) : Option Int32 :=
  if -2 ^ 31 ≤ a.toInt ∧ a.toInt ≤ 2 ^ 31 - 1 then some a.toInt32 else none

theorem word?_eq_some_iff : word? n = some c ↔ c.toInt = n := by
  unfold word?
  split
  · next h =>
    rw [Option.some.injEq, ← Int64.toInt_inj, Numeral.toInt_ofInt h]
    exact eq_comm
  · next h =>
    refine iff_of_false nofun ?_
    rintro rfl
    exact h (Numeral.inInt64_toInt c)

theorem add?_eq_some_iff : add? a b = some c ↔ c.toInt = a.toInt + b.toInt :=
  word?_eq_some_iff

theorem sub?_eq_some_iff : sub? a b = some c ↔ c.toInt = a.toInt - b.toInt :=
  word?_eq_some_iff

theorem neg?_eq_some_iff : neg? a = some c ↔ c.toInt = -a.toInt :=
  word?_eq_some_iff

theorem add?_eq (h : Numeral.inInt64 (a.toInt + b.toInt) = true) : add? a b = some (a + b) := by
  obtain ⟨hlow, hhigh⟩ := (Numeral.inInt64_iff _).mp h
  rw [add?_eq_some_iff, Int64.toInt_add, Int.bmod_eq_of_le]
  all_goals omega

theorem sub?_eq (h : Numeral.inInt64 (a.toInt - b.toInt) = true) : sub? a b = some (a - b) := by
  obtain ⟨hlow, hhigh⟩ := (Numeral.inInt64_iff _).mp h
  rw [sub?_eq_some_iff, Int64.toInt_sub, Int.bmod_eq_of_le]
  all_goals omega

/-- Only the least word divided by minus one has a quotient that is no word. -/
theorem rem?_eq_some_iff (hb : 0 < b.toInt) :
    rem? a b = some c ↔ c.toInt = a.toInt.tmod b.toInt := by
  have hquotient : word? (a.toInt.tdiv b.toInt) = some (a / b) := by
    rw [word?_eq_some_iff]
    refine Int64.toInt_div_of_ne_right a b ?_
    rintro rfl
    exact absurd hb (by decide)
  rw [rem?, if_neg (Int.ne_of_gt hb), hquotient, Option.bind_some, word?_eq_some_iff]

theorem narrow?_eq_some_iff {c : Int32} : narrow? a = some c ↔ c.toInt = a.toInt := by
  have hlow := c.le_toInt
  have hhigh := c.toInt_lt
  unfold narrow?
  split
  · next h =>
    rw [Option.some.injEq, ← Int32.toInt_inj, Int64.toInt_toInt32, Int.bmod_eq_of_le]
    · exact eq_comm
    all_goals omega
  · next h => exact iff_of_false nofun fun heq => h (by omega)

end Signed

end Keyspace
