/-!
# Byte strings

Keys, values, names and messages are byte strings. Their order is the **unsigned lexicographic**
order (`Bytes.less`): the first differing byte decides, and a proper initial segment comes first.
A message that is handed over as a terminated text ends at its first zero byte (`Bytes.terminated`).
-/

namespace Keyspace

/-- A byte string. -/
abbrev Bytes := List UInt8

namespace Bytes

/-- The bytes of a text whose characters are all below 256, one byte each. -/
def ascii (text : String) : Bytes :=
  text.toList.map fun c => c.val.toUInt8

/-- **The unsigned lexicographic order.** -/
def less : Bytes → Bytes → Bool
  | _, [] => false
  | [], _ :: _ => true
  | x :: xs, y :: ys => if x < y then true else if x = y then less xs ys else false

/-- It is the order of lists over the order of bytes. -/
theorem less_iff_lt (a b : Bytes) : less a b = true ↔ a < b := by
  induction a generalizing b with
  | nil => cases b <;> simp [less]
  | cons x xs ih =>
    cases b with
    | nil => simp [less]
    | cons y ys =>
      rw [List.cons_lt_cons_iff, ← ih]
      by_cases h : x < y <;> simp [less, h]

theorem less_irrefl (a : Bytes) : less a a = false :=
  Bool.eq_false_iff.mpr fun h => List.lt_irrefl a ((less_iff_lt a a).mp h)

theorem less_trans {a b c : Bytes} (h : less a b = true) (h' : less b c = true) :
    less a c = true :=
  (less_iff_lt a c).mpr (List.lt_trans ((less_iff_lt a b).mp h) ((less_iff_lt b c).mp h'))

/-- Of two different texts, one comes before the other. -/
theorem less_of_ne {a b : Bytes} (hne : a ≠ b) (h : less a b = false) : less b a = true := by
  have hle : b ≤ a := fun hlt => by
    rw [(less_iff_lt a b).mpr hlt] at h
    cases h
  exact (less_iff_lt b a).mpr (Std.lt_of_le_of_ne hle hne.symm)

/-- What is left of a text that ends at its first zero byte. -/
def terminated (text : Bytes) : Bytes :=
  text.takeWhile (· ≠ 0)

/-- `segment.startsText text`: `segment` is an initial segment of `text`. -/
def startsText (segment text : Bytes) : Bool :=
  segment.isPrefixOf text

/-- `segment.occursIn text`: `segment` is a contiguous segment of `text`. -/
def occursIn (segment : Bytes) : Bytes → Bool
  | [] => segment.isEmpty
  | x :: xs => segment.startsText (x :: xs) || occursIn segment xs

/-- The text before and after the first `mark`, which belongs to neither; `none` without a mark. -/
def splitAtFirst (mark : UInt8) : Bytes → Option (Bytes × Bytes)
  | [] => none
  | x :: xs =>
    if x = mark then some ([], xs)
    else (splitAtFirst mark xs).map fun (before, after) => (x :: before, after)

/-- White space of the portable character set: space, tab, line feed, vertical tab, form feed and
carriage return. -/
def isBlank (b : UInt8) : Bool :=
  b = 32 || (9 ≤ b && b ≤ 13)

/-- The decimal digits. -/
def isDigit (b : UInt8) : Bool :=
  48 ≤ b && b ≤ 57

/-- The decimal text of a natural number, without leading zeros. -/
def ofNat (n : Nat) : Bytes :=
  if n < 10 then [(48 + n).toUInt8] else ofNat (n / 10) ++ [(48 + n % 10).toUInt8]

/-- The decimal text of an integer: a minus sign in front of the magnitude of a negative one. -/
def ofInt (n : Int) : Bytes :=
  if n < 0 then 45 :: ofNat n.natAbs else ofNat n.natAbs

end Bytes

end Keyspace
