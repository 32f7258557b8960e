import Keyspace.Bytes

/-!
# Decimal numerals

A numeral is white space, an optional sign and one or more digits. `Numeral.scan` reads the longest
numeral at the front of a text and returns what it denotes and the text after it. Everything else is
a range on top of it:

* `Numeral.int64?` reads a whole text as an integer of 64 bits with sign;
* `Numeral.word64?` reads a numeral as a word of 64 bits: a negative one is taken modulo `2 ^ 64`,
  and only a magnitude of `2 ^ 64` or more is out of range.
-/

namespace Keyspace

/-- What the digits and the sign of a numeral say. -/
structure Numeral where
  negative : Bool
  magnitude : Nat
deriving DecidableEq, Repr

namespace Numeral

/-- The integer a numeral denotes. -/
def value (n : Numeral) : Int :=
  if n.negative then -(n.magnitude : Int) else n.magnitude

/-- The number that a run of digits denotes. -/
def ofDigits (digits : Bytes) : Nat :=
  digits.foldl (fun n d => 10 * n + (d.toNat - 48)) 0

/-- The sign at the front of a text, and the text after it. -/
def scanSign : Bytes → Bool × Bytes
  | [] => (false, [])
  | x :: xs => if x = 45 then (true, xs) else if x = 43 then (false, xs) else (false, x :: xs)

/-- The longest numeral at the front of a text, and the text after it. -/
def scan (text : Bytes) : Option (Numeral × Bytes) :=
  let (negative, rest) := scanSign (text.dropWhile Bytes.isBlank)
  let digits := rest.takeWhile Bytes.isDigit
  if digits.isEmpty then none
  else some (⟨negative, ofDigits digits⟩, rest.dropWhile Bytes.isDigit)

/-- The integers of 64 bits with sign. -/
def inInt64 (n : Int) : Bool :=
  Int64.minValue.toInt ≤ n && n ≤ Int64.maxValue.toInt

/-- The integer of 64 bits that a numeral denotes, if there is one. -/
def toInt64? (n : Numeral) : Option Int64 :=
  if inInt64 n.value then some (Int64.ofInt n.value) else none

/-- A whole text read as an integer of 64 bits with sign. -/
def int64? (text : Bytes) : Option Int64 :=
  match scan text with
  | some (n, []) => n.toInt64?
  | _ => none

/-- The numeral at the front of a text read as a word of 64 bits, and the text after it. -/
def word64? (text : Bytes) : Option (UInt64 × Bytes) :=
  match scan text with
  | some (n, rest) =>
    if n.magnitude < UInt64.size then
      some (if n.negative then -(UInt64.ofNat n.magnitude) else UInt64.ofNat n.magnitude, rest)
    else none
  | none => none

end Numeral

end Keyspace
