import Keyspace.Numeral
import Keyspace.Regex.ByteSet

/-!
# Tokens of a regular expression

The bytes of an expression are read as tokens from left to right. What a byte means depends on where
it stands: outside, in a bracketed set, or in a bracketed count (`Place`). The reading fails on an
escape that is not complete, on an opening `(?` of an unknown kind, on a name in a set that is not
closed, and on a byte that cannot stand in a count.
-/

namespace Keyspace.Regex

/-- The tokens. -/
inductive Token where
  /-- A byte that stands for itself. -/
  | byte (b : UInt8)
  | anyByte
  | backref (number : Nat)
  | openGroup
  | openPlain
  | openAhead (negated : Bool)
  | close
  | openSet (negated : Bool)
  | closeSet
  | dash
  | namedClass (name : Bytes)
  | namedByte (name : Bytes)
  | namedLetter (name : Bytes)
  /-- An escaped class; an upper-case escape is the complement. -/
  | escapedClass (c : ByteClass) (negated : Bool)
  | openCount
  | number (n : Nat)
  | comma
  | closeCount
  | question
  | star
  | plus
  | bar
  | textStart
  | textEnd
  | wordEdge (negated : Bool)
deriving DecidableEq, Repr

/-- Where the next token stands. -/
inductive Place where
  | outside
  | inSet
  | inCount
deriving DecidableEq, Repr

namespace Token

/-- The value of a digit of base sixteen. -/
def hexValue (b : UInt8) : Nat :=
  if Bytes.isDigit b then b.toNat - 48
  else if b ≤ 70 then b.toNat - 55
  else b.toNat - 87

/-- The byte that `count` digits of base sixteen denote: the last eight bits of their number. -/
def hexEscape (count : Nat) (text : Bytes) : Option (Token × Bytes) :=
  let digits := text.take count
  if digits.length = count && digits.all ByteClass.isHex then
    some (.byte (digits.foldl (fun n d => 16 * n + hexValue d) 0).toUInt8, text.drop count)
  else none

/-- The token of a backslash and what follows it. -/
def escape (place : Place) : Bytes → Option (Token × Bytes)
  | [] => none
  | c :: rest =>
    if c = 48 then some (.byte 0, rest)
    else if c = 98 then some (if place = .inSet then .byte 8 else .wordEdge false, rest)
    else if c = 66 then some (.wordEdge true, rest)
    else if c = 102 then some (.byte 12, rest)
    else if c = 110 then some (.byte 10, rest)
    else if c = 114 then some (.byte 13, rest)
    else if c = 116 then some (.byte 9, rest)
    else if c = 118 then some (.byte 11, rest)
    else if c = 100 then some (.escapedClass .digit false, rest)
    else if c = 68 then some (.escapedClass .digit true, rest)
    else if c = 115 then some (.escapedClass .space false, rest)
    else if c = 83 then some (.escapedClass .space true, rest)
    else if c = 119 then some (.escapedClass .word false, rest)
    else if c = 87 then some (.escapedClass .word true, rest)
    else if c = 99 then
      match rest with
      | [] => none
      | letter :: after => some (.byte letter, after)
    else if c = 120 then hexEscape 2 rest
    else if c = 117 then hexEscape 4 rest
    else if Bytes.isDigit c then
      some (.backref (Numeral.ofDigits (c :: rest.takeWhile Bytes.isDigit)),
        rest.dropWhile Bytes.isDigit)
    else some (.byte c, rest)

/-- The name up to a closing `mark` and bracket, and the text after them. -/
def bracketedName (mark : UInt8) (text : Bytes) : Option (Bytes × Bytes) :=
  match text.dropWhile (· ≠ mark) with
  | _ :: 93 :: rest => some (text.takeWhile (· ≠ mark), rest)
  | _ => none

/-- The next token outside of brackets. -/
def outside (c : UInt8) (rest : Bytes) : Option (Token × Place × Bytes) :=
  if c = 92 then (escape .outside rest).map fun (t, r) => (t, .outside, r)
  else if c = 40 then
    match rest with
    | 63 :: 58 :: r => some (.openPlain, .outside, r)
    | 63 :: 61 :: r => some (.openAhead false, .outside, r)
    | 63 :: 33 :: r => some (.openAhead true, .outside, r)
    | 63 :: _ => none
    | _ => some (.openGroup, .outside, rest)
  else if c = 91 then
    match rest with
    | 94 :: r => some (.openSet true, .inSet, r)
    | _ => some (.openSet false, .inSet, rest)
  else if c = 123 then some (.openCount, .inCount, rest)
  else if c = 41 then some (.close, .outside, rest)
  else if c = 94 then some (.textStart, .outside, rest)
  else if c = 36 then some (.textEnd, .outside, rest)
  else if c = 46 then some (.anyByte, .outside, rest)
  else if c = 42 then some (.star, .outside, rest)
  else if c = 43 then some (.plus, .outside, rest)
  else if c = 63 then some (.question, .outside, rest)
  else if c = 124 then some (.bar, .outside, rest)
  else some (.byte c, .outside, rest)

/-- The next token in a bracketed set. -/
def inSet (c : UInt8) (rest : Bytes) : Option (Token × Place × Bytes) :=
  if c = 45 then some (.dash, .inSet, rest)
  else if c = 93 then some (.closeSet, .outside, rest)
  else if c = 92 then (escape .inSet rest).map fun (t, r) => (t, .inSet, r)
  else if c = 91 then
    match rest with
    | [] => none
    | 58 :: r => (bracketedName 58 r).map fun (name, r) => (.namedClass name, .inSet, r)
    | 46 :: r => (bracketedName 46 r).map fun (name, r) => (.namedByte name, .inSet, r)
    | 61 :: r => (bracketedName 61 r).map fun (name, r) => (.namedLetter name, .inSet, r)
    | _ => some (.byte c, .inSet, rest)
  else some (.byte c, .inSet, rest)

/-- The next token in a bracketed count. -/
def inCount (c : UInt8) (rest : Bytes) : Option (Token × Place × Bytes) :=
  if Bytes.isDigit c then
    some (.number (Numeral.ofDigits (c :: rest.takeWhile Bytes.isDigit)), .inCount,
      rest.dropWhile Bytes.isDigit)
  else if c = 44 then some (.comma, .inCount, rest)
  else if c = 125 then some (.closeCount, .outside, rest)
  else none

/-- The token that starts with a given byte, the place after it and the text after it. -/
def next : Place → UInt8 → Bytes → Option (Token × Place × Bytes)
  | .outside, c, rest => outside c rest
  | .inSet, c, rest => inSet c rest
  | .inCount, c, rest => inCount c rest

/-- The tokens of a text of at most `bound` bytes; a token takes at least one byte. -/
def listFrom : Nat → Place → Bytes → Option (List Token)
  | _, _, [] => some []
  | 0, _, _ :: _ => none
  | bound + 1, place, c :: rest =>
    match next place c rest with
    | none => none
    | some (token, after, left) => (listFrom bound after left).map (token :: ·)

/-- **The tokens of an expression.** -/
def list? (expression : Bytes) : Option (List Token) :=
  listFrom expression.length .outside expression

end Token

end Keyspace.Regex
