import Keyspace.Bytes

/-!
# Sets of bytes

What a pattern says about a single byte is a `ByteSet`: a list of members, or the complement of one.
Members are bytes, ranges, classes of the portable character set, their complements, and a letter
without regard to its case. Classes and single bytes also have names.

The ends of a range are compared **with sign**: a byte of 128 or more stands below all others.
-/

namespace Keyspace.Regex

/-- The classes of the portable character set; bytes of 128 or more are in none of them. -/
inductive ByteClass where
  | alnum
  | alpha
  | blank
  | cntrl
  | digit
  | graph
  | lower
  | print
  | punct
  | space
  | upper
  | xdigit
  | word
deriving DecidableEq, Repr

namespace ByteClass

/-- Lower-case letters. -/
def isLower (b : UInt8) : Bool := 97 ≤ b && b ≤ 122

/-- Upper-case letters. -/
def isUpper (b : UInt8) : Bool := 65 ≤ b && b ≤ 90

/-- Letters and digits. -/
def isAlnum (b : UInt8) : Bool := isLower b || isUpper b || Bytes.isDigit b

/-- Bytes with a glyph. -/
def isGraph (b : UInt8) : Bool := 33 ≤ b && b ≤ 126

/-- The digits of base sixteen. -/
def isHex (b : UInt8) : Bool :=
  Bytes.isDigit b || (65 ≤ b && b ≤ 70) || (97 ≤ b && b ≤ 102)

/-- Letters, digits and the underscore. -/
def isWord (b : UInt8) : Bool := isAlnum b || b = 95

/-- Membership in a class. -/
def mem : ByteClass → UInt8 → Bool
  | alnum, b => isAlnum b
  | alpha, b => isLower b || isUpper b
  | blank, b => b = 32 || b = 9
  | cntrl, b => b < 32 || b = 127
  | digit, b => Bytes.isDigit b
  | graph, b => isGraph b
  | lower, b => isLower b
  | print, b => b = 32 || isGraph b
  | punct, b => isGraph b && !isAlnum b
  | space, b => Bytes.isBlank b
  | upper, b => isUpper b
  | xdigit, b => isHex b
  | word, b => isWord b

/-- A letter in lower case; any other byte as it is. -/
def toLower (b : UInt8) : UInt8 :=
  if isUpper b then b + 32 else b

/-- The names of the classes. -/
def names : List (Bytes × ByteClass) :=
  [(Bytes.ascii "d", digit), (Bytes.ascii "w", word), (Bytes.ascii "s", space),
   (Bytes.ascii "alnum", alnum), (Bytes.ascii "alpha", alpha), (Bytes.ascii "blank", blank),
   (Bytes.ascii "cntrl", cntrl), (Bytes.ascii "digit", digit), (Bytes.ascii "graph", graph),
   (Bytes.ascii "lower", lower), (Bytes.ascii "print", print), (Bytes.ascii "punct", punct),
   (Bytes.ascii "space", space), (Bytes.ascii "upper", upper), (Bytes.ascii "xdigit", xdigit)]

/-- The class with a given name, whose letters may have either case. -/
def ofName? (name : Bytes) : Option ByteClass :=
  names.lookup (name.map toLower)

end ByteClass

/-- The names of the bytes below 128 in the portable character set, from 0 on. Letters are their own
names. -/
def byteNames : List Bytes :=
  (["NUL", "SOH", "STX", "ETX", "EOT", "ENQ", "ACK", "alert", "backspace", "tab", "newline",
    "vertical-tab", "form-feed", "carriage-return", "SO", "SI", "DLE", "DC1", "DC2", "DC3", "DC4",
    "NAK", "SYN", "ETB", "CAN", "EM", "SUB", "ESC", "IS4", "IS3", "IS2", "IS1", "space",
    "exclamation-mark", "quotation-mark", "number-sign", "dollar-sign", "percent-sign",
    "ampersand", "apostrophe", "left-parenthesis", "right-parenthesis", "asterisk", "plus-sign",
    "comma", "hyphen", "period", "slash", "zero", "one", "two", "three", "four", "five", "six",
    "seven", "eight", "nine", "colon", "semicolon", "less-than-sign", "equals-sign",
    "greater-than-sign", "question-mark", "commercial-at"].map Bytes.ascii)
  ++ (List.range 26).map (fun i => [(65 + i).toUInt8])
  ++ (["left-square-bracket", "backslash", "right-square-bracket", "circumflex", "underscore",
       "grave-accent"].map Bytes.ascii)
  ++ (List.range 26).map (fun i => [(97 + i).toUInt8])
  ++ (["left-curly-bracket", "vertical-line", "right-curly-bracket", "tilde", "DEL"].map
       Bytes.ascii)

/-- The byte with a given name. -/
def byteNamed? (name : Bytes) : Option UInt8 :=
  (byteNames.idxOf? name).map Nat.toUInt8

/-- A member of a set of bytes. -/
inductive Member where
  | byte (b : UInt8)
  /-- The bytes between two ends, compared with sign. -/
  | range (low high : UInt8)
  | inClass (c : ByteClass)
  | notInClass (c : ByteClass)
  /-- A letter in either case, or a byte that is no letter. -/
  | anyCase (b : UInt8)
deriving DecidableEq, Repr

/-- Whether a member covers a byte. -/
def Member.covers : Member → UInt8 → Bool
  | .byte x, b => b = x
  | .range low high, b => low.toInt8 ≤ b.toInt8 && b.toInt8 ≤ high.toInt8
  | .inClass c, b => c.mem b
  | .notInClass c, b => !c.mem b
  | .anyCase x, b => ByteClass.toLower b = ByteClass.toLower x

/-- **A set of bytes**: what its members cover, or what they do not. -/
structure ByteSet where
  negated : Bool
  members : List Member
deriving DecidableEq, Repr

namespace ByteSet

/-- Membership. -/
def mem (s : ByteSet) (b : UInt8) : Bool :=
  (s.members.any fun m => m.covers b) != s.negated

/-- The set of one byte. -/
def single (b : UInt8) : ByteSet := ⟨false, [.byte b]⟩

/-- Every byte that ends no line. -/
def withinLine : ByteSet := ⟨true, [.byte 10, .byte 13]⟩

end ByteSet

end Keyspace.Regex
