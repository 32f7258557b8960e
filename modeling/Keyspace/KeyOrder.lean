import Keyspace.Numeral

/-!
# Orders of keys

The built-in orders are known by name. Two are lexicographic; the **numeric** order puts keys that
read as integers of 64 bits first, by value, and all others after them. Two spellings of one integer
are ordered as texts, so that distinct keys are never equal in the order.
-/

namespace Keyspace

/-- The built-in orders. -/
inductive KeyOrder where
  | lexicalAscending
  | lexicalDescending
  | numeric
deriving DecidableEq, Repr

namespace KeyOrder

/-- The orders and their names. -/
def names : List (Bytes × KeyOrder) :=
  [(Bytes.ascii "lexical-asc", lexicalAscending),
   (Bytes.ascii "lexical-desc", lexicalDescending),
   (Bytes.ascii "numeric", numeric)]

/-- The order with a given name. -/
def ofName? (name : Bytes) : Option KeyOrder :=
  names.lookup name

/-- A key read as an integer of 64 bits. The numeral is looked for in the part of the key before its
first zero byte and has to end where the key ends. -/
def integer? (key : Bytes) : Option Int64 :=
  match Numeral.scan key.terminated with
  | some (n, rest) =>
    if key.terminated.length - rest.length = key.length then n.toInt64? else none
  | none => none

/-- **`order.less a b`**: `a` comes before `b`. -/
def less : KeyOrder → Bytes → Bytes → Bool
  | lexicalAscending, a, b => Bytes.less a b
  | lexicalDescending, a, b => Bytes.less b a
  | numeric, a, b =>
    match integer? a, integer? b with
    | some m, some n => if m = n then Bytes.less a b else m < n
    | some _, none => true
    | none, some _ => false
    | none, none => Bytes.less a b

/-- A list of keys brought into an order. -/
def sort (less : Bytes → Bytes → Bool) (keys : List Bytes) : List Bytes :=
  keys.mergeSort fun a b => !less b a

end KeyOrder

end Keyspace
