import Keyspace.Assoc
import Keyspace.Failure
import Keyspace.Numeral

/-!
# Updates

An **update** names a function and carries its parameters. The functions replace a text, append to
it, or count: a counter is an integer of 64 bits in decimal, and adding to it either gives the exact
sum or fails. The test for overflow compares before it adds, so that nothing on the way overflows.
-/

namespace Keyspace

/-- A function's name and its parameters. -/
structure Update where
  functionName : Bytes
  parameters : Assoc Bytes Bytes := []
deriving DecidableEq, Repr

namespace Update

/-- The value of a parameter. -/
def parameter? (u : Update) (name : Bytes) : Option Bytes :=
  u.parameters.find? name

/-- The value of a parameter that the function needs. -/
def parameter (u : Update) (name : Bytes) : Outcome Bytes :=
  match u.parameter? name with
  | some v => .ok v
  | none => .error (.parameterMissing name u.functionName)

end Update

/-- The functions of updates. -/
inductive Function where
  | replace
  | append
  | counter
deriving DecidableEq, Repr

namespace Function

/-- The functions and their names. -/
def names : List (Bytes × Function) :=
  [(Bytes.ascii "replace", replace), (Bytes.ascii "append", append),
   (Bytes.ascii "counter", counter)]

/-- The function with a given name. -/
def ofName? (name : Bytes) : Option Function :=
  names.lookup name

/-- A text read as an integer, which plays the given role. -/
def integer (role text : Bytes) : Outcome Int64 :=
  match Numeral.int64? text with
  | some n => .ok n
  | none => .error (.notAnInteger role text)

/-- Whether a sum leaves the integers of 64 bits. -/
def overflows (current increment : Int64) : Bool :=
  (0 < increment && Int64.maxValue - increment < current) ||
    (increment < 0 && current < Int64.minValue - increment)

/-- A counter after an update: its text plus the parameter `delta`, or plus one. -/
def count (u : Update) (text : Bytes) : Outcome Bytes := do
  let current ← integer (Bytes.ascii "counter value") text
  let increment ←
    match u.parameter? (Bytes.ascii "delta") with
    | some delta => integer (Bytes.ascii "delta") delta
    | none => .ok 1
  if overflows current increment then .error (.counterOverflow text increment.toInt)
  else .ok (Bytes.ofInt (current + increment).toInt)

/-- **The text after an update.** -/
def apply (f : Function) (u : Update) (text : Bytes) : Outcome Bytes :=
  match f with
  | replace => u.parameter (Bytes.ascii "value")
  | append => do
    let value ← u.parameter (Bytes.ascii "value")
    return text ++ value
  | counter => count u text

end Function

end Keyspace
