import Keyspace.Value

/-!
# Flushing

A flush hands entries to the storage layer, one **delivery** per entry. A condition decides by
bucket and key which entries are flushed (`Selection`); a storage layer may fail at a delivery, and
then what was delivered before it stays delivered (`Delivery.report`).
-/

namespace Keyspace

/-- An entry as it is handed to the storage layer. -/
structure Delivery (V : Type) where
  bucket : Bytes
  key : Bytes
  value : V
deriving DecidableEq, Repr

/-- What the storage layer answers to a delivery: a failure, or nothing. -/
abbrev FlushHook (V : Type) := Delivery V → Option Failure

/-- What was delivered, and the failure that ended the flush. -/
structure FlushReport (V : Type) where
  delivered : List (Delivery V) := []
  failure : Option Failure := none

/-- **Deliveries in order**, until the first that fails. -/
def Delivery.report {V : Type} (hook : FlushHook V) : List (Delivery V) → FlushReport V
  | [] => {}
  | d :: rest =>
    match hook d with
    | some f => { failure := some f }
    | none =>
      let r := report hook rest
      { r with delivered := d :: r.delivered }

/-- Which entries to flush, by the names of bucket and key. -/
abbrev FlushCondition := Bytes → Bytes → Bool

/-- The keys that a condition was asked about, and those that it chose. -/
structure Selection where
  asked : List Bytes := []
  chosen : List Bytes := []
deriving DecidableEq, Repr

/-- **The selection from the keys of a bucket**, which are asked about in turn. -/
def Selection.ofKeys (condition : FlushCondition) (bucket : Bytes) (keys : List Bytes) :
    Selection :=
  keys.foldl
    (fun s key =>
      { asked := s.asked ++ [key]
        chosen := if condition bucket key then s.chosen ++ [key] else s.chosen })
    {}

/-- The calls of a bucket's flush that a selection makes: one, unless nothing was chosen. -/
def Selection.calls (s : Selection) : List (List Bytes) :=
  if s.chosen.isEmpty then [] else [s.chosen]

end Keyspace
