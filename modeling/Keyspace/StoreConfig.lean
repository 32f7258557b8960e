import Keyspace.Failure
import Keyspace.Numeral

/-!
# Configuration

A store is configured by flags of the form `--flag=value`. A value is a positive word of 64 bits
whose text does not begin with a sign and holds nothing but its numeral; a later flag overrides an
earlier one. The two times are milliseconds read as integers with sign. The value of a flag is
looked at before its name.
-/

namespace Keyspace

/-- **The configuration of a store** and of the node that serves it. -/
structure StoreConfig where
  workers : UInt64 := 4
  queue : UInt64 := 1024
  shards : UInt64 := 16
  partitions : Int32 := 16
  updateTimeout : Int64 := 1000
  snapshotTtl : Int64 := 10000
deriving DecidableEq, Repr

namespace StoreConfig

/-- The positive word that the value of a flag denotes. -/
def positive (flag text : Bytes) : Outcome UInt64 :=
  let refused : Outcome UInt64 := .error (.flagValue flag text)
  match text.head? with
  | none => refused
  | some c =>
    if c = 45 || c = 43 then refused
    else
      match Numeral.word64? text with
      | some (n, []) => if n = 0 then refused else .ok n
      | _ => refused

/-- The parts of an argument in front of its first equals sign and behind it. -/
def split (argument : Bytes) : Outcome (Bytes × Bytes) :=
  match argument.splitAtFirst 61 with
  | some parts =>
    if (Bytes.ascii "--").startsText argument then .ok parts else .error (.flagForm argument)
  | none => .error (.flagForm argument)

/-- The configuration with the flag of a given name set. -/
def set (c : StoreConfig) (flag text : Bytes) (n : UInt64) : Outcome StoreConfig :=
  if flag = Bytes.ascii "--workers" then .ok { c with workers := n }
  else if flag = Bytes.ascii "--queue" then .ok { c with queue := n }
  else if flag = Bytes.ascii "--shards" then .ok { c with shards := n }
  else if flag = Bytes.ascii "--partitions" then
    if 2147483647 < n then .error (.tooManyPartitions text)
    else .ok { c with partitions := Int32.ofNat n.toNat }
  else if flag = Bytes.ascii "--update-timeout-ms" then .ok { c with updateTimeout := n.toInt64 }
  else if flag = Bytes.ascii "--snapshot-ttl-ms" then .ok { c with snapshotTtl := n.toInt64 }
  else .error (.flagUnknown flag)

/-- The configuration after one argument. -/
def apply (c : StoreConfig) (argument : Bytes) : Outcome StoreConfig := do
  let (flag, text) ← split argument
  let n ← positive flag text
  c.set flag text n

/-- **The configuration that a list of arguments describes.** -/
def parse (arguments : List Bytes) : Outcome StoreConfig :=
  arguments.foldlM apply {}

end StoreConfig

end Keyspace
