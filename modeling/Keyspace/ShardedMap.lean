import Keyspace.Assoc
import Keyspace.Failure
import Keyspace.Value

/-!
# The sharded map

The entries of a bucket are spread over a fixed number of shards by a hash of the key. Each
operation on a key is one access to its shard. To enumerate the keys is to visit the shards one at a
time (`Enumeration`), and other accesses may fall between two visits.

A stored value may be null: then the key is present and reads as nothing.

The shards are reached through addresses of eight bytes each, for which room is reserved before the
first shard is made. No block of memory has more than `2 ^ 63 - 1` bytes, which bounds the number of
shards (`ShardedMap.room`).
-/

namespace Keyspace

/-- The entries of one shard. -/
abbrev Shard (V : Type) := Assoc Bytes (Option V)

/-- **The sharded map.** -/
structure ShardedMap (V : Type) where
  hash : Bytes → Nat
  shards : List (Shard V)

namespace ShardedMap

variable {V : Type}

/-- The least number of shards that no room can be reserved for, which is `2 ^ 60`. -/
def room : Nat := 0x1000000000000000

/-- A hash of keys that picks shards. Any other would do: no answer depends on it. -/
def spread (key : Bytes) : Nat :=
  key.foldl (fun h b => (31 * h + b.toNat) % 4294967296) 7

/-- A map of empty shards. -/
def create (hash : Bytes → Nat) (shards : Nat) : Outcome (ShardedMap V) :=
  if shards = 0 then .error .noShards
  else if room ≤ shards then .error .noRoom
  else .ok { hash, shards := List.replicate shards [] }

/-- The shard of a key. -/
def index (m : ShardedMap V) (key : Bytes) : Nat :=
  m.hash key % m.shards.length

/-- The entries of a key's shard. -/
def shard (m : ShardedMap V) (key : Bytes) : Shard V :=
  (m.shards[m.index key]?).getD []

/-- The map with a change of a key's shard. -/
def change (m : ShardedMap V) (key : Bytes) (f : Shard V → Shard V) : ShardedMap V :=
  { m with shards := m.shards.modify (m.index key) f }

/-- A value is stored under a key. -/
def put (m : ShardedMap V) (key : Bytes) (v : Option V) : ShardedMap V :=
  m.change key fun s => s.put key v

/-- The value of a key; nothing also for a null value. -/
def get? (m : ShardedMap V) (key : Bytes) : Option V :=
  ((m.shard key).find? key).join

/-- Whether a key is present. -/
def contains (m : ShardedMap V) (key : Bytes) : Bool :=
  (m.shard key).has key

/-- A key is removed; whether it was present. -/
def remove (m : ShardedMap V) (key : Bytes) : Bool × ShardedMap V :=
  (m.contains key, m.change key fun s => s.erase key)

/-- The keys, shard by shard. -/
def keys (m : ShardedMap V) : List Bytes :=
  m.shards.flatMap Assoc.keys

/-- The number of entries. -/
def size (m : ShardedMap V) : Nat :=
  m.shards.foldl (fun n s => n + s.length) 0

end ShardedMap

/-- **An enumeration of the keys**: how many shards it has visited, and the keys that it found. -/
structure Enumeration where
  visited : Nat := 0
  found : List Bytes := []
deriving DecidableEq, Repr

namespace Enumeration

/-- The next shard is visited; `none` when all were. -/
def visit? {V : Type} (e : Enumeration) (m : ShardedMap V) : Option Enumeration :=
  (m.shards[e.visited]?).map fun s => ⟨e.visited + 1, e.found ++ s.keys⟩

end Enumeration

end Keyspace
