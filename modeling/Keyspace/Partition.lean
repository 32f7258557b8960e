import Keyspace.Failure

/-!
# Partitions of the key space

A key belongs to the partition that its hash selects. The hash folds the bytes of the key into a
word of 64 bits (`Partition.accumulate`: times thirty-three plus the byte, from 5381, wrapping),
reads the word with sign, and takes the magnitude of the remainder by the number of partitions
(`Partition.reduce`). The remainder is taken first and made positive after it, so the least
accumulator needs no case of its own.
-/

namespace Keyspace.Partition

/-- One byte folded into the accumulator: shifted left by five and added to itself, a factor of
thirty-three, then the byte. -/
def mix (h : UInt64) (b : UInt8) : UInt64 :=
  ((h <<< 5) + h) + b.toUInt64

/-- **The accumulator of a key**, read with sign. -/
def accumulate (key : Bytes) : Int64 :=
  (key.foldl mix 5381).toInt64

/-- **The partition below `max`** that an accumulator selects. -/
def reduce (accumulator : Int64) (max : Int32) : Outcome Int32 :=
  if max ≤ 0 then .error (.hashBound max.toInt)
  else
    let remainder := accumulator % max.toInt64
    .ok (if remainder < 0 then -remainder else remainder).toInt32

/-- **The partition of a key** among `max` partitions. -/
def hash (key : Bytes) (max : Int32) : Outcome Int32 :=
  if max ≤ 0 then .error (.hashBound max.toInt) else reduce (accumulate key) max

/-- The name of the bucket that holds a partition. -/
def name (partition : Int32) : Bytes :=
  Bytes.ascii "partition-" ++ Bytes.ofInt partition.toInt

end Keyspace.Partition
