import Keyspace.Bytes

/-!
# Snapshots

A **snapshot** holds the keys of a bucket in some order, with a name, the time at which it was made,
and how long it may be used. A range is read off it by two binary searches (`partitionPoint`): the
first key that is not before the start, and the first key that is after the end.

Times are nanoseconds and lifetimes milliseconds, both in 64 bits with a sign. The deadline of a
snapshot is reckoned in nanoseconds of 64 bits as well, and wraps around when a lifetime is long
enough.
-/

namespace Keyspace

/-- What is asked of a range: both ends belong to it, no end leaves it open, and a limit of zero
takes all of it. -/
structure Range where
  first : Bytes
  last : Option Bytes := none
  limit : UInt64 := 0
deriving DecidableEq, Repr

/-- A comparison of keys: whether the first comes before the second. -/
abbrev Comparison := Bytes → Bytes → Bool

/-- Where `p` ceases to hold among the `count` keys from `first` on, by halving. -/
def partitionPoint (p : Bytes → Bool) (keys : Array Bytes) (first count : Nat) : Nat :=
  if count = 0 then first
  else
    let half := count / 2
    if (keys[first + half]?).any p then
      partitionPoint p keys (first + half + 1) (count - half - 1)
    else partitionPoint p keys first half
termination_by count
decreasing_by all_goals omega

/-- **A snapshot.** -/
structure Snapshot where
  name : Bytes
  /-- The keys, in the order of the comparison. -/
  keys : Array Bytes
  less : Comparison
  createdAt : Int64
  timeToLive : Int64

namespace Snapshot

/-- The last moment at which a snapshot may be used, in the arithmetic of 64 bits. -/
def deadline (s : Snapshot) : Int64 :=
  s.createdAt + s.timeToLive * 1000000

/-- Whether a snapshot is too old at a given time. -/
def isExpired (s : Snapshot) (now : Int64) : Bool :=
  s.deadline < now

/-- **The keys in a range**, at most as many as its limit. -/
def keysInRange (s : Snapshot) (r : Range) : List Bytes :=
  let start := partitionPoint (fun k => s.less k r.first) s.keys 0 s.keys.size
  let stop :=
    match r.last with
    | none => s.keys.size
    | some last => partitionPoint (fun k => !s.less last k) s.keys 0 s.keys.size
  if stop ≤ start then []
  else
    let stop :=
      if 0 < r.limit && r.limit.toNat < stop - start then start + r.limit.toNat else stop
    (s.keys.extract start stop).toList

end Snapshot

end Keyspace
