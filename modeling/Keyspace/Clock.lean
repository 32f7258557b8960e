/-!
# The clock

Snapshots are made and judged by a clock that never goes back, which counts nanoseconds in 64 bits.
It is read anew each time that it is asked, so a **clock** is given here by all of its readings to
come: how much time passes between two of them is not known.
-/

namespace Keyspace

/-- **A clock**, by its readings in the order in which they are taken. -/
structure Clock where
  times : Nat → Int64
  steady : ∀ i j, i ≤ j → times i ≤ times j

namespace Clock

/-- The next reading. -/
def now (c : Clock) : Int64 :=
  c.times 0

/-- The clock after a number of readings. -/
def later (c : Clock) (readings : Nat) : Clock where
  times i := c.times (readings + i)
  steady i j h := c.steady (readings + i) (readings + j) (Nat.add_le_add_left h readings)

theorem now_le_later (c : Clock) (readings : Nat) : c.now ≤ (c.later readings).now :=
  c.steady 0 readings (Nat.zero_le readings)

/-- A clock that stands still. -/
def still (t : Int64) : Clock where
  times _ := t
  steady _ _ _ := Int64.le_refl t

end Clock

end Keyspace
