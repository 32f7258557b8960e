import Keyspace.Bytes

/-!
# What is printed

Operations report to two streams, as lines of output and lines of diagnostics.
-/

namespace Keyspace

/-- Lines on the two streams. -/
structure Log where
  out : List Bytes := []
  err : List Bytes := []
deriving DecidableEq, Repr

namespace Log

/-- One log after another. -/
def append (a b : Log) : Log :=
  ⟨a.out ++ b.out, a.err ++ b.err⟩

instance : Append Log := ⟨append⟩

theorem append_empty (log : Log) : log ++ ({} : Log) = log := by
  change Log.mk (log.out ++ []) (log.err ++ []) = log
  rw [List.append_nil, List.append_nil]

theorem append_assoc (a b c : Log) : a ++ b ++ c = a ++ (b ++ c) := by
  change Log.mk (a.out ++ b.out ++ c.out) (a.err ++ b.err ++ c.err) = _
  rw [List.append_assoc, List.append_assoc]
  rfl

/-- One line of output. -/
def say (line : Bytes) : Log := { out := [line] }

/-- One line of diagnostics. -/
def warn (line : Bytes) : Log := { err := [line] }

end Log

end Keyspace
