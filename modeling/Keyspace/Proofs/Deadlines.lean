import Keyspace.Proofs.SignedArithmetic
import Keyspace.Snapshot
import Mathlib.Algebra.Group.Nat.Defs

/-!
# Deadlines in 64 bits

A snapshot may be used until its lifetime is over, which is at the moment `Snapshot.due`. The deadline
that it is judged by is that moment in nanoseconds of 64 bits (`toInt_deadline`), and a lifetime of
some 292 years takes it out of their range. Then the judgement is right at some times and wrong at
others: a snapshot that is still due may have expired, and one that was due before all times may pass
as fresh. These times are exactly those at which it is `Misjudged` (`isExpired_iff_due_iff`).
-/

namespace Keyspace

namespace Snapshot

variable {s : Snapshot} {now : Int64}

/-- **The moment up to which a snapshot may be used**, by its creation and its lifetime. -/
def due (s : Snapshot) : Int :=
  s.createdAt.toInt + s.timeToLive.toInt * 1000000

/-- **The times at which a snapshot is judged wrongly**: its deadline wrapped around to the past of a
moment that it is still due at, or to the future of one that it was due before. -/
def Misjudged (s : Snapshot) (now : Int64) : Prop :=
  (2 ^ 63 ≤ s.due ∧ s.due.bmod (2 ^ 64) < now.toInt) ∨
    (s.due < -2 ^ 63 ∧ now.toInt ≤ s.due.bmod (2 ^ 64))

instance (s : Snapshot) (now : Int64) : Decidable (s.Misjudged now) :=
  inferInstanceAs (Decidable (_ ∨ _))

/-- The deadline is the moment that a snapshot is due at, modulo the words of 64 bits. -/
theorem toInt_deadline (s : Snapshot) : s.deadline.toInt = s.due.bmod (2 ^ 64) := by
  have hnanoseconds : (s.timeToLive * 1000000).toInt =
      (s.timeToLive.toInt * 1000000).bmod (2 ^ 64) := Int64.toInt_mul ..
  rw [deadline, Int64.toInt_add, hnanoseconds, Int.add_bmod_bmod, due]

theorem isExpired_iff : s.isExpired now = true ↔ s.due.bmod (2 ^ 64) < now.toInt := by
  rw [isExpired, decide_eq_true_eq, Int64.lt_iff_toInt_lt, toInt_deadline]

theorem isExpired_eq_false_iff : s.isExpired now = false ↔ now.toInt ≤ s.due.bmod (2 ^ 64) := by
  rw [← Bool.not_eq_true, isExpired_iff, Int.not_lt]

/-- A deadline in range is not changed. -/
theorem due_bmod (hlow : -2 ^ 63 ≤ s.due) (hhigh : s.due < 2 ^ 63) :
    s.due.bmod (2 ^ 64) = s.due :=
  Int.bmod_eq_of_le (by omega) (by omega)

/-- **The judgement is right exactly at the times at which a snapshot is not misjudged.** -/
theorem isExpired_iff_due_iff (s : Snapshot) (now : Int64) :
    (s.isExpired now = true ↔ s.due < now.toInt) ↔ ¬ s.Misjudged now := by
  have hlow := now.le_toInt
  have hhigh := now.toInt_lt
  rw [isExpired_iff, Misjudged]
  by_cases hbefore : s.due < -2 ^ 63
  · omega
  · by_cases hafter : 2 ^ 63 ≤ s.due
    · omega
    · rw [due_bmod (by omega) (by omega)]
      omega

/-- What is due has not expired, if it is due within the times of 64 bits. -/
theorem isExpired_eq_false_of_due (hdue : now.toInt ≤ s.due) (hwithin : s.due < 2 ^ 63) :
    s.isExpired now = false := by
  have hlow := now.le_toInt
  rwa [isExpired_eq_false_iff, due_bmod (Int.le_trans hlow hdue) hwithin]

/-- What passes as fresh is due no earlier than the present, unless it was due before all times. -/
theorem le_due_iff (h : s.isExpired now = false) : now.toInt ≤ s.due ↔ -2 ^ 63 ≤ s.due := by
  have hlow := now.le_toInt
  have hhigh := now.toInt_lt
  rw [isExpired_eq_false_iff] at h
  constructor
  · omega
  · intro hdue
    by_cases hafter : 2 ^ 63 ≤ s.due
    · omega
    · rwa [due_bmod hdue (by omega)] at h

end Snapshot

end Keyspace
