import Keyspace.Partition
import Keyspace.Proofs.SignedArithmetic
import Mathlib.Algebra.BigOperators.Fin
import Mathlib.Data.Nat.ModEq
import Mathlib.Tactic.Ring

/-!
# The hash of a key in closed form

The accumulator of a key is a polynomial in thirty-three whose coefficients are the bytes of the key,
modulo `2 ^ 64` and read with sign (`Partition.toInt_accumulate`). It is reduced to its magnitude
modulo the number of partitions, for every accumulator (`Partition.exists_reduce`): the remainder is
smaller than a word of 32 bits before it is made positive, so that the least accumulator, whose
magnitude is no word, needs no case of its own and nothing overflows (`Partition.reduce?`).
-/

namespace Keyspace.Partition

variable {key : Bytes} {max : Int32} {accumulator : Int64}

/-- **The polynomial of a key**: 5381 and then the bytes are its coefficients, the last byte at the
lowest power of thirty-three. -/
def polynomial (key : Bytes) : Nat :=
  5381 * 33 ^ key.length + ∑ i : Fin key.length, key[i].toNat * 33 ^ (key.length - 1 - i)

/-- The signed reading of a number of 64 bits in two's complement. -/
def signed (n : Nat) : Int :=
  if n < 2 ^ 63 then n else n - 2 ^ 64

/-! ### The accumulator -/

theorem toNat_mix (h : UInt64) (b : UInt8) :
    (mix h b).toNat = (33 * h.toNat + b.toNat) % 2 ^ 64 := by
  have hshift : (h <<< 5).toNat = (h.toNat * 32) % 2 ^ 64 := by
    rw [UInt64.toNat_shiftLeft, Nat.shiftLeft_eq]
    rfl
  rw [mix, UInt64.toNat_add, UInt64.toNat_add, hshift, UInt8.toNat_toUInt64]
  omega

/-- The bytes are folded in by Horner's rule. -/
theorem toNat_foldl_mix (key : Bytes) (h : UInt64) :
    (key.foldl mix h).toNat =
      (h.toNat * 33 ^ key.length + ∑ i : Fin key.length, key[i].toNat * 33 ^ (key.length - 1 - i)) %
        2 ^ 64 := by
  induction key generalizing h with
  | nil => simp [Nat.mod_eq_of_lt h.toNat_lt]
  | cons b rest ih =>
    have hsum : (∑ i : Fin (b :: rest).length,
        (b :: rest)[i].toNat * 33 ^ ((b :: rest).length - 1 - i)) =
        b.toNat * 33 ^ rest.length +
          ∑ i : Fin rest.length, rest[i].toNat * 33 ^ (rest.length - 1 - i) := by
      change (∑ i : Fin (rest.length + 1), (b :: rest)[i].toNat * 33 ^ (rest.length - i)) = _
      rw [Fin.sum_univ_succ]
      congr 1
      refine Finset.sum_congr rfl fun i _ => ?_
      congr 2
      rw [Fin.val_succ]
      omega
    rw [List.foldl_cons, ih, hsum, List.length_cons]
    generalize ∑ i : Fin rest.length, rest[i].toNat * 33 ^ (rest.length - 1 - i) = tail
    have hmix : (mix h b).toNat ≡ 33 * h.toNat + b.toNat [MOD 2 ^ 64] := by
      rw [toNat_mix]
      exact Nat.mod_modEq _ _
    calc (mix h b).toNat * 33 ^ rest.length + tail
        ≡ (33 * h.toNat + b.toNat) * 33 ^ rest.length + tail [MOD 2 ^ 64] :=
          (hmix.mul_right _).add_right _
      _ = h.toNat * 33 ^ (rest.length + 1) + (b.toNat * 33 ^ rest.length + tail) := by ring

/-- **The accumulator is the polynomial of the key**, modulo `2 ^ 64` and read with sign. The words
that are folded have no sign, so that they wrap and do not overflow. -/
theorem toInt_accumulate (key : Bytes) :
    (accumulate key).toInt = signed (polynomial key % 2 ^ 64) := by
  have hword : (key.foldl mix 5381).toNat = polynomial key % 2 ^ 64 := toNat_foldl_mix key 5381
  have hbits : (accumulate key).toInt = ((polynomial key % 2 ^ 64 : Nat) : Int).bmod (2 ^ 64) := by
    rw [← hword]
    exact BitVec.toInt_eq_toNat_bmod _
  have hlt : polynomial key % 2 ^ 64 < 2 ^ 64 := Nat.mod_lt _ (by decide)
  rw [hbits, signed, Int.bmod_def]
  split <;> split <;> omega

/-! ### The reduction -/

/-- The reduction to the partitions below `max`, where each of its operations on words with sign is
exact: the remainder, its opposite if it is negative, and the conversion to 32 bits. -/
def reduce? (accumulator : Int64) (max : Int32) : Option Int32 :=
  (Signed.rem? accumulator max.toInt64).bind fun remainder =>
    (if remainder < 0 then Signed.neg? remainder else some remainder).bind Signed.narrow?

/-- The remainder is exact, and its magnitude is below `max`. -/
theorem natAbs_remainder (hmax : 0 < max) (accumulator : Int64) :
    Signed.rem? accumulator max.toInt64 = some (accumulator % max.toInt64) ∧
      ((accumulator % max.toInt64).toInt.natAbs : Int) = accumulator.toInt.natAbs % max.toInt := by
  have hpos : 0 < max.toInt := Int32.lt_iff_toInt_lt.mp hmax
  have hdivisor : max.toInt64.toInt = max.toInt := Int32.toInt_toInt64 max
  have hremainder : (accumulator % max.toInt64).toInt = accumulator.toInt.tmod max.toInt := by
    rw [Int64.toInt_mod, hdivisor]
  constructor
  · rw [Signed.rem?_eq_some_iff (hdivisor ▸ hpos), hdivisor, hremainder]
  · rw [hremainder, Int.natAbs_tmod, Int.natCast_mod, Int.natAbs_of_nonneg (Int.le_of_lt hpos)]

/-- A remainder that is smaller than a word of 32 bits has an opposite, and its magnitude is again
such a word. -/
theorem narrow_magnitude {remainder : Int64} (h : remainder.toInt.natAbs < 2 ^ 31) :
    (if remainder < 0 then Signed.neg? remainder else some remainder).bind Signed.narrow? =
        some (if remainder < 0 then -remainder else remainder).toInt32 ∧
      (if remainder < 0 then -remainder else remainder).toInt32.toInt = remainder.toInt.natAbs := by
  have hnarrow {w : Int64} (hw : w.toInt = remainder.toInt.natAbs) : w.toInt32.toInt = w.toInt := by
    rw [Int64.toInt_toInt32, Int.bmod_eq_of_le]
    all_goals omega
  have hsign : remainder < 0 ↔ remainder.toInt < 0 := Int64.lt_iff_toInt_lt
  by_cases hneg : remainder.toInt < 0
  · have hopposite : (-remainder).toInt = -remainder.toInt := by
      rw [Int64.toInt_neg, Int.bmod_eq_of_le]
      all_goals omega
    have hvalue : (-remainder).toInt = remainder.toInt.natAbs := by omega
    have hnegative := hsign.mpr hneg
    rw [if_pos hnegative, if_pos hnegative, Signed.neg?_eq_some_iff.mpr hopposite, Option.bind_some,
      Signed.narrow?_eq_some_iff, hnarrow hvalue]
    exact ⟨rfl, hvalue⟩
  · have hvalue : remainder.toInt = remainder.toInt.natAbs := by omega
    have hnonnegative := mt hsign.mp hneg
    rw [if_neg hnonnegative, if_neg hnonnegative, Option.bind_some, Signed.narrow?_eq_some_iff,
      hnarrow hvalue]
    exact ⟨rfl, hvalue⟩

/-- **Every accumulator is reduced to its magnitude modulo `max`**, and every operation on the way is
exact. -/
theorem exists_reduce (hmax : 0 < max) (accumulator : Int64) :
    ∃ partition, reduce accumulator max = .ok partition ∧ reduce? accumulator max = some partition ∧
      partition.toInt = accumulator.toInt.natAbs % max.toInt := by
  obtain ⟨hdefined, hmod⟩ := natAbs_remainder hmax accumulator
  have hpos : 0 < max.toInt := Int32.lt_iff_toInt_lt.mp hmax
  have hbound : max.toInt < 2 ^ 31 := max.toInt_lt
  have hlt := Int.emod_lt_of_pos accumulator.toInt.natAbs hpos
  have hsmall : (accumulator % max.toInt64).toInt.natAbs < 2 ^ 31 := by omega
  obtain ⟨hnarrow, hvalue⟩ := narrow_magnitude hsmall
  refine ⟨_, if_neg (Int32.not_le.mpr hmax), ?_, hvalue.trans hmod⟩
  rw [reduce?, hdefined, Option.bind_some, hnarrow]

theorem hash_of_pos (hmax : 0 < max) (key : Bytes) : hash key max = reduce (accumulate key) max := by
  rw [hash, if_neg (Int32.not_le.mpr hmax)]

/-! ### The hash -/

/-- **The hash of a key in closed form.** -/
structure HashesExactly (key : Bytes) (max : Int32) : Prop where
  /-- The hash is the magnitude of the polynomial of the key, read as a word with sign, modulo the
  number of partitions, and so the index of a partition. -/
  closed : 0 < max → ∃ partition, hash key max = .ok partition ∧
    partition.toInt = (signed (polynomial key % 2 ^ 64)).natAbs % max.toInt ∧
    0 ≤ partition.toInt ∧ partition.toInt < max.toInt
  /-- Nothing that has a sign overflows, whatever is reduced. -/
  exact : 0 < max → ∀ accumulator, ∃ partition, reduce? accumulator max = some partition ∧
    reduce accumulator max = .ok partition
  /-- Where there is no partition, there is no hash. -/
  refused : max ≤ 0 → ∃ f : Failure, f.kind = .invalidArgument ∧ hash key max = .error f ∧
    ∀ accumulator, reduce accumulator max = .error f

theorem hashes_exactly (key : Bytes) (max : Int32) : HashesExactly key max where
  closed hmax := by
    have hpos : 0 < max.toInt := Int32.lt_iff_toInt_lt.mp hmax
    obtain ⟨partition, hreduce, -, hvalue⟩ := exists_reduce hmax (accumulate key)
    rw [toInt_accumulate] at hvalue
    refine ⟨partition, hash_of_pos hmax key ▸ hreduce, hvalue, ?_, ?_⟩
    · rw [hvalue]
      exact Int.emod_nonneg _ (Int.ne_of_gt hpos)
    · rw [hvalue]
      exact Int.emod_lt_of_pos _ hpos
  exact hmax accumulator := by
    obtain ⟨partition, hreduce, hdefined, -⟩ := exists_reduce hmax accumulator
    exact ⟨partition, hdefined, hreduce⟩
  refused hmax := ⟨.hashBound max.toInt, rfl, if_pos hmax, fun _ => if_pos hmax⟩

/-- A key whose polynomial is a negative word, and the least of all accumulators, which has no
opposite but is reduced. -/
theorem hash_of_negative :
    signed (polynomial (Bytes.ascii "session:0001") % 2 ^ 64) = -2678348527587033564 ∧
      hash (Bytes.ascii "session:0001") 7 = .ok 4 ∧
      Signed.neg? Int64.minValue = none ∧ reduce? Int64.minValue 3 = some 2 ∧
      ∃ f : Failure, f.kind = .invalidArgument ∧ hash (Bytes.ascii "session:0001") (-1) = .error f := by
  have hkey : signed (polynomial (Bytes.ascii "session:0001") % 2 ^ 64) = -2678348527587033564 := by
    decide +kernel
  obtain ⟨partition, hhash, hvalue, -⟩ :=
    (hashes_exactly (Bytes.ascii "session:0001") 7).closed (by decide)
  rw [hkey] at hvalue
  obtain rfl : partition = 4 := Int32.toInt_inj.mp hvalue
  obtain ⟨least, hdefined, hreduce⟩ := (hashes_exactly [] 3).exact (by decide) Int64.minValue
  obtain rfl : 2 = least := Except.ok.inj hreduce
  obtain ⟨f, hkind, hrefused, -⟩ :=
    (hashes_exactly (Bytes.ascii "session:0001") (-1)).refused (by decide)
  exact ⟨hkey, hhash, by decide, hdefined, f, hkind, hrefused⟩

end Keyspace.Partition
