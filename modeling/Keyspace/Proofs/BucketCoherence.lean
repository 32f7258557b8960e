import Keyspace.Proofs.UpdateSteps
import Keyspace.Proofs.UpdateOwnership

/-!
# What a bucket says of its keys fits together

In every state of every run, calls under way or not, each key stands in the shard that its hash
picks, once and with a value (`ShardedMap.Spread`, `BucketSystem.spread_of_run`). From this alone it
follows that presence, value, enumeration and number of the keys agree, and that a conditional read
fails for two reasons and no other (`Bucket.Coherent`).
-/

namespace Keyspace

variable {V : Type}

/-! ## The map -/

namespace ShardedMap

variable {m : ShardedMap V} {hash : Bytes → Nat} {shards : Nat}

/-- **A map of a hash and a number of shards**: each key stands in its own shard, once and with a
value that is not null. -/
structure Spread (hash : Bytes → Nat) (shards : Nat) (m : ShardedMap V) : Prop where
  hash : m.hash = hash
  count : m.shards.length = shards
  sound : m.Sound
  distinct : m.Distinct
  solid : ∀ key, m.slot? key ≠ some none

theorem Spread.create (h : ShardedMap.create hash shards = .ok m) : m.Spread hash shards := by
  have hpartitioned := Partitioned.create h
  refine ⟨hpartitioned.hash, hpartitioned.count, hpartitioned.sound, hpartitioned.distinct,
    fun key => ?_⟩
  rw [(Sound.create h).2 key]
  exact fun heq => by cases heq

theorem Spread.partitioned (h : m.Spread hash shards) : m.Partitioned hash shards :=
  ⟨h.hash, h.count, h.sound, h.distinct⟩

theorem Spread.put (h : m.Spread hash shards) (key : Bytes) (v : V) :
    (m.put key (some v)).Spread hash shards where
  hash := h.hash
  count := (List.length_modify ..).trans h.count
  sound := h.sound.put key (some v)
  distinct := h.distinct.put key (some v)
  solid := BucketSystem.solid_put h.sound h.solid key v

theorem Spread.remove (h : m.Spread hash shards) (key : Bytes) :
    (m.remove key).2.Spread hash shards where
  hash := h.hash
  count := (List.length_modify ..).trans h.count
  sound := h.sound.remove key
  distinct := h.distinct.remove key
  solid := BucketSystem.solid_remove h.sound h.solid key

/-- The number of entries is the number of the keys that are listed. -/
theorem length_keys (m : ShardedMap V) : m.keys.length = m.size := by
  have hfold : ∀ (ss : List (Shard V)) (n : Nat),
      ss.foldl (fun n s => n + s.length) n = n + (ss.flatMap Assoc.keys).length := by
    intro ss
    induction ss with
    | nil => exact fun n => rfl
    | cons s rest ih =>
      intro n
      rw [List.foldl_cons, ih, List.flatMap_cons, List.length_append, Assoc.keys, List.length_map,
        Nat.add_assoc]
  rw [size, hfold, Nat.zero_add, keys]

end ShardedMap

/-! ## The bucket -/

/-- **What a bucket says of its keys fits together**: a key that is present is in its own shard and
in no other, with a value that is not null; presence, value and the list of keys say the same, and
the list has no key twice. A conditional read fails because the key is absent or because the
predicate cannot be evaluated, and then only. -/
structure Bucket.Coherent [Storable V] (hash : Bytes → Nat) (shards : Nat) (b : Bucket V) : Prop where
  count : b.map.shards.length = shards
  placed : ∀ (i : Nat) (s : Shard V), b.map.shards[i]? = some s → ∀ key,
    key ∈ s.keys ↔ i = hash key % shards ∧ b.map.contains key = true
  solid : ∀ (i : Nat) (s : Shard V), b.map.shards[i]? = some s → ∀ key x, (key, x) ∈ s →
    ∃ v, x = some v ∧ b.get key = .ok v
  present : ∀ key, b.map.contains key = true ↔ ∃ v, b.get key = .ok v
  listed : ∀ key, key ∈ b.keys ↔ b.map.contains key = true
  nodup : b.keys.Nodup
  counted : b.keys.length = b.size
  missing : ∀ key p c, (∃ f, b.conditionalGet key p c = .error f ∧ f.code? = some .notFound) ↔
    b.map.contains key = false
  undecided : ∀ key p c,
    (∃ f, b.conditionalGet key p c = .error f ∧ f.code? = some .internalError) ↔
      ∃ v f, b.get key = .ok v ∧ Storable.satisfies v p c = .error f
  decided : ∀ key p c v holds, b.get key = .ok v → Storable.satisfies v p c = .ok holds →
    b.conditionalGet key p c = .ok (if holds then some v else none)

namespace Bucket

variable {b : Bucket V} {hash : Bytes → Nat} {shards : Nat}

/-- In a map without null values, a key is present exactly when it has a value. -/
theorem contains_iff (h : b.map.Spread hash shards) (key : Bytes) :
    b.map.contains key = true ↔ ∃ v, b.map.get? key = some v := by
  rw [ShardedMap.contains_eq, ShardedMap.get?_eq]
  cases hslot : b.map.slot? key with
  | none => simp
  | some x =>
    cases x with
    | none => exact absurd hslot (h.solid key)
    | some v => simp

/-- The keys that are listed are those that are present. -/
theorem mem_keys_iff (h : b.map.Spread hash shards) (key : Bytes) :
    key ∈ b.keys ↔ b.map.contains key = true := by
  rw [keys, h.sound.mem_keys_iff, ShardedMap.contains_eq]

/-- None of them is listed twice. -/
theorem nodup_keys (h : b.map.Spread hash shards) : b.keys.Nodup :=
  h.sound.nodup_keys h.distinct

/-- A key that stands in a shard stands in the one that its hash picks. -/
theorem mem_shard_iff (h : b.map.Spread hash shards) {i : Nat} {s : Shard V}
    (hs : b.map.shards[i]? = some s) (key : Bytes) :
    key ∈ s.keys ↔ i = hash key % shards ∧ b.map.contains key = true :=
  h.partitioned.mem_shard_iff hs key

theorem get_of_mem (h : b.map.Spread hash shards) {i : Nat} {s : Shard V}
    (hs : b.map.shards[i]? = some s) {key : Bytes} {x : Option V} (hx : (key, x) ∈ s) :
    ∃ v, x = some v ∧ b.get key = .ok v := by
  have hfind := Assoc.find?_of_mem (h.distinct s (List.mem_of_getElem? hs)) hx
  have hslot : b.map.slot? key = some x := by
    rw [ShardedMap.slot?, ShardedMap.shard,
      h.sound.placed i s hs key (List.mem_map_of_mem hx), hs, Option.getD_some, hfind]
  cases x with
  | none => exact absurd hslot (h.solid key)
  | some v => exact ⟨v, rfl, get_of_value (by rw [ShardedMap.get?_eq, hslot]; rfl)⟩

/-- A conditional read finds its key missing when it has no value. -/
theorem conditionalGet_missing_iff [Storable V] (b : Bucket V) (key : Bytes) (p : Predicate)
    (c : Condition) :
    (∃ f, b.conditionalGet key p c = .error f ∧ f.code? = some .notFound) ↔
      b.map.get? key = none := by
  cases hget : b.map.get? key with
  | none =>
    rw [conditionalGet_of_none hget]
    exact iff_of_true ⟨_, rfl, rfl⟩ rfl
  | some v =>
    rw [conditionalGet_of_value hget]
    refine iff_of_false ?_ fun h => by cases h
    rintro ⟨f, hf, hcode⟩
    split at hf
    · cases hf
    · cases hf
      cases hcode

/-- It is undecided when the predicate cannot be evaluated on the value of the key. -/
theorem conditionalGet_undecided_iff [Storable V] (b : Bucket V) (key : Bytes) (p : Predicate)
    (c : Condition) :
    (∃ f, b.conditionalGet key p c = .error f ∧ f.code? = some .internalError) ↔
      ∃ v f, b.get key = .ok v ∧ Storable.satisfies v p c = .error f := by
  cases hget : b.map.get? key with
  | none =>
    rw [conditionalGet_of_none hget, get_of_none hget]
    constructor
    · rintro ⟨f, hf, hcode⟩
      cases hf
      cases hcode
    · rintro ⟨v, f, hv, -⟩
      cases hv
  | some v =>
    rw [conditionalGet_of_value hget, get_of_value hget]
    constructor
    · rintro ⟨f, hf, -⟩
      split at hf
      · cases hf
      · next e he => exact ⟨v, e, rfl, he⟩
    · rintro ⟨w, e, hw, he⟩
      cases hw
      rw [he]
      exact ⟨_, rfl, rfl⟩

/-- **A bucket whose map is spread is coherent.** -/
theorem coherent_of_spread [Storable V] (h : b.map.Spread hash shards) :
    b.Coherent hash shards where
  count := h.count
  placed _ _ hs := mem_shard_iff h hs
  solid _ _ hs _ _ hx := get_of_mem h hs hx
  present key := by simp only [contains_iff h, get_eq_ok_iff]
  listed := mem_keys_iff h
  nodup := nodup_keys h
  counted := b.map.length_keys
  missing key p c := by
    rw [b.conditionalGet_missing_iff, ← Bool.not_eq_true, contains_iff h,
      Option.eq_none_iff_forall_ne_some, not_exists]
  undecided := b.conditionalGet_undecided_iff
  decided key p c v holds hv hholds := by
    rw [conditionalGet_of_value (get_eq_ok_iff.mp hv), hholds]

end Bucket

namespace BucketSystem

variable [Storable V] {s s' t : BucketSystem V} {hash : Bytes → Nat} {shards : Nat}

/-- **The map stays spread**, whatever step is taken. -/
theorem Transition.spread {e : Event V} (h : s.bucket.map.Spread hash shards)
    (htrans : Transition s e s') : s'.bucket.map.Spread hash shards := by
  cases htrans with
  | turned _ turn =>
    cases turn with
    | store _ => exact h.put ..
    | _ => exact h
  | put key value => exact h.put key value
  | removed _ => exact h.remove _
  | _ => exact h

theorem spread_of_run (h : s.bucket.map.Spread hash shards) {steps : List (Step V)}
    (hrun : s.run? steps = some t) : t.bucket.map.Spread hash shards :=
  run_induction (P := fun _ u => u.bucket.map.Spread hash shards)
    (fun _ _ _ _ hu htrans => htrans.spread hu) h hrun

end BucketSystem

end Keyspace
