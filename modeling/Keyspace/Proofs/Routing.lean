import Keyspace.Node
import Keyspace.Proofs.Configuration
import Keyspace.Proofs.PartitionHash
import Keyspace.Proofs.StoreRegistry
import Keyspace.Proofs.UpdateAlone

/-!
# The buckets of a new node

A node that starts has a bucket for every partition that a key can hash to (`Node.fresh_of_start`):
the hash of a key lies below the number of partitions (`Partition.hash_eq`), and the buckets of all
partitions are made before the first line is read. Each of them is empty.

A configuration that is accepted has at least one partition and one shard
(`StoreConfig.positive_of_parse`). A node starts with it exactly if there is room for the shards of a
bucket (`Node.starts_iff`).
-/

namespace Keyspace

namespace Partition

variable {max : Int32}

/-- The index of a key's partition: the magnitude of its accumulator modulo the number of
partitions. -/
def index (key : Bytes) (max : Int32) : Nat :=
  (accumulate key).toInt.natAbs % max.toInt.toNat

/-- The bucket that a key belongs in. -/
def home (key : Bytes) (max : Int32) : Bytes :=
  name (Int32.ofNat (index key max))

theorem index_lt (hmax : 0 < max) (key : Bytes) : index key max < max.toInt.toNat := by
  have hpos : 0 < max.toInt := Int32.lt_iff_toInt_lt.mp hmax
  exact Nat.mod_lt _ (by omega)

/-- **Every key has a partition**, that of its index. -/
theorem hash_eq (hmax : 0 < max) (key : Bytes) :
    hash key max = .ok (Int32.ofNat (index key max)) := by
  have hpos : 0 < max.toInt := Int32.lt_iff_toInt_lt.mp hmax
  have hbound : max.toInt < 2 ^ 31 := max.toInt_lt
  have hlt := index_lt hmax key
  obtain ⟨partition, hreduce, -, hvalue⟩ := exists_reduce hmax (accumulate key)
  rw [hash_of_pos hmax, hreduce]
  congr 1
  rw [← Int32.toInt_inj, hvalue, Int32.toInt_ofNat_of_lt (by omega), index, Int.natCast_mod,
    Int.toNat_of_nonneg (Int.le_of_lt hpos)]

end Partition

namespace StoreConfig

variable {c : StoreConfig}

/-- **Nothing in the configuration of a store is zero.** -/
structure Positive (c : StoreConfig) : Prop where
  workers : c.workers ≠ 0
  queue : c.queue ≠ 0
  shards : c.shards ≠ 0
  partitions : 0 < c.partitions

/-- **An accepted configuration is positive.** -/
theorem positive_of_parse {arguments : List Bytes} (h : parse arguments = .ok c) : c.Positive := by
  have hone (s : Setting) (hs : s.isTime = false) : 1 ≤ s.value c := one_le_value_of_parse h hs
  refine ⟨fun hzero => ?_, fun hzero => ?_, fun hzero => ?_, ?_⟩
  · have hworkers := hone .workers rfl
    simp [Setting.value, hzero] at hworkers
  · have hqueue := hone .queue rfl
    simp [Setting.value, hzero] at hqueue
  · have hshards := hone .shards rfl
    simp [Setting.value, hzero] at hshards
  · exact Int32.lt_iff_toInt_lt.mpr (hone .partitions rfl)

end StoreConfig

namespace Store

variable {s t : Store Value} {name : Bytes}

/-- **A store of new buckets**: one for every name, each of them empty. -/
structure Prepared (s : Store Value) : Prop where
  sound : s.Sound
  makes : s.Makes
  fresh : ∀ b ∈ s.buckets, ∃ name, Bucket.create name s.hash s.shards true = .ok b

/-- Another name gets its bucket; the names that there are keep theirs, and the pool is not touched. -/
theorem Prepared.getOrCreate (h : s.Prepared) (name : Bytes) :
    ∃ i t log, s.getOrCreate name = (.ok i, t, log) ∧ t.Prepared ∧ t.pool = s.pool ∧
      ∀ other, other ∈ t.names ↔ other = name ∨ other ∈ s.names := by
  cases hslot : s.registry.find? name with
  | some slot =>
    obtain ⟨i, b, rfl, -, -⟩ := h.sound.filled name slot hslot
    have hname : name ∈ s.names := (Assoc.isSome_find?_iff _ _).mp (hslot ▸ rfl)
    refine ⟨i, s, {}, getOrCreate_of_found hslot, h, rfl, fun other => ⟨.inr, ?_⟩⟩
    rintro (rfl | hother)
    · exact hname
    · exact hother
  | none =>
    obtain ⟨b, hb⟩ := h.makes.create name
    refine ⟨_, _, _, getOrCreate_of_made (by rw [hslot]; exact fun i => nofun) hb,
      ⟨(Effect.made hslot hb).sound h.sound, h.makes, ?_⟩, rfl,
      fun other => Registry.mem_keys_insert ..⟩
    intro c hc
    rcases List.mem_append.mp hc with hold | hnew
    · exact h.fresh c hold
    · rw [List.mem_singleton.mp hnew]
      exact ⟨name, hb⟩

end Store

namespace Node

variable {n : Node} {c : StoreConfig} {arguments : List Bytes} {greeting log : Log}

/-- When the buckets of the partitions from `first` on were created, their names are there beside
those that were there before. -/
theorem exists_createPartitions {s : Store Value} (h : s.Prepared) (first count : Nat) :
    ∃ t log, createPartitions s first count = (.ok t, log) ∧ t.Prepared ∧ t.pool = s.pool ∧
      ∀ name, name ∈ t.names ↔ name ∈ s.names ∨
        ∃ k, first ≤ k ∧ k < first + count ∧ name = Partition.name (Int32.ofNat k) := by
  induction count generalizing s first with
  | zero =>
    refine ⟨s, {}, rfl, h, rfl, fun name => ⟨.inl, ?_⟩⟩
    rintro (hname | ⟨k, hk, hlt, -⟩)
    · exact hname
    · omega
  | succ count ih =>
    obtain ⟨i, next, log, hnext, hprepared, hpool, hnames⟩ :=
      h.getOrCreate (Partition.name (Int32.ofNat first))
    obtain ⟨t, later, ht, hlast, hsame, hall⟩ := ih hprepared (first + 1)
    refine ⟨t, log ++ later, ?_, hlast, hsame.trans hpool, fun name => ?_⟩
    · simp only [createPartitions, hnext, ht]
    · rw [hall, hnames]
      constructor
      · rintro ((rfl | hname) | ⟨k, hk, hlt, rfl⟩)
        · exact .inr ⟨first, Nat.le_refl _, by omega, rfl⟩
        · exact .inl hname
        · exact .inr ⟨k, by omega, by omega, rfl⟩
      · rintro (hname | ⟨k, hk, hlt, rfl⟩)
        · exact .inl (.inr hname)
        · rcases Nat.eq_or_lt_of_le hk with rfl | hgt
          · exact .inl (.inl rfl)
          · exact .inr ⟨k, hgt, by omega, rfl⟩

/-- **A node before its first line**: a resting pool, and an empty bucket for every partition. -/
structure Fresh (n : Node) : Prop where
  positive : n.config.Positive
  prepared : n.store.Prepared
  rested : n.store.pool.Rested
  names : ∀ name, name ∈ n.store.names ↔
    ∃ k, k < n.config.partitions.toInt.toNat ∧ name = Partition.name (Int32.ofNat k)

/-- A positive configuration is enough for a store. -/
theorem exists_store (h : c.Positive) : ∃ (s : Store Value) (started : Log),
    Store.create ShardedMap.spread c.workers.toNat c.queue.toNat c.shards.toNat =
        .ok (s, started) ∧
      s.pool.Rested ∧ s.shards = c.shards.toNat ∧ s.registry = [] ∧ s.buckets = [] := by
  have hnonzero : ∀ {n : UInt64}, n ≠ 0 → n.toNat ≠ 0 := fun hn hzero =>
    hn (UInt64.toNat_inj.mp hzero)
  obtain ⟨s, started, hs⟩ : ∃ (s : Store Value) (started : Log), Store.create ShardedMap.spread
      c.workers.toNat c.queue.toNat c.shards.toNat = .ok (s, started) := by
    rw [Store.create,
      WorkerPool.create_eq_ok_iff.mpr ⟨hnonzero h.workers, hnonzero h.queue, rfl⟩]
    exact ⟨_, _, rfl⟩
  obtain ⟨hcreated, hshards, hregistry, hbuckets⟩ := Store.eq_of_create hs
  exact ⟨s, started, hs, .create hcreated, hshards, hregistry, hbuckets⟩

/-- **A node with room for the shards of a bucket starts.** -/
theorem exists_ofConfig (clock : Clock) (h : c.Positive)
    (hroom : c.shards.toNat < ShardedMap.room) :
    ∃ n log, ofConfig clock c = (.ok n, log) ∧ n.config = c ∧ n.Fresh := by
  obtain ⟨s, started, hs, hrested, hshards, hregistry, hbuckets⟩ := exists_store h
  have hmakes : s.Makes :=
    ⟨hshards ▸ Nat.pos_of_ne_zero fun hzero => h.shards (UInt64.toNat_inj.mp hzero),
      hshards ▸ hroom⟩
  have hprepared : s.Prepared := by
    refine ⟨Store.Sound.of_registry_eq_nil hregistry, hmakes, ?_⟩
    rw [hbuckets]
    exact nofun
  obtain ⟨t, created, ht, hlast, hsame, hall⟩ :=
    exists_createPartitions hprepared 0 c.partitions.toInt.toNat
  refine ⟨{ config := c, store := t, clock }, greeting c ++ started ++ created, ?_, rfl,
    h, hlast, hsame ▸ hrested, fun name => ?_⟩
  · simp only [ofConfig, hs, ht, Except.map]
  · have hnames : s.names = [] := by rw [Store.names, hregistry]; rfl
    rw [hall, hnames]
    simp

/-- Without room for the shards of a bucket the first partition fails. -/
theorem ofConfig_of_no_room (clock : Clock) (h : c.Positive)
    (hroom : ¬ c.shards.toNat < ShardedMap.room) :
    ∃ log, ofConfig clock c = (.error .noRoom, log) := by
  obtain ⟨s, started, hs, -, hshards, hregistry, -⟩ := exists_store h
  have hmakes : ¬ s.Makes := fun hmakes => hroom (hshards ▸ hmakes.2)
  have hpositive : s.shards ≠ 0 := fun hzero => h.shards (UInt64.toNat_inj.mp (hshards ▸ hzero))
  have hnone : s.registry.find? (Partition.name (Int32.ofNat 0)) = none := by rw [hregistry]; rfl
  have hfail := Store.getOrCreate_of_failed hnone (Store.create_of_not_makes hmakes _)
  rw [if_neg hpositive] at hfail
  obtain ⟨count, hcount⟩ : ∃ count, c.partitions.toInt.toNat = count + 1 := by
    have hpartitions : 0 < c.partitions.toInt := Int32.lt_iff_toInt_lt.mp h.partitions
    exact Nat.exists_eq_add_one_of_ne_zero (by omega)
  refine ⟨greeting c ++ started ++ {}, ?_⟩
  simp only [ofConfig, hs, hcount, createPartitions, hfail, Except.map]

/-- A node that starts has the configuration that its arguments describe. -/
theorem ofConfig_of_start {clock : Clock} (h : start clock arguments = .ok (n, greeting)) :
    ∃ c, StoreConfig.parse arguments = .ok c ∧ ofConfig clock c = (.ok n, greeting) := by
  unfold start at h
  split at h
  · cases h
  · next c hc =>
    split at h
    · next m log hn =>
      cases h
      exact ⟨c, hc, hn⟩
    · cases h

/-- **A node that starts is fresh**, and has what its arguments describe. -/
theorem fresh_of_start {clock : Clock} (h : start clock arguments = .ok (n, greeting)) :
    StoreConfig.parse arguments = .ok n.config ∧ n.config.shards.toNat < ShardedMap.room ∧
      n.Fresh := by
  obtain ⟨c, hc, hn⟩ := ofConfig_of_start h
  have hpositive := StoreConfig.positive_of_parse hc
  have hroom : c.shards.toNat < ShardedMap.room := by
    by_contra hroom
    obtain ⟨log, hfail⟩ := ofConfig_of_no_room clock hpositive hroom
    rw [hn] at hfail
    cases hfail
  obtain ⟨n', log, hn', hconfig, hfresh⟩ := exists_ofConfig clock hpositive hroom
  rw [hn] at hn'
  cases hn'
  exact ⟨hconfig ▸ hc, hconfig ▸ hroom, hfresh⟩

/-- **Which arguments a node starts with**: those that describe a configuration with room for the
shards of a bucket. -/
theorem starts_iff (clock : Clock) (arguments : List Bytes) :
    (∃ n greeting, start clock arguments = .ok (n, greeting)) ↔
      ∃ c, StoreConfig.parse arguments = .ok c ∧ c.shards.toNat < ShardedMap.room := by
  constructor
  · rintro ⟨n, greeting, h⟩
    obtain ⟨hc, hroom, -⟩ := fresh_of_start h
    exact ⟨n.config, hc, hroom⟩
  · rintro ⟨c, hc, hroom⟩
    obtain ⟨n, log, hn, -⟩ := exists_ofConfig clock (StoreConfig.positive_of_parse hc) hroom
    exact ⟨n, log, by simp only [start, hc, hn]⟩

end Node

end Keyspace
