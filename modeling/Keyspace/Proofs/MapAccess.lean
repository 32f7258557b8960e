import Keyspace.Bucket

/-!
# Accesses to the sharded map

Seen through `ShardedMap.slot?`, the sharded map is a finite map: an access to one key leaves every
other key's entry, whatever the hash and the number of shards are (`slot?_put`, `slot?_remove`).
A map is sound when it has a shard and every key stands in the shard that its hash picks; then the
enumeration lists exactly the keys that have an entry (`Sound.mem_keys_iff`), and when no shard has
a key twice, it lists each of them once (`Sound.nodup_keys`).

A bucket answers from its map, and the last section says what it answers in terms of `get?` and
`contains`: a null value is there for `contains` and is not found by a read.
-/

namespace Keyspace

variable {V : Type}

namespace ShardedMap

variable {m : ShardedMap V}

/-- The entry of a key, which may be a null value. -/
def slot? (m : ShardedMap V) (key : Bytes) : Option (Option V) :=
  (m.shard key).find? key

/-- **The map is sound**: it has a shard, and a key stands in its own shard only. -/
structure Sound (m : ShardedMap V) : Prop where
  inhabited : m.shards ≠ []
  placed : ∀ (i : Nat) (s : Shard V), m.shards[i]? = some s → ∀ key ∈ s.keys, m.index key = i

theorem get?_eq (m : ShardedMap V) (key : Bytes) : m.get? key = (m.slot? key).join := rfl

theorem contains_eq (m : ShardedMap V) (key : Bytes) : m.contains key = (m.slot? key).isSome := rfl

@[simp] theorem index_change (m : ShardedMap V) (key j : Bytes) (f : Shard V → Shard V) :
    (m.change key f).index j = m.index j := by
  simp only [index, change, List.length_modify]

theorem Sound.index_lt (hm : m.Sound) (key : Bytes) : m.index key < m.shards.length :=
  Nat.mod_lt _ (List.length_pos_iff.mpr hm.inhabited)

/-- A change of one key's shard is seen by the keys of that shard alone. -/
theorem Sound.shard_change (hm : m.Sound) (key j : Bytes) (f : Shard V → Shard V) :
    (m.change key f).shard j = if m.index j = m.index key then f (m.shard j) else m.shard j := by
  have hj := hm.index_lt j
  simp only [shard, index_change]
  simp only [change, List.getElem?_modify, List.getElem?_eq_getElem hj, Option.getD_some]
  by_cases h : m.index j = m.index key
  · simp [h]
  · simp [h, Ne.symm h]

/-- **A stored key has its value, and every other key keeps its entry.** -/
theorem Sound.slot?_put (hm : m.Sound) (key j : Bytes) (v : Option V) :
    (m.put key v).slot? j = if j = key then some v else m.slot? j := by
  simp only [slot?, put, hm.shard_change]
  by_cases hj : j = key
  · simp only [hj, if_true, Assoc.find?_put]
  · rw [if_neg hj]
    split
    · rw [Assoc.find?_put, if_neg hj]
    · rfl

/-- **A removed key has no entry, and every other key keeps its own.** -/
theorem Sound.slot?_remove (hm : m.Sound) (key j : Bytes) :
    (m.remove key).2.slot? j = if j = key then none else m.slot? j := by
  simp only [slot?, remove, hm.shard_change]
  by_cases hj : j = key
  · simp only [hj, if_true, Assoc.find?_erase]
  · rw [if_neg hj]
    split
    · rw [Assoc.find?_erase, if_neg hj]
    · rfl

/-- A change that brings no key into a shard but the one whose shard it is keeps the map sound. -/
theorem Sound.change (hm : m.Sound) (key : Bytes) (f : Shard V → Shard V)
    (hf : ∀ s, ∀ j ∈ (f s).keys, j = key ∨ j ∈ s.keys) : (m.change key f).Sound where
  inhabited h := by
    have hlength := congrArg List.length h
    simp only [ShardedMap.change, List.length_modify, List.length_nil] at hlength
    exact hm.inhabited (List.length_eq_zero_iff.mp hlength)
  placed i s hs j hj := by
    rw [index_change]
    simp only [ShardedMap.change, List.getElem?_modify, Option.map_eq_map,
      Option.map_eq_some_iff] at hs
    obtain ⟨s₀, hs₀, rfl⟩ := hs
    split at hj
    · next hi =>
      rcases hf s₀ j hj with rfl | hold
      · exact hi
      · exact hm.placed i s₀ hs₀ j hold
    · exact hm.placed i s₀ hs₀ j hj

theorem Sound.put (hm : m.Sound) (key : Bytes) (v : Option V) : (m.put key v).Sound := by
  apply hm.change key _
  intro s j hj
  rw [Assoc.keys_put] at hj
  split at hj
  · exact .inr hj
  · rcases List.mem_append.mp hj with hold | hnew
    · exact .inr hold
    · exact .inl (List.mem_singleton.mp hnew)

theorem Sound.remove (hm : m.Sound) (key : Bytes) : (m.remove key).2.Sound := by
  apply hm.change key _
  intro s j hj
  rw [Assoc.keys_erase] at hj
  exact .inr (List.mem_filter.mp hj).1

/-! ## New maps -/

/-- **A map is created for every number of shards that room can be reserved for**, but for none. -/
theorem create_of_shards (hash : Bytes → Nat) {shards : Nat} (hpos : 0 < shards)
    (hroom : shards < room) :
    create (V := V) hash shards = .ok { hash, shards := List.replicate shards [] } := by
  rw [create, if_neg (Nat.ne_of_gt hpos), if_neg (Nat.not_le.mpr hroom)]

/-- And for no other number of shards. -/
theorem create_eq_ok_iff {hash : Bytes → Nat} {shards : Nat} : create hash shards = .ok m ↔
    0 < shards ∧ shards < room ∧ m = { hash, shards := List.replicate shards [] } := by
  constructor
  · intro h
    unfold create at h
    split at h
    · cases h
    · next hsome =>
      split at h
      · cases h
      · next hroom =>
        cases h
        exact ⟨Nat.pos_of_ne_zero hsome, Nat.not_le.mp hroom, rfl⟩
  · rintro ⟨hpos, hroom, rfl⟩
    exact create_of_shards hash hpos hroom

theorem exists_create_iff (hash : Bytes → Nat) {shards : Nat} :
    (∃ m, create (V := V) hash shards = .ok m) ↔ 0 < shards ∧ shards < room :=
  ⟨fun ⟨_, h⟩ => ⟨(create_eq_ok_iff.mp h).1, (create_eq_ok_iff.mp h).2.1⟩,
    fun ⟨hpos, hroom⟩ => ⟨_, create_of_shards hash hpos hroom⟩⟩

/-- A map of empty shards is sound. -/
theorem Sound.create {hash : Bytes → Nat} {shards : Nat} (h : create hash shards = .ok m) :
    m.Sound ∧ ∀ key, m.slot? key = none := by
  obtain ⟨hpos, -, rfl⟩ := create_eq_ok_iff.mp h
  refine ⟨⟨?_, ?_⟩, ?_⟩
  · exact fun hnil => Nat.ne_of_gt hpos (by simpa using hnil)
  · intro i s hs key hkey
    rw [List.getElem?_replicate] at hs
    split at hs
    · cases hs
      cases hkey
    · cases hs
  · intro key
    simp only [slot?, shard, List.getElem?_replicate]
    split <;> rfl

/-- **The enumeration of a sound map lists the keys that have an entry.** -/
theorem Sound.mem_keys_iff (hm : m.Sound) (key : Bytes) :
    key ∈ m.keys ↔ (m.slot? key).isSome := by
  rw [slot?, Assoc.isSome_find?_iff, keys, List.mem_flatMap]
  constructor
  · rintro ⟨s, hs, hkey⟩
    obtain ⟨i, hi⟩ := List.mem_iff_getElem?.mp hs
    rw [shard, hm.placed i s hi key hkey, hi]
    exact hkey
  · intro hkey
    have hlt := hm.index_lt key
    refine ⟨m.shard key, ?_, hkey⟩
    simp only [shard, List.getElem?_eq_getElem hlt, Option.getD_some]
    exact List.getElem_mem hlt

/-! ## Keys without repetition -/

/-- No shard has a key twice. -/
def Distinct (m : ShardedMap V) : Prop :=
  ∀ s ∈ m.shards, s.keys.Nodup

theorem Distinct.change (hd : m.Distinct) (key : Bytes) {f : Shard V → Shard V}
    (hf : ∀ s : Shard V, s.keys.Nodup → (f s).keys.Nodup) : (m.change key f).Distinct := by
  intro s hs
  obtain ⟨i, hi⟩ := List.mem_iff_getElem?.mp hs
  simp only [ShardedMap.change, List.getElem?_modify, Option.map_eq_map,
    Option.map_eq_some_iff] at hi
  obtain ⟨s₀, hs₀, rfl⟩ := hi
  have hold : s₀.keys.Nodup := hd s₀ (List.mem_of_getElem? hs₀)
  split
  · exact hf s₀ hold
  · exact hold

theorem Distinct.put (hd : m.Distinct) (key : Bytes) (v : Option V) :
    (m.put key v).Distinct :=
  hd.change key fun _ hs => Assoc.nodup_keys_put hs key v

theorem Distinct.remove (hd : m.Distinct) (key : Bytes) : (m.remove key).2.Distinct :=
  hd.change key fun _ hs => Assoc.nodup_keys_erase hs key

theorem Distinct.create {hash : Bytes → Nat} {shards : Nat} (h : create hash shards = .ok m) :
    m.Distinct := by
  obtain ⟨-, -, rfl⟩ := create_eq_ok_iff.mp h
  intro s hs
  rw [(List.mem_replicate.mp hs).2]
  exact List.nodup_nil

/-- **The enumeration of a sound map lists no key twice**: two shards share no key. -/
theorem Sound.nodup_keys (hm : m.Sound) (hd : m.Distinct) : m.keys.Nodup := by
  refine List.pairwise_flatMap.mpr ⟨hd, List.pairwise_iff_getElem.mpr ?_⟩
  intro i j hi hj hij x hx y hy heq
  have hxi := hm.placed i _ (List.getElem?_eq_getElem hi) x hx
  have hyj := hm.placed j _ (List.getElem?_eq_getElem hj) y hy
  rw [heq] at hxi
  omega

/-! ## The shards of the keys -/

/-- **A map is partitioned by a hash**: it has so many shards, and each key stands in the one that
the hash picks, once. -/
structure Partitioned (hash : Bytes → Nat) (shards : Nat) (m : ShardedMap V) : Prop where
  hash : m.hash = hash
  count : m.shards.length = shards
  sound : m.Sound
  distinct : m.Distinct

section Partitioned

variable {hash : Bytes → Nat} {shards : Nat}

theorem Partitioned.create (h : ShardedMap.create hash shards = .ok m) :
    m.Partitioned hash shards := by
  have hsound := (Sound.create h).1
  have hdistinct := Distinct.create h
  obtain ⟨-, -, rfl⟩ := create_eq_ok_iff.mp h
  exact ⟨rfl, List.length_replicate, hsound, hdistinct⟩

theorem Partitioned.put (h : m.Partitioned hash shards) (key : Bytes) (v : Option V) :
    (m.put key v).Partitioned hash shards where
  hash := h.hash
  count := (List.length_modify ..).trans h.count
  sound := h.sound.put key v
  distinct := h.distinct.put key v

theorem Partitioned.remove (h : m.Partitioned hash shards) (key : Bytes) :
    (m.remove key).2.Partitioned hash shards where
  hash := h.hash
  count := (List.length_modify ..).trans h.count
  sound := h.sound.remove key
  distinct := h.distinct.remove key

theorem Partitioned.index_eq (h : m.Partitioned hash shards) (key : Bytes) :
    m.index key = hash key % shards := by
  rw [index, h.hash, h.count]

theorem Partitioned.pos (h : m.Partitioned hash shards) : 0 < shards := by
  rw [← h.count, List.length_pos_iff]
  exact h.sound.inhabited

/-- **A key that stands in a shard stands in the one that the hash picks.** -/
theorem Partitioned.mem_shard_iff (h : m.Partitioned hash shards) {i : Nat} {s : Shard V}
    (hs : m.shards[i]? = some s) (key : Bytes) :
    key ∈ s.keys ↔ i = hash key % shards ∧ m.contains key = true := by
  have hcontains : m.index key = i → (m.contains key = true ↔ key ∈ s.keys) := by
    rintro rfl
    rw [contains_eq, slot?, Assoc.isSome_find?_iff, shard, hs, Option.getD_some]
  constructor
  · intro hkey
    have hi := h.sound.placed i s hs key hkey
    exact ⟨hi.symm.trans (h.index_eq key), (hcontains hi).mpr hkey⟩
  · rintro ⟨hi, hpresent⟩
    exact (hcontains ((h.index_eq key).trans hi.symm)).mp hpresent

end Partitioned

end ShardedMap

/-! ## Accesses of a bucket -/

namespace Bucket

variable {b : Bucket V} {key : Bytes} {v : V}

/-- **A new bucket** has its name and a new map, and nothing else. -/
theorem eq_of_create {name : Bytes} {hash : Bytes → Nat} {shards : Nat} {hasExecutor : Bool}
    (h : create name hash shards hasExecutor = .ok b) :
    ∃ map, ShardedMap.create hash shards = .ok map ∧ b = { name, map } := by
  unfold create at h
  split at h
  · cases h
  · next map hmap =>
    split at h
    · cases h
      exact ⟨map, hmap, rfl⟩
    · cases h

/-- A bucket with a pool can be made whenever its map can. -/
theorem exists_create_iff {name : Bytes} {hash : Bytes → Nat} {shards : Nat} :
    (∃ b : Bucket V, create name hash shards true = .ok b) ↔
      0 < shards ∧ shards < ShardedMap.room := by
  rw [← ShardedMap.exists_create_iff (V := V) hash]
  constructor
  · rintro ⟨b, h⟩
    obtain ⟨map, hmap, -⟩ := eq_of_create h
    exact ⟨map, hmap⟩
  · rintro ⟨map, hmap⟩
    refine ⟨{ name, map }, ?_⟩
    rw [create, hmap]
    rfl

theorem get_of_value (h : b.map.get? key = some v) : b.get key = .ok v := by
  rw [get, h]

theorem get_of_none (h : b.map.get? key = none) : b.get key = .error (.keyMissing key) := by
  rw [get, h]

theorem get_eq_ok_iff : b.get key = .ok v ↔ b.map.get? key = some v := by
  rw [get]
  cases b.map.get? key with
  | none => exact iff_of_false (fun h => by cases h) fun h => by cases h
  | some w => rw [Except.ok.injEq, Option.some.injEq]

theorem conditionalGet_of_none [Storable V] (h : b.map.get? key = none) (p : Predicate)
    (c : Condition) : b.conditionalGet key p c = .error (.keyMissing key) := by
  rw [conditionalGet, get_of_none h]

theorem conditionalGet_of_value [Storable V] (h : b.map.get? key = some v) (p : Predicate)
    (c : Condition) :
    b.conditionalGet key p c =
      match Storable.satisfies v p c with
      | .ok holds => .ok (if holds then some v else none)
      | .error f => .error (.predicateUndecided key f.message) := by
  simp only [conditionalGet, get_of_value h]
  cases Storable.satisfies v p c with
  | error f => rfl
  | ok holds => cases holds <;> rfl

theorem remove_of_present (b : Bucket V) (h : b.map.contains key = true) :
    b.remove key = .ok { b with map := (b.map.remove key).2 } := by
  have hremove : b.map.remove key = (true, (b.map.remove key).2) := Prod.ext h rfl
  rw [remove, hremove]

theorem remove_of_absent (b : Bucket V) (h : b.map.contains key = false) :
    b.remove key = .error (.keyMissing key) := by
  have hremove : b.map.remove key = (false, (b.map.remove key).2) := Prod.ext h rfl
  rw [remove, hremove]

end Bucket

end Keyspace
