import Keyspace.Proofs.Routing
import Mathlib.Logic.Function.Basic

/-!
# What a node holds

A node holds one map from keys to texts (`Node.Holds`): the bucket that a key belongs in has the text
of the key, and no other bucket has an entry for it. Nothing else is asked of the buckets than that
their maps are sound and their locks idle, and of the pool that it rests; the number of partitions,
the number of shards and the caches are not seen.

What a node answers about a key is then what its map says (`Holds.get_eq`,
`Holds.conditionalGet_eq`), and each command that writes leaves it with a map in which that one key
was written (`Holds.put`, `Holds.remove`, `Holds.update`). All of them change one bucket
(`Holds.exchange`).
-/

namespace Keyspace

/-- **One map from keys to texts.** -/
abbrev TextMap := Bytes → Option Bytes

/-- The map that has no key. -/
def TextMap.empty : TextMap :=
  fun _ => none

/-- The entry of a bucket for a text that may be absent. -/
def TextMap.entry (t : Option Bytes) : Option (Option Value) :=
  t.map fun t => some (.text t)

/-- **A bucket between two commands**: its map is sound, and its locks are idle. -/
structure Bucket.Tidy (b : Bucket Value) : Prop where
  sound : b.map.Sound
  distinct : b.map.Distinct
  idle : b.locks.Idle

theorem Bucket.Tidy.create {name : Bytes} {hash : Bytes → Nat} {shards : Nat}
    {b : Bucket Value}
    (h : Bucket.create name hash shards true = .ok b) : b.Tidy ∧ ∀ key, b.map.slot? key = none := by
  obtain ⟨map, hmap, rfl⟩ := Bucket.eq_of_create h
  obtain ⟨hsound, hempty⟩ := ShardedMap.Sound.create hmap
  exact ⟨⟨hsound, .create hmap, ⟨rfl, rfl⟩⟩, hempty⟩

namespace Node

variable {n : Node} {m m' : TextMap} {key : Bytes} {i : Instance} {b b' : Bucket Value}
  {pool : WorkerPool (Product Value)} {clock : Clock}

/-- The name of the bucket that a key belongs in. -/
def home (n : Node) (key : Bytes) : Bytes :=
  Partition.home key n.config.partitions

/-- **A node holds a map.** -/
structure Holds (n : Node) (m : TextMap) : Prop where
  partitions : 0 < n.config.partitions
  sound : n.store.Sound
  homes : ∀ key, n.home key ∈ n.store.names
  rested : n.store.pool.Rested
  tidy : ∀ b ∈ n.store.buckets, b.Tidy
  /-- A bucket has the keys that belong in it, and no others. -/
  entries : ∀ name i b, n.store.Serves name i b → ∀ key,
    b.map.slot? key = if n.home key = name then TextMap.entry (m key) else none

/-- A node before its first line holds the empty map. -/
theorem Fresh.holds (h : n.Fresh) : n.Holds .empty := by
  have htidy : ∀ b ∈ n.store.buckets, b.Tidy ∧ ∀ key, b.map.slot? key = none := by
    intro b hb
    obtain ⟨name, hcreate⟩ := h.prepared.fresh b hb
    exact Bucket.Tidy.create hcreate
  refine ⟨h.positive.partitions, h.prepared.sound, fun key => ?_, h.rested,
    fun b hb => (htidy b hb).1, fun name i b hb key => ?_⟩
  · exact (h.names _).mpr ⟨_, Partition.index_lt h.positive.partitions key, rfl⟩
  · rw [(htidy b (List.mem_of_getElem? hb.bucket)).2]
    simp [TextMap.entry, TextMap.empty]

/-! ## Reading -/

theorem route_eq (hpartitions : 0 < n.config.partitions) (hb : n.store.Serves (n.home key) i b) :
    n.route key = .ok (i, b) := by
  have hslot : n.store.get (n.home key) = .ok (some i) := Store.get_eq_ok_iff.mpr hb.slot
  unfold route
  rw [Partition.hash_eq hpartitions]
  change (n.store.get (n.home key)).bind _ = _
  rw [hslot]
  simp only [Except.bind, hb.bucket]
  rfl

/-- **Routing finds the bucket of every key.** -/
theorem Holds.route (h : n.Holds m) (key : Bytes) :
    ∃ i b, n.route key = .ok (i, b) ∧ n.store.Serves (n.home key) i b := by
  obtain ⟨i, b, hb⟩ := h.sound.serves (h.homes key)
  exact ⟨i, b, route_eq h.partitions hb, hb⟩

/-- The bucket of a key has its entry. -/
theorem Holds.slot?_eq (h : n.Holds m) (hb : n.store.Serves (n.home key) i b) :
    b.map.slot? key = TextMap.entry (m key) := by
  rw [h.entries _ i b hb, if_pos rfl]

/-- The answer to a read, when the text of the key is known. -/
def found (key : Bytes) : Option Bytes → Outcome Value
  | some t => .ok (.text t)
  | none => .error (.keyMissing key)

theorem Holds.bucket_get (h : n.Holds m) (hb : n.store.Serves (n.home key) i b) :
    b.get key = found key (m key) := by
  rw [Bucket.get, ShardedMap.get?_eq, h.slot?_eq hb]
  cases m key <;> rfl

/-- **A node reads what it holds.** -/
theorem Holds.get_eq (h : n.Holds m) (key : Bytes) : n.get key = found key (m key) := by
  obtain ⟨i, b, hroute, hb⟩ := h.route key
  rw [Node.get, hroute]
  exact h.bucket_get hb

theorem Holds.conditionalGet_eq (h : n.Holds m) (key : Bytes) (p : Predicate) (c : Condition) :
    n.conditionalGet key p c =
      match m key with
      | none => .error (.keyMissing key)
      | some t =>
        match c.holds p.expression t with
        | .ok true => .ok (some (.text t))
        | .ok false => .ok none
        | .error f => .error (.predicateUndecided key f.message) := by
  obtain ⟨i, b, hroute, hb⟩ := h.route key
  rw [Node.conditionalGet, hroute]
  change b.conditionalGet key p c = _
  rw [Bucket.conditionalGet, h.bucket_get hb]
  cases m key <;> rfl

/-! ## Another bucket in the place of one -/

/-- The node with another bucket in the place of one, another pool and another clock. -/
def exchange (n : Node) (i : Instance) (b : Bucket Value) (pool : WorkerPool (Product Value))
    (clock : Clock) : Node :=
  { n with store := { n.store with pool, buckets := n.store.buckets.set i b }, clock }

theorem serves_exchange (hb : n.store.buckets[i]? = some b) {name : Bytes} {j : Instance}
    {c : Bucket Value} (h : (n.exchange i b' pool clock).store.Serves name j c) :
    (j = i ∧ c = b' ∧ n.store.Serves name i b) ∨ (j ≠ i ∧ n.store.Serves name j c) := by
  obtain ⟨hslot, hc⟩ := h
  have hlt : i < n.store.buckets.length := (List.getElem?_eq_some_iff.mp hb).1
  by_cases hj : j = i
  · subst hj
    simp only [exchange, List.getElem?_set_self hlt, Option.some.injEq] at hc
    exact .inl ⟨rfl, hc.symm, hslot, hb⟩
  · simp only [exchange, List.getElem?_set_ne (Ne.symm hj)] at hc
    exact .inr ⟨hj, hslot, hc⟩

/-- **The effect of a new bucket on the map**: the new one has its entries, and the map is changed at
no key that belongs in another. -/
theorem Holds.exchange (h : n.Holds m) (hb : n.store.buckets[i]? = some b) (hname : b'.name = b.name)
    (htidy : b'.Tidy) (hpool : pool.Rested)
    (hentries : ∀ name, n.store.Serves name i b → ∀ key,
      b'.map.slot? key = if n.home key = name then TextMap.entry (m' key) else none)
    (hothers : ∀ name j c, n.store.Serves name j c → j ≠ i → ∀ key, n.home key = name →
      m' key = m key) :
    (n.exchange i b' pool clock).Holds m' := by
  have hlt : i < n.store.buckets.length := (List.getElem?_eq_some_iff.mp hb).1
  refine ⟨h.partitions, ⟨h.sound.ascending, ?_⟩, h.homes, hpool, ?_, ?_⟩
  · intro name slot hslot
    obtain ⟨j, c, rfl, hc, hn⟩ := h.sound.filled name slot hslot
    by_cases hj : j = i
    · subst hj
      rw [hb] at hc
      cases hc
      exact ⟨j, b', rfl, List.getElem?_set_self hlt, hname.trans hn⟩
    · exact ⟨j, c, rfl, (List.getElem?_set_ne (Ne.symm hj)).trans hc, hn⟩
  · intro c hc
    rcases List.mem_or_eq_of_mem_set hc with hold | hnew
    · exact h.tidy c hold
    · exact hnew ▸ htidy
  · intro name j c hc key
    rcases serves_exchange hb hc with ⟨rfl, rfl, hserves⟩ | ⟨hj, hserves⟩
    · exact hentries name hserves key
    · rw [h.entries name j c hserves key]
      change (if n.home key = name then _ else _) = if n.home key = name then _ else _
      by_cases hhome : n.home key = name
      · rw [if_pos hhome, if_pos hhome, hothers name j c hserves hj key hhome]
      · rw [if_neg hhome, if_neg hhome]

/-- A bucket with the same entries leaves the map. -/
theorem Holds.keep (h : n.Holds m) (hb : n.store.buckets[i]? = some b) (hname : b'.name = b.name)
    (hmap : b'.map = b.map) (hlocks : b'.locks.Idle) (hpool : pool.Rested) :
    (n.exchange i b' pool clock).Holds m := by
  have htidy := h.tidy b (List.mem_of_getElem? hb)
  refine h.exchange hb hname ⟨hmap ▸ htidy.sound, hmap ▸ htidy.distinct, hlocks⟩ hpool ?_
    fun _ _ _ _ _ _ _ => rfl
  intro name hserves key
  rw [hmap]
  exact h.entries name i b hserves key

/-- **A bucket in which one key that belongs in it was written** leaves the map in which that key was
written. -/
theorem Holds.write (h : n.Holds m) (hb : n.store.Serves (n.home key) i b) (hname : b'.name = b.name)
    (htidy : b'.Tidy) (hpool : pool.Rested) {t : Option Bytes}
    (hslot : ∀ j, b'.map.slot? j = if j = key then TextMap.entry t else b.map.slot? j)
    (hm : ∀ j, m' j = if j = key then t else m j) :
    (n.exchange i b' pool clock).Holds m' := by
  refine h.exchange hb.bucket hname htidy hpool ?_ ?_
  · intro name hserves j
    have hhome : n.home key = name := by
      rw [← h.sound.name_eq hb, h.sound.name_eq hserves]
    rw [hslot, hm, h.entries name i b hserves]
    by_cases hj : j = key
    · subst hj
      rw [if_pos rfl, if_pos rfl, if_pos hhome]
    · rw [if_neg hj, if_neg hj]
  · intro name j c hserves hji k hk
    have hne : k ≠ key := by
      rintro rfl
      have hslot := hserves.slot
      rw [← hk, hb.slot] at hslot
      cases hslot
      exact hji rfl
    rw [hm, if_neg hne]

/-! ## Writing -/

/-- **A text is stored.** -/
theorem Holds.put (h : n.Holds m) (key text : Bytes) :
    ∃ n', n.put key text = .ok n' ∧ n'.config = n.config ∧
      n'.Holds (Function.update m key (some text)) := by
  obtain ⟨i, b, hroute, hb⟩ := h.route key
  have htidy := h.tidy b (List.mem_of_getElem? hb.bucket)
  refine ⟨n.exchange i { b with map := b.map.put key (some (.text text)) } n.store.pool n.clock,
    ?_, rfl, ?_⟩
  · rw [Node.put, hroute]
    rfl
  · refine h.write hb rfl ⟨htidy.sound.put .., htidy.distinct.put key _, htidy.idle⟩ h.rested
      (fun j => ?_) (fun j => Function.update_apply m key _ j)
    exact htidy.sound.slot?_put key j _

/-- **A key is removed**, if it is there. -/
theorem Holds.remove (h : n.Holds m) (key : Bytes) :
    if (m key).isSome then
      ∃ n', n.remove key = .ok n' ∧ n'.config = n.config ∧
        n'.Holds (Function.update m key none)
    else n.remove key = .error (.keyMissing key) := by
  obtain ⟨i, b, hroute, hb⟩ := h.route key
  have htidy := h.tidy b (List.mem_of_getElem? hb.bucket)
  have hcontains : b.map.contains key = (m key).isSome := by
    rw [ShardedMap.contains_eq, h.slot?_eq hb, TextMap.entry, Option.isSome_map]
  have hremove : n.remove key = (b.remove key).bind fun b => .ok (n.withBucket i b) := by
    rw [Node.remove, hroute]
    rfl
  split
  · next hhas =>
    refine ⟨n.exchange i { b with map := (b.map.remove key).2 } n.store.pool n.clock, ?_, rfl, ?_⟩
    · rw [hremove, b.remove_of_present (hcontains.trans hhas)]
      rfl
    · refine h.write hb rfl ⟨htidy.sound.remove .., htidy.distinct.remove key, htidy.idle⟩ h.rested
        (fun j => ?_) (fun j => Function.update_apply m key _ j)
      exact htidy.sound.slot?_remove key j
  · next hhas =>
    rw [hremove, b.remove_of_absent (hcontains.trans (Bool.eq_false_iff.mpr hhas))]
    rfl

/-- An update of a node is one of the bucket that its key belongs in. -/
theorem update_of_session {key : Bytes} {i : Instance} {b : Bucket Value}
    (hroute : n.route key = .ok (i, b)) {u : Update} {f : Function} {result : Outcome Unit}
    {s : BucketSession Value} {log : Log}
    (hs : (BucketSession.ofBucket b n.store.pool n.clock.now.toInt).update
      { key, update := u, function := f, timeout := n.config.updateTimeout.toInt } =
        (result, s, log)) :
    n.update key u f = (result, n.exchange i s.bucket s.pool (n.clock.later 1), log) := by
  simp only [Node.update, hroute]
  rw [hs]
  rfl

/-- **What an update does to its bucket**: the bucket has the text that the function makes, or its
map is left; and its locks are idle again. -/
theorem Holds.exists_update (h : n.Holds m) (key : Bytes) (u : Update) (f : Function) :
    ∃ i b map locks pool result log, n.store.Serves (n.home key) i b ∧ locks.Idle ∧
      pool.Rested ∧
      n.update key u f =
        (result, n.exchange i { b with map, locks } pool (n.clock.later 1), log) ∧
      match (m key).map (f.apply u) with
      | some (.ok t) => result = .ok () ∧ log = {} ∧ map = b.map.put key (some (.text t))
      | _ => (∃ f, result = .error f) ∧ log.out = [] ∧ map = b.map := by
  obtain ⟨i, b, hroute, hb⟩ := h.route key
  have htidy := h.tidy b (List.mem_of_getElem? hb.bucket)
  let c : UpdateCall Value :=
    { key, update := u, function := f, timeout := n.config.updateTimeout.toInt }
  let now := n.clock.now.toInt
  have hslot := h.slot?_eq hb
  cases ht : m key with
  | none =>
    have habsent : b.map.contains key = false := by
      rw [ShardedMap.contains_eq, hslot, ht]
      rfl
    obtain ⟨s, hs, hbucket, hpool⟩ :=
      BucketSession.update_of_absent (c := c) h.rested habsent now
    refine ⟨i, b, b.map, b.locks, n.store.pool, .error (.keyMissing key), {}, hb, htidy.idle,
      h.rested, ?_, ⟨_, rfl⟩, rfl, rfl⟩
    rw [update_of_session hroute hs, hbucket, hpool]
  | some t =>
    have hvalue : b.map.get? key = some (.text t) := by
      rw [ShardedMap.get?_eq, hslot, ht]
      rfl
    -- the evaluation of a text waits for nothing
    have hwaits : (Storable.evaluate (Value.text t) u f).waits = .nothing := rfl
    cases happly : f.apply u t with
    | error e =>
      have hfailed : (Storable.evaluate (Value.text t) u f).outcome = .error e := by
        rw [Value.textual, happly]
        rfl
      obtain ⟨s, locks, line, hs, hbucket, hidle, hpool⟩ :=
        BucketSession.update_of_failed (c := c) h.rested htidy.idle hvalue hwaits hfailed now
      rw [Option.map_some, happly]
      refine ⟨i, b, b.map, locks, s.pool, .error (.updateFailed e.message), .warn line, hb, hidle,
        hpool, ?_, ⟨_, rfl⟩, rfl, rfl⟩
      rw [update_of_session hroute hs, hbucket]
    | ok t' =>
      have hgave : (Storable.evaluate (Value.text t) u f).outcome =
          .ok (.value (some (.text t'))) := by
        rw [Value.textual, happly]
        rfl
      obtain ⟨s, locks, hs, hbucket, hidle, hpool⟩ :=
        BucketSession.update_of_gave (c := c) h.rested htidy.idle hvalue hwaits hgave now
      rw [Option.map_some, happly]
      refine ⟨i, b, b.map.put key (some (.text t')), locks, s.pool, _, _, hb, hidle, hpool, ?_, rfl,
        rfl, rfl⟩
      rw [update_of_session hroute hs, hbucket]

/-- **A text is updated**, if it is there and its function allows it. An update that fails says so on
the diagnostics alone and changes nothing. -/
theorem Holds.update (h : n.Holds m) (key : Bytes) (u : Update) (f : Function) :
    ∃ result n' log, n.update key u f = (result, n', log) ∧ n'.config = n.config ∧
      match (m key).map (f.apply u) with
      | some (.ok t) =>
        result = .ok () ∧ log = {} ∧ n'.Holds (Function.update m key (some t))
      | _ => (∃ f, result = .error f) ∧ log.out = [] ∧ n'.Holds m := by
  obtain ⟨i, b, map, locks, pool, result, log, hb, hidle, hpool, hupdate, heffect⟩ :=
    h.exists_update key u f
  have htidy := h.tidy b (List.mem_of_getElem? hb.bucket)
  refine ⟨result, _, log, hupdate, rfl, ?_⟩
  split at heffect
  · next t _ =>
    obtain ⟨rfl, rfl, rfl⟩ := heffect
    refine ⟨rfl, rfl, h.write hb rfl ⟨htidy.sound.put .., htidy.distinct.put key _, hidle⟩ hpool
      (fun j => ?_) (fun j => Function.update_apply m key _ j)⟩
    exact htidy.sound.slot?_put key j _
  · obtain ⟨hfails, hsilent, rfl⟩ := heffect
    exact ⟨hfails, hsilent, h.keep hb.bucket rfl rfl hidle hpool⟩

/-! ## Ranges -/

/-- The clock does not matter to what a node holds. -/
theorem Holds.ticked (h : n.Holds m) (readings : Nat) : (n.ticked readings).Holds m :=
  { h with }

/-- A range changes nothing but caches. -/
theorem keysInRange_eq (b : Bucket Value) (r : Range) (less : Comparison) (snapshot : Bytes)
    (timeToLive : Int64) (clock : Clock) :
    ∃ keys cache, b.keysInRange r less snapshot timeToLive clock = (keys, { b with cache }) := by
  simp only [Bucket.keysInRange]
  split <;> exact ⟨_, _, rfl⟩

theorem Holds.collect (h : n.Holds m) (r : Range) (less : Comparison) (snapshot : Bytes)
    (instances : List Instance) :
    (n.collect r less snapshot instances).2.Holds m ∧
      (n.collect r less snapshot instances).2.config = n.config := by
  induction instances generalizing n with
  | nil => exact ⟨h, rfl⟩
  | cons i rest ih =>
    rw [Node.collect]
    cases hb : n.store.buckets[i]? with
    | none => exact ih h
    | some b =>
      obtain ⟨keys, cache, hkeys⟩ :=
        keysInRange_eq b r less snapshot n.config.snapshotTtl n.clock
      have hidle := (h.tidy b (List.mem_of_getElem? hb)).idle
      have hkept : (n.exchange i { b with cache } n.store.pool n.clock).Holds m :=
        h.keep hb rfl rfl hidle h.rested
      simp only [hkeys]
      cases keys with
      | error f => exact ⟨hkept.ticked _, rfl⟩
      | ok keys => exact ih (hkept.ticked _)

/-- **A range leaves what the node holds.** -/
theorem Holds.keysInRange (h : n.Holds m) (r : Range) (order : KeyOrder) (snapshot : Bytes) :
    (n.keysInRange r order snapshot).2.Holds m ∧
      (n.keysInRange r order snapshot).2.config = n.config :=
  h.collect r order.less snapshot n.store.registered

end Node

end Keyspace
