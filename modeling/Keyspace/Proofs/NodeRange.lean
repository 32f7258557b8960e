import Mathlib.Data.List.Basic
import Keyspace.Proofs.CacheAlone
import Keyspace.Proofs.Deadlines
import Keyspace.Proofs.NodeReplies
import Keyspace.Proofs.SnapshotRange

/-!
# A range of a node is a range of all its keys

Each partition answers a range from a set of keys of its own (`Bucket.source`): those of its
snapshot for the order, or, when it has none that is still fresh, those that are present. What a
node answers is the range of all these keys together, in order and as many as it asks for
(`Node.ranges_over_all_partitions`), as if there were one partition. The partitions are asked one
after the other, and each judges its snapshot at its own reading of the clock (`Node.inquiries`): time
may pass between them, and one can answer from its snapshot when that of another has expired.

Two facts carry this. The snapshots of a bucket are kept under the names of orders, increase in
them, and hold keys that belong in the bucket alone (`SnapshotCache.Orderly`), which every command
keeps (`Node.Ready.perform`); so the partitions answer from sets that are disjoint. And the first
keys of all partitions together are among the first keys of each (`Range.truncate_merge`).
-/

namespace Keyspace

open Comparison

/-! ## One bucket -/

/-- **A snapshot that is kept under the name of an order**, increases in it, and has keys of a kind
alone. -/
def Cached.Orderly (belongs : Bytes → Prop) (name : Bytes) (made : Cached) : Prop :=
  ∃ order, KeyOrder.ofName? name = some order ∧ made.snapshot.less = order.less ∧
    Increasing order.less made.snapshot.keys.toList ∧ ∀ k ∈ made.snapshot.keys.toList, belongs k

/-- **The snapshots of a bucket in which certain keys belong** are orderly, and no request is under
way. -/
structure SnapshotCache.Orderly (belongs : Bytes → Prop) (c : SnapshotCache) : Prop where
  requests : c.requests = []
  snapshots : ∀ name made, c.snapshots.find? name = some made → made.Orderly belongs name

theorem SnapshotCache.Orderly.empty (belongs : Bytes → Prop) : Orderly belongs {} where
  requests := rfl
  snapshots _ _ h := by cases h

theorem SnapshotCache.Orderly.idle {belongs : Bytes → Prop} {c : SnapshotCache}
    (h : c.Orderly belongs) : c.Idle where
  keys := by
    rw [h.requests]
    exact List.nodup_nil
  done id r hr := by
    rw [h.requests] at hr
    cases hr

namespace Bucket

variable {b : Bucket Value} {belongs : Bytes → Prop} {name : Bytes} {order : KeyOrder}

/-- **The keys that a bucket answers a range from**: those of its snapshot of the name up to the
moment that this is due, as it is in 64 bits, or else those that are present. -/
def source (b : Bucket Value) (name : Bytes) (now : Int64) : List Bytes :=
  match (b.cache.getD {}).snapshots.find? name with
  | some seen =>
    if now.toInt ≤ seen.snapshot.due.bmod (2 ^ 64) then seen.snapshot.keys.toList else b.keys
  | none => b.keys

theorem source_of_fresh {now : Int64} {seen : Cached}
    (hseen : (b.cache.getD {}).snapshots.find? name = some seen)
    (hfresh : seen.snapshot.isExpired now = false) :
    b.source name now = seen.snapshot.keys.toList := by
  simp only [source, hseen, if_pos (Snapshot.isExpired_eq_false_iff.mp hfresh)]

theorem source_of_stale {now : Int64} (h : (b.cache.getD {}).Stale name now) :
    b.source name now = b.keys := by
  unfold source
  split
  · next seen hseen => rw [if_neg (Int.not_le.mpr (Snapshot.isExpired_iff.mp (h seen hseen)))]
  · rfl

/-- A snapshot that is not misjudged is answered from until its lifetime is over. -/
theorem source_of_not_misjudged {now : Int64} {seen : Cached}
    (hseen : (b.cache.getD {}).snapshots.find? name = some seen)
    (hjudged : ¬ seen.snapshot.Misjudged now) :
    b.source name now =
      if now.toInt ≤ seen.snapshot.due then seen.snapshot.keys.toList else b.keys := by
  have hexpired := (seen.snapshot.isExpired_iff_due_iff now).mpr hjudged
  rw [Snapshot.isExpired_iff, ← Int.not_le, ← Int.not_le, Decidable.not_iff_not] at hexpired
  simp only [source, hseen, hexpired]

/-- The range of a bucket, before it is cut off. -/
def covered (b : Bucket Value) (r : Range) (order : KeyOrder) (name : Bytes) (now : Int64) :
    List Bytes :=
  (KeyOrder.sort order.less (b.source name now)).filter (r.covers order.less)

/-- The keys that a bucket answers from belong in it, and there is none of them twice. -/
theorem source_spec (h : (b.cache.getD {}).Orderly belongs) (hkeys : b.keys.Nodup)
    (hbelongs : ∀ k ∈ b.keys, belongs k) (now : Int64) :
    (b.source name now).Nodup ∧ ∀ k ∈ b.source name now, belongs k := by
  unfold source
  split
  · next seen hseen =>
    obtain ⟨order, -, -, hincreasing, hsnapshot⟩ := h.snapshots name seen hseen
    split
    · exact ⟨hincreasing.nodup order.strictTotal.strictWeak, hsnapshot⟩
    · exact ⟨hkeys, hbelongs⟩
  · exact ⟨hkeys, hbelongs⟩

/-- What an orderly snapshot of the order answers, when it has the keys of a list. -/
theorem keysInRange_of_orderly {made : Cached} (h : made.Orderly belongs name)
    (horder : KeyOrder.ofName? name = some order) {keys : List Bytes} (hnodup : keys.Nodup)
    (hkeys : ∀ k, k ∈ made.snapshot.keys.toList ↔ k ∈ keys) (r : Range) :
    made.snapshot.keysInRange r =
      r.truncate ((KeyOrder.sort order.less keys).filter (r.covers order.less)) := by
  obtain ⟨order', horder', hless, hincreasing, -⟩ := h
  rw [horder] at horder'
  cases horder'
  have hweak := order.strictTotal.strictWeak
  have hsorted : made.snapshot.keys.toList = KeyOrder.sort order.less keys :=
    hincreasing.eq_of_mem_iff hweak (KeyOrder.sort_increasing order.strictTotal hnodup) fun k =>
      (hkeys k).trans KeyOrder.mem_sort.symm
  rw [Snapshot.keysInRange_eq (hless ▸ hweak) (hless ▸ hincreasing.ordered hweak), hless, hsorted]

/-- A new snapshot of the keys that are present is orderly. -/
theorem orderly_make {c : SnapshotCache} (hkeys : b.keys.Nodup) (hbelongs : ∀ k ∈ b.keys, belongs k)
    (horder : KeyOrder.ofName? name = some order) (timeToLive now : Int64) :
    (c.make { name, less := order.less, timeToLive } b.keys now).Orderly belongs name :=
  ⟨order, horder, rfl, KeyOrder.sort_increasing order.strictTotal hkeys,
    fun k hk => hbelongs k (KeyOrder.mem_sort.mp hk)⟩

/-- A request for the snapshot of an order gets one that answers with the keys of the source, and
leaves orderly snapshots. -/
theorem orderly_of_served (h : (b.cache.getD {}).Orderly belongs) (hkeys : b.keys.Nodup)
    (hbelongs : ∀ k ∈ b.keys, belongs k) (horder : KeyOrder.ofName? name = some order)
    {timeToLive now : Int64} {given : List (Outcome (List Bytes))} {result : Outcome Cached}
    {c : SnapshotCache} (hgiven : ∀ keys ∈ given, keys = .ok b.keys)
    (hserved : (b.cache.getD {}).Served { name, less := order.less, timeToLive } now given result c)
    (r : Range) :
    ∃ made, result = .ok made ∧
      made.snapshot.keysInRange r = r.truncate (b.covered r order name now) ∧
      ∀ s m, c.snapshots.find? s = some m → m.Orderly belongs s := by
  have hnodup : (b.source name now).Nodup := (source_spec h hkeys hbelongs now).1
  cases hserved with
  | @found seen _ cached fresh same locks =>
    have hsource := source_of_fresh cached fresh
    have horderly := h.snapshots name seen cached
    refine ⟨seen, rfl, keysInRange_of_orderly horderly horder hnodup (fun k => ?_) r, ?_⟩
    · rw [hsource]
    · rw [same.snapshots]
      exact h.snapshots
  | @computed keys moment _ stale later locked snapshots counter =>
    cases hgiven _ (List.mem_singleton_self _)
    have horderly := orderly_make (c := b.cache.getD {}) hkeys hbelongs horder timeToLive moment
    refine ⟨_, rfl, keysInRange_of_orderly horderly horder hnodup (fun k => ?_) r,
      fun s m hm => ?_⟩
    · rw [source_of_stale stale]
      exact KeyOrder.mem_sort
    · rw [snapshots, Assoc.find?_put] at hm
      split at hm
      · next hs =>
        cases hm
        exact hs ▸ horderly
      · exact h.snapshots s m hm
  | failed stale locked same => cases hgiven _ (List.mem_singleton_self _)

/-- **A bucket answers a range with the first keys that the range covers**, in order, and its
snapshots stay as they have to be. -/
theorem keysInRange_spec (h : (b.cache.getD {}).Orderly belongs) (hkeys : b.keys.Nodup)
    (hbelongs : ∀ k ∈ b.keys, belongs k) (horder : KeyOrder.ofName? name = some order) (r : Range)
    (timeToLive : Int64) (clock : Clock) :
    ∃ cache, b.keysInRange r order.less name timeToLive clock =
        (.ok (r.truncate (b.covered r order name clock.now)), { b with cache := some cache }) ∧
      cache.Orderly belongs := by
  obtain ⟨steps, result, c', hundisturbed, -, hgiven, hget⟩ :=
    SnapshotCache.getOrCompute_undisturbed h.idle (.ok b.keys) name order.less timeToLive clock
  have hforgotten : (c'.forget (b.cache.getD {}).nextRequest).requests = [] := by
    refine Assoc.eq_nil_of_find?_eq_none fun j => (Assoc.find?_erase ..).trans ?_
    by_cases hj : j = (b.cache.getD {}).nextRequest
    · exact if_pos hj
    · rw [if_neg hj, hundisturbed.find?_other hj, h.requests]
      rfl
  obtain ⟨made, rfl, hrange, hsnapshots⟩ :=
    orderly_of_served h hkeys hbelongs horder hgiven hundisturbed.served r
  refine ⟨c'.forget (b.cache.getD {}).nextRequest, ?_, hforgotten, hsnapshots⟩
  rw [Bucket.keysInRange, hget]
  exact congrArg (fun keys => (Except.ok keys, _)) hrange

end Bucket

namespace Node

variable {n n' : Node} {m : TextMap} {i : Instance} {b b' : Bucket Value}
  {pool : WorkerPool (Product Value)} {clock : Clock} {name : Bytes} {order : KeyOrder}

/-! ## Nodes whose snapshots are orderly -/

/-- **A node is ready for ranges**: it has a bucket for every partition and no other, and their
snapshots are orderly. -/
structure Ready (n : Node) : Prop where
  holds : ∃ m, n.Holds m
  names : ∀ name, name ∈ n.store.names ↔
    ∃ k, k < n.config.partitions.toInt.toNat ∧ name = Partition.name (Int32.ofNat k)
  orderly : ∀ name i b, n.store.Serves name i b →
    (b.cache.getD {}).Orderly fun k => n.home k = name

theorem Fresh.ready (h : n.Fresh) : n.Ready := by
  refine ⟨⟨_, h.holds⟩, h.names, fun name i b hb => ?_⟩
  obtain ⟨_, hcreate⟩ := h.prepared.fresh b (List.mem_of_getElem? hb.bucket)
  obtain ⟨map, -, rfl⟩ := Bucket.eq_of_create hcreate
  exact .empty _

/-- Another bucket with orderly snapshots in the place of one. -/
theorem Ready.exchange (h : n.Ready) (hb : n.store.buckets[i]? = some b)
    (hholds : ∃ m, (n.exchange i b' pool clock).Holds m)
    (hcache : ∀ name, n.store.Serves name i b →
      (b'.cache.getD {}).Orderly fun k => n.home k = name) :
    (n.exchange i b' pool clock).Ready where
  holds := hholds
  names := h.names
  orderly name j c hc := by
    rcases serves_exchange hb hc with ⟨rfl, rfl, hserves⟩ | ⟨-, hserves⟩
    · exact hcache name hserves
    · exact h.orderly name j c hserves

/-- The node is the same but for a bucket that has the snapshots of the one in whose place it is. -/
def KeepsSnapshots (n n' : Node) : Prop :=
  n' = n ∨ ∃ i b b' pool clock, n.store.buckets[i]? = some b ∧ b'.cache = b.cache ∧
    n' = n.exchange i b' pool clock

theorem Ready.keep (h : n.Ready) (hkeeps : KeepsSnapshots n n') (hholds : ∃ m, n'.Holds m) :
    n'.Ready := by
  rcases hkeeps with rfl | ⟨i, b, b', pool, clock, hb, hcache, rfl⟩
  · exact h
  · exact h.exchange hb hholds fun name hserves => hcache ▸ h.orderly name i b hserves

theorem Holds.keepsSnapshots_put (h : n.Holds m) (key text : Bytes) :
    ∀ n', n.put key text = .ok n' → KeepsSnapshots n n' := by
  intro n' hn'
  obtain ⟨i, b, hroute, hb⟩ := h.route key
  rw [Node.put, hroute] at hn'
  cases hn'
  exact .inr ⟨i, b, { b with map := b.map.put key (some (.text text)) }, n.store.pool, n.clock,
    hb.bucket, rfl, rfl⟩

theorem Holds.keepsSnapshots_remove (h : n.Holds m) (key : Bytes) :
    ∀ n', n.remove key = .ok n' → KeepsSnapshots n n' := by
  intro n' hn'
  obtain ⟨i, b, hroute, hb⟩ := h.route key
  rw [Node.remove, hroute] at hn'
  cases hcontains : b.map.contains key with
  | true =>
    change (b.remove key).bind _ = _ at hn'
    rw [b.remove_of_present hcontains] at hn'
    cases hn'
    exact .inr ⟨i, b, { b with map := (b.map.remove key).2 }, n.store.pool, n.clock, hb.bucket, rfl,
      rfl⟩
  | false =>
    change (b.remove key).bind _ = _ at hn'
    rw [b.remove_of_absent hcontains] at hn'
    cases hn'

theorem Holds.keepsSnapshots_update (h : n.Holds m) (key : Bytes) (u : Update) (f : Function) :
    KeepsSnapshots n (n.update key u f).2.1 := by
  obtain ⟨i, b, map, locks, pool, result, log, hb, -, -, hupdate, -⟩ := h.exists_update key u f
  rw [hupdate]
  exact .inr ⟨i, b, { b with map, locks }, pool, n.clock.later 1, hb.bucket, rfl, rfl⟩

/-- **A command that is no range keeps the snapshots.** -/
theorem Holds.keepsSnapshots (h : n.Holds m) (c : Command)
    (hrange : ∀ first last limit order, c ≠ .range first last limit order) :
    KeepsSnapshots n (n.perform c).1 := by
  cases c with
  | put key text =>
    obtain ⟨n', hput, -, -⟩ := h.put key text
    rw [Node.perform, hput]
    exact h.keepsSnapshots_put key text n' hput
  | remove key =>
    rw [Node.perform]
    split
    · next n' hn' => exact h.keepsSnapshots_remove key n' hn'
    · exact .inl rfl
  | update key function assignments =>
    rw [Node.perform, Node.answerUpdate]
    split
    · exact .inl rfl
    · next f _ =>
      split
      · exact .inl rfl
      · next parameters _ =>
        have hkeeps := h.keepsSnapshots_update key { functionName := function, parameters } f
        split
        · next heq => rw [heq] at hkeeps; exact hkeeps
        · next heq => rw [heq] at hkeeps; exact hkeeps
  | range first last limit order => exact absurd rfl (hrange first last limit order)
  | get key =>
    rw [Node.perform]
    split <;> exact .inl rfl
  | blank | quit | conditionalGet _ _ | keys | flush | unknown => exact .inl rfl

/-! ## Ranges over all partitions -/

/-- The keys of a bucket belong in it, once each. -/
theorem Ready.bucket (h : n.Ready) (hb : n.store.Serves name i b) :
    (b.cache.getD {}).Orderly (fun k => n.home k = name) ∧ b.keys.Nodup ∧
      ∀ k ∈ b.keys, n.home k = name := by
  obtain ⟨m, hm⟩ := h.holds
  have htidy := hm.tidy b (List.mem_of_getElem? hb.bucket)
  refine ⟨h.orderly name i b hb, htidy.sound.nodup_keys htidy.distinct, fun k hk => ?_⟩
  have hcurrent : b ∈ n.store.current := hm.sound.mem_current_iff.mpr ⟨name, i, hb⟩
  rw [((hm.mem_keys_iff hcurrent k).mp hk).1, hm.sound.name_eq hb]

/-- The instances in the registry serve, and none of them twice. -/
theorem Ready.registered (h : n.Ready) : n.store.registered.Nodup ∧
    ∀ i ∈ n.store.registered, ∃ name b, n.store.Serves name i b := by
  obtain ⟨m, hm⟩ := h.holds
  have hserves : ∀ p ∈ n.store.registry, ∀ i, p.2 = some i → ∃ b, n.store.Serves p.1 i b := by
    intro p hp i hi
    have hslot : n.store.registry.find? p.1 = some p.2 :=
      Assoc.find?_of_mem hm.sound.ascending.nodup hp
    obtain ⟨j, b, hj, hb, -⟩ := hm.sound.filled p.1 p.2 hslot
    rw [hi] at hj hslot
    cases hj
    exact ⟨b, hslot, hb⟩
  constructor
  · refine List.pairwise_filterMap.mpr ?_
    refine (List.pairwise_map.mp hm.sound.ascending).imp_of_mem fun {p q} hp hq hless => ?_
    rintro i hi j hj rfl
    obtain ⟨b, hb⟩ := hserves p hp i hi
    obtain ⟨c, hc⟩ := hserves q hq i hj
    have hsame := hb.bucket.symm.trans hc.bucket
    cases hsame
    rw [← hm.sound.name_eq hb, hm.sound.name_eq hc, Bytes.less_irrefl] at hless
    cases hless
  · intro i hi
    obtain ⟨p, hp, hpi⟩ := List.mem_filterMap.mp hi
    obtain ⟨b, hb⟩ := hserves p hp i hpi
    exact ⟨p.1, b, hb⟩

/-- The clock does not matter. -/
theorem Ready.ticked (h : n.Ready) (readings : Nat) : (n.ticked readings).Ready where
  holds := by
    obtain ⟨m, hm⟩ := h.holds
    exact ⟨m, hm.ticked readings⟩
  names := h.names
  orderly := fun name i b hb => h.orderly name i b ⟨hb.slot, hb.bucket⟩

/-- Buckets with the moments at which they are asked, one after the other. -/
def inquire (clock : Clock) : List (Bucket Value) → List (Bucket Value × Int64)
  | [] => []
  | b :: rest => (b, clock.now) :: inquire (clock.later SnapshotCache.readings) rest

/-- **The partitions, and when each of them is asked for a range.** -/
def inquiries (n : Node) : List (Bucket Value × Int64) :=
  inquire n.clock n.store.current

theorem map_fst_inquire (clock : Clock) (buckets : List (Bucket Value)) :
    (inquire clock buckets).map Prod.fst = buckets := by
  induction buckets generalizing clock with
  | nil => rfl
  | cons b rest ih => rw [inquire, List.map_cons, ih]

/-- Nobody is asked before the present. -/
theorem le_of_mem_inquire {buckets : List (Bucket Value)} {p : Bucket Value × Int64}
    (hp : p ∈ inquire clock buckets) : clock.now ≤ p.2 := by
  induction buckets generalizing clock with
  | nil => cases hp
  | cons b rest ih =>
    rcases List.mem_cons.mp hp with rfl | hp
    · exact Int64.le_refl _
    · exact Int64.le_trans (clock.now_le_later _) (ih hp)

/-- **The partitions are asked in turn.** -/
theorem pairwise_inquire (clock : Clock) (buckets : List (Bucket Value)) :
    (inquire clock buckets).Pairwise fun p q => p.2 ≤ q.2 := by
  induction buckets generalizing clock with
  | nil => exact .nil
  | cons b rest ih =>
    refine List.pairwise_cons.mpr ⟨fun q hq => ?_, ih _⟩
    exact Int64.le_trans (clock.now_le_later _) (le_of_mem_inquire hq)

/-- **The ranges of some buckets, one after the other.** -/
theorem Ready.collect (h : n.Ready) (horder : KeyOrder.ofName? name = some order) (r : Range)
    {instances : List Instance} (hnodup : instances.Nodup)
    (hserves : ∀ i ∈ instances, ∃ s b, n.store.Serves s i b) :
    ∃ n', n.collect r order.less name instances =
        (.ok ((inquire n.clock (instances.filterMap (n.store.buckets[·]?))).flatMap fun p =>
          r.truncate (p.1.covered r order name p.2)), n') ∧ n'.Ready := by
  induction instances generalizing n with
  | nil => exact ⟨n, rfl, h⟩
  | cons i rest ih =>
    obtain ⟨hi, hrest⟩ := List.nodup_cons.mp hnodup
    obtain ⟨s, b, hb⟩ := hserves i List.mem_cons_self
    obtain ⟨horderly, hkeys, hbelongs⟩ := h.bucket hb
    obtain ⟨cache, hrange, hcache⟩ := Bucket.keysInRange_spec horderly hkeys hbelongs horder r
      n.config.snapshotTtl n.clock
    obtain ⟨m, hm⟩ := h.holds
    have hidle := (hm.tidy b (List.mem_of_getElem? hb.bucket)).idle
    let next := n.exchange i { b with cache := some cache } n.store.pool n.clock
    have hready : next.Ready := by
      refine h.exchange hb.bucket ⟨m, hm.keep hb.bucket rfl rfl hidle hm.rested⟩ fun s' hb' => ?_
      rw [← hm.sound.name_eq hb', hm.sound.name_eq hb]
      exact hcache
    have hothers : ∀ j ∈ rest, next.store.buckets[j]? = n.store.buckets[j]? := by
      intro j hj
      refine List.getElem?_set_ne ?_
      rintro rfl
      exact hi hj
    obtain ⟨n', hcollect, hready'⟩ := ih (hready.ticked SnapshotCache.readings) hrest fun j hj => by
      obtain ⟨s', c, hc⟩ := hserves j (List.mem_cons_of_mem _ hj)
      exact ⟨s', c, hc.slot, (hothers j hj).trans hc.bucket⟩
    refine ⟨n', ?_, hready'⟩
    have hnext : n.withBucket i { b with cache := some cache } = next := rfl
    rw [Node.collect, hb.bucket]
    simp only [hrange, hnext, hcollect, Except.map]
    have hsame : rest.filterMap ((next.ticked SnapshotCache.readings).store.buckets[·]?) =
        rest.filterMap (n.store.buckets[·]?) := List.filterMap_congr hothers
    rw [List.filterMap_cons, hb.bucket, hsame]
    rfl

/-- **The keys that a node answers a range from**: those that its buckets answer it from. -/
def source (n : Node) (name : Bytes) : List Bytes :=
  n.inquiries.flatMap fun p => p.1.source name p.2

theorem Ready.source_nodup (h : n.Ready) (name : Bytes) : (n.source name).Nodup := by
  obtain ⟨m, hm⟩ := h.holds
  have hbuckets : n.inquiries.map Prod.fst = n.store.current := map_fst_inquire ..
  have hnames : n.inquiries.Pairwise fun p q => Bytes.less p.1.name q.1.name = true := by
    have hascending := hm.sound.ascending
    rw [Registry.Ascending, ← Store.names, ← hm.sound.names_current, ← hbuckets,
      List.map_map] at hascending
    exact List.pairwise_map.mp hascending
  have hspec : ∀ p ∈ n.inquiries, (p.1.source name p.2).Nodup ∧
      ∀ k ∈ p.1.source name p.2, n.home k = p.1.name := by
    intro p hp
    have hcurrent : p.1 ∈ n.store.current := hbuckets ▸ List.mem_map_of_mem hp
    obtain ⟨s, i, hserves⟩ := hm.sound.mem_current_iff.mp hcurrent
    obtain ⟨horderly, hkeys, hbelongs⟩ := h.bucket hserves
    rw [hm.sound.name_eq hserves]
    exact Bucket.source_spec horderly hkeys hbelongs p.2
  refine List.pairwise_flatMap.mpr ⟨fun p hp => (hspec p hp).1, hnames.imp_of_mem ?_⟩
  intro p q hp hq hless x hx y hy heq
  -- a key of both would belong in both
  rw [← (hspec p hp).2 x hx, ← (hspec q hq).2 y hy, heq, Bytes.less_irrefl] at hless
  cases hless

/-- **The answer to a range over all keys**: of the keys that some partition answers from, those
that the range covers, in order, and cut off at its limit. Each of them is among the keys at which
its own partition is cut off. -/
structure GlobalRange (n : Node) (r : Range) (order : KeyOrder) (out : List Bytes) : Prop where
  whole : ∃ full, Increasing order.less full ∧
    (∀ k, k ∈ full ↔ k ∈ n.source order.name ∧ r.covers order.less k = true) ∧
    out = r.truncate full
  increasing : Increasing order.less out
  nodup : out.Nodup
  kept : ∀ k ∈ out, ∃ p ∈ n.inquiries, k ∈ r.truncate (p.1.covered r order order.name p.2)

/-- **The ranges of all partitions, merged, are the range over all keys.** -/
theorem Ready.keysInRange (h : n.Ready) (order : KeyOrder) (r : Range) :
    ∃ out n', n.keysInRange r order order.name = (.ok out, n') ∧ n.GlobalRange r order out ∧
      n'.Ready := by
  obtain ⟨hnodup, hserves⟩ := h.registered
  obtain ⟨n', hcollect, hready⟩ :=
    h.collect (KeyOrder.ofName?_eq_some_iff.mpr rfl) r hnodup hserves
  have hless := order.strictTotal
  have hweak := hless.strictWeak
  obtain ⟨hsources, hdisjoint⟩ := List.pairwise_flatMap.mp (h.source_nodup order.name)
  let parts := n.inquiries.map fun p => p.1.covered r order order.name p.2
  have hparts : ∀ part ∈ parts, Increasing order.less part := by
    intro part hpart
    obtain ⟨p, hp, rfl⟩ := List.mem_map.mp hpart
    exact (KeyOrder.sort_increasing hless (hsources p hp)).filter _
  have hcovered : ∀ {p : Bucket Value × Int64} {k : Bytes},
      k ∈ p.1.covered r order order.name p.2 ↔
        k ∈ p.1.source order.name p.2 ∧ r.covers order.less k = true := by
    intro p k
    rw [Bucket.covered, List.mem_filter, KeyOrder.mem_sort]
  have hflat : parts.flatten.Nodup := by
    rw [← List.flatMap_def]
    refine List.pairwise_flatMap.mpr ⟨fun p hp => ?_, hdisjoint.imp fun {p q} hne x hx y hy => ?_⟩
    · exact (hparts _ (List.mem_map_of_mem hp)).nodup hweak
    · exact hne x (hcovered.mp hx).1 y (hcovered.mp hy).1
  have hfull := KeyOrder.sort_increasing hless hflat
  have hout : Increasing order.less (r.truncate (KeyOrder.sort order.less parts.flatten)) :=
    hfull.sublist (r.truncate_sublist _)
  have hmerge := Range.truncate_merge hless hparts hflat r
  refine ⟨r.truncate (KeyOrder.sort order.less parts.flatten), n', ?_,
    ⟨⟨_, hfull, fun k => ?_, rfl⟩, hout, hout.nodup hweak, fun k hk => ?_⟩, hready⟩
  · rw [List.flatMap_map] at hmerge
    rw [Node.keysInRange, hcollect]
    exact congrArg (fun keys => (Except.ok keys, n')) hmerge
  · simp only [KeyOrder.mem_sort, parts, ← List.flatMap_def, List.mem_flatMap, hcovered, source]
    exact ⟨fun ⟨p, hp, hk, hcovers⟩ => ⟨⟨p, hp, hk⟩, hcovers⟩,
      fun ⟨⟨p, hp, hk⟩, hcovers⟩ => ⟨p, hp, hk, hcovers⟩⟩
  · rw [← hmerge] at hk
    have hmem := KeyOrder.mem_sort.mp ((r.truncate_sublist _).subset hk)
    obtain ⟨part, hpart, hk⟩ := List.mem_flatMap.mp hmem
    obtain ⟨p, hp, rfl⟩ := List.mem_map.mp hpart
    exact ⟨p, hp, hk⟩

/-- **Every command leaves a node ready.** -/
theorem Ready.perform (h : n.Ready) (c : Command) : (n.perform c).1.Ready := by
  obtain ⟨m, hm⟩ := h.holds
  obtain ⟨n', log, m', hperform, hfollows⟩ := hm.perform c
  by_cases hrange : ∃ first last limit order, c = .range first last limit order
  · obtain ⟨first, last, limit, order, rfl⟩ := hrange
    rw [Node.perform, Node.answerRange]
    split
    · exact h
    · next limit _ =>
      split
      · exact h
      · next o ho =>
        obtain ⟨out, n'', hkeys, -, hready⟩ :=
          h.keysInRange o { first, last := last.bind Command.rangeEnd, limit }
        rw [KeyOrder.ofName?_eq_some_iff.mp ho, hkeys]
        exact hready
  · refine h.keep (hm.keepsSnapshots c fun first last limit order heq => ?_) ?_
    · exact hrange ⟨first, last, limit, order, heq⟩
    · rw [hperform]
      exact ⟨m', hfollows.holds⟩

/-- **A node stays ready**, whatever lines it reads. -/
theorem Ready.after? (h : n.Ready) {lines : List Bytes} (hn : n.after? lines = some n') :
    n'.Ready := by
  induction lines generalizing n with
  | nil =>
    cases hn
    exact h
  | cons line rest ih =>
    obtain ⟨⟨next, log⟩, hfeed, hrest⟩ := Option.bind_eq_some_iff.mp hn
    rw [Node.feed?] at hfeed
    split at hfeed
    · cases hfeed
    · obtain rfl : (n.perform _).1 = next := congrArg Prod.fst (Option.some.inj hfeed)
      exact ih (h.perform _) hrest

/-! ## The range -/

/-- **A line that asks for a range** gets the range over all keys, as if there were one partition.
-/
theorem ranges_over_all_partitions {arguments lines : List Bytes} {greeting : Log}
    (h : start clock arguments = .ok (n, greeting)) (hlines : n.after? lines = some n') :
    (∀ s, s ∈ n'.store.current.map Bucket.name ↔
      ∃ k, k < n'.config.partitions.toInt.toNat ∧ s = Partition.name (Int32.ofNat k)) ∧
    ∀ line first last limit order r o,
      Command.Says line (.range first last limit order) →
      Command.Asks first last limit order r o →
      ∃ n'' out, n'.feed? line = some (n'', { out }) ∧ n'.GlobalRange r o out := by
  obtain ⟨-, -, hfresh⟩ := fresh_of_start h
  have hready := hfresh.ready.after? hlines
  obtain ⟨m, hm⟩ := hready.holds
  refine ⟨fun s => by rw [hm.sound.names_current, hready.names], ?_⟩
  intro line first last limit order r o hsaid hasks
  obtain ⟨hlimit, horder, hr⟩ := Command.asks_iff.mp hasks
  obtain ⟨out, next, hkeys, hglobal, -⟩ := hready.keysInRange o r
  refine ⟨next, out, ?_, hglobal⟩
  rw [Node.feed?, Command.ofLine_eq_iff.mpr hsaid]
  simp only [Node.perform, Node.answerRange, hlimit, horder, ← hr]
  rw [hasks.order, hkeys]

/-- A clock that leaps, after nine readings, by little more than ten milliseconds. -/
def leaping : Clock where
  times i := if i < 9 then 0 else 10000001
  steady i j h := by
    split
    · split <;> decide
    · rw [if_neg (by omega)]
      exact Int64.le_refl _

/-- Two partitions, whose snapshots last ten milliseconds. -/
def halves : List Bytes :=
  [Bytes.ascii "--partitions=2", Bytes.ascii "--shards=2", Bytes.ascii "--snapshot-ttl-ms=10"]

/-- Four keys, two of which come after the snapshots. -/
def lettered : List Bytes :=
  [Bytes.ascii "put b 1", Bytes.ascii "put a 2", Bytes.ascii "range z - 0 lexical-desc",
    Bytes.ascii "put d 3", Bytes.ascii "put c 4"]

/-- The partition of `a` and `c` answers from its snapshot, and that of `b` and `d`, which is asked
after the leap, from the keys that are present. -/
theorem lettered_ranged : ∃ n greeting n' n'',
    start leaping halves = .ok (n, greeting) ∧ n.after? lettered = some n' ∧
      n'.source KeyOrder.lexicalDescending.name =
        [Bytes.ascii "a", Bytes.ascii "b", Bytes.ascii "d"] ∧
      n'.feed? (Bytes.ascii "range d a 2 lexical-desc") =
        some (n'', { out := [Bytes.ascii "d", Bytes.ascii "b"] }) := by
  have hstate : ((start leaping halves).toOption.bind
      fun s => (s.1.after? lettered).map fun n => n.source KeyOrder.lexicalDescending.name) =
      some [Bytes.ascii "a", Bytes.ascii "b", Bytes.ascii "d"] := by
    decide +kernel
  cases hstart : start leaping halves with
  | error f =>
    rw [hstart] at hstate
    cases hstate
  | ok s =>
    obtain ⟨n, greeting⟩ := s
    rw [hstart, Except.toOption, Option.bind_some] at hstate
    obtain ⟨n', hlines, hsource⟩ := Option.map_eq_some_iff.mp hstate
    obtain ⟨-, hranges⟩ := ranges_over_all_partitions hstart hlines
    have hsaid : Command.Says (Bytes.ascii "range d a 2 lexical-desc")
        (.range (Bytes.ascii "d") (some (Bytes.ascii "a")) (some (Bytes.ascii "2"))
          (some (Bytes.ascii "lexical-desc"))) := by
      decide +kernel
    have hasks : Command.Asks (Bytes.ascii "d") (some (Bytes.ascii "a")) (some (Bytes.ascii "2"))
        (some (Bytes.ascii "lexical-desc"))
        { first := Bytes.ascii "d", last := some (Bytes.ascii "a"), limit := 2 }
        .lexicalDescending :=
      Command.asks_iff.mpr (by decide +kernel)
    obtain ⟨n'', out, hfeed, hglobal⟩ := hranges _ _ _ _ _ _ _ hsaid hasks
    obtain ⟨full, hfull, hmem, rfl⟩ := hglobal.whole
    have heq : full = [Bytes.ascii "d", Bytes.ascii "b", Bytes.ascii "a"] := by
      refine hfull.eq_of_mem_iff KeyOrder.lexicalDescending.strictTotal.strictWeak
        (by decide +kernel) fun k => ?_
      rw [hmem, hsource, ← List.mem_filter]
      exact List.Perm.mem_iff (by decide +kernel)
    refine ⟨n, greeting, n', n'', rfl, hlines, hsource, ?_⟩
    rw [hfeed, heq]
    rfl

end Node

end Keyspace
