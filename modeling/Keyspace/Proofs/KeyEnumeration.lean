import Mathlib.Data.List.Nodup
import Keyspace.Proofs.MapAccess
import Keyspace.Proofs.Runs

/-!
# Enumerations among other accesses

To enumerate the keys of a map is to visit its shards one at a time, and between two visits anybody
may store and remove keys. So an enumeration can see a different map at each visit, and what it
finds need not be the keys of any one of them. It is **weakly consistent** all the same
(`Listing.keys_weakly_consistent`): a key that is there from beginning to end is found, once; what is
found was there at some time; and nothing is found twice, however often it comes and goes.

What carries this is that a key has one shard, whatever happens to it. The enumeration looks for it
at one visit only, and finds it there exactly if it is present at that visit
(`Enumeration.mem_gathered_iff`, `Enumeration.nodup_gathered`).
-/

namespace Keyspace

variable {V : Type}

namespace ShardedMap

/-- What can be done to the keys of a map. -/
inductive Access (V : Type) where
  | put (key : Bytes) (v : Option V)
  | remove (key : Bytes)

/-- The map after an access. -/
def access (m : ShardedMap V) : Access V → ShardedMap V
  | .put key v => m.put key v
  | .remove key => (m.remove key).2

/-- The map after a list of accesses. -/
def after (m : ShardedMap V) (accesses : List (Access V)) : ShardedMap V :=
  accesses.foldl access m

variable {m : ShardedMap V} {hash : Bytes → Nat} {shards : Nat}

theorem Partitioned.access (h : m.Partitioned hash shards) (a : Access V) :
    (m.access a).Partitioned hash shards := by
  cases a with
  | put key v => exact h.put key v
  | remove key => exact h.remove key

theorem Partitioned.after (h : m.Partitioned hash shards) (accesses : List (Access V)) :
    (m.after accesses).Partitioned hash shards := by
  induction accesses generalizing m with
  | nil => exact h
  | cons a rest ih => exact ih (h.access a)

end ShardedMap

/-! ## What an enumeration gathers -/

/-- The keys of the shard with a number; none if there is no such shard. -/
def ShardedMap.keysAt (m : ShardedMap V) (i : Nat) : List Bytes :=
  (m.shards[i]?).elim [] Assoc.keys

section KeysAt

open ShardedMap

variable {m : ShardedMap V} {hash : Bytes → Nat} {shards : Nat}

theorem ShardedMap.Partitioned.mem_keysAt_iff (h : m.Partitioned hash shards) (i : Nat)
    (key : Bytes) : key ∈ m.keysAt i ↔ i = hash key % shards ∧ m.contains key = true := by
  unfold keysAt
  cases hs : m.shards[i]? with
  | some s => exact h.mem_shard_iff hs key
  | none =>
    refine iff_of_false List.not_mem_nil ?_
    rintro ⟨rfl, -⟩
    rw [List.getElem?_eq_none_iff, h.count] at hs
    exact Nat.not_lt_of_le hs (Nat.mod_lt _ h.pos)

theorem ShardedMap.Partitioned.nodup_keysAt (h : m.Partitioned hash shards) (i : Nat) :
    (m.keysAt i).Nodup := by
  unfold keysAt
  cases hs : m.shards[i]? with
  | some s => exact h.distinct s (List.mem_of_getElem? hs)
  | none => exact List.nodup_nil

end KeysAt

namespace Enumeration

open ShardedMap (Partitioned)

/-- The keys that an enumeration gathers that saw the maps of a list, one at each visit. -/
def gathered (seen : List (ShardedMap V)) : List Bytes :=
  seen.zipIdx.flatMap fun visit => visit.1.keysAt visit.2

/-- **The enumeration saw the maps of a list**, one at each visit, and no others. -/
structure Saw (seen : List (ShardedMap V)) (e : Enumeration) : Prop where
  visited : e.visited = seen.length
  found : e.found = gathered seen

variable {e e' : Enumeration} {m : ShardedMap V} {seen : List (ShardedMap V)} {hash : Bytes → Nat}
  {shards : Nat}

theorem gathered_snoc (seen : List (ShardedMap V)) (m : ShardedMap V) :
    gathered (seen ++ [m]) = gathered seen ++ m.keysAt seen.length := by
  simp only [gathered, List.zipIdx_append, List.flatMap_append, List.zipIdx_singleton,
    Nat.zero_add, List.flatMap_singleton]

theorem Saw.start : Saw ([] : List (ShardedMap V)) {} :=
  ⟨rfl, rfl⟩

theorem Saw.visit (h : Saw seen e) (hvisit : e.visit? m = some e') : Saw (seen ++ [m]) e' := by
  obtain ⟨s, hs, rfl⟩ := Option.map_eq_some_iff.mp hvisit
  have hkeys : m.keysAt seen.length = s.keys := by
    rw [ShardedMap.keysAt, ← h.visited, hs]
    rfl
  refine ⟨?_, ?_⟩
  · rw [h.visited, List.length_append]
    rfl
  · rw [gathered_snoc, hkeys, h.found]

/-- There is no next visit exactly when no shard is left. -/
theorem visit?_eq_none_iff (e : Enumeration) (m : ShardedMap V) :
    e.visit? m = none ↔ m.shards.length ≤ e.visited := by
  rw [visit?, Option.map_eq_none_iff, List.getElem?_eq_none_iff]

/-- A visit is the visit of a shard that was left. -/
theorem visited_lt_of_visit? (hvisit : e.visit? m = some e') :
    e.visited < m.shards.length ∧ e'.visited = e.visited + 1 := by
  obtain ⟨s, hs, rfl⟩ := Option.map_eq_some_iff.mp hvisit
  exact ⟨(List.getElem?_eq_some_iff.mp hs).1, rfl⟩

/-- **A key is gathered exactly if it is present at the visit of its shard.** -/
theorem mem_gathered_iff (h : ∀ m ∈ seen, m.Partitioned hash shards) (key : Bytes) :
    key ∈ gathered seen ↔
      ∃ m, seen[hash key % shards]? = some m ∧ m.contains key = true := by
  rw [gathered, List.mem_flatMap]
  constructor
  · rintro ⟨⟨m, i⟩, hvisit, hkey⟩
    have hseen : seen[i]? = some m := List.mem_zipIdx_iff_getElem?.mp hvisit
    obtain ⟨rfl, hpresent⟩ := ((h m (List.mem_of_getElem? hseen)).mem_keysAt_iff i key).mp hkey
    exact ⟨m, hseen, hpresent⟩
  · rintro ⟨m, hseen, hpresent⟩
    exact ⟨(m, hash key % shards), List.mem_zipIdx_iff_getElem?.mpr hseen,
      ((h m (List.mem_of_getElem? hseen)).mem_keysAt_iff _ key).mpr ⟨rfl, hpresent⟩⟩

/-- **No key is gathered twice**: two visits are visits of different shards. -/
theorem nodup_gathered (h : ∀ m ∈ seen, m.Partitioned hash shards) : (gathered seen).Nodup := by
  have hpartitioned : ∀ visit ∈ seen.zipIdx, visit.1.Partitioned hash shards :=
    fun visit hvisit => h visit.1 (List.mem_of_getElem? (List.mem_zipIdx_iff_getElem?.mp hvisit))
  have hshards : seen.zipIdx.Pairwise fun v w => v.2 ≠ w.2 := by
    have hnumbers : (seen.zipIdx.map Prod.snd).Nodup := by
      rw [List.zipIdx_map_snd]
      exact List.nodup_range'
    exact List.pairwise_map.mp hnumbers
  refine List.pairwise_flatMap.mpr
    ⟨fun visit hvisit => (hpartitioned visit hvisit).nodup_keysAt _, hshards.imp_of_mem ?_⟩
  rintro v w hv hw hne key hkeyv _ hkeyw rfl
  -- a key of both visits would have two shards
  obtain ⟨hshardv, -⟩ := ((hpartitioned v hv).mem_keysAt_iff _ key).mp hkeyv
  obtain ⟨hshardw, -⟩ := ((hpartitioned w hw).mem_keysAt_iff _ key).mp hkeyw
  exact hne (hshardv.trans hshardw.symm)

/-! ### Undisturbed -/

/-- The enumeration of a map that nobody changes, after some visits. -/
def upTo (m : ShardedMap V) (visits : Nat) : Enumeration where
  visited := visits
  found := (m.shards.take visits).flatMap Assoc.keys

theorem visit?_upTo {i : Nat} (hi : i < m.shards.length) :
    (upTo m i).visit? m = some (upTo m (i + 1)) := by
  simp only [visit?, upTo, List.getElem?_eq_getElem hi, Option.map_some, List.take_add_one,
    List.flatMap_append, Option.toList_some, List.flatMap_singleton]

/-- In the end it has found the keys of the map. -/
theorem found_upTo (m : ShardedMap V) : (upTo m m.shards.length).found = m.keys := by
  rw [upTo, List.take_length, ShardedMap.keys]

end Enumeration

/-! ## Enumerations among accesses -/

/-- **A map and an enumeration of its keys** that is under way. -/
structure Listing (V : Type) where
  map : ShardedMap V
  enumeration : Enumeration := {}

namespace Listing

open ShardedMap (Access Partitioned)

/-- The steps of a listing: somebody's access takes effect, or the next shard is visited. -/
inductive Step (V : Type) where
  | access (a : Access V)
  | visit

/-- The listing after a step; `none` for a visit when no shard is left. -/
def step? (l : Listing V) : Step V → Option (Listing V)
  | .access a => some { l with map := l.map.access a }
  | .visit => (l.enumeration.visit? l.map).map fun enumeration => { l with enumeration }

/-- The map that a step sees if it is a visit. -/
def event (l : Listing V) : Step V → Option (ShardedMap V)
  | .access _ => none
  | .visit => some l.map

/-- A listing as a machine, which shows the maps that its visits see. -/
def machine : Machine (Listing V) (Step V) (Option (ShardedMap V)) where
  step? := step?
  event := event

/-- The number of visits among some steps. -/
def visits (steps : List (Step V)) : Nat :=
  steps.countP fun a => a matches .visit

/-- The maps that the visits of a run see, in order. -/
def seen (l : Listing V) (steps : List (Step V)) : List (ShardedMap V) :=
  (machine.trace l steps).filterMap id

variable {l l' t : Listing V} {steps : List (Step V)} {hash : Bytes → Nat} {shards : Nat}
  {past : List (Option (ShardedMap V))}

/-- **An enumeration among accesses** of a map that a hash partitions: the maps that it saw are
those that the trace shows, and the hash partitions all of them. -/
structure Faithful (hash : Bytes → Nat) (shards : Nat) (past : List (Option (ShardedMap V)))
    (l : Listing V) : Prop where
  map : l.map.Partitioned hash shards
  bounded : l.enumeration.visited ≤ shards
  saw : l.enumeration.Saw (past.filterMap id)
  partitioned : ∀ m ∈ past.filterMap id, m.Partitioned hash shards

theorem Faithful.start {m : ShardedMap V} (h : m.Partitioned hash shards) :
    Faithful hash shards [] { map := m } :=
  ⟨h, Nat.zero_le _, .start, fun m hm => by cases hm⟩

/-- Every step keeps the enumeration faithful. -/
theorem Faithful.step {a : Step V} (h : Faithful hash shards past l) (hstep : l.step? a = some l') :
    Faithful hash shards (past ++ [l.event a]) l' := by
  cases a with
  | access a =>
    cases hstep
    have hsame : (past ++ [none]).filterMap id = past.filterMap id := by simp
    exact ⟨h.map.access a, h.bounded, hsame ▸ h.saw, hsame ▸ h.partitioned⟩
  | visit =>
    obtain ⟨e, hvisit, rfl⟩ := Option.map_eq_some_iff.mp hstep
    have hsnoc : (past ++ [some l.map]).filterMap id = past.filterMap id ++ [l.map] := by simp
    obtain ⟨hlt, hnext⟩ := Enumeration.visited_lt_of_visit? hvisit
    refine ⟨h.map, ?_, hsnoc ▸ h.saw.visit hvisit, fun m hm => ?_⟩
    · rw [h.map.count] at hlt
      exact hnext ▸ hlt
    · change m ∈ (past ++ [some l.map]).filterMap id at hm
      rw [hsnoc] at hm
      rcases List.mem_append.mp hm with hm | hm
      · exact h.partitioned m hm
      · exact List.mem_singleton.mp hm ▸ h.map

/-- So does every run. -/
theorem faithful_of_run {m : ShardedMap V} (h : m.Partitioned hash shards)
    (hrun : machine.run? { map := m } steps = some t) :
    Faithful hash shards (machine.trace { map := m } steps) t :=
  Machine.run_induction (P := Faithful hash shards) (fun _ _ _ _ h hstep => h.step hstep)
    (.start h) hrun

/-- **What a visit saw is the map of the state that the visit was made in.** -/
theorem getElem?_seen (hrun : machine.run? l steps = some t) (i : Nat) (m : ShardedMap V) :
    (l.seen steps)[i]? = some m ↔
      ∃ before after u, steps = before ++ .visit :: after ∧ visits before = i ∧
        machine.run? l before = some u ∧ u.map = m := by
  induction steps generalizing l i with
  | nil =>
    refine iff_of_false (by simp [seen, Machine.trace]) ?_
    rintro ⟨before, after, u, hsplit, -⟩
    simp at hsplit
  | cons a rest ih =>
    obtain ⟨l', hstep, hrest, htrace⟩ := Machine.run?_cons_eq_some hrun
    have hnext := ih hrest
    -- a split of the whole is one at its first step, or one of the rest
    have hsplits : (∃ before after u, a :: rest = before ++ .visit :: after ∧ visits before = i ∧
        machine.run? l before = some u ∧ u.map = m) ↔
        (a = .visit ∧ i = 0 ∧ l.map = m) ∨
        ∃ before after u, rest = before ++ .visit :: after ∧ visits (a :: before) = i ∧
          machine.run? l' before = some u ∧ u.map = m := by
      constructor
      · rintro ⟨before, after, u, hsplit, hvisits, hbefore, hmap⟩
        cases before with
        | nil =>
          cases hsplit
          cases hbefore
          exact .inl ⟨rfl, hvisits.symm, hmap⟩
        | cons b before =>
          obtain ⟨rfl, htail⟩ := List.cons.inj hsplit
          obtain ⟨l₂, hstep₂, hbefore, -⟩ := Machine.run?_cons_eq_some hbefore
          rw [hstep] at hstep₂
          cases hstep₂
          exact .inr ⟨before, after, u, htail, hvisits, hbefore, hmap⟩
      · rintro (⟨rfl, rfl, hmap⟩ | ⟨before, after, u, rfl, hvisits, hbefore, hmap⟩)
        · exact ⟨[], rest, l, rfl, rfl, rfl, hmap⟩
        · refine ⟨a :: before, after, u, rfl, hvisits, ?_, hmap⟩
          rw [Machine.run?, hstep]
          exact hbefore
    rw [hsplits, seen, htrace]
    cases a with
    | access a =>
      simp only [reduceCtorEq, false_and, false_or]
      exact hnext i
    | visit =>
      change (l.map :: l'.seen rest)[i]? = some m ↔ _
      cases i with
      | zero => simp [visits]
      | succ i => simpa [visits] using hnext i

theorem length_seen (hrun : machine.run? l steps = some t) :
    (l.seen steps).length = visits steps := by
  induction steps generalizing l with
  | nil => rfl
  | cons a rest ih =>
    obtain ⟨l', hstep, hrest, htrace⟩ := Machine.run?_cons_eq_some hrun
    rw [seen, htrace]
    cases a with
    | access a => exact (ih hrest).trans (by simp [visits])
    | visit => exact (congrArg (· + 1) (ih hrest)).trans (by simp [visits])

/-- **An enumeration that ran with the steps of a list is weakly consistent.** -/
structure WeaklyConsistent (hash : Bytes → Nat) (shards : Nat) (start : Listing V)
    (steps : List (Step V)) (found : List Bytes) : Prop where
  /-- A key that is there all the time is found once. -/
  lasting : ∀ key, (∀ u, machine.Through start steps u → u.map.contains key = true) →
    found.count key = 1
  /-- What is found was there at some time. -/
  justified : ∀ key ∈ found, ∃ u, machine.Through start steps u ∧ u.map.contains key = true
  /-- Nothing is found twice. -/
  nodup : found.Nodup
  /-- A key is found exactly if it is there when its shard is visited. -/
  found_iff : ∀ key, key ∈ found ↔
    ∃ before after u, steps = before ++ .visit :: after ∧ visits before = hash key % shards ∧
      machine.run? start before = some u ∧ u.map.contains key = true

/-- A run of as many visits as there are shards is weakly consistent. -/
theorem Faithful.weaklyConsistent (h : Faithful hash shards (machine.trace l steps) t)
    (hrun : machine.run? l steps = some t) (hvisits : visits steps = shards) :
    WeaklyConsistent hash shards l steps t.enumeration.found := by
  have hfound : ∀ key, key ∈ t.enumeration.found ↔
      ∃ before after u, steps = before ++ .visit :: after ∧ visits before = hash key % shards ∧
        machine.run? l before = some u ∧ u.map.contains key = true := by
    intro key
    rw [h.saw.found, Enumeration.mem_gathered_iff h.partitioned]
    constructor
    · rintro ⟨m, hm, hpresent⟩
      obtain ⟨before, after, u, hsplit, hbefore, hu, rfl⟩ := (getElem?_seen hrun _ m).mp hm
      exact ⟨before, after, u, hsplit, hbefore, hu, hpresent⟩
    · rintro ⟨before, after, u, hsplit, hbefore, hu, hpresent⟩
      exact ⟨u.map, (getElem?_seen hrun _ _).mpr ⟨before, after, u, hsplit, hbefore, hu, rfl⟩,
        hpresent⟩
  have hnodup : t.enumeration.found.Nodup := by
    rw [h.saw.found]
    exact Enumeration.nodup_gathered h.partitioned
  refine ⟨fun key hlasting => ?_, fun key hkey => ?_, hnodup, hfound⟩
  · have hlt : hash key % shards < (l.seen steps).length := by
      rw [length_seen hrun, hvisits]
      exact Nat.mod_lt _ h.map.pos
    obtain ⟨before, after, u, rfl, hbefore, hu, -⟩ :=
      (getElem?_seen hrun _ _).mp (List.getElem?_eq_getElem hlt)
    have hpresent := hlasting u ⟨before, List.prefix_append .., hu⟩
    exact List.count_eq_one_of_mem hnodup
      ((hfound key).mpr ⟨before, after, u, rfl, hbefore, hu, hpresent⟩)
  · obtain ⟨before, after, u, rfl, -, hu, hpresent⟩ := (hfound key).mp hkey
    exact ⟨u, ⟨before, List.prefix_append .., hu⟩, hpresent⟩

/-- **The enumeration of the keys is weakly consistent.** A map of any hash can be made, of any number
of shards that there is room for. Whatever has been done to it before, and whatever is done to it
between the visits, an enumeration ends after one visit of each shard and no earlier, and it is
weakly consistent then. -/
theorem keys_weakly_consistent (hash : Bytes → Nat) (shards : Nat) :
    ((∃ m, ShardedMap.create (V := V) hash shards = .ok m) ↔ 0 < shards ∧ shards < ShardedMap.room) ∧
    ∀ m, ShardedMap.create (V := V) hash shards = .ok m →
      ∀ (past : List (Access V)) (steps : List (Step V)) (t : Listing V),
        machine.run? { map := m.after past } steps = some t →
          (t.enumeration.visit? t.map = none ↔ visits steps = shards) ∧
          (visits steps = shards →
            WeaklyConsistent hash shards { map := m.after past } steps t.enumeration.found) := by
  refine ⟨ShardedMap.exists_create_iff hash, fun m hcreate past steps t hrun => ?_⟩
  have h := faithful_of_run ((Partitioned.create hcreate).after past) hrun
  refine ⟨?_, h.weaklyConsistent hrun⟩
  have hvisited : t.enumeration.visited = visits steps := h.saw.visited.trans (length_seen hrun)
  have hbounded := h.bounded
  rw [Enumeration.visit?_eq_none_iff, h.map.count, ← hvisited]
  omega

/-- Two empty shards, picked by the length of a key. -/
def byLength : ShardedMap Value where
  hash := List.length
  shards := [[], []]

/-- Four keys, two in each shard. -/
def settling : List (Access Value) :=
  [.put [1] none, .put [2, 2] none, .put [3, 3] none, .put [4] none]

/-- Between the two visits a key of the visited shard goes and comes again and another one goes for
good, and in the shard that is left one key goes and a new one comes. -/
def shifting : List (Step Value) :=
  [.visit, .access (.remove [2, 2]), .access (.put [2, 2] none), .access (.remove [3, 3]),
    .access (.remove [1]), .access (.put [5] none), .access (.put [6, 6] none), .visit,
    .access (.remove [4])]

/-- No state has all the keys that are found. -/
theorem shifting_consistent : ∃ (m : ShardedMap Value) (t : Listing Value),
    ShardedMap.create List.length 2 = .ok m ∧
    machine.run? { map := m.after settling } shifting = some t ∧
    t.enumeration.found = [[2, 2], [3, 3], [4], [5]] ∧
    t.enumeration.visit? t.map = none ∧
    WeaklyConsistent List.length 2 { map := m.after settling } shifting t.enumeration.found := by
  have hcreate : ShardedMap.create List.length 2 = .ok byLength := rfl
  have hconsistent := (keys_weakly_consistent List.length 2).2 byLength hcreate
  have hrun : machine.run? { map := byLength.after settling } shifting = some _ := rfl
  obtain ⟨hends, hfound⟩ := hconsistent settling shifting _ hrun
  exact ⟨byLength, _, hcreate, hrun, rfl, hends.mpr rfl, hfound rfl⟩

end Listing

end Keyspace
