import Keyspace.Proofs.MapAccess
import Keyspace.Store

/-!
# The registry of a store

What callers of `getOrCreate`, `get`, `remove` and `names` can depend on, in every state that a list of
calls leads to (`Store.Dependable`): the names are listed in ascending order, every listed name has a
bucket of that name, a name that is not listed is the one reason for which `get` and `remove` fail, a
bucket stays the same until it is removed, and a call that fails leaves the registry as it was.

All of it holds exactly when a bucket can be made, or is never asked for (`dependable_iff`). Without
shards, or with more of them than room can be reserved for (`Store.Makes`), the creation of a bucket
fails after its slot was made, and the slot stays (`unmade_listed`).
-/

namespace Keyspace

variable {V : Type}

namespace Registry

variable {r : Registry} {name : Bytes}

/-- A slot is found under its name, and every other name keeps its own. -/
theorem find?_insert (r : Registry) (name j : Bytes) (slot : Option Instance) :
    (r.insert name slot).find? j = if j = name then some slot else r.find? j := by
  induction r with
  | nil => by_cases h : name = j <;> simp [insert, Assoc.find?, h, eq_comm]
  | cons p rest ih =>
    obtain ⟨n, s⟩ := p
    rw [insert]
    split
    · next hname =>
      subst hname
      by_cases h : name = j <;> simp [Assoc.find?, h, eq_comm]
    · next hname =>
      split
      · by_cases h : name = j <;> simp [Assoc.find?, h, eq_comm]
      · by_cases h : n = j
        · subst h
          simp [Assoc.find?, Ne.symm hname]
        · simp [Assoc.find?, h, ih]

/-- The names of a registry with another slot. -/
theorem mem_keys_insert (r : Registry) (name j : Bytes) (slot : Option Instance) :
    j ∈ (r.insert name slot).keys ↔ j = name ∨ j ∈ r.keys := by
  rw [← Assoc.isSome_find?_iff, ← Assoc.isSome_find?_iff, find?_insert]
  by_cases h : j = name <;> simp [h]

/-- A slot that is filled is like one that is made full. -/
theorem insert_insert (r : Registry) (name : Bytes) (slot slot' : Option Instance) :
    (r.insert name slot).insert name slot' = r.insert name slot' := by
  induction r with
  | nil => simp [insert]
  | cons p rest ih =>
    obtain ⟨n, s⟩ := p
    by_cases hname : name = n
    · simp [insert, hname]
    · by_cases hless : Bytes.less name n = true
      · simp [insert, hname, hless]
      · simp [insert, hname, hless, ih]

/-- **The names ascend.** -/
def Ascending (r : Registry) : Prop :=
  r.keys.Pairwise fun a b => Bytes.less a b = true

theorem Ascending.nodup (h : Ascending r) : r.keys.Nodup := by
  refine List.Pairwise.imp (fun {a b} hless heq => ?_) h
  rw [heq, Bytes.less_irrefl] at hless
  cases hless

/-- A name takes its place between those before it and those after it. -/
theorem Ascending.insert (h : Ascending r) (name : Bytes) (slot : Option Instance) :
    Ascending (r.insert name slot) := by
  induction r with
  | nil => exact List.pairwise_singleton ..
  | cons p rest ih =>
    obtain ⟨n, s⟩ := p
    obtain ⟨hfirst, hrest⟩ := List.pairwise_cons.mp h
    rw [Registry.insert]
    split
    · next hname => exact List.pairwise_cons.mpr ⟨hname ▸ hfirst, hrest⟩
    · next hname =>
      split
      · next hless =>
        refine List.pairwise_cons.mpr ⟨fun j hj => ?_, h⟩
        rcases List.mem_cons.mp hj with rfl | hj
        · exact hless
        · exact Bytes.less_trans hless (hfirst j hj)
      · next hless =>
        refine List.pairwise_cons.mpr ⟨fun j hj => ?_, ih hrest⟩
        rcases (mem_keys_insert rest name j slot).mp hj with rfl | hj
        · exact Bytes.less_of_ne hname (Bool.eq_false_iff.mpr hless)
        · exact hfirst j hj

theorem Ascending.erase (h : Ascending r) (name : Bytes) : Ascending (Assoc.erase r name) := by
  rw [Ascending, Assoc.keys_erase]
  exact h.filter _

end Registry

namespace Store

/-- **The calls on the registry of a store.** -/
inductive Call where
  | getOrCreate (name : Bytes)
  | get (name : Bytes)
  | remove (name : Bytes)
  | names

/-- What a call gives that does not fail. -/
inductive Answer where
  | slot (slot : Option Instance)
  | removed
  | names (names : List Bytes)

variable {s : Store V} {name : Bytes} {i : Instance} {call : Call} {calls : List Call}

/-- What a call gives, and the store after it. -/
def answer (s : Store V) : Call → Outcome Answer × Store V
  | .getOrCreate name =>
    match s.getOrCreate name with
    | (result, s, _) => (result.map fun i => .slot (some i), s)
  | .get name => ((s.get name).map .slot, s)
  | .remove name =>
    match s.remove name with
    | .ok s => (.ok .removed, s)
    | .error f => (.error f, s)
  | .names => (.ok (.names s.names), s)

/-- The store after a list of calls. -/
def after (s : Store V) (calls : List Call) : Store V :=
  calls.foldl (fun s call => (s.answer call).2) s

/-- **The registry shows what it holds**: its names ascend, each of them has a bucket of that name,
and `get` and `remove` fail for the other names and for no other reason. -/
structure Shows (s : Store V) : Prop where
  ascending : s.names.Pairwise fun a b => Bytes.less a b = true
  resolved : ∀ name ∈ s.names, ∃ i b, s.get name = .ok (some i) ∧ s.buckets[i]? = some b ∧
    b.name = name
  missing : ∀ name f, s.get name = .error f ↔ name ∉ s.names ∧ f = .bucketMissing name
  kept : ∀ name f, s.remove name = .error f ↔ name ∉ s.names ∧ f = .bucketMissing name

/-- **The store is dependable through a list of calls.** -/
structure Dependable (s : Store V) (calls : List Call) : Prop where
  shows : ∀ first rest, calls = first ++ rest → (s.after first).Shows
  /-- A call that fails leaves the registry as it was. -/
  atomic : ∀ first call rest f, calls = first ++ call :: rest →
    ((s.after first).answer call).1 = .error f →
    (s.after (first ++ [call])).registry = (s.after first).registry
  /-- A bucket that was created or found under a name is found there from then on. -/
  created : ∀ first name rest i, calls = first ++ .getOrCreate name :: rest →
    ((s.after first).getOrCreate name).1 = .ok i →
    (s.after (first ++ [.getOrCreate name])).get name = .ok (some i)
  /-- Until it is removed. -/
  lasting : ∀ first others rest name i, calls = first ++ others ++ rest →
    (s.after first).get name = .ok (some i) → .remove name ∉ others →
    (s.after (first ++ others)).get name = .ok (some i) ∧
      ((s.after (first ++ others)).getOrCreate name).1 = .ok i

/-! ## What the calls find and leave -/

theorem get_eq_ok_iff {slot : Option Instance} :
    s.get name = .ok slot ↔ s.registry.find? name = some slot := by
  unfold get
  cases s.registry.find? name with
  | none => simp
  | some found => simp

/-- A bucket that is in the registry is given. -/
theorem getOrCreate_of_found (h : s.registry.find? name = some (some i)) :
    s.getOrCreate name = (.ok i, s, {}) := by
  simp only [getOrCreate, h]

/-- A bucket that can be made is put into the slot of its name, whether there was an empty one. -/
theorem getOrCreate_of_made (h : ∀ i, s.registry.find? name ≠ some (some i)) {b : Bucket V}
    (hb : Bucket.create name s.hash s.shards true = .ok b) :
    s.getOrCreate name = (.ok s.buckets.length,
      { s with
        registry := s.registry.insert name (some s.buckets.length)
        buckets := s.buckets ++ [b] },
      .say (Bytes.ascii "Created bucket " ++ name)) := by
  unfold getOrCreate
  split
  · next i hfound => exact absurd hfound (h i)
  · simp only [fill, hb]
  · simp only [fill, hb, Registry.insert_insert]

/-- A bucket that cannot be made leaves a new slot empty. -/
theorem getOrCreate_of_failed (h : s.registry.find? name = none) {f : Failure}
    (hb : Bucket.create (V := V) name s.hash s.shards true = .error f) :
    s.getOrCreate name = (.error f, { s with registry := s.registry.insert name none }, {}) := by
  simp only [getOrCreate, h, fill, hb]

/-- **A store makes buckets**: there is room for their shards, and they have some. -/
def Makes (s : Store V) : Prop :=
  0 < s.shards ∧ s.shards < ShardedMap.room

instance (s : Store V) : Decidable s.Makes :=
  inferInstanceAs (Decidable (_ ∧ _))

theorem Makes.create (h : s.Makes) (name : Bytes) :
    ∃ b : Bucket V, Bucket.create name s.hash s.shards true = .ok b :=
  Bucket.exists_create_iff.mpr h

/-- Without shards a bucket fails for them, and with too many for room. -/
theorem create_of_not_makes (h : ¬ s.Makes) (name : Bytes) :
    Bucket.create (V := V) name s.hash s.shards true =
      .error (if s.shards = 0 then .noShards else .noRoom) := by
  by_cases hshards : s.shards = 0
  · simp only [Bucket.create, ShardedMap.create, if_pos hshards]
  · have hroom : ShardedMap.room ≤ s.shards :=
      Nat.not_lt.mp fun hlt => h ⟨Nat.pos_of_ne_zero hshards, hlt⟩
    simp only [Bucket.create, ShardedMap.create, if_neg hshards, if_pos hroom]

/-- Whatever bucket is given for a name is found under it. -/
theorem get_of_getOrCreate (h : (s.getOrCreate name).1 = .ok i) :
    (s.getOrCreate name).2.1.get name = .ok (some i) := by
  by_cases hfound : ∃ j, s.registry.find? name = some (some j)
  · obtain ⟨j, hj⟩ := hfound
    rw [getOrCreate_of_found hj] at h ⊢
    cases h
    exact get_eq_ok_iff.mpr hj
  · have hnew : ∀ j, s.registry.find? name ≠ some (some j) := not_exists.mp hfound
    cases hb : Bucket.create name s.hash s.shards true with
    | ok b =>
      rw [getOrCreate_of_made hnew hb] at h ⊢
      cases h
      rw [get_eq_ok_iff, Registry.find?_insert, if_pos rfl]
    | error f =>
      exfalso
      unfold getOrCreate at h
      split at h
      · next j hj => exact hnew j hj
      · simp only [fill, hb, reduceCtorEq] at h
      · simp only [fill, hb, reduceCtorEq] at h

/-! ## Stores whose slots are full -/

/-- **Every slot has the bucket of its name.** -/
structure Sound (s : Store V) : Prop where
  ascending : s.registry.Ascending
  filled : ∀ name slot, s.registry.find? name = some slot →
    ∃ i b, slot = some i ∧ s.buckets[i]? = some b ∧ b.name = name

theorem Sound.of_registry_eq_nil (h : s.registry = []) : s.Sound := by
  refine ⟨?_, fun name slot hslot => ?_⟩
  · rw [Registry.Ascending, h]
    exact List.Pairwise.nil
  · rw [h] at hslot
    cases hslot

/-- What a call can do to a store whose slots are full. -/
inductive Effect (s : Store V) : Call → Outcome Answer → Store V → Prop
  | none (call : Call) (result : Outcome Answer) : Effect s call result s
  | made {name : Bytes} {b : Bucket V} (hnew : s.registry.find? name = .none)
    (hb : Bucket.create name s.hash s.shards true = .ok b) :
    Effect s (.getOrCreate name) (.ok (.slot (some s.buckets.length)))
      { s with
        registry := s.registry.insert name (some s.buckets.length)
        buckets := s.buckets ++ [b] }
  | removed {name : Bytes} :
    Effect s (.remove name) (.ok .removed) { s with registry := s.registry.erase name }

theorem Sound.shows (h : s.Sound) : s.Shows where
  ascending := h.ascending
  resolved name hname := by
    obtain ⟨slot, hslot⟩ := Option.isSome_iff_exists.mp ((Assoc.isSome_find?_iff _ _).mpr hname)
    obtain ⟨i, b, rfl, hb, hn⟩ := h.filled name slot hslot
    exact ⟨i, b, get_eq_ok_iff.mpr hslot, hb, hn⟩
  missing name f := by
    rw [names, ← Assoc.isSome_find?_iff, get]
    cases s.registry.find? name with
    | none => simp [eq_comm]
    | some slot => simp
  kept name f := by
    rw [names, ← Assoc.isSome_find?_iff, remove, Assoc.has]
    cases s.registry.find? name with
    | none => simp [eq_comm]
    | some slot => simp

/-- A call has one of three effects, if it can make the bucket that it asks for. -/
theorem Sound.effect (h : s.Sound) (call : Call)
    (hmake : s.Makes ∨ ∀ name, call ≠ .getOrCreate name) :
    Effect s call (s.answer call).1 (s.answer call).2 := by
  cases call with
  | getOrCreate name =>
    have hmakes : s.Makes := hmake.resolve_right fun hno => hno name rfl
    cases hslot : s.registry.find? name with
    | none =>
      obtain ⟨b, hb⟩ := hmakes.create name
      have hmade := getOrCreate_of_made (by rw [hslot]; exact fun i => nofun) hb
      simp only [answer, hmade, Except.map]
      exact .made hslot hb
    | some slot =>
      obtain ⟨i, b, rfl, -, -⟩ := h.filled name slot hslot
      simp only [answer, getOrCreate_of_found hslot]
      exact .none ..
  | get name => exact .none ..
  | remove name =>
    by_cases hname : s.registry.has name = true
    · simp only [answer, remove, if_pos hname]
      exact .removed
    · simp only [answer, remove, if_neg hname]
      exact .none ..
  | names => exact .none ..

/-- A name has a bucket: its slot has the instance. -/
structure Serves (s : Store V) (name : Bytes) (i : Instance) (b : Bucket V) : Prop where
  slot : s.registry.find? name = some (some i)
  bucket : s.buckets[i]? = some b

theorem Sound.serves (h : s.Sound) {name : Bytes} (hname : name ∈ s.names) :
    ∃ i b, s.Serves name i b := by
  obtain ⟨slot, hslot⟩ := Option.isSome_iff_exists.mp ((Assoc.isSome_find?_iff _ _).mpr hname)
  obtain ⟨i, b, rfl, hb, -⟩ := h.filled name slot hslot
  exact ⟨i, b, hslot, hb⟩

theorem Sound.name_eq (h : s.Sound) {b : Bucket V} (hb : s.Serves name i b) : b.name = name := by
  obtain ⟨j, c, hj, hc, hn⟩ := h.filled name _ hb.slot
  cases hj
  rw [hb.bucket] at hc
  cases hc
  exact hn

/-- The current buckets are those that names have. -/
theorem Sound.mem_current_iff (h : s.Sound) {b : Bucket V} :
    b ∈ s.current ↔ ∃ name i, s.Serves name i b := by
  simp only [current, registered, List.mem_filterMap]
  constructor
  · rintro ⟨i, ⟨⟨name, slot⟩, hmem, rfl⟩, hb⟩
    exact ⟨name, i, Assoc.find?_of_mem h.ascending.nodup hmem, hb⟩
  · rintro ⟨name, i, hslot, hb⟩
    exact ⟨i, ⟨(name, some i), Assoc.mem_of_find? hslot, rfl⟩, hb⟩

/-- The current buckets have the names of the registry, in their order. -/
theorem Sound.names_current (h : s.Sound) : s.current.map Bucket.name = s.names := by
  have hfull : ∀ r : Registry, (∀ p ∈ r, ∃ i b, p.2 = some i ∧ s.buckets[i]? = some b ∧
      b.name = p.1) → ((r.filterMap Prod.snd).filterMap (s.buckets[·]?)).map Bucket.name = r.keys := by
    intro r hr
    induction r with
    | nil => rfl
    | cons p rest ih =>
      obtain ⟨i, b, hslot, hb, hn⟩ := hr p List.mem_cons_self
      have hrest := ih fun q hq => hr q (List.mem_cons_of_mem _ hq)
      rw [List.filterMap_cons, hslot]
      simp only [List.filterMap_cons, hb, List.map_cons, hrest, hn]
      rfl
  refine hfull s.registry fun p hp => ?_
  exact h.filled p.1 p.2 (Assoc.find?_of_mem h.ascending.nodup hp)

variable {t : Store V} {result : Outcome Answer}

/-- Full slots stay full. -/
theorem Effect.sound (he : Effect s call result t) (h : s.Sound) : t.Sound := by
  cases he with
  | none => exact h
  | @made name b hnew hb =>
    refine ⟨h.ascending.insert .., fun j slot hslot => ?_⟩
    rw [Registry.find?_insert] at hslot
    split at hslot
    · next hj =>
      cases hslot
      obtain ⟨map, -, rfl⟩ := Bucket.eq_of_create hb
      exact ⟨s.buckets.length, { name, map }, rfl, by simp, hj.symm⟩
    · obtain ⟨i, c, hi, hc, hn⟩ := h.filled j slot hslot
      have hlt : i < s.buckets.length := (List.getElem?_eq_some_iff.mp hc).1
      exact ⟨i, c, hi, by simp only [List.getElem?_append_left hlt, hc], hn⟩
  | @removed name =>
    refine ⟨h.ascending.erase .., fun j slot hslot => ?_⟩
    rw [Assoc.find?_erase] at hslot
    split at hslot
    · cases hslot
    · exact h.filled j slot hslot

/-- A slot stays as it is until its name is removed. -/
theorem Effect.find? (he : Effect s call result t) {slot : Option Instance}
    (hslot : s.registry.find? name = some slot) (hkept : call ≠ .remove name) :
    t.registry.find? name = some slot := by
  cases he with
  | none => exact hslot
  | @made other b hnew hb =>
    have hother : name ≠ other := fun heq => by rw [heq, hnew] at hslot; cases hslot
    rw [Registry.find?_insert, if_neg hother, hslot]
  | @removed other =>
    have hother : name ≠ other := fun heq => hkept (heq ▸ rfl)
    rw [Assoc.find?_erase, if_neg hother, hslot]

theorem Effect.makes (he : Effect s call result t) : t.Makes ↔ s.Makes := by
  cases he <;> rfl

/-! ## Lists of calls -/

theorem after_append (s : Store V) (first rest : List Call) :
    s.after (first ++ rest) = (s.after first).after rest :=
  List.foldl_append

/-- What is kept by all effects that the calls can have is kept by a list of them. -/
theorem Sound.run {P : Store V → Prop} (h : s.Sound) (calls : List Call)
    (hmake : s.Makes ∨ ∀ name, .getOrCreate name ∉ calls) (hP : P s)
    (hkeep : ∀ s call result t, call ∈ calls → Effect s call result t → P s → P t) :
    (s.after calls).Sound ∧ P (s.after calls) := by
  induction calls generalizing s with
  | nil => exact ⟨h, hP⟩
  | cons call rest ih =>
    have heffect := h.effect call
      (hmake.imp_right fun hno name heq => hno name (heq ▸ List.mem_cons_self))
    refine ih (heffect.sound h) ?_ (hkeep _ _ _ _ List.mem_cons_self heffect hP)
      fun s call result t hmem => hkeep s call result t (List.mem_cons_of_mem _ hmem)
    rw [heffect.makes]
    exact hmake.imp_right fun hno name hmem => hno name (List.mem_cons_of_mem _ hmem)

/-- **No bucket is ever made.** -/
structure Bare (s : Store V) : Prop where
  makes : ¬ s.Makes
  buckets : s.buckets = []

theorem Bare.answer (h : s.Bare) (call : Call) : (s.answer call).2.Bare := by
  cases call with
  | getOrCreate name =>
    have hfail := fun registry =>
      create_of_not_makes (s := { s with registry }) h.makes name
    simp only [Store.answer, getOrCreate, fill, hfail]
    split
    all_goals exact ⟨h.makes, h.buckets⟩
  | get name => exact h
  | remove name =>
    by_cases hname : s.registry.has name = true
    · simp only [Store.answer, remove, if_pos hname]
      exact ⟨h.makes, h.buckets⟩
    · simp only [Store.answer, remove, if_neg hname]
      exact h
  | names => exact h

theorem Bare.after (h : s.Bare) (calls : List Call) : (s.after calls).Bare := by
  induction calls generalizing s with
  | nil => exact h
  | cons call rest ih => exact ih (h.answer call)

/-! ## New stores -/

variable {hash : Bytes → Nat} {workers queue shards : Nat} {log : Log}

theorem eq_of_create (h : create hash workers queue shards = .ok (s, log)) :
    WorkerPool.create workers queue = .ok s.pool ∧ s.shards = shards ∧ s.registry = [] ∧
      s.buckets = [] := by
  unfold create at h
  cases hpool : (WorkerPool.create workers queue : Outcome (WorkerPool (Product V))) with
  | error f =>
    rw [hpool] at h
    cases h
  | ok pool =>
    rw [hpool] at h
    cases h
    exact ⟨rfl, rfl, rfl, rfl⟩

/-- A store whose buckets can be made is dependable through all calls. -/
theorem Sound.dependable (h : s.Sound) (hmake : s.Makes ∨ ∀ name, .getOrCreate name ∉ calls) :
    s.Dependable calls := by
  -- what the calls before some point lead to, whatever they are
  have hafter : ∀ {first rest : List Call}, calls = first ++ rest → (s.after first).Sound ∧
      ((s.after first).Makes ∨ ∀ name, .getOrCreate name ∉ rest) := by
    intro first rest hcalls
    subst hcalls
    have hrun := h.run first (P := fun t => t.Makes ↔ s.Makes)
      (hmake.imp_right fun hno name hmem => hno name (List.mem_append_left _ hmem)) .rfl
      fun _ _ _ _ _ heffect hsame => heffect.makes.trans hsame
    refine ⟨hrun.1, ?_⟩
    rw [hrun.2]
    exact hmake.imp_right fun hno name hmem => hno name (List.mem_append_right _ hmem)
  refine ⟨fun first rest hcalls => (hafter hcalls).1.shows, ?_, ?_, ?_⟩
  · intro first call rest f hcalls hfail
    obtain ⟨hsound, hmake⟩ := hafter hcalls
    have heffect := hsound.effect call
      (hmake.imp_right fun hno name heq => hno name (heq ▸ List.mem_cons_self))
    rw [after_append]
    change (answer (s.after first) call).2.registry = _
    rw [hfail] at heffect
    generalize (answer (s.after first) call).2 = t at heffect ⊢
    cases heffect
    rfl
  · intro first name rest i hcalls hi
    rw [after_append]
    exact get_of_getOrCreate hi
  · intro first others rest name i hcalls hi hkept
    rw [List.append_assoc] at hcalls
    obtain ⟨hsound, hmake⟩ := hafter hcalls
    have hrun := hsound.run others
      (P := fun t => t.registry.find? name = some (some i))
      (hmake.imp_right fun hno name hmem => hno name (List.mem_append_left _ hmem))
      (get_eq_ok_iff.mp hi)
      fun _ call _ _ hmem heffect hfound => heffect.find? hfound fun heq => hkept (heq ▸ hmem)
    rw [after_append]
    exact ⟨get_eq_ok_iff.mpr hrun.2, by rw [getOrCreate_of_found hrun.2]⟩

/-- A store that makes no buckets is not dependable once it is asked for one. -/
theorem Bare.not_dependable (h : s.Bare) (hcall : .getOrCreate name ∈ calls) :
    ¬ s.Dependable calls := by
  intro hdep
  obtain ⟨first, rest, hcalls⟩ := List.append_of_mem hcall
  have hbare := h.after first
  cases hslot : (s.after first).registry.find? name with
  | none =>
    -- the call fails and its slot stays
    obtain ⟨f, hcreate⟩ : ∃ f, Bucket.create (V := V) name (s.after first).hash
        (s.after first).shards true = .error f := ⟨_, create_of_not_makes hbare.makes name⟩
    have hfail := getOrCreate_of_failed hslot hcreate
    have hsame := hdep.atomic first (.getOrCreate name) rest f hcalls
      (by simp only [Store.answer, hfail, Except.map])
    rw [after_append] at hsame
    change ((s.after first).getOrCreate name).2.1.registry = _ at hsame
    rw [hfail] at hsame
    dsimp only at hsame
    have hempty := Registry.find?_insert (s.after first).registry name name none
    rw [hsame, hslot, if_pos rfl] at hempty
    cases hempty
  | some slot =>
    -- a slot that is there is empty, as there are no buckets
    have hname : name ∈ (s.after first).names :=
      (Assoc.isSome_find?_iff _ _).mp (hslot ▸ rfl)
    obtain ⟨i, b, -, hb, -⟩ :=
      (hdep.shows first (.getOrCreate name :: rest) hcalls).resolved name hname
    rw [hbare.buckets] at hb
    cases hb

/-- **Which stores are dependable**: those that can make their buckets, through all calls; the others
only until the first bucket is asked for. -/
theorem dependable_iff (h : create hash workers queue shards = .ok (s, log)) (calls : List Call) :
    s.Dependable calls ↔
      (0 < shards ∧ shards < ShardedMap.room) ∨ ∀ name, .getOrCreate name ∉ calls := by
  obtain ⟨-, rfl, hregistry, hbuckets⟩ := eq_of_create h
  constructor
  · intro hdep
    by_cases hmakes : s.Makes
    · exact .inl hmakes
    · exact .inr fun name hcall => Bare.not_dependable ⟨hmakes, hbuckets⟩ hcall hdep
  · exact (Sound.of_registry_eq_nil hregistry).dependable

/-- **A bucket that cannot be made is listed all the same**, and found without an instance. -/
theorem unmade_listed (h : create hash workers queue shards = .ok (s, log))
    (hmakes : ¬ (0 < shards ∧ shards < ShardedMap.room)) (name : Bytes) :
    (s.answer (.getOrCreate name)).1 = .error (if shards = 0 then .noShards else .noRoom) ∧
      (s.after [.getOrCreate name]).names = [name] ∧
      (s.after [.getOrCreate name]).get name = .ok none := by
  obtain ⟨-, rfl, hregistry, -⟩ := eq_of_create h
  have hnone : s.registry.find? name = none := by rw [hregistry]; rfl
  have hfail := getOrCreate_of_failed hnone (create_of_not_makes hmakes name)
  have hafter : s.after [.getOrCreate name] = { s with registry := [(name, none)] } := by
    change (s.getOrCreate name).2.1 = _
    rw [hfail, hregistry]
    rfl
  refine ⟨?_, ?_, ?_⟩
  · simp only [answer, hfail, Except.map]
  · rw [hafter]
    rfl
  · rw [hafter, get_eq_ok_iff]
    exact (Registry.find?_insert [] name name none).trans (if_pos rfl)

/-- Two buckets are asked for, one of them is removed and asked for again. -/
def reopening : List Call :=
  [.getOrCreate (Bytes.ascii "b"), .getOrCreate (Bytes.ascii "a"), .remove (Bytes.ascii "b"),
    .remove (Bytes.ascii "b"), .getOrCreate (Bytes.ascii "b"), .names]

theorem sharded_dependable : ∃ s log,
    create (V := Value) List.length 1 1 1 = .ok (s, log) ∧
    s.Dependable reopening ∧ (s.after reopening).get (Bytes.ascii "b") = .ok (some 2) := by
  have hcreate : create (V := Value) List.length 1 1 1 = .ok (_, _) := rfl
  exact ⟨_, _, hcreate, (dependable_iff hcreate _).mpr (.inl (by decide)), rfl⟩

/-- **A bucket that could not be made is listed**, and found without an instance. -/
theorem unmade_bucket_listed : ∃ s log,
    create (V := Value) List.length 4 16 0 = .ok (s, log) ∧
    (s.answer (.getOrCreate (Bytes.ascii "a"))).1 = .error .noShards ∧
    (s.after [.getOrCreate (Bytes.ascii "a")]).names = [Bytes.ascii "a"] ∧
    (s.after [.getOrCreate (Bytes.ascii "a")]).get (Bytes.ascii "a") = .ok none ∧
    ¬ s.Dependable [.getOrCreate (Bytes.ascii "a")] := by
  refine ⟨_, _, rfl, rfl, rfl, rfl, fun hdep => ?_⟩
  have hname := (hdep.shows [.getOrCreate (Bytes.ascii "a")] [] rfl).resolved (Bytes.ascii "a")
    (by decide +kernel)
  obtain ⟨i, b, -, hb, -⟩ := hname
  cases hb

end Store

end Keyspace
