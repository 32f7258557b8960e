import Keyspace.Proofs.GuardMemory
import Mathlib.Data.List.Nodup

/-!
# One guard for each lock

What the guards of a table are like in every state that their operations lead to, from a table
without locks on (`GuardTable.one_guard_for_each_lock`). The operations are any list that is
possible, over any slots; possible is every operation but to lock a key that a guard owns.

The locks are accounted for twice. In the table, the keys that have an entry are the keys of the
guards that own a lock, with one reference each (`GuardTable.OneOwner`). In memory, where a guard is
fields that move one by one, each lock that was ever taken has either been released, once, or is
pointed to by one guard (`GuardTable.Accounted`); no operation follows a pointer to an entry that is
gone, or unlocks one twice, because then it would have no result.
-/

namespace Keyspace

namespace GuardTable

variable {t t' : GuardTable} {a : Step} {slot slot' key : Bytes} {m : GuardMemory}

/-! ## The guards that own a lock -/

/-- **The slots whose guard owns a lock.** -/
def owners (t : GuardTable) : List Bytes :=
  t.slots.keys.filter t.owns

/-- The slots that an operation leaves without a lock. -/
def Step.empties : Step → List Bytes
  | .lock _ _ => []
  | .unlock slot => [slot]
  | .drop slot => [slot]
  | .assign source target => if source = target then [] else [source]
  | .construct source target => if source = target then [] else [source]

/-- A slot that was never used owns nothing. -/
theorem mem_keys_of_owns (h : t.owns slot) : slot ∈ t.slots.keys := by
  refine (Assoc.isSome_find?_iff t.slots slot).mp ?_
  cases hfound : t.slots.find? slot with
  | none =>
    rw [owns, guard, hfound] at h
    cases h
  | some g => rfl

theorem mem_owners_iff (t : GuardTable) (slot : Bytes) : slot ∈ t.owners ↔ t.owns slot := by
  rw [owners, List.mem_filter]
  exact ⟨fun h => h.2, fun h => ⟨mem_keys_of_owns h, h⟩⟩

theorem owns_eq (h : t.holdings.Owned) (slot : Bytes) : t.owns slot = (t.key? slot).isSome :=
  (h.isSome_key? (some slot)).symm

theorem key?_injective (h : t.holdings.Owned) (hslot : t.key? slot = some key)
    (hslot' : t.key? slot' = some key) : slot = slot' :=
  Option.some.inj (h.key?_injective hslot hslot')

/-- A key that is locked is the key of a guard in a slot. -/
theorem mem_keys_iff (h : t.holdings.Owned) (key : Bytes) :
    key ∈ t.locks.entries.keys ↔ ∃ slot, t.key? slot = some key := by
  rw [← Assoc.isSome_find?_iff]
  refine (h.isSome_entry_iff key).trans ⟨?_, fun ⟨slot, hslot⟩ => ⟨some slot, hslot⟩⟩
  rintro ⟨p, hp⟩
  cases p with
  | none => cases hp
  | some slot => exact ⟨slot, hp⟩

/-- **The keys that are locked are those of the guards**, one guard for each. -/
theorem owners_perm (h : t.holdings.Owned) (hslots : t.slots.keys.Nodup) :
    (t.owners.map t.key?).Perm (t.locks.entries.keys.map some) := by
  have howners : ∀ slot ∈ t.owners, ∃ key, t.key? slot = some key := by
    intro slot hslot
    rw [mem_owners_iff, owns_eq h] at hslot
    exact Option.isSome_iff_exists.mp hslot
  refine (List.perm_ext_iff_of_nodup ?_ ?_).mpr fun k => ?_
  · refine List.Nodup.map_on (fun slot hslot slot' _ heq => ?_) (hslots.filter t.owns)
    obtain ⟨key, hkey⟩ := howners slot hslot
    exact key?_injective h hkey (heq ▸ hkey)
  · exact List.Nodup.map (fun _ _ => Option.some.inj) h.registered.keys
  · rw [List.mem_map, List.mem_map]
    constructor
    · rintro ⟨slot, hslot, rfl⟩
      obtain ⟨key, hkey⟩ := howners slot hslot
      exact ⟨key, (mem_keys_iff h key).mpr ⟨slot, hkey⟩, hkey.symm⟩
    · rintro ⟨key, hkey, rfl⟩
      obtain ⟨slot, hslot⟩ := (mem_keys_iff h key).mp hkey
      refine ⟨slot, ?_, hslot⟩
      rw [mem_owners_iff, owns_eq h, hslot]
      rfl

/-- The entry of a key is referred to by the claim of its guard alone. -/
theorem counted (h : t.holdings.Owned) {e : LockEntry} (he : t.locks.entries.find? key = some e) :
    e.references = 1 ∧ ∃ slot, t.key? slot = some key ∧ t.guard slot = e.owner := by
  obtain ⟨slot, hslot⟩ := (mem_keys_iff h key).mp
    ((Assoc.isSome_find?_iff t.locks.entries key).mp (Option.isSome_iff_exists.mpr ⟨e, he⟩))
  obtain ⟨c, x, hguard, hx, rfl⟩ := (h.key?_eq_some_iff (some slot) key).mp hslot
  have hentry := h.find?_entry hx
  rw [show t.holdings.locks = t.locks from rfl, he] at hentry
  cases hentry
  exact ⟨rfl, slot, hslot, hguard⟩

theorem owns_of_empties (h : t.holdings.Owned) (hstep : t.step? a = some t')
    (hslot : slot ∈ a.empties) : t'.owns slot = false := by
  have heffect := effect_of_step? h hstep
  suffices hkey : t'.key? slot = none by rw [owns_eq heffect.owned, hkey]; rfl
  rw [heffect.key?_eq]
  cases a with
  | lock key target => cases hslot
  | unlock s | drop s =>
    rw [List.mem_singleton.mp hslot]
    exact Function.update_self ..
  | assign source target | construct source target =>
    simp only [Step.empties] at hslot
    split at hslot
    · cases hslot
    · next hne =>
      rw [List.mem_singleton.mp hslot, Step.after, handed, if_neg hne]
      exact Function.update_self ..

theorem guard_eq_none (h : t.owns slot = false) : t.guard slot = none := by
  rw [← Option.not_isSome_iff_eq_none, ← owns, h]
  exact Bool.false_ne_true

/-- Nothing happens when a guard without a lock is unlocked or destroyed. -/
theorem idle (h : t.owns slot = false) : (t.unlock slot).locks = t.locks ∧
    (t.unlock slot).guard = t.guard ∧ (t.dropGuard slot).locks = t.locks ∧
    (t.dropGuard slot).guard = t.guard := by
  have hguard := guard_eq_none h
  have hlocks : released t.locks (t.guard slot) = t.locks := by rw [hguard, released]
  have hkept : Function.update t.guard slot none = t.guard := by
    rw [← hguard, Function.update_eq_self]
  exact ⟨hlocks, (guard_assign t slot none).trans hkept, hlocks,
    (guard_dropGuard t slot).trans hkept⟩

/-! ## The locks in memory -/

/-- **Every lock that was taken is accounted for**: one guard points to it, or it was released. -/
structure Accounted (t : GuardTable) (m : GuardMemory) : Prop where
  attached : ∀ slot, (m.guards (some slot)).attached = t.owns slot
  key : ∀ slot key, t.key? slot = some key → (m.guards (some slot)).key = key
  /-- A guard points to the entry of its key, and to nothing without one. -/
  entry : ∀ slot, (m.guards (some slot)).entry = (t.key? slot).bind m.heap.entries.find?
  entries : ∀ key, (m.heap.entries.find? key).isSome = (t.locks.entries.find? key).isSome
  /-- The entries count one reference and are locked; there are none but those pointed to. -/
  cells : ∀ address cell, m.heap.cells.find? address = some cell ↔
    cell = ⟨1, true⟩ ∧ ∃ slot, (m.guards (some slot)).entry = some address
  taken : m.heap.locked.Nodup
  released : m.heap.released.Nodup
  taken_iff : ∀ address, address ∈ m.heap.locked ↔
    address ∈ m.heap.released ∨ ∃ slot, (m.guards (some slot)).entry = some address
  kept : ∀ slot address, (m.guards (some slot)).entry = some address →
    address ∉ m.heap.released ∧
      ∀ slot', (m.guards (some slot')).entry = some address → slot' = slot
  idle : ∀ slot, t.owns slot = false → m.unlock? (some slot) = some m ∧
    m.destroy? (some slot) = some ⟨m.heap, Function.update m.guards (some slot) {}⟩
  /-- To assign over a guard releases the entry that it points to, and no other one. -/
  assigns : ∀ source target left, source ≠ target → ∃ m',
    m.assign? (some source) (some target) left = some m' ∧
      m'.heap.released = m.heap.released ++ (m.guards (some target)).entry.toList ∧
      m'.heap.locked = m.heap.locked

/-- The pointers of the slots lead to all entries. -/
theorem registers_iff (h : t.holdings.Owned) (hm : GuardMemory.Lays t.holdings m) (address : Nat) :
    m.heap.Registers address ↔ ∃ slot, (m.guards (some slot)).entry = some address := by
  refine (hm.registers_iff_pointed h address).trans ⟨?_, fun ⟨slot, hslot⟩ => ⟨some slot, hslot⟩⟩
  rintro ⟨p, hp⟩
  cases p with
  | none =>
    obtain ⟨left, hleft⟩ := hm.fields_of_none (p := none) rfl
    rw [hleft] at hp
    cases hp
  | some slot => exact ⟨slot, hp⟩

theorem accounted (h : t.holdings.Owned) (hm : GuardMemory.Lays t.holdings m) :
    Accounted t m where
  attached slot := by
    cases hguard : t.guard slot with
    | none =>
      obtain ⟨left, hleft⟩ := hm.fields_of_none (p := some slot) hguard
      rw [hleft, owns, hguard]
      rfl
    | some c =>
      obtain ⟨x, hx, -⟩ := h.holding (some slot) c hguard
      rw [hm.fields_of_some (p := some slot) hguard hx, owns, hguard]
      rfl
  key slot key hkey := by
    obtain ⟨c, x, hguard, hx, rfl⟩ := (h.key?_eq_some_iff (some slot) key).mp hkey
    rw [hm.fields_of_some hguard hx]
  entry slot := hm.entry_eq h (some slot)
  entries key := by
    rw [hm.entries, Option.isSome_map]
    rfl
  cells address cell := by rw [hm.heap.cells, registers_iff h hm]
  taken := by
    rw [hm.heap.locked]
    exact List.nodup_range
  released := hm.heap.released
  taken_iff address := by
    rw [hm.heap.locked, List.mem_range, hm.heap.released_iff, ← registers_iff h hm]
    constructor
    · intro hlt
      exact (Classical.em _).symm.imp_left fun hfree => ⟨hlt, hfree⟩
    · rintro (⟨hlt, -⟩ | hregistered)
      · exact hlt
      · exact hm.heap.numbered address hregistered
  kept slot address hslot := by
    refine ⟨fun hreleased => ?_, fun slot' hslot' => ?_⟩
    · have hregistered := (registers_iff h hm address).mpr ⟨slot, hslot⟩
      exact ((hm.heap.released_iff address).mp hreleased).2 hregistered
    · exact Option.some.inj (hm.entry_injective h hslot' hslot)
  idle slot hidle := by
    have hguard : t.holdings.guard (some slot) = none := guard_eq_none hidle
    exact ⟨hm.unlock?_of_none hguard, hm.destroy?_of_none hguard⟩
  assigns source target left hne := by
    obtain ⟨m', hassign, -, hreleased⟩ := hm.assign h (GuardPlace.slot_ne hne) left
    exact ⟨m', hassign, hreleased⟩

/-! ## The contract -/

/-- **One guard for each lock**, in the state that a list of operations leads to. -/
structure OneOwner (steps : List Step) (t : GuardTable) : Prop where
  /-- The slots own what the operations are meant to leave to them. -/
  follows : t.key? = afterAll (fun _ => none) steps
  owns_eq : ∀ slot, t.owns slot = (t.key? slot).isSome
  owners : t.owners.Nodup ∧ ∀ slot, slot ∈ t.owners ↔ t.owns slot
  /-- The keys that are locked are those of the guards, each of one guard. -/
  keys : t.locks.entries.keys.Nodup ∧ (t.owners.map t.key?).Perm (t.locks.entries.keys.map some)
  unique : ∀ slot slot' key, t.key? slot = some key → t.key? slot' = some key → slot = slot'
  size : t.locks.size = t.owners.length
  counted : ∀ key e, t.locks.entries.find? key = some e →
    e.references = 1 ∧ ∃ slot, t.key? slot = some key ∧ t.guard slot = e.owner
  possible_iff : ∀ a, (machine.step? t a).isSome ↔
    ∀ key, a.locks? = some key → ∀ slot, t.key? slot ≠ some key
  unused : ∀ slot, slot ∉ t.slots.keys → t.owns slot = false
  emptied : ∀ a u, machine.step? t a = some u → ∀ slot ∈ a.empties, u.owns slot = false
  idle : ∀ slot, t.owns slot = false → (t.unlock slot).locks = t.locks ∧
    (t.unlock slot).guard = t.guard ∧ (t.dropGuard slot).locks = t.locks ∧
    (t.dropGuard slot).guard = t.guard
  /-- An operation takes away the entry of the key that it releases, and leaves all others. -/
  releases : ∀ a u, machine.step? t a = some u → ∀ key, u.locks.entries.find? key =
    if a.releases? t.key? = some key then none
    else if a.locks? = some key then some ⟨t.locks.nextEntry, 1, some t.locks.nextClaim⟩
    else t.locks.entries.find? key
  /-- Whatever the strings hold that were moved from, the operations are done in memory, too. They
  take as many locks there as keys are locked, and all of them are accounted for. -/
  laidOut : ∀ marked : List (Step × Bytes × Bytes), marked.map Prod.fst = steps →
    ∃ m, GuardMemory.machine.run? {} marked = some m ∧ Accounted t m ∧
      m.heap.locked.length = (steps.filterMap Step.locks?).length

/-- **Each lock has one guard, and is released once.** -/
theorem one_guard_for_each_lock {steps : List Step} (hrun : machine.run? {} steps = some t) :
    OneOwner steps t := by
  obtain ⟨h, hkey, hnext⟩ := owned_of_run owned_empty hrun
  have hunused : ({} : GuardTable).slots.keys.Nodup := List.nodup_nil
  have hslots := nodup_slots_of_run hunused hrun
  have hperm := owners_perm h hslots
  exact {
    follows := by
      rw [hkey]
      rfl
    owns_eq := GuardTable.owns_eq h
    owners := ⟨hslots.filter _, t.mem_owners_iff⟩
    keys := ⟨h.registered.keys, hperm⟩
    unique slot slot' key := key?_injective h
    size := by
      have hlength := hperm.length_eq
      rw [List.length_map, List.length_map, Assoc.keys, List.length_map] at hlength
      exact hlength.symm
    counted key e he := GuardTable.counted h he
    possible_iff a := isSome_step?_iff h
    unused slot hslot := Bool.eq_false_iff.mpr fun howns => hslot (mem_keys_of_owns howns)
    emptied a u hstep slot hslot := owns_of_empties h hstep hslot
    idle slot hidle := GuardTable.idle hidle
    releases a u hstep := (effect_of_step? h hstep).entries
    laidOut marked hmarked := by
      obtain ⟨m, hm, hlays⟩ := GuardMemory.lays_empty.run owned_empty hrun hmarked
      refine ⟨m, hm, accounted h hlays, ?_⟩
      rw [hlays.heap.locked, List.length_range, hlays.fresh]
      exact hnext.trans (Nat.zero_add _) }

/-- The lock of one key is assigned over that of another, to itself, and by way of a new guard to
the slot where it was first; the slot that it came from is unlocked, and gets a lock anew. -/
def wanderingGuard : List Step :=
  [.lock [107] [1], .lock [108] [2], .assign [1] [2], .assign [2] [2], .construct [2] [1],
    .unlock [2], .lock [108] [2]]

theorem wandering_owned : ∃ t, machine.run? {} wanderingGuard = some t ∧
    t.owners = [[1], [2]] ∧ t.key? [1] = some [107] ∧ t.key? [2] = some [108] ∧
    t.locks.size = 2 ∧ OneOwner wanderingGuard t := by
  have hrun : machine.run? {} wanderingGuard = some _ := rfl
  exact ⟨_, hrun, rfl, rfl, rfl, rfl, one_guard_for_each_lock hrun⟩

end GuardTable

end Keyspace
