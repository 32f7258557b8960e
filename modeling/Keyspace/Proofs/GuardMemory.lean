import Keyspace.Proofs.GuardSteps

/-!
# Guards in memory

A guard that owns a claim is, as it is laid out, three fields that move separately: whether it is
attached to a table, the key that it locked, and a pointer to the entry of the key. Its pointers are
cleared when it is moved away, while its key is left with whatever a string holds that was moved
from. A release follows the pointer to unlock the entry and to count it down, but erases by the key.

Here the operations of guards act on such fields. What must never be done has no result: to follow a
pointer to no entry, to unlock a mutex that is not locked, to wait for a mutex that the only thread
holds. Memory is not used again, so that a pointer to an entry that is gone stays one.

**The simulation** (`GuardMemory.Lays.step`): whatever strings hold that were moved from, an
operation that the guards of a table can do has a result in memory as well, and memory lays out the
guards that it leaves. The locks that were taken and those that were released are written down by
the calls that do it; what is laid out includes that each was released once, unless its entry is
still there (`LockHeap.Sound`).
-/

namespace Keyspace

/-! ## The table -/

/-- **An entry in memory**: the references that it counts, and whether its mutex is locked. -/
structure LockCell where
  references : UInt64
  locked : Bool
deriving DecidableEq, Repr

/-- **The table in memory**: the address of the entry of each key, the entries, and the address that
the next one gets; beside them, in the order of the calls, which entries were locked and which were
released. -/
structure LockHeap where
  entries : Assoc Bytes Nat := []
  cells : Assoc Nat LockCell := []
  fresh : Nat := 0
  locked : List Nat := []
  released : List Nat := []
deriving DecidableEq, Repr

namespace LockHeap

variable {m : LockHeap} {key : Bytes} {address : Nat}

/-- The entry of a key, which is made if the key has none. -/
def slot (m : LockHeap) (key : Bytes) : LockHeap × Nat :=
  match m.entries.find? key with
  | some address => (m, address)
  | none =>
    ({ m with
        entries := m.entries.put key m.fresh
        cells := m.cells.put m.fresh ⟨0, false⟩
        fresh := m.fresh + 1 },
      m.fresh)

/-- An entry counts one more reference, and its mutex is locked. -/
def acquire? (m : LockHeap) (address : Nat) : Option LockHeap :=
  match m.cells.find? address with
  | some ⟨references, false⟩ =>
    some { m with
      cells := m.cells.put address ⟨references + 1, true⟩
      locked := m.locked ++ [address] }
  | _ => none

/-- A key is locked; its entry is what the guard points to. -/
def lock? (m : LockHeap) (key : Bytes) : Option (LockHeap × Nat) :=
  let (m, address) := m.slot key
  (m.acquire? address).map fun m => (m, address)

/-- A key loses its entry, if it has one. -/
def erase (m : LockHeap) (key : Bytes) : LockHeap :=
  match m.entries.find? key with
  | some address => { m with entries := m.entries.erase key, cells := m.cells.erase address }
  | none => m

/-- The mutex of an entry is unlocked and a reference dropped; with the last one, a key loses its
entry. -/
def release? (m : LockHeap) (key : Bytes) (address : Nat) : Option LockHeap :=
  match m.cells.find? address with
  | some ⟨references, true⟩ =>
    let m := { m with
      cells := m.cells.put address ⟨references - 1, false⟩
      released := m.released ++ [address] }
    some (if references - 1 = 0 then m.erase key else m)
  | _ => none

/-- Some key has the entry at an address. -/
def Registers (m : LockHeap) (address : Nat) : Prop :=
  ∃ key, m.entries.find? key = some address

/-- The table after a key without an entry was locked. -/
def taken (m : LockHeap) (key : Bytes) : LockHeap :=
  { m with
    entries := m.entries.put key m.fresh
    cells := m.cells.put m.fresh ⟨1, true⟩
    fresh := m.fresh + 1
    locked := m.locked ++ [m.fresh] }

/-- The table after the only reference to the entry of a key was dropped. -/
def dropped (m : LockHeap) (key : Bytes) (address : Nat) : LockHeap :=
  { m with
    entries := m.entries.erase key
    cells := m.cells.erase address
    released := m.released ++ [address] }

theorem lock?_of_new (hkey : m.entries.find? key = none) :
    m.lock? key = some (m.taken key, m.fresh) := by
  simp only [lock?, slot, hkey, acquire?, Assoc.find?_put, if_true, Option.map_some,
    Assoc.put_put_self, UInt64.zero_add, taken]

theorem release?_of_last (hkey : m.entries.find? key = some address)
    (hcell : m.cells.find? address = some ⟨1, true⟩) :
    m.release? key address = some (m.dropped key address) := by
  simp only [release?, hcell, UInt64.sub_self, if_true, erase, hkey, Assoc.erase_put_self, dropped]

/-- The address of a first entry is registered beside those that were. -/
theorem registers_taken (hkey : m.entries.find? key = none) (b : Nat) :
    (m.taken key).Registers b ↔ b = m.fresh ∨ m.Registers b := by
  simp only [Registers, taken, Assoc.find?_put]
  constructor
  · rintro ⟨k, hk⟩
    split at hk
    · exact .inl (Option.some.inj hk).symm
    · exact .inr ⟨k, hk⟩
  · rintro (rfl | ⟨k, hk⟩)
    · exact ⟨key, if_pos rfl⟩
    · have hne : k ≠ key := by
        rintro rfl
        rw [hkey] at hk
        cases hk
      exact ⟨k, by rw [if_neg hne, hk]⟩

/-- The address of an entry that one key has is not registered without it. -/
theorem registers_dropped (hkey : m.entries.find? key = some address)
    (honly : ∀ k, m.entries.find? k = some address → k = key) (b : Nat) :
    (m.dropped key address).Registers b ↔ b ≠ address ∧ m.Registers b := by
  simp only [Registers, dropped, Assoc.find?_erase]
  constructor
  · rintro ⟨k, hk⟩
    split at hk
    · cases hk
    · next hne =>
      refine ⟨?_, k, hk⟩
      rintro rfl
      exact hne (honly k hk)
  · rintro ⟨hb, k, hk⟩
    have hne : k ≠ key := by
      rintro rfl
      rw [hkey] at hk
      exact hb (Option.some.inj hk).symm
    exact ⟨k, by rw [if_neg hne, hk]⟩

/-- **The table accounts for what was locked.** -/
structure Sound (m : LockHeap) : Prop where
  /-- Every entry counts one reference and is locked, and there is none besides those of keys. -/
  cells : ∀ address cell, m.cells.find? address = some cell ↔
    cell = ⟨1, true⟩ ∧ m.Registers address
  distinct : ∀ key key' address, m.entries.find? key = some address →
    m.entries.find? key' = some address → key = key'
  numbered : ∀ address, m.Registers address → address < m.fresh
  locked : m.locked = List.range m.fresh
  released : m.released.Nodup
  released_iff : ∀ address, address ∈ m.released ↔ address < m.fresh ∧ ¬ m.Registers address

theorem Sound.empty : Sound {} := by
  have hnone : ∀ address, ¬ Registers {} address := fun _ ⟨_, hkey⟩ => nomatch hkey
  refine ⟨?_, nofun, ?_, rfl, List.nodup_nil, ?_⟩
  · exact fun address _ => iff_of_false nofun fun h => hnone address h.2
  · exact fun address h => absurd h (hnone address)
  · exact fun _ => iff_of_false nofun fun h => Nat.not_lt_zero _ h.1

/-- A key that is locked has an entry at an address that none has had. -/
theorem Sound.taken (h : m.Sound) (hkey : m.entries.find? key = none) : (m.taken key).Sound := by
  have hfresh : ∀ k, m.entries.find? k ≠ some m.fresh := fun k hk =>
    Nat.lt_irrefl _ (h.numbered m.fresh ⟨k, hk⟩)
  refine ⟨fun b cell => ?_, fun k k' b hk hk' => ?_, fun b hb => ?_, ?_, h.released, fun b => ?_⟩
  · rw [registers_taken hkey]
    simp only [LockHeap.taken, Assoc.find?_put]
    split
    · next hb => simp only [hb, true_or, and_true, Option.some.injEq, eq_comm]
    · next hb => simp only [h.cells, hb, false_or]
  · simp only [LockHeap.taken, Assoc.find?_put] at hk hk'
    split at hk <;> split at hk'
    · next hkey hkey' => rw [hkey, hkey']
    · exact absurd (hk'.trans hk.symm) (hfresh k')
    · exact absurd (hk.trans hk'.symm) (hfresh k)
    · exact h.distinct k k' b hk hk'
  · rcases (registers_taken hkey b).mp hb with rfl | hold
    · exact Nat.lt_succ_self m.fresh
    · exact Nat.lt_succ_of_lt (h.numbered b hold)
  · simp only [LockHeap.taken, h.locked, List.range_succ]
  · rw [registers_taken hkey]
    simp only [LockHeap.taken, h.released_iff, not_or]
    constructor
    · rintro ⟨hlt, hb⟩
      exact ⟨Nat.lt_succ_of_lt hlt, Nat.ne_of_lt hlt, hb⟩
    · rintro ⟨hle, hne, hb⟩
      exact ⟨Nat.lt_of_le_of_ne (Nat.le_of_lt_succ hle) hne, hb⟩

/-- An entry that is released was not released before. -/
theorem Sound.dropped (h : m.Sound) (hkey : m.entries.find? key = some address) :
    (m.dropped key address).Sound := by
  have hregisters := registers_dropped hkey fun k hk => h.distinct k key address hk hkey
  have hregistered : m.Registers address := ⟨key, hkey⟩
  refine ⟨fun b cell => ?_, fun k k' b hk hk' => ?_, fun b hb => ?_, h.locked, ?_, fun b => ?_⟩
  · rw [hregisters]
    simp only [LockHeap.dropped, Assoc.find?_erase]
    split
    · next hb => simp only [reduceCtorEq, hb, ne_eq, not_true_eq_false, false_and, and_false]
    · next hb => simp only [h.cells, hb, ne_eq, not_false_eq_true, true_and]
  · simp only [LockHeap.dropped, Assoc.find?_erase] at hk hk'
    split at hk
    · cases hk
    · split at hk'
      · cases hk'
      · exact h.distinct k k' b hk hk'
  · exact h.numbered b ((hregisters b).mp hb).2
  · refine List.nodup_append.mpr ⟨h.released, List.pairwise_singleton _ _, ?_⟩
    rintro b hb b' hb' rfl
    rw [List.mem_singleton.mp hb'] at hb
    exact ((h.released_iff address).mp hb).2 hregistered
  · rw [hregisters]
    simp only [LockHeap.dropped, List.mem_append, List.mem_singleton, h.released_iff]
    by_cases hb : b = address
    · simp only [hb, h.numbered address hregistered, or_true, ne_eq, not_true_eq_false, false_and,
        not_false_eq_true, and_self]
    · simp only [hb, or_false, ne_eq, not_false_eq_true, true_and]

end LockHeap

/-! ## Guards -/

/-- **The fields of a guard.** -/
structure GuardFields where
  attached : Bool := false
  key : Bytes := []
  entry : Option Nat := none
deriving DecidableEq, Repr

/-- **Guards in memory**, at their places. -/
structure GuardMemory where
  heap : LockHeap := {}
  guards : GuardPlace → GuardFields := fun _ => {}

namespace GuardMemory

/-- A key is locked and the guard made at a place. -/
def lock? (m : GuardMemory) (p : GuardPlace) (key : Bytes) : Option GuardMemory :=
  (m.heap.lock? key).map fun (heap, address) =>
    ⟨heap, Function.update m.guards p ⟨true, key, some address⟩⟩

/-- A guard that is attached releases, and is detached. -/
def unlock? (m : GuardMemory) (p : GuardPlace) : Option GuardMemory :=
  let g := m.guards p
  if g.attached then
    g.entry.bind fun address => (m.heap.release? g.key address).map fun heap =>
      ⟨heap, Function.update m.guards p ⟨false, g.key, none⟩⟩
  else some m

/-- A guard is constructed from another one, which keeps `left` of its key. -/
def construct (m : GuardMemory) (p q : GuardPlace) (left : Bytes) : GuardMemory :=
  ⟨m.heap, Function.update (Function.update m.guards q (m.guards p)) p ⟨false, left, none⟩⟩

/-- A guard is assigned to another one. Unless the two are the same, that is unlocked first and then
given the fields of the guard. -/
def assign? (m : GuardMemory) (p q : GuardPlace) (left : Bytes) : Option GuardMemory :=
  if p = q then some m else (m.unlock? q).map fun m => m.construct p q left

/-- A guard is destroyed; a new one that stands at its place is attached to nothing. -/
def destroy? (m : GuardMemory) (p : GuardPlace) : Option GuardMemory :=
  (m.unlock? p).map fun m => ⟨m.heap, Function.update m.guards p {}⟩

/-- **The operations in memory**, with what the strings hold that they move from: the key of the
guard that they begin with, and that of the guard that is constructed on the way. -/
def step? (m : GuardMemory) : GuardTable.Step × Bytes × Bytes → Option GuardMemory
  | (.lock key slot, _, left) =>
    (m.lock? none key).bind fun m => (m.assign? none (some slot) left).bind fun m =>
      m.destroy? none
  | (.unlock slot, _) => m.unlock? (some slot)
  | (.drop slot, _) => m.destroy? (some slot)
  | (.assign source target, left, _) => m.assign? (some source) (some target) left
  | (.construct source target, left, left') =>
    ((m.construct (some source) none left).assign? none (some target) left').bind fun m =>
      m.destroy? none

/-- **Guards in memory as a machine.** A step shows itself. -/
def machine : Machine GuardMemory (GuardTable.Step × Bytes × Bytes) GuardTable.Step where
  step? := step?
  event _ a := a.1

/-! ## What is laid out -/

/-- **Fields fit a guard**: those of its claim, or any key and no pointers. -/
def Fits (locks : KeyLocks) (f : GuardFields) : Guard → Prop
  | none => ∃ left, f = ⟨false, left, none⟩
  | some c => ∃ x, locks.claims.find? c = some x ∧ f = ⟨true, x.key, some x.entry⟩

/-- **Memory lays out guards at their places.** -/
structure Lays (s : Holdings) (m : GuardMemory) : Prop where
  entries : ∀ key, m.heap.entries.find? key = (s.locks.entries.find? key).map LockEntry.id
  fresh : m.heap.fresh = s.locks.nextEntry
  heap : m.heap.Sound
  guards : ∀ p, Fits s.locks (m.guards p) (s.guard p)

variable {s s' : Holdings} {m m' : GuardMemory} {p q : GuardPlace} {key : Bytes} {c : ClaimId}
  {x : Claim} {locks locks' : KeyLocks} {g : Guard} {f : GuardFields}

theorem fits_none (left : Bytes) : Fits locks ⟨false, left, none⟩ none :=
  ⟨left, rfl⟩

/-- A claim that is found as it was has the same fields. -/
theorem Fits.congr (h : Fits locks f g)
    (hclaims : ∀ c, g = some c → locks'.claims.find? c = locks.claims.find? c) :
    Fits locks' f g := by
  cases g with
  | none => exact h
  | some c =>
    obtain ⟨x, hx, hf⟩ := h
    exact ⟨x, (hclaims c rfl).trans hx, hf⟩

/-- Fields are set with the guard that they fit. -/
theorem fits_update {fields : GuardPlace → GuardFields} {guard : GuardPlace → Guard}
    (hp : Fits locks f g) (hother : ∀ q, q ≠ p → Fits locks (fields q) (guard q))
    (q : GuardPlace) :
    Fits locks (Function.update fields p f q) (Function.update guard p g q) := by
  by_cases hqp : q = p
  · subst hqp
    rw [Function.update_self, Function.update_self]
    exact hp
  · rw [Function.update_of_ne hqp, Function.update_of_ne hqp]
    exact hother q hqp

theorem Lays.fields_of_none (hm : Lays s m) (hp : s.guard p = none) :
    ∃ left, m.guards p = ⟨false, left, none⟩ := by
  have hfits := hm.guards p
  rw [hp] at hfits
  exact hfits

theorem Lays.fields_of_some (hm : Lays s m) (hp : s.guard p = some c)
    (hx : s.locks.claims.find? c = some x) : m.guards p = ⟨true, x.key, some x.entry⟩ := by
  have hfits := hm.guards p
  rw [hp] at hfits
  obtain ⟨y, hy, hfields⟩ := hfits
  rw [hx] at hy
  cases hy
  exact hfields

/-- The entry of a guard is that of its key. -/
theorem Lays.find?_entry (hm : Lays s m) (hs : s.Owned) (hx : s.locks.claims.find? c = some x) :
    m.heap.entries.find? x.key = some x.entry := by
  rw [hm.entries, hs.find?_entry hx, Option.map_some]


/-! ## What guards point to -/

/-- A guard points to the entry of its key. -/
theorem Lays.entry_eq (hm : Lays s m) (hs : s.Owned) (p : GuardPlace) :
    (m.guards p).entry = (s.key? p).bind m.heap.entries.find? := by
  cases hp : s.guard p with
  | none =>
    obtain ⟨left, hleft⟩ := hm.fields_of_none hp
    rw [hleft, Holdings.key?_of_none hp, Option.bind_none]
  | some c =>
    obtain ⟨x, hx, -⟩ := hs.holding p c hp
    rw [hm.fields_of_some hp hx, Holdings.key?_of_some hp hx, Option.bind_some,
      hm.find?_entry hs hx]

/-- **Every entry has a guard that points to it**, and no pointer leads elsewhere. -/
theorem Lays.registers_iff_pointed (hm : Lays s m) (hs : s.Owned) (address : Nat) :
    m.heap.Registers address ↔ ∃ p, (m.guards p).entry = some address := by
  constructor
  · rintro ⟨key, hkey⟩
    have hsome : (s.locks.entries.find? key).isSome := by
      rw [← Option.isSome_map (f := LockEntry.id), ← hm.entries, hkey]
      rfl
    obtain ⟨p, hp⟩ := (hs.isSome_entry_iff key).mp hsome
    exact ⟨p, by rw [hm.entry_eq hs, hp, Option.bind_some, hkey]⟩
  · rintro ⟨p, hp⟩
    rw [hm.entry_eq hs] at hp
    obtain ⟨key, -, hkey⟩ := Option.bind_eq_some_iff.mp hp
    exact ⟨key, hkey⟩

/-- **No two guards point to one entry.** -/
theorem Lays.entry_injective (hm : Lays s m) (hs : s.Owned) {address : Nat}
    (hp : (m.guards p).entry = some address) (hq : (m.guards q).entry = some address) : p = q := by
  rw [hm.entry_eq hs] at hp hq
  obtain ⟨key, hkey, hentry⟩ := Option.bind_eq_some_iff.mp hp
  obtain ⟨key', hkey', hentry'⟩ := Option.bind_eq_some_iff.mp hq
  obtain rfl := hm.heap.distinct key key' address hentry hentry'
  exact hs.key?_injective hkey hkey'

/-! ## The acts in memory -/

/-- **A lock that is taken** is taken in memory, with an entry that is new. -/
theorem Lays.take (hm : Lays s m) (hs : s.Owned) (htake : s.take? p key = some s') :
    ∃ m', m.lock? p key = some m' ∧ Lays s' m' := by
  obtain ⟨he, rfl⟩ := hs.take?_eq_some htake
  have hkey : m.heap.entries.find? key = none := by rw [hm.entries, he, Option.map_none]
  refine ⟨_, congrArg (Option.map _) (LockHeap.lock?_of_new hkey), ?_⟩
  refine ⟨fun k => ?_, ?_, hm.heap.taken hkey, fits_update ?_ fun q _ => ?_⟩
  · simp only [KeyLocks.locked, LockHeap.taken, Assoc.find?_put, hm.entries, hm.fresh]
    split <;> rfl
  · simp only [KeyLocks.locked, LockHeap.taken, hm.fresh]
  · refine ⟨_, (KeyLocks.find?_locked ..).trans (if_pos rfl), ?_⟩
    rw [hm.fresh]
  · exact (hm.guards q).congr fun d hd => hs.find?_locked_of_guard hd

/-- For a guard without a lock nothing is done. -/
theorem Lays.unlock?_of_none (hm : Lays s m) (hp : s.guard p = none) : m.unlock? p = some m := by
  obtain ⟨left, hleft⟩ := hm.fields_of_none hp
  simp only [unlock?, hleft, Bool.false_eq_true, if_false]

/-- A guard with a lock drops the only reference to the entry of its key. -/
theorem Lays.unlock?_of_some (hm : Lays s m) (hs : s.Owned) (hp : s.guard p = some c)
    (hx : s.locks.claims.find? c = some x) : m.unlock? p = some
      ⟨m.heap.dropped x.key x.entry, Function.update m.guards p ⟨false, x.key, none⟩⟩ := by
  have hentry := hm.find?_entry hs hx
  have hcell := (hm.heap.cells x.entry ⟨1, true⟩).mpr ⟨rfl, x.key, hentry⟩
  have hheap := LockHeap.release?_of_last hentry hcell
  simp only [unlock?, hm.fields_of_some hp hx, if_true, Option.bind_some, hheap, Option.map_some]

/-- What is released is the entry that the guard points to, if it points to one. -/
theorem Lays.released_unlock? (hm : Lays s m) (hs : s.Owned) (hunlock : m.unlock? p = some m') :
    m'.heap.released = m.heap.released ++ (m.guards p).entry.toList ∧
      m'.heap.locked = m.heap.locked := by
  cases hp : s.guard p with
  | none =>
    obtain ⟨left, hleft⟩ := hm.fields_of_none hp
    rw [hm.unlock?_of_none hp] at hunlock
    cases hunlock
    exact ⟨by rw [hleft, Option.toList_none, List.append_nil], rfl⟩
  | some c =>
    obtain ⟨x, hx, -⟩ := hs.holding p c hp
    rw [hm.unlock?_of_some hs hp hx] at hunlock
    cases hunlock
    exact ⟨by rw [hm.fields_of_some hp hx]; rfl, rfl⟩

/-- **A lock that is given up** is released in memory. -/
theorem Lays.giveUp (hm : Lays s m) (hs : s.Owned) (p : GuardPlace) :
    ∃ m', m.unlock? p = some m' ∧ Lays (s.giveUp p) m' := by
  cases hp : s.guard p with
  | none =>
    rw [Holdings.giveUp_of_none hp]
    exact ⟨m, hm.unlock?_of_none hp, hm⟩
  | some c =>
    obtain ⟨x, hx, -⟩ := hs.holding p c hp
    refine ⟨_, hm.unlock?_of_some hs hp hx, ?_⟩
    rw [hs.giveUp_of_some hp hx]
    refine ⟨fun k => ?_, hm.fresh, hm.heap.dropped (hm.find?_entry hs hx),
      fits_update (fits_none x.key) fun q hqp => ?_⟩
    · simp only [KeyLocks.unlocked, LockHeap.dropped, Assoc.find?_erase, hm.entries]
      split <;> rfl
    · exact (hm.guards q).congr fun d hd => hs.find?_unlocked_of_ne hp hqp hd

/-- **A lock that is handed over** moves with the fields of its guard. -/
theorem Lays.handOver (hm : Lays s m) (p q : GuardPlace) (left : Bytes) :
    Lays (s.handOver p q) (m.construct p q left) := by
  refine ⟨hm.entries, hm.fresh, hm.heap, ?_⟩
  have hgiven := fits_update (hm.guards p) fun r (_ : r ≠ q) => hm.guards r
  exact fits_update (fits_none left) fun r _ => hgiven r

/-- A guard without a lock may be replaced by a new one. -/
theorem Lays.renew (hm : Lays s m) (hp : s.guard p = none) :
    Lays s ⟨m.heap, Function.update m.guards p {}⟩ := by
  refine ⟨hm.entries, hm.fresh, hm.heap, fun q => ?_⟩
  have hkept : Function.update s.guard p none = s.guard := by rw [← hp, Function.update_eq_self]
  rw [← hkept]
  exact fits_update (fits_none []) (fun r _ => hm.guards r) q

theorem Lays.destroy (hm : Lays s m) (hs : s.Owned) (p : GuardPlace) :
    ∃ m', m.destroy? p = some m' ∧ Lays (s.giveUp p) m' := by
  obtain ⟨m', hunlock, hm'⟩ := hm.giveUp hs p
  exact ⟨_, congrArg (Option.map _) hunlock, hm'.renew (Holdings.guard_giveUp s p)⟩

/-- A guard without a lock is destroyed without a release. -/
theorem Lays.destroy?_of_none (hm : Lays s m) (hp : s.guard p = none) :
    m.destroy? p = some ⟨m.heap, Function.update m.guards p {}⟩ :=
  congrArg (Option.map _) (hm.unlock?_of_none hp)

/-- **To assign over a guard** releases the entry that it points to, if it points to one. -/
theorem Lays.assign (hm : Lays s m) (hs : s.Owned) (hpq : p ≠ q) (left : Bytes) :
    ∃ m', m.assign? p q left = some m' ∧ Lays ((s.giveUp q).handOver p q) m' ∧
      m'.heap.released = m.heap.released ++ (m.guards q).entry.toList ∧
      m'.heap.locked = m.heap.locked := by
  obtain ⟨m', hunlock, hm'⟩ := hm.giveUp hs q
  have hreleased := hm.released_unlock? hs hunlock
  refine ⟨m'.construct p q left, ?_, hm'.handOver p q left, hreleased⟩
  rw [assign?, if_neg hpq, hunlock, Option.map_some]

/-! ## Operations in memory -/

variable {t t' : GuardTable} {a : GuardTable.Step}

/-- **An operation that guards can do is done in memory**, whatever strings are left with. -/
theorem Lays.step (hm : Lays t.holdings m) (ht : t.holdings.Owned) (hstep : t.step? a = some t')
    (left left' : Bytes) : ∃ m', m.step? (a, left, left') = some m' ∧ Lays t'.holdings m' := by
  cases a with
  | lock key slot =>
    have hmap : (t.lock? key slot).map GuardTable.holdings = some t'.holdings := by
      rw [show t.lock? key slot = some t' from hstep, Option.map_some]
    rw [GuardTable.holdings_lock?] at hmap
    obtain ⟨s, htake, hs⟩ := Option.map_eq_some_iff.mp hmap
    obtain ⟨m₁, hlock, hm₁⟩ := hm.take ht htake
    have htaken := ht.take rfl htake
    obtain ⟨m₂, hassign, hm₂, -⟩ := hm₁.assign htaken (GuardPlace.none_ne slot) left'
    rw [hs] at hm₂
    have hdestroy : m₂.destroy? none = _ := hm₂.destroy?_of_none rfl
    refine ⟨_, ?_, hm₂.renew (p := none) rfl⟩
    rw [step?, hlock, Option.bind_some, hassign, Option.bind_some, hdestroy]
  | unlock slot =>
    cases hstep
    rw [GuardTable.holdings_unlock]
    exact hm.giveUp ht (some slot)
  | drop slot =>
    cases hstep
    rw [GuardTable.holdings_dropGuard]
    exact hm.destroy ht (some slot)
  | assign source target =>
    cases hstep
    by_cases hne : source = target
    · rw [GuardTable.move, if_pos hne]
      exact ⟨m, by rw [step?, assign?, if_pos (congrArg some hne)], hm⟩
    · rw [GuardTable.holdings_move t hne]
      obtain ⟨m', hassign, hm', -⟩ := hm.assign ht (GuardPlace.slot_ne hne) left
      exact ⟨m', hassign, hm'⟩
  | construct source target =>
    cases hstep
    have hm₁ := hm.handOver (some source) none left
    have hmoved := ht.handOver (GuardPlace.none_ne source).symm rfl
    obtain ⟨m₂, hassign, hm₂, -⟩ := hm₁.assign hmoved (GuardPlace.none_ne target) left'
    rw [← GuardTable.holdings_moveAnew] at hm₂
    have hdestroy : m₂.destroy? none = _ := hm₂.destroy?_of_none rfl
    refine ⟨_, ?_, hm₂.renew (p := none) rfl⟩
    rw [step?, hassign, Option.bind_some, hdestroy]

/-- Memory before any lock was taken. -/
theorem lays_empty : Lays ({} : GuardTable).holdings {} := by
  refine ⟨fun _ => rfl, rfl, .empty, fun p => ?_⟩
  cases p <;> exact ⟨[], rfl⟩

/-- **So is every run.** -/
theorem Lays.run {steps : List GuardTable.Step} (hm : Lays t.holdings m) (ht : t.holdings.Owned)
    (hrun : GuardTable.machine.run? t steps = some t')
    {marked : List (GuardTable.Step × Bytes × Bytes)} (hmarked : marked.map Prod.fst = steps) :
    ∃ m', machine.run? m marked = some m' ∧ Lays t'.holdings m' := by
  induction marked generalizing t m steps with
  | nil =>
    cases hmarked
    cases hrun
    exact ⟨m, rfl, hm⟩
  | cons b marked ih =>
    cases hmarked
    obtain ⟨u, hstep, hrest, -⟩ := Machine.run?_cons_eq_some hrun
    obtain ⟨m₁, hfirst, hm₁⟩ := hm.step ht hstep b.2.1 b.2.2
    obtain ⟨m', hlast, hm'⟩ := ih hm₁ (GuardTable.effect_of_step? ht hstep).owned hrest rfl
    exact ⟨m', Option.bind_eq_some_iff.mpr ⟨m₁, hfirst, hlast⟩, hm'⟩

end GuardMemory

end Keyspace
