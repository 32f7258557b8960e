import Keyspace.Proofs.GuardHoldings
import Keyspace.Proofs.Runs

/-!
# Operations on guards

The operations on the guards of a table, as a machine that refuses only what would wait for itself:
to lock a key that a guard owns. What an operation is meant to do is said of the keys alone
(`Step.after`): which slot owns the lock of which key afterwards. Neither a claim nor an entry is
mentioned there.

**The step** (`Holdings.Owned.step`): an operation is a sequence of acts on the guards at their
places, the one that it makes for itself included, so that it keeps every claim with one guard, and
the keys that the slots own are then the ones that it is meant to leave.
-/

namespace Keyspace

namespace GuardTable

/-- **The operations on guards**: a key is locked and its guard assigned to a slot, the guard of a
slot is unlocked, or destroyed, the guard of a slot is assigned to a slot, a guard is constructed
from that of a slot and assigned to a slot. -/
inductive Step where
  | lock (key slot : Bytes)
  | unlock (slot : Bytes)
  | drop (slot : Bytes)
  | assign (source target : Bytes)
  | construct (source target : Bytes)
deriving DecidableEq, Repr

/-- The guards after an operation. -/
def step? (t : GuardTable) : Step → Option GuardTable
  | .lock key slot => t.lock? key slot
  | .unlock slot => some (t.unlock slot)
  | .drop slot => some (t.dropGuard slot)
  | .assign source target => some (t.move source target)
  | .construct source target => some (t.moveAnew source target)

/-- **The guards as a machine.** A step shows itself. -/
def machine : Machine GuardTable Step Step where
  step? := step?
  event _ a := a

/-! ## What the operations are meant to do -/

/-- What one slot owns is handed to another, which loses what it owned. -/
def handed (owns : Bytes → Option Bytes) (source target : Bytes) : Bytes → Option Bytes :=
  if source = target then owns
  else Function.update (Function.update owns target (owns source)) source none

/-- A slot that is emptied first can be handed what it owned. -/
theorem handed_eq (owns : Bytes → Option Bytes) (source target : Bytes) :
    handed owns source target =
      Function.update (Function.update owns source none) target (owns source) := by
  rw [handed]
  split
  · next heq => rw [← heq, Function.update_idem, Function.update_eq_self]
  · next hne => rw [Function.update_comm hne]

/-- **The key whose lock each slot owns after an operation**, by those before. -/
def Step.after : Step → (Bytes → Option Bytes) → Bytes → Option Bytes
  | .lock key slot, owns => Function.update owns slot (some key)
  | .unlock slot, owns => Function.update owns slot none
  | .drop slot, owns => Function.update owns slot none
  | .assign source target, owns => handed owns source target
  | .construct source target, owns => handed owns source target

/-- **The key that an operation releases.** -/
def Step.releases? : Step → (Bytes → Option Bytes) → Option Bytes
  | .lock _ slot, owns => owns slot
  | .unlock slot, owns => owns slot
  | .drop slot, owns => owns slot
  | .assign source target, owns => if source = target then none else owns target
  | .construct source target, owns => if source = target then none else owns target

/-- The key that an operation locks. -/
def Step.locks? : Step → Option Bytes
  | .lock key _ => some key
  | _ => none

/-! ## Operations as acts -/

variable {t t' : GuardTable} {a : Step} {slot source target : Bytes}

/-- The guards at their places; no operation is going on. -/
def holdings (t : GuardTable) : Holdings :=
  ⟨t.locks, fun p => p.bind t.guard⟩

/-- The key of the lock that the guard in a slot owns. -/
def key? (t : GuardTable) : Bytes → Option Bytes :=
  t.holdings.key? ∘ some

theorem guard_assign (t : GuardTable) (slot : Bytes) (g : Guard) :
    (t.assign slot g).guard = Function.update t.guard slot g := by
  funext s
  rw [guard, assign, Assoc.find?_put, Function.update_apply]
  split <;> rfl

theorem guard_emptied (t : GuardTable) (slot : Bytes) :
    (t.emptied slot).guard = Function.update t.guard slot none := by
  funext s
  rw [guard, emptied, Assoc.find?_put, Function.update_apply]
  split <;> rfl

theorem guard_dropGuard (t : GuardTable) (slot : Bytes) :
    (t.dropGuard slot).guard = Function.update t.guard slot none := by
  funext s
  rw [guard, dropGuard, Assoc.find?_erase, Function.update_apply]
  split <;> rfl

/-- A slot that is set is a place that is set. -/
theorem bind_update (guard : Bytes → Guard) (slot : Bytes) (g : Guard) :
    (fun p : GuardPlace => p.bind (Function.update guard slot g)) =
      Function.update (fun p : GuardPlace => p.bind guard) (some slot) g := by
  funext p
  cases p with
  | none => rw [Function.update_of_ne (Option.some_ne_none slot).symm, Option.bind_none,
      Option.bind_none]
  | some s => simp only [Option.bind_some, Function.update_apply, Option.some.injEq]

theorem holdings_assign (t : GuardTable) (slot : Bytes) (g : Guard) : (t.assign slot g).holdings =
    ⟨released t.locks (t.guard slot), Function.update t.holdings.guard (some slot) g⟩ := by
  rw [holdings, guard_assign, bind_update]
  rfl

/-- To unlock is to give up. -/
theorem holdings_unlock (t : GuardTable) (slot : Bytes) :
    (t.unlock slot).holdings = t.holdings.giveUp (some slot) :=
  holdings_assign t slot none

/-- To destroy a guard is to give up, too. -/
theorem holdings_dropGuard (t : GuardTable) (slot : Bytes) :
    (t.dropGuard slot).holdings = t.holdings.giveUp (some slot) := by
  rw [holdings, guard_dropGuard, bind_update]
  rfl

theorem holdings_emptied (t : GuardTable) (slot : Bytes) : (t.emptied slot).holdings =
    ⟨t.locks, Function.update t.holdings.guard (some slot) none⟩ := by
  rw [holdings, guard_emptied, bind_update]
  rfl

/-- No guard stands at the place of an operation before it begins. -/
theorem update_guard_none (t : GuardTable) :
    Function.update t.holdings.guard none none = t.holdings.guard :=
  Function.update_eq_self none t.holdings.guard

/-- The guard of the key is made at the place of the operation, and handed to the slot after that
gave up what it owned. -/
theorem holdings_lock? (t : GuardTable) (key slot : Bytes) : (t.lock? key slot).map holdings =
    (t.holdings.take? none key).map fun s => (s.giveUp (some slot)).handOver none (some slot) := by
  have hplaces := GuardPlace.none_ne slot
  rw [lock?, Holdings.take?, Option.map_map, Option.map_map]
  congr 1
  funext taken
  obtain ⟨locks, c⟩ := taken
  simp only [Function.comp_apply, holdings_assign, Holdings.giveUp, Holdings.handOver,
    Holdings.mk.injEq]
  refine ⟨?_, ?_⟩
  · rw [Function.update_of_ne hplaces.symm]
    rfl
  · rw [Function.update_idem, Function.update_of_ne hplaces, Function.update_self,
      Function.update_comm hplaces.symm, Function.update_idem, update_guard_none]
    rfl

/-- A guard is handed to a slot that gave up what it owned. -/
theorem holdings_move (t : GuardTable) (hne : source ≠ target) : (t.move source target).holdings =
    (t.holdings.giveUp (some target)).handOver (some source) (some target) := by
  have hplaces := GuardPlace.slot_ne hne
  rw [move, if_neg hne, holdings_emptied, holdings_assign, Holdings.handOver, Holdings.giveUp]
  simp only [Function.update_of_ne hplaces, Function.update_idem, Holdings.mk.injEq]
  exact ⟨rfl, rfl⟩

/-- A guard is handed to the place of the operation, and from there to a slot that gave up what it
owned. -/
theorem holdings_moveAnew (t : GuardTable) (source target : Bytes) :
    (t.moveAnew source target).holdings =
      ((t.holdings.handOver (some source) none).giveUp (some target)).handOver
        none (some target) := by
  rw [moveAnew, holdings_assign, holdings_emptied, Holdings.handOver, Holdings.giveUp,
    Holdings.handOver]
  simp only [Holdings.mk.injEq]
  refine ⟨?_, ?_⟩
  · rw [guard_emptied]
    simp only [Function.update_apply, holdings, Option.some.injEq, reduceCtorEq, if_false]
    split <;> rfl
  · have hsource := GuardPlace.none_ne source
    have htarget := GuardPlace.none_ne target
    rw [Function.update_idem, Function.update_of_ne htarget, Function.update_of_ne hsource,
      Function.update_self, Function.update_comm htarget.symm, Function.update_comm hsource.symm,
      Function.update_idem, update_guard_none]
    rfl

/-! ## The step -/

/-- **What an operation does**: every claim keeps one guard, the slots own what they are meant to
own, and besides the entries of the key that is released and of the one that is locked, all entries
stay. -/
structure Effect (t : GuardTable) (a : Step) (u : GuardTable) : Prop where
  owned : u.holdings.Owned
  key?_eq : u.key? = a.after t.key?
  entries : ∀ key, u.locks.entries.find? key =
    if a.releases? t.key? = some key then none
    else if a.locks? = some key then some ⟨t.locks.nextEntry, 1, some t.locks.nextClaim⟩
    else t.locks.entries.find? key
  /-- An entry is made for a key that is locked, and for nothing else. -/
  nextEntry : u.locks.nextEntry = t.locks.nextEntry + a.locks?.toList.length

/-- What the slots own after the guard of one was set. -/
theorem update_comp_some (owns : GuardPlace → Option Bytes) (slot : Bytes) (key : Option Bytes) :
    Function.update owns (some slot) key ∘ some = Function.update (owns ∘ some) slot key :=
  Function.update_comp_eq_of_injective owns (fun _ _ => Option.some.inj) slot key

/-- The guard of the operation itself is none of theirs. -/
theorem update_none_comp_some (owns : GuardPlace → Option Bytes) (key : Option Bytes) :
    Function.update owns none key ∘ some = owns ∘ some :=
  Function.update_comp_eq_of_forall_ne owns key Option.some_ne_none

/-- What a slot owned is released, and nothing else happens. -/
theorem Effect.of_giveUp (h : t.holdings.Owned)
    (hgiven : t'.holdings = t.holdings.giveUp (some slot))
    (hafter : a.after t.key? = Function.update t.key? slot none)
    (hreleases : a.releases? t.key? = t.key? slot) (hlocks : a.locks? = none) :
    Effect t a t' := by
  have hlocked : t'.locks = (t.holdings.giveUp (some slot)).locks := congrArg Holdings.locks hgiven
  refine ⟨hgiven ▸ h.giveUp (some slot), ?_, fun key => ?_, ?_⟩
  · rw [key?, hgiven, h.key?_giveUp, update_comp_some, hafter]
    rfl
  · rw [hlocked, h.find?_entry_giveUp, hreleases, hlocks]
    simp only [reduceCtorEq, if_false]
    rfl
  · rw [hlocked, h.nextEntry_giveUp, hlocks]
    rfl

theorem Effect.lock {key : Bytes} (h : t.holdings.Owned) (hstep : t.lock? key slot = some t') :
    Effect t (.lock key slot) t' := by
  have hplaces := GuardPlace.none_ne slot
  have hmap : (t.lock? key slot).map holdings = some t'.holdings := by
    rw [hstep, Option.map_some]
  rw [holdings_lock?] at hmap
  obtain ⟨s, htake, hs⟩ := Option.map_eq_some_iff.mp hmap
  have htaken := h.take rfl htake
  have hkey := h.key?_take htake
  have howned := (htaken.giveUp (some slot)).handOver hplaces (Holdings.guard_giveUp s (some slot))
  have hlocked : t'.locks = (s.giveUp (some slot)).locks := (congrArg Holdings.locks hs).symm
  refine ⟨hs ▸ howned, ?_, fun k => ?_, ?_⟩
  · rw [key?, ← hs, Holdings.key?_handOver, htaken.key?_giveUp, hkey, update_none_comp_some,
      update_comp_some, update_comp_some, update_none_comp_some, Function.update_idem,
      Function.update_of_ne hplaces, Function.update_self]
    rfl
  · rw [hlocked, htaken.find?_entry_giveUp, h.find?_entry_take htake, hkey,
      Function.update_of_ne hplaces.symm]
    simp only [Step.releases?, Step.locks?, Option.some.injEq, key?, Function.comp_apply]
    rfl
  · rw [hlocked, htaken.nextEntry_giveUp, (h.take?_eq_some htake).2]
    rfl

/-- What does not change anything has no effect. -/
theorem Effect.of_same (h : t.holdings.Owned) (hafter : a.after t.key? = t.key?)
    (hreleases : a.releases? t.key? = none) (hlocks : a.locks? = none) : Effect t a t :=
  ⟨h, hafter.symm, fun key => by simp only [hreleases, hlocks, reduceCtorEq, if_false],
    by rw [hlocks]; rfl⟩

theorem Effect.assign (h : t.holdings.Owned) (source target : Bytes) :
    Effect t (.assign source target) (t.move source target) := by
  by_cases hne : source = target
  · rw [move, if_pos hne]
    exact .of_same h (if_pos hne) (if_pos hne) rfl
  · have hplaces := GuardPlace.slot_ne hne
    have hmoved := holdings_move t hne
    have howned := (h.giveUp (some target)).handOver hplaces (Holdings.guard_giveUp _ _)
    have hlocked : (t.move source target).locks = (t.holdings.giveUp (some target)).locks :=
      congrArg Holdings.locks hmoved
    refine ⟨hmoved ▸ howned, ?_, fun k => ?_, ?_⟩
    · rw [key?, hmoved, Holdings.key?_handOver, h.key?_giveUp, update_comp_some, update_comp_some,
        update_comp_some, Function.update_idem, Function.update_of_ne hplaces, Step.after, handed,
        if_neg hne]
      rfl
    · rw [hlocked, h.find?_entry_giveUp]
      simp only [Step.releases?, if_neg hne, Step.locks?, reduceCtorEq, if_false]
      rfl
    · rw [hlocked]
      exact h.nextEntry_giveUp (some target)

theorem Effect.construct (h : t.holdings.Owned) (source target : Bytes) :
    Effect t (.construct source target) (t.moveAnew source target) := by
  have hsource := GuardPlace.none_ne source
  have htarget := GuardPlace.none_ne target
  have hresult := holdings_moveAnew t source target
  have hmoved := h.handOver hsource.symm rfl
  have howned := (hmoved.giveUp (some target)).handOver htarget (Holdings.guard_giveUp _ _)
  have hlocked : (t.moveAnew source target).locks =
      ((t.holdings.handOver (some source) none).giveUp (some target)).locks :=
    congrArg Holdings.locks hresult
  refine ⟨hresult ▸ howned, ?_, fun k => ?_, ?_⟩
  · rw [key?, hresult, Holdings.key?_handOver, hmoved.key?_giveUp, Holdings.key?_handOver,
      update_none_comp_some, update_comp_some, update_comp_some, update_comp_some,
      update_none_comp_some, Function.update_idem, Function.update_of_ne htarget,
      Function.update_of_ne hsource, Function.update_self]
    exact (handed_eq t.key? source target).symm
  · have howns : (t.holdings.handOver (some source) none).key? (some target) =
        if source = target then none else t.key? target := by
      rw [Holdings.key?_handOver, Function.update_apply, Function.update_of_ne htarget.symm]
      simp only [Option.some.injEq, eq_comm, key?, Function.comp_apply]
    rw [hlocked, hmoved.find?_entry_giveUp, howns]
    simp only [Step.releases?, Step.locks?, reduceCtorEq, if_false]
    rfl
  · rw [hlocked]
    exact hmoved.nextEntry_giveUp (some target)

/-- **Every operation that is possible has its effect.** -/
theorem effect_of_step? (h : t.holdings.Owned) (hstep : t.step? a = some t') : Effect t a t' := by
  cases a with
  | lock key slot => exact .lock h hstep
  | unlock slot =>
    cases hstep
    exact .of_giveUp h (holdings_unlock t slot) rfl rfl rfl
  | drop slot =>
    cases hstep
    exact .of_giveUp h (holdings_dropGuard t slot) rfl rfl rfl
  | assign source target =>
    cases hstep
    exact .assign h source target
  | construct source target =>
    cases hstep
    exact .construct h source target

/-- **Only a lock that a slot owns cannot be taken.** -/
theorem isSome_step?_iff (h : t.holdings.Owned) : (t.step? a).isSome ↔
    ∀ key, a.locks? = some key → ∀ slot, t.key? slot ≠ some key := by
  cases a with
  | lock key slot =>
    have hmap : (t.step? (.lock key slot)).isSome = (t.holdings.take? none key).isSome := by
      rw [← Option.isSome_map (f := holdings), step?, holdings_lock?, Option.isSome_map]
    rw [hmap, h.take?_eq]
    split
    · next hsome =>
      obtain ⟨p, hp⟩ := (h.isSome_entry_iff key).mp hsome
      cases p with
      | none => cases hp
      | some s => exact iff_of_false Bool.false_ne_true fun hnone => hnone key rfl s hp
    · next hnone =>
      refine iff_of_true rfl fun k hk s hs => ?_
      cases hk
      exact hnone ((h.isSome_entry_iff key).mpr ⟨some s, hs⟩)
  | unlock _ | drop _ | assign _ _ | construct _ _ =>
    refine iff_of_true rfl fun key hkey => ?_
    cases hkey

/-! ## Runs -/

/-- What the slots own after a list of operations. -/
def afterAll (owns : Bytes → Option Bytes) (steps : List Step) : Bytes → Option Bytes :=
  steps.foldl (fun owns a => a.after owns) owns

/-- A table without locks and guards. -/
theorem owned_empty : ({} : GuardTable).holdings.Owned := by
  have hguard : ∀ p, ({} : GuardTable).holdings.guard p = none := by
    intro p
    cases p <;> rfl
  refine ⟨.empty 0 0, ⟨List.nodup_nil, nofun, nofun⟩, ?_, nofun, ?_⟩
  · intro p c hp
    rw [hguard] at hp
    cases hp
  · intro p q c hp
    rw [hguard] at hp
    cases hp

/-- **Every run keeps each claim with one guard**, and does to the keys of the slots what its
operations are meant to do. -/
theorem owned_of_run {steps : List Step} (h : t.holdings.Owned)
    (hrun : machine.run? t steps = some t') :
    t'.holdings.Owned ∧ t'.key? = afterAll t.key? steps ∧
      t'.locks.nextEntry = t.locks.nextEntry + (steps.filterMap Step.locks?).length := by
  induction steps generalizing t with
  | nil =>
    cases hrun
    exact ⟨h, rfl, rfl⟩
  | cons a steps ih =>
    obtain ⟨u, hstep, hrest, -⟩ := Machine.run?_cons_eq_some hrun
    have heffect := effect_of_step? h hstep
    obtain ⟨howned, hkey, hnext⟩ := ih heffect.owned hrest
    refine ⟨howned, ?_, ?_⟩
    · rw [afterAll, List.foldl_cons, ← heffect.key?_eq]
      exact hkey
    · rw [hnext, heffect.nextEntry, List.filterMap_cons]
      cases a.locks? with
      | none => rfl
      | some key =>
        simp only [Option.toList_some, List.length_cons, List.length_nil]
        omega

/-- Slots are recorded once. -/
theorem nodup_slots_of_step? (h : t.slots.keys.Nodup) (hstep : t.step? a = some t') :
    t'.slots.keys.Nodup := by
  cases a with
  | lock key slot =>
    obtain ⟨⟨locks, c⟩, -, rfl⟩ := Option.map_eq_some_iff.mp hstep
    exact Assoc.nodup_keys_put h _ _
  | unlock slot =>
    cases hstep
    exact Assoc.nodup_keys_put h _ _
  | drop slot =>
    cases hstep
    exact Assoc.nodup_keys_erase h _
  | assign source target =>
    cases hstep
    rw [move]
    split
    · exact h
    · exact Assoc.nodup_keys_put (Assoc.nodup_keys_put h _ _) _ _
  | construct source target =>
    cases hstep
    exact Assoc.nodup_keys_put (Assoc.nodup_keys_put h _ _) _ _

theorem nodup_slots_of_run {steps : List Step} (h : t.slots.keys.Nodup)
    (hrun : machine.run? t steps = some t') : t'.slots.keys.Nodup :=
  Machine.run_induction (P := fun _ t => t.slots.keys.Nodup)
    (fun _ _ _ _ hnodup hstep => nodup_slots_of_step? hnodup hstep) h hrun

end GuardTable

end Keyspace
