import Keyspace.Guards
import Keyspace.Proofs.LockReclaim
import Mathlib.Logic.Function.Basic

/-!
# Guards and the locks that they hold

A guard stands at a **place**: a slot, or the one place for the guard that an operation makes for
itself. Whatever an operation does to guards is done by three **acts**: a key is locked and a guard
made of it, a guard gives up what it owns, a guard is handed to another place. No act does more than
one of the three, so that between two acts of an operation each claim has one guard.

`Holdings.Owned` says that and nothing else: every claim is held, by the guard at exactly one place.
That the key of such a guard has the only entry that refers to it, with one reference, follows from
the soundness of the locks (`Holdings.Owned.find?_entry`).
-/

namespace Keyspace

namespace KeyLocks

variable {t t' : KeyLocks} {c : ClaimId} {key : Bytes} {x : Claim} {e : LockEntry}

/-! ## Locks that nobody else wants -/

/-- The table after a key without an entry was locked. -/
def locked (t : KeyLocks) (key : Bytes) : KeyLocks where
  entries := t.entries.put key ⟨t.nextEntry, 1, some t.nextClaim⟩
  claims := t.claims.put t.nextClaim ⟨key, t.nextEntry, .holding⟩
  nextEntry := t.nextEntry + 1
  nextClaim := t.nextClaim + 1

/-- The table after the last claim on a key was released. -/
def unlocked (t : KeyLocks) (c : ClaimId) (key : Bytes) : KeyLocks :=
  { t with entries := t.entries.erase key, claims := t.claims.erase c }

theorem find?_locked (t : KeyLocks) (key : Bytes) (d : ClaimId) :
    (t.locked key).claims.find? d =
      if d = t.nextClaim then some ⟨key, t.nextEntry, .holding⟩ else t.claims.find? d :=
  Assoc.find?_put ..

theorem find?_unlocked (t : KeyLocks) (c d : ClaimId) (key : Bytes) :
    (t.unlocked c key).claims.find? d = if d = c then none else t.claims.find? d :=
  Assoc.find?_erase ..

/-- A lock is a claim that takes its entry at once. -/
theorem run_of_lock? (h : t.lock? key = some (t', c)) :
    machine.run? t [.claim key, .acquire c] = some t' := by
  obtain ⟨u, hacquire, heq⟩ := Option.map_eq_some_iff.mp h
  obtain ⟨rfl, rfl⟩ := Prod.mk.inj heq
  have htaken : machine.run? (t.claim key).1 [.acquire t.nextClaim] = some u :=
    Option.bind_eq_some_iff.mpr ⟨u, hacquire, rfl⟩
  exact Option.bind_eq_some_iff.mpr ⟨(t.claim key).1, rfl, htaken⟩

/-- A release gives the entry free and drops the claim. -/
theorem run_of_release? (h : t.release? c = some t') :
    machine.run? t [.free c, .drop c] = some t' := by
  obtain ⟨u, hfree, hdrop⟩ := Option.bind_eq_some_iff.mp h
  have hdropped : machine.run? u [.drop c] = some t' :=
    Option.bind_eq_some_iff.mpr ⟨t', hdrop, rfl⟩
  exact Option.bind_eq_some_iff.mpr ⟨u, hfree, hdropped⟩

/-- Further steps of a sound table with registered entries leave it so. -/
theorem Sound.run {steps : List Step} (ht : Sound t) (hr : Registered t.entries t.nextEntry)
    (hrun : machine.run? t steps = some t') : Sound t' ∧ Registered t'.entries t'.nextEntry :=
  Machine.run_induction (P := fun _ t => Sound t ∧ Registered t.entries t.nextEntry)
    (fun _ _ _ _ h hstep => ⟨h.1.step hstep, h.2.step hstep⟩) ⟨ht, hr⟩ hrun

theorem lock?_of_free (he : t.entries.find? key = none) :
    t.lock? key = some (t.locked key, t.nextClaim) := by
  simp only [lock?, claim, acquire?, at?, locked, Assoc.find?_put, if_true, he, Option.getD_none,
    Assoc.has, Option.isSome_none, Bool.false_eq_true, if_false, Nat.zero_add, decide_true,
    Bool.and_self, Option.isNone_none, Assoc.put_put_self, Option.map_some]

/-- A key whose entry has an owner cannot be locked. -/
theorem lock?_of_owned (he : t.entries.find? key = some e) (howner : e.owner = some c) :
    t.lock? key = none := by
  simp only [lock?, claim, acquire?, at?, Assoc.find?_put, if_true, he, Option.getD_some, howner,
    decide_true, Bool.and_self, Option.isNone_some, Bool.false_eq_true, if_false, Option.map_none]

/-- The only claim on a key takes the entry with it. -/
theorem release?_of_last (hx : t.claims.find? c = some x) (hstage : x.stage = .holding)
    (he : t.entries.find? x.key = some e) (hid : e.id = x.entry) (hone : e.references = 1) :
    t.release? c = some (t.unlocked c x.key) := by
  simp only [release?, free?, drop?, at?, unlocked, hx, he, hid, hstage, decide_true,
    Bool.and_self, if_true, Option.bind_some, Assoc.find?_put, hone, Nat.le_refl,
    Assoc.erase_put_self]

end KeyLocks

open KeyLocks

/-! ## Acts -/

/-- **The place of a guard**: a slot, or `none` for the guard of an operation itself. -/
abbrev GuardPlace := Option Bytes

theorem GuardPlace.none_ne (slot : Bytes) : (none : GuardPlace) ≠ some slot :=
  (Option.some_ne_none slot).symm

theorem GuardPlace.slot_ne {slot slot' : Bytes} (h : slot ≠ slot') :
    (some slot : GuardPlace) ≠ some slot' :=
  fun hsame => h (Option.some.inj hsame)

/-- **Guards at their places**, with the locks that they own. -/
structure Holdings where
  locks : KeyLocks
  guard : GuardPlace → Guard

/-- The key of the lock that a guard owns. -/
def Guard.key? (locks : KeyLocks) (g : Guard) : Option Bytes :=
  g.bind fun c => (locks.claims.find? c).map Claim.key

/-- A claim that is found as it was has the key that it had. -/
theorem Guard.key?_congr {locks locks' : KeyLocks} {g : Guard}
    (h : ∀ c, g = some c → locks'.claims.find? c = locks.claims.find? c) :
    g.key? locks' = g.key? locks := by
  cases g with
  | none => rfl
  | some c => simp only [Guard.key?, Option.bind_some, h c rfl]

namespace Holdings

variable {s s' : Holdings} {p q : GuardPlace} {key : Bytes} {c d : ClaimId} {x y : Claim}

/-- The key of the lock that the guard at a place owns. -/
def key? (s : Holdings) (p : GuardPlace) : Option Bytes :=
  (s.guard p).key? s.locks

/-- A key is locked and the guard of it made at a place; `none` if somebody owns the lock. -/
def take? (s : Holdings) (p : GuardPlace) (key : Bytes) : Option Holdings :=
  (s.locks.lock? key).map fun (locks, c) => ⟨locks, Function.update s.guard p (some c)⟩

/-- The guard at a place gives up its lock. -/
def giveUp (s : Holdings) (p : GuardPlace) : Holdings :=
  ⟨GuardTable.released s.locks (s.guard p), Function.update s.guard p none⟩

/-- The guard at a place is handed to another place. -/
def handOver (s : Holdings) (p q : GuardPlace) : Holdings :=
  ⟨s.locks, Function.update (Function.update s.guard q (s.guard p)) p none⟩

/-- **Every claim is held by the guard at one place.** -/
structure Owned (s : Holdings) : Prop where
  sound : s.locks.Sound
  registered : Registered s.locks.entries s.locks.nextEntry
  holding : ∀ p c, s.guard p = some c →
    ∃ x, s.locks.claims.find? c = some x ∧ x.stage = .holding
  covered : ∀ c x, s.locks.claims.find? c = some x → ∃ p, s.guard p = some c
  distinct : ∀ p q c, s.guard p = some c → s.guard q = some c → p = q

/-- Who owns a claim after a guard was set that owns one. -/
theorem update_some_iff {guard : GuardPlace → Guard} :
    Function.update guard p (some c) q = some d ↔
      q = p ∧ d = c ∨ q ≠ p ∧ guard q = some d := by
  rw [Function.update_apply]
  split
  · next hqp => simp only [hqp, Option.some.injEq, true_and, eq_comm, not_true_eq_false, ne_eq,
      false_and, or_false]
  · next hqp => simp only [hqp, false_and, ne_eq, not_false_eq_true, true_and, false_or]

/-- Who owns a claim after a guard was emptied. -/
theorem update_none_iff {guard : GuardPlace → Guard} :
    Function.update guard p none q = some d ↔ q ≠ p ∧ guard q = some d := by
  rw [Function.update_apply]
  split
  · next hqp => simp only [hqp, reduceCtorEq, ne_eq, not_true_eq_false, false_and]
  · next hqp => simp only [hqp, ne_eq, not_false_eq_true, true_and]

theorem key?_of_none (hp : s.guard p = none) : s.key? p = none := by
  rw [key?, hp]
  rfl

theorem key?_of_some (hp : s.guard p = some c) (hx : s.locks.claims.find? c = some x) :
    s.key? p = some x.key := by
  rw [key?, hp, Guard.key?, Option.bind_some, hx, Option.map_some]

theorem ne_of_none_of_some (hp : s.guard p = none) (hq : s.guard q = some c) : q ≠ p := by
  rintro rfl
  rw [hp] at hq
  cases hq

/-- A guard that gave up its lock owns nothing. -/
theorem guard_giveUp (s : Holdings) (p : GuardPlace) : (s.giveUp p).guard p = none :=
  Function.update_self ..

/-! ## What guards own -/

theorem Owned.stage_eq (h : Owned s) (hx : s.locks.claims.find? c = some x) :
    x.stage = .holding := by
  obtain ⟨p, hp⟩ := h.covered c x hx
  obtain ⟨y, hy, hstage⟩ := h.holding p c hp
  rw [hx] at hy
  cases hy
  exact hstage

/-- There is one claim on a key. -/
theorem Owned.claim_unique (h : Owned s) (hx : s.locks.claims.find? c = some x)
    (hy : s.locks.claims.find? d = some y) (hkey : x.key = y.key) : c = d :=
  h.sound.holding_unique hx hy (h.stage_eq hx) (h.stage_eq hy) hkey

/-- **The lock that a guard owns** has the claim of the guard as its only reference. -/
theorem Owned.find?_entry (h : Owned s) (hx : s.locks.claims.find? c = some x) :
    s.locks.entries.find? x.key = some ⟨x.entry, 1, some c⟩ := by
  obtain ⟨e, he, hid⟩ := h.sound.entered c x hx
  have hclaimants : s.locks.claimants x.key = [c] := by
    refine List.perm_singleton.mp ((List.perm_ext_iff_of_nodup (h.sound.nodup_claimants x.key)
      (List.pairwise_singleton _ c)).mpr fun d => ?_)
    rw [h.sound.mem_claimants_iff, List.mem_singleton]
    constructor
    · rintro ⟨y, hy, hkey⟩
      exact h.claim_unique hy hx hkey
    · rintro rfl
      exact ⟨x, hx, rfl⟩
  have hone : e.references = 1 := by
    rw [h.sound.counted x.key e he, ← length_claimants, hclaimants, List.length_singleton]
  have howner : e.owner = some c :=
    (h.sound.owned x.key e c he).mpr ⟨x, hx, rfl, h.stage_eq hx⟩
  rw [he, ← hid, ← hone, ← howner]

theorem Owned.key?_eq_some_iff (h : Owned s) (p : GuardPlace) (key : Bytes) :
    s.key? p = some key ↔
      ∃ c x, s.guard p = some c ∧ s.locks.claims.find? c = some x ∧ x.key = key := by
  cases hp : s.guard p with
  | none => simp only [key?_of_none hp, reduceCtorEq, false_and, exists_false]
  | some c =>
    obtain ⟨x, hx, -⟩ := h.holding p c hp
    rw [key?_of_some hp hx, Option.some.injEq]
    constructor
    · rintro rfl
      exact ⟨c, x, rfl, hx, rfl⟩
    · rintro ⟨d, y, hd, hy, hkey⟩
      cases hd
      rw [hx] at hy
      cases hy
      exact hkey

theorem Owned.isSome_key? (h : Owned s) (p : GuardPlace) :
    (s.key? p).isSome = (s.guard p).isSome := by
  cases hp : s.guard p with
  | none =>
    rw [key?_of_none hp]
    rfl
  | some c =>
    obtain ⟨x, hx, -⟩ := h.holding p c hp
    rw [key?_of_some hp hx]
    rfl

/-- **No two guards own the lock of one key.** -/
theorem Owned.key?_injective (h : Owned s) (hp : s.key? p = some key) (hq : s.key? q = some key) :
    p = q := by
  obtain ⟨c, x, hpc, hx, hxkey⟩ := (h.key?_eq_some_iff p key).mp hp
  obtain ⟨d, y, hqd, hy, hykey⟩ := (h.key?_eq_some_iff q key).mp hq
  obtain rfl := h.claim_unique hx hy (hxkey.trans hykey.symm)
  exact h.distinct p q c hpc hqd

/-- **The keys with an entry are the keys of guards.** -/
theorem Owned.isSome_entry_iff (h : Owned s) (key : Bytes) :
    (s.locks.entries.find? key).isSome ↔ ∃ p, s.key? p = some key := by
  rw [h.sound.isSome_entry_iff, List.length_pos_iff_exists_mem]
  constructor
  · rintro ⟨c, hc⟩
    obtain ⟨x, hx, hkey⟩ := (h.sound.mem_claimants_iff key c).mp hc
    obtain ⟨p, hp⟩ := h.covered c x hx
    exact ⟨p, (h.key?_eq_some_iff p key).mpr ⟨c, x, hp, hx, hkey⟩⟩
  · rintro ⟨p, hp⟩
    obtain ⟨c, x, -, hx, hkey⟩ := (h.key?_eq_some_iff p key).mp hp
    exact ⟨c, (h.sound.mem_claimants_iff key c).mpr ⟨x, hx, hkey⟩⟩

/-! ## Taking a lock -/

/-- **A key is locked exactly if no guard owns its lock.** -/
theorem Owned.take?_eq (h : Owned s) (p : GuardPlace) (key : Bytes) : s.take? p key =
    if (s.locks.entries.find? key).isSome then none
    else some ⟨s.locks.locked key, Function.update s.guard p (some s.locks.nextClaim)⟩ := by
  cases he : s.locks.entries.find? key with
  | none => simp only [take?, lock?_of_free he, Option.map_some, Option.isSome_none, if_false,
      Bool.false_eq_true]
  | some e =>
    obtain ⟨q, hq⟩ := (h.isSome_entry_iff key).mp (he ▸ rfl)
    obtain ⟨c, x, -, hx, rfl⟩ := (h.key?_eq_some_iff q key).mp hq
    have howner := h.find?_entry hx
    rw [take?, lock?_of_owned howner rfl]
    rfl

theorem Owned.take?_eq_some (h : Owned s) (htake : s.take? p key = some s') :
    s.locks.entries.find? key = none ∧
      s' = ⟨s.locks.locked key, Function.update s.guard p (some s.locks.nextClaim)⟩ := by
  rw [h.take?_eq] at htake
  split at htake
  · cases htake
  · next hnone => exact ⟨Option.not_isSome_iff_eq_none.mp hnone, (Option.some.inj htake).symm⟩

/-- No guard has the name that the next claim gets. -/
theorem Owned.guard_ne_next (h : Owned s) (q : GuardPlace) :
    s.guard q ≠ some s.locks.nextClaim := by
  intro hq
  obtain ⟨x, hx, -⟩ := h.holding q _ hq
  rw [h.sound.fresh _ (Nat.le_refl _)] at hx
  cases hx

/-- The claims that guards own are found as before. -/
theorem Owned.find?_locked_of_guard (h : Owned s) (hq : s.guard q = some d) :
    (s.locks.locked key).claims.find? d = s.locks.claims.find? d := by
  rw [find?_locked, if_neg]
  rintro rfl
  exact h.guard_ne_next q hq

/-- **A lock that is taken has a guard of its own.** -/
theorem Owned.take (h : Owned s) (hp : s.guard p = none) (htake : s.take? p key = some s') :
    Owned s' := by
  obtain ⟨he, rfl⟩ := h.take?_eq_some htake
  obtain ⟨hsound, hregistered⟩ := h.sound.run h.registered (run_of_lock? (lock?_of_free he))
  refine ⟨hsound, hregistered, ?_, ?_, ?_⟩
  · intro q d hq
    obtain ⟨-, hd⟩ | ⟨-, hq⟩ := update_some_iff.mp hq
    · exact ⟨_, (find?_locked ..).trans (if_pos hd), rfl⟩
    · rw [h.find?_locked_of_guard hq]
      exact h.holding q d hq
  · intro d y hy
    rw [find?_locked] at hy
    split at hy
    · next hd => exact ⟨p, update_some_iff.mpr (.inl ⟨rfl, hd⟩)⟩
    · obtain ⟨q, hq⟩ := h.covered d y hy
      exact ⟨q, update_some_iff.mpr (.inr ⟨ne_of_none_of_some hp hq, hq⟩)⟩
  · intro q r d hown hown'
    obtain ⟨rfl, hd⟩ | ⟨-, hq⟩ := update_some_iff.mp hown <;>
      obtain ⟨rfl, hd'⟩ | ⟨-, hr⟩ := update_some_iff.mp hown'
    · rfl
    · exact absurd (hd ▸ hr) (h.guard_ne_next r)
    · exact absurd (hd' ▸ hq) (h.guard_ne_next q)
    · exact h.distinct q r d hq hr

theorem Owned.key?_take (h : Owned s) (htake : s.take? p key = some s') :
    s'.key? = Function.update s.key? p (some key) := by
  obtain ⟨-, rfl⟩ := h.take?_eq_some htake
  funext q
  by_cases hqp : q = p
  · subst hqp
    rw [Function.update_self, key?_of_some (Function.update_self ..)
      ((find?_locked ..).trans (if_pos rfl))]
  · rw [Function.update_of_ne hqp]
    simp only [key?, Function.update_of_ne hqp]
    exact Guard.key?_congr fun d hq => h.find?_locked_of_guard hq

/-- The entry of the key is new. -/
theorem Owned.find?_entry_take (h : Owned s) (htake : s.take? p key = some s') (k : Bytes) :
    s'.locks.entries.find? k =
      if key = k then some ⟨s.locks.nextEntry, 1, some s.locks.nextClaim⟩
      else s.locks.entries.find? k := by
  obtain ⟨-, rfl⟩ := h.take?_eq_some htake
  simp only [locked, Assoc.find?_put, eq_comm]

/-! ## Giving a lock up -/

/-- A guard that owns nothing gives up nothing. -/
theorem giveUp_of_none (hp : s.guard p = none) : s.giveUp p = s := by
  rw [giveUp, hp, GuardTable.released, ← hp, Function.update_eq_self]

/-- A guard gives up the lock of its key. -/
theorem Owned.giveUp_of_some (h : Owned s) (hp : s.guard p = some c)
    (hx : s.locks.claims.find? c = some x) :
    s.giveUp p = ⟨s.locks.unlocked c x.key, Function.update s.guard p none⟩ := by
  rw [giveUp, hp, GuardTable.released,
    release?_of_last hx (h.stage_eq hx) (h.find?_entry hx) rfl rfl, Option.getD_some]

/-- The claim of another guard is another claim. -/
theorem Owned.find?_unlocked_of_ne (h : Owned s) (hp : s.guard p = some c) (hqp : q ≠ p)
    (hq : s.guard q = some d) :
    (s.locks.unlocked c key).claims.find? d = s.locks.claims.find? d := by
  rw [find?_unlocked, if_neg]
  rintro rfl
  exact hqp (h.distinct q p d hq hp)

/-- **A lock that is given up is released**, and every other guard keeps its own. -/
theorem Owned.giveUp (h : Owned s) (p : GuardPlace) : Owned (s.giveUp p) := by
  cases hp : s.guard p with
  | none =>
    rw [giveUp_of_none hp]
    exact h
  | some c =>
    obtain ⟨x, hx, hstage⟩ := h.holding p c hp
    have hrelease := release?_of_last hx hstage (h.find?_entry hx) rfl rfl
    obtain ⟨hsound, hregistered⟩ := h.sound.run h.registered (run_of_release? hrelease)
    rw [h.giveUp_of_some hp hx]
    refine ⟨hsound, hregistered, ?_, ?_, ?_⟩
    · intro q d hq
      obtain ⟨hqp, hq⟩ := update_none_iff.mp hq
      rw [h.find?_unlocked_of_ne hp hqp hq]
      exact h.holding q d hq
    · intro d y hy
      rw [find?_unlocked] at hy
      split at hy
      · cases hy
      · next hdc =>
        obtain ⟨q, hq⟩ := h.covered d y hy
        have hqp : q ≠ p := by
          rintro rfl
          rw [hp] at hq
          exact hdc (Option.some.inj hq).symm
        exact ⟨q, update_none_iff.mpr ⟨hqp, hq⟩⟩
    · intro q r d hq hr
      exact h.distinct q r d (update_none_iff.mp hq).2 (update_none_iff.mp hr).2

theorem Owned.key?_giveUp (h : Owned s) (p : GuardPlace) :
    (s.giveUp p).key? = Function.update s.key? p none := by
  cases hp : s.guard p with
  | none => rw [giveUp_of_none hp, ← key?_of_none hp, Function.update_eq_self]
  | some c =>
    obtain ⟨x, hx, -⟩ := h.holding p c hp
    rw [h.giveUp_of_some hp hx]
    funext q
    by_cases hqp : q = p
    · subst hqp
      rw [Function.update_self, key?_of_none (Function.update_self ..)]
    · rw [Function.update_of_ne hqp]
      simp only [key?, Function.update_of_ne hqp]
      exact Guard.key?_congr fun d hq => h.find?_unlocked_of_ne hp hqp hq

/-- No entry is made. -/
theorem Owned.nextEntry_giveUp (h : Owned s) (p : GuardPlace) :
    (s.giveUp p).locks.nextEntry = s.locks.nextEntry := by
  cases hp : s.guard p with
  | none => rw [giveUp_of_none hp]
  | some c =>
    obtain ⟨x, hx, -⟩ := h.holding p c hp
    rw [h.giveUp_of_some hp hx]
    rfl

/-- The entry of its key is gone, and no other one. -/
theorem Owned.find?_entry_giveUp (h : Owned s) (p : GuardPlace) (k : Bytes) :
    (s.giveUp p).locks.entries.find? k =
      if s.key? p = some k then none else s.locks.entries.find? k := by
  cases hp : s.guard p with
  | none => simp only [giveUp_of_none hp, key?_of_none hp, reduceCtorEq, if_false]
  | some c =>
    obtain ⟨x, hx, -⟩ := h.holding p c hp
    simp only [h.giveUp_of_some hp hx, key?_of_some hp hx, unlocked, Assoc.find?_erase,
      Option.some.injEq, eq_comm]

/-! ## Handing a lock over -/

/-- **A lock that is handed over** has its guard at another place. -/
theorem Owned.handOver (h : Owned s) (hpq : p ≠ q) (hq : s.guard q = none) :
    Owned (s.handOver p q) := by
  have hguard : ∀ r d, (s.handOver p q).guard r = some d ↔
      r ≠ p ∧ (r = q ∧ s.guard p = some d ∨ r ≠ q ∧ s.guard r = some d) := by
    intro r d
    refine update_none_iff.trans (and_congr_right fun _ => ?_)
    rw [Function.update_apply]
    split
    · next hrq => simp only [hrq, true_and, ne_eq, not_true_eq_false, false_and, or_false]
    · next hrq => simp only [hrq, false_and, ne_eq, not_false_eq_true, true_and, false_or]
  refine ⟨h.sound, h.registered, ?_, ?_, ?_⟩
  · intro r d hr
    obtain ⟨-, ⟨-, hp⟩ | ⟨-, hr⟩⟩ := (hguard r d).mp hr
    · exact h.holding p d hp
    · exact h.holding r d hr
  · intro d y hy
    obtain ⟨r, hr⟩ := h.covered d y hy
    by_cases hrp : r = p
    · exact ⟨q, (hguard q d).mpr ⟨hpq.symm, .inl ⟨rfl, hrp ▸ hr⟩⟩⟩
    · exact ⟨r, (hguard r d).mpr ⟨hrp, .inr ⟨ne_of_none_of_some hq hr, hr⟩⟩⟩
  · intro r r' d hown hown'
    obtain ⟨hrp, ⟨rfl, hp⟩ | ⟨-, hr⟩⟩ := (hguard r d).mp hown <;>
      obtain ⟨hrp', ⟨rfl, hp'⟩ | ⟨-, hr'⟩⟩ := (hguard r' d).mp hown'
    · rfl
    · exact absurd (h.distinct r' p d hr' hp) hrp'
    · exact absurd (h.distinct r p d hr hp') hrp
    · exact h.distinct r r' d hr hr'

theorem key?_handOver (s : Holdings) (p q : GuardPlace) :
    (s.handOver p q).key? = Function.update (Function.update s.key? q (s.key? p)) p none := by
  funext r
  simp only [key?, Holdings.handOver, Function.update_apply]
  split
  · rfl
  · split <;> rfl

end Holdings

end Keyspace
