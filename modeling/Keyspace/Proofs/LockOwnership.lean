import Keyspace.KeyLocks

/-!
# Ownership of locks

What every reachable table of locks keeps to (`KeyLocks.Sound`): a claim refers to the entry that
stands for its key, an entry counts the claims on its key and is there only as long as there is one,
and the owner of an entry is the one claim on its key that holds. That no entry is reclaimed while a
claim refers to it, and that two claims on one key never hold together, are read off these facts.

The steps are inverted first (`acquire?_eq_some` and its like), so that the preservation proofs see a
step as the claim and the entry that it found, and the table that it leaves.
-/

namespace Keyspace

namespace KeyLocks

variable {t t' : KeyLocks} {c : ClaimId}

/-- One for a claim on the key, nothing for any other. -/
def onKey (key : Bytes) (p : ClaimId × Claim) : Nat :=
  if p.2.key = key then 1 else 0

/-- **The table is sound.** -/
structure Sound (t : KeyLocks) : Prop where
  distinct : t.claims.keys.Nodup
  fresh : ∀ c, t.nextClaim ≤ c → t.claims.find? c = none
  entered : ∀ c x, t.claims.find? c = some x →
    ∃ e, t.entries.find? x.key = some e ∧ e.id = x.entry
  counted : ∀ key e, t.entries.find? key = some e → e.references = t.claims.total (onKey key)
  wanted : ∀ key e, t.entries.find? key = some e → 0 < e.references
  owned : ∀ key e c, t.entries.find? key = some e →
    (e.owner = some c ↔ ∃ x, t.claims.find? c = some x ∧ x.key = key ∧ x.stage = .holding)

/-- A table without entries and claims is sound, whatever names it gives next. -/
theorem Sound.empty (entry : Nat) (claim : ClaimId) : Sound ⟨[], [], entry, claim⟩ where
  distinct := List.nodup_nil
  fresh _ _ := rfl
  entered _ _ h := by cases h
  counted _ _ h := by cases h
  wanted _ _ h := by cases h
  owned _ _ _ h := by cases h

/-! ## What the steps find -/

/-- A claim at a stage is found with the entry that it refers to. -/
theorem at?_eq_some {stage : ClaimStage} {x : Claim} {e : LockEntry}
    (h : t.at? c stage = some (x, e)) :
    t.claims.find? c = some x ∧ t.entries.find? x.key = some e ∧ x.stage = stage ∧
      e.id = x.entry := by
  unfold at? at h
  cases hx : t.claims.find? c with
  | none => simp only [hx, reduceCtorEq] at h
  | some y =>
    simp only [hx] at h
    cases he : t.entries.find? y.key with
    | none => simp only [he, reduceCtorEq] at h
    | some f =>
      simp only [he] at h
      split at h
      · next hg =>
        cases h
        simp only [Bool.and_eq_true, decide_eq_true_eq] at hg
        exact ⟨rfl, he, hg.1, hg.2⟩
      · cases h

/-- In a sound table, every claim at a stage is found there. -/
theorem Sound.at?_of_find? (ht : Sound t) {x : Claim} (hx : t.claims.find? c = some x) :
    ∃ e, t.entries.find? x.key = some e ∧ t.at? c x.stage = some (x, e) := by
  obtain ⟨e, he, hid⟩ := ht.entered c x hx
  refine ⟨e, he, ?_⟩
  simp only [at?, hx, he, hid, decide_true, Bool.and_self, if_true]

/-- The table after a claim took its entry. -/
def acquired (t : KeyLocks) (c : ClaimId) (x : Claim) (e : LockEntry) : KeyLocks :=
  { t with
    entries := t.entries.put x.key { e with owner := some c }
    claims := t.claims.put c { x with stage := .holding } }

/-- The table after a claim gave its entry free. -/
def freed (t : KeyLocks) (c : ClaimId) (x : Claim) (e : LockEntry) : KeyLocks :=
  { t with
    entries := t.entries.put x.key { e with owner := none }
    claims := t.claims.put c { x with stage := .releasing } }

/-- The table after a claim was dropped. -/
def dropped (t : KeyLocks) (c : ClaimId) (x : Claim) (e : LockEntry) : KeyLocks :=
  { t with
    entries :=
      if e.references ≤ 1 then t.entries.erase x.key
      else t.entries.put x.key { e with references := e.references - 1 }
    claims := t.claims.erase c }

theorem acquire?_eq_some (h : t.acquire? c = some t') :
    ∃ x e, t.at? c .waiting = some (x, e) ∧ e.owner = none ∧ t' = t.acquired c x e := by
  unfold acquire? at h
  cases hat : t.at? c .waiting with
  | none => simp only [hat, reduceCtorEq] at h
  | some p =>
    obtain ⟨x, e⟩ := p
    simp only [hat] at h
    split at h
    · next hfree =>
      cases h
      exact ⟨x, e, rfl, Option.isNone_iff_eq_none.mp hfree, rfl⟩
    · cases h

theorem free?_eq_some (h : t.free? c = some t') :
    ∃ x e, t.at? c .holding = some (x, e) ∧ t' = t.freed c x e := by
  unfold free? at h
  cases hat : t.at? c .holding with
  | none => simp only [hat, reduceCtorEq] at h
  | some p =>
    obtain ⟨x, e⟩ := p
    simp only [hat, Option.some.injEq] at h
    exact ⟨x, e, rfl, h.symm⟩

theorem drop?_eq_some (h : t.drop? c = some t') :
    ∃ x e, t.at? c .releasing = some (x, e) ∧ t' = t.dropped c x e := by
  unfold drop? at h
  cases hat : t.at? c .releasing with
  | none => simp only [hat, reduceCtorEq] at h
  | some p =>
    obtain ⟨x, e⟩ := p
    simp only [hat, Option.some.injEq] at h
    exact ⟨x, e, rfl, h.symm⟩

theorem find?_acquired (t : KeyLocks) (c d : ClaimId) (x : Claim) (e : LockEntry) :
    (t.acquired c x e).claims.find? d =
      if d = c then some { x with stage := .holding } else t.claims.find? d :=
  Assoc.find?_put ..

theorem find?_freed (t : KeyLocks) (c d : ClaimId) (x : Claim) (e : LockEntry) :
    (t.freed c x e).claims.find? d =
      if d = c then some { x with stage := .releasing } else t.claims.find? d :=
  Assoc.find?_put ..

theorem find?_dropped (t : KeyLocks) (c d : ClaimId) (x : Claim) (e : LockEntry) :
    (t.dropped c x e).claims.find? d = if d = c then none else t.claims.find? d :=
  Assoc.find?_erase ..

/-- A new claim waits under the next name, whatever else is in the table. -/
theorem find?_claim (t : KeyLocks) (key : Bytes) (d : ClaimId) :
    (t.claim key).1.claims.find? d =
      if d = t.nextClaim then
        some ⟨key, ((t.entries.find? key).getD ⟨t.nextEntry, 0, none⟩).id, .waiting⟩
      else t.claims.find? d := by
  simp only [claim, Assoc.find?_put]

/-! ## Consequences -/

/-- Two claims on one key do not hold together. -/
theorem Sound.holding_unique (ht : Sound t) {c d : ClaimId} {x y : Claim}
    (hx : t.claims.find? c = some x) (hy : t.claims.find? d = some y)
    (hc : x.stage = .holding) (hd : y.stage = .holding) (hkey : x.key = y.key) : c = d := by
  obtain ⟨e, he, _⟩ := ht.entered c x hx
  have hown := (ht.owned x.key e c he).mpr ⟨x, hx, rfl, hc⟩
  have hown' := (ht.owned x.key e d he).mpr ⟨y, hy, hkey.symm, hd⟩
  exact Option.some.inj (hown.symm.trans hown')

/-- A key on which there is no claim has no entry. -/
theorem Sound.entry_of_total (ht : Sound t) {key : Bytes} (h : t.claims.total (onKey key) = 0) :
    t.entries.find? key = none := by
  cases he : t.entries.find? key with
  | none => rfl
  | some e =>
    have hpos := ht.wanted key e he
    rw [ht.counted key e he, h] at hpos
    exact absurd hpos (Nat.lt_irrefl 0)

/-! ## Preservation -/

/-- The claims that hold after one was put in the table. -/
theorem holding_put (t : KeyLocks) (c d : ClaimId) (x : Claim) (key : Bytes) :
    (∃ y, (t.claims.put c x).find? d = some y ∧ y.key = key ∧ y.stage = .holding) ↔
      if d = c then x.key = key ∧ x.stage = .holding
      else ∃ y, t.claims.find? d = some y ∧ y.key = key ∧ y.stage = .holding := by
  rw [Assoc.find?_put]
  split
  · constructor
    · rintro ⟨y, hy, hkey, hstage⟩
      cases hy
      exact ⟨hkey, hstage⟩
    · intro hx
      exact ⟨x, rfl, hx⟩
  · exact Iff.rfl

/-- A key without an entry has no claims on it. -/
theorem Sound.total_of_no_entry (ht : Sound t) {key : Bytes} (h : t.entries.find? key = none) :
    t.claims.total (onKey key) = 0 := by
  apply Assoc.total_eq_zero
  intro p hp
  obtain ⟨d, x⟩ := p
  obtain ⟨e, he, _⟩ := ht.entered d x (Assoc.find?_of_mem ht.distinct hp)
  apply if_neg
  intro hkey
  rw [show x.key = key from hkey, h] at he
  cases he

/-! ### A new claim -/

/-- The entry that a new claim on a key finds or makes. -/
def entryFor (t : KeyLocks) (key : Bytes) : LockEntry :=
  (t.entries.find? key).getD ⟨t.nextEntry, 0, none⟩

theorem entryFor_of_find? {key : Bytes} {e : LockEntry} (he : t.entries.find? key = some e) :
    t.entryFor key = e := by
  rw [entryFor, he, Option.getD_some]

/-- A new entry starts its count at none, because there is no claim on a key without an entry. -/
theorem Sound.entryFor_references (ht : Sound t) (key : Bytes) :
    (t.entryFor key).references = t.claims.total (onKey key) := by
  unfold entryFor
  cases he : t.entries.find? key with
  | some e => exact ht.counted key e he
  | none => exact (ht.total_of_no_entry he).symm

/-- And it starts without an owner, because no claim on the key holds. -/
theorem Sound.entryFor_owner (ht : Sound t) (key : Bytes) (d : ClaimId) :
    (t.entryFor key).owner = some d ↔
      ∃ x, t.claims.find? d = some x ∧ x.key = key ∧ x.stage = .holding := by
  unfold entryFor
  cases he : t.entries.find? key with
  | some e => exact ht.owned key e d he
  | none =>
    constructor
    · intro h
      cases h
    · rintro ⟨x, hx, hkey, _⟩
      obtain ⟨e, hfound, _⟩ := ht.entered d x hx
      rw [hkey, he] at hfound
      cases hfound

/-- The new claim waits, so that the claims that hold are the ones that held. -/
theorem Sound.holding_claim (ht : Sound t) (key key' : Bytes) (d : ClaimId) :
    (∃ x, (t.claim key).1.claims.find? d = some x ∧ x.key = key' ∧ x.stage = .holding) ↔
      ∃ x, t.claims.find? d = some x ∧ x.key = key' ∧ x.stage = .holding := by
  have hclaims : (t.claim key).1.claims =
      t.claims.put t.nextClaim ⟨key, (t.entryFor key).id, .waiting⟩ := rfl
  rw [hclaims, holding_put]
  split
  · next hd =>
    have hnew : t.claims.find? d = none := ht.fresh d (Nat.le_of_eq hd.symm)
    simp only [hnew, reduceCtorEq, and_false, false_and, exists_false]
  · exact Iff.rfl

/-- **A new claim leaves the table sound.** -/
theorem Sound.claim (ht : Sound t) (key : Bytes) : Sound (t.claim key).1 := by
  have hentries : (t.claim key).1.entries = t.entries.put key
      { t.entryFor key with references := (t.entryFor key).references + 1 } := rfl
  have hclaims : (t.claim key).1.claims =
      t.claims.put t.nextClaim ⟨key, (t.entryFor key).id, .waiting⟩ := rfl
  refine ⟨?_, ?_, ?_, ?_, ?_, ?_⟩
  · exact Assoc.nodup_keys_put ht.distinct _ _
  · intro d hd
    rw [find?_claim, if_neg (Nat.ne_of_gt hd)]
    exact ht.fresh d (Nat.le_of_succ_le hd)
  · intro d y hy
    rw [hclaims, Assoc.find?_put] at hy
    rw [hentries, Assoc.find?_put]
    split at hy
    · cases hy
      exact ⟨_, if_pos rfl, rfl⟩
    · obtain ⟨f, hf, hid⟩ := ht.entered d y hy
      split
      · next hkey =>
        rw [hkey] at hf
        rw [entryFor_of_find? hf]
        exact ⟨_, rfl, hid⟩
      · exact ⟨f, hf, hid⟩
  · intro key' f hf
    rw [hclaims, Assoc.total_put_new (ht.fresh _ (Nat.le_refl _))]
    rw [hentries, Assoc.find?_put] at hf
    split at hf
    · next hkey =>
      subst hkey
      cases hf
      simp only [onKey, if_pos, ht.entryFor_references]
    · next hkey =>
      rw [ht.counted key' f hf]
      simp only [onKey, if_neg (Ne.symm hkey), Nat.add_zero]
  · intro key' f hf
    rw [hentries, Assoc.find?_put] at hf
    split at hf
    · cases hf
      exact Nat.succ_pos _
    · exact ht.wanted key' f hf
  · intro key' f d hf
    rw [ht.holding_claim]
    rw [hentries, Assoc.find?_put] at hf
    split at hf
    · next hkey =>
      subst hkey
      cases hf
      exact ht.entryFor_owner key' d
    · exact ht.owned key' f d hf

/-! ### A claim that takes its entry, and gives it free -/

section Change

variable {x : Claim} {e : LockEntry}

/-- An entry that goes to another owner keeps its count. -/
theorem entry_of_owner (he : t.entries.find? x.key = some e) {owner : Option ClaimId} {key : Bytes}
    {f : LockEntry} (hf : (t.entries.put x.key { e with owner }).find? key = some f) :
    ∃ g, t.entries.find? key = some g ∧ f.references = g.references := by
  rw [Assoc.find?_put] at hf
  split at hf
  · next hkey =>
    cases hf
    exact ⟨e, hkey ▸ he, rfl⟩
  · exact ⟨f, hf, rfl⟩

/-- Every claim finds its entry, also after the entry went to another owner. -/
theorem entered_of_owner (he : t.entries.find? x.key = some e) (owner : Option ClaimId) {y : Claim}
    (hy : ∃ f, t.entries.find? y.key = some f ∧ f.id = y.entry) :
    ∃ f, (t.entries.put x.key { e with owner }).find? y.key = some f ∧ f.id = y.entry := by
  obtain ⟨f, hf, hid⟩ := hy
  by_cases hkey : y.key = x.key
  · rw [hkey, he] at hf
    cases hf
    exact ⟨{ e with owner }, by rw [Assoc.find?_put, if_pos hkey], hid⟩
  · exact ⟨f, by rw [Assoc.find?_put, if_neg hkey, hf], hid⟩

/-- A claim counts on its key at every stage. -/
theorem total_of_stage (hx : t.claims.find? c = some x) (stage : ClaimStage) (key : Bytes) :
    (t.claims.put c { x with stage }).total (onKey key) = t.claims.total (onKey key) := by
  have htotal := Assoc.total_put_old hx { x with stage } (onKey key)
  simp only [onKey] at htotal ⊢
  omega

/-- The entries have the claims for owners that hold, when the entry of a claim that changes has it
exactly if it holds now. -/
theorem Sound.owned_of_stage (ht : Sound t) (hx : t.claims.find? c = some x)
    (he : t.entries.find? x.key = some e) {stage : ClaimStage} {owner : Option ClaimId}
    (hown : ∀ d, owner = some d ↔ if d = c then stage = .holding else e.owner = some d)
    {key : Bytes} {f : LockEntry} (d : ClaimId)
    (hf : (t.entries.put x.key { e with owner }).find? key = some f) :
    f.owner = some d ↔ ∃ y, (t.claims.put c { x with stage }).find? d = some y ∧ y.key = key ∧
      y.stage = .holding := by
  rw [holding_put]
  rw [Assoc.find?_put] at hf
  split at hf
  · next hkey =>
    subst hkey
    cases hf
    refine (hown d).trans ?_
    split
    · simp only [true_and]
    · exact ht.owned x.key e d he
  · next hkey =>
    refine (ht.owned key f d hf).trans ?_
    split
    · next hdc =>
      -- the claim that changes is on another key
      subst hdc
      constructor
      · rintro ⟨y, hy, hykey, _⟩
        rw [hx] at hy
        cases hy
        exact absurd hykey.symm hkey
      · rintro ⟨hxkey, _⟩
        exact absurd hxkey.symm hkey
    · exact Iff.rfl

/-- A claim that goes to another stage, and its entry to another owner, leave the table sound when
the new owner is the claim exactly if it holds now. -/
theorem Sound.change (ht : Sound t) {stage : ClaimStage} {owner : Option ClaimId}
    (hx : t.claims.find? c = some x) (he : t.entries.find? x.key = some e)
    (hown : ∀ d, owner = some d ↔ if d = c then stage = .holding else e.owner = some d) :
    Sound { t with
      entries := t.entries.put x.key { e with owner }
      claims := t.claims.put c { x with stage } } where
  distinct := Assoc.nodup_keys_put ht.distinct _ _
  fresh d hd := by
    have hdc : d ≠ c := fun hdc => by
      have hnone := ht.fresh d hd
      rw [hdc, hx] at hnone
      cases hnone
    rw [Assoc.find?_put, if_neg hdc]
    exact ht.fresh d hd
  entered d y hy := by
    refine entered_of_owner he owner ?_
    rw [Assoc.find?_put] at hy
    split at hy
    · cases hy
      exact ht.entered c x hx
    · exact ht.entered d y hy
  counted key f hf := by
    obtain ⟨g, hg, hreferences⟩ := entry_of_owner he hf
    rw [hreferences, total_of_stage hx, ht.counted key g hg]
  wanted key f hf := by
    obtain ⟨g, hg, hreferences⟩ := entry_of_owner he hf
    rw [hreferences]
    exact ht.wanted key g hg
  owned key f d hf := ht.owned_of_stage hx he hown d hf

end Change

/-- **A claim that takes its entry leaves the table sound.** -/
theorem Sound.acquire (ht : Sound t) (h : t.acquire? c = some t') : Sound t' := by
  obtain ⟨x, e, hat, hfree, rfl⟩ := acquire?_eq_some h
  obtain ⟨hx, he, _, _⟩ := at?_eq_some hat
  apply ht.change hx he
  intro d
  split
  · next hdc => simp only [hdc]
  · next hdc => simp only [Option.some.injEq, Ne.symm hdc, hfree, reduceCtorEq]

/-- **A claim that gives its entry free leaves the table sound.** -/
theorem Sound.free (ht : Sound t) (h : t.free? c = some t') : Sound t' := by
  obtain ⟨x, e, hat, rfl⟩ := free?_eq_some h
  obtain ⟨hx, he, hstage, _⟩ := at?_eq_some hat
  have howner : e.owner = some c := (ht.owned x.key e c he).mpr ⟨x, hx, rfl, hstage⟩
  apply ht.change hx he
  intro d
  split
  · simp only [reduceCtorEq]
  · next hdc => simp only [howner, Option.some.injEq, Ne.symm hdc, reduceCtorEq]

/-! ### A claim that is dropped -/

/-- Another claim on the key shows that a claim is not the last. -/
theorem Sound.one_lt_references (ht : Sound t) {x y : Claim} {e : LockEntry} {d : ClaimId}
    (hx : t.claims.find? c = some x) (he : t.entries.find? x.key = some e)
    (hy : (t.claims.erase c).find? d = some y) (hkey : y.key = x.key) : 1 < e.references := by
  have htotal := Assoc.total_erase ht.distinct hx (onKey x.key)
  have hweight := Assoc.weight_le_total hy (onKey x.key)
  have hcount := ht.counted x.key e he
  have hone : onKey x.key (c, x) = 1 := if_pos rfl
  have hother : onKey x.key (d, y) = 1 := if_pos hkey
  omega

/-- An entry that is left was there before, and counts one reference less on the key of the claim. -/
theorem Sound.entry_of_dropped (ht : Sound t) {x : Claim} {e f : LockEntry} {key : Bytes}
    (he : t.entries.find? x.key = some e)
    (hf : (dropped t c x e).entries.find? key = some f) :
    ∃ g, t.entries.find? key = some g ∧ f.id = g.id ∧ f.owner = g.owner ∧
      f.references + onKey key (c, x) = g.references ∧ 0 < f.references := by
  have hother : key ≠ x.key → t.entries.find? key = some f →
      ∃ g, t.entries.find? key = some g ∧ f.id = g.id ∧ f.owner = g.owner ∧
        f.references + onKey key (c, x) = g.references ∧ 0 < f.references := by
    intro hkey hfound
    refine ⟨f, hfound, rfl, rfl, ?_, ht.wanted key f hfound⟩
    simp only [onKey, if_neg (Ne.symm hkey), Nat.add_zero]
  simp only [dropped] at hf
  split at hf
  · rw [Assoc.find?_erase] at hf
    split at hf
    · cases hf
    · next hkey => exact hother hkey hf
  · next hmore =>
    rw [Assoc.find?_put] at hf
    split at hf
    · next hkey =>
      subst hkey
      cases hf
      have hself : onKey x.key (c, x) = 1 := if_pos rfl
      refine ⟨e, he, rfl, rfl, ?_, ?_⟩
      · simp only [hself]
        omega
      · simp only
        omega
    · next hkey => exact hother hkey hf

/-- **A claim that is dropped leaves the table sound**: its entry goes with it exactly when it was
the last claim on the key. -/
theorem Sound.drop (ht : Sound t) (h : t.drop? c = some t') : Sound t' := by
  obtain ⟨x, e, hat, rfl⟩ := drop?_eq_some h
  obtain ⟨hx, he, hstage, _⟩ := at?_eq_some hat
  refine ⟨Assoc.nodup_keys_erase ht.distinct _, ?_, ?_, ?_, ?_, ?_⟩
  · intro d hd
    rw [find?_dropped]
    split
    · rfl
    · exact ht.fresh d hd
  · intro d y hy
    have hleft : y.key = x.key → 1 < e.references := ht.one_lt_references hx he hy
    rw [find?_dropped] at hy
    split at hy
    · cases hy
    · obtain ⟨f, hf, hid⟩ := ht.entered d y hy
      simp only [dropped]
      by_cases hkey : y.key = x.key
      · rw [hkey, he] at hf
        cases hf
        rw [if_neg (Nat.not_le.mpr (hleft hkey)), Assoc.find?_put, if_pos hkey]
        exact ⟨_, rfl, hid⟩
      · refine ⟨f, ?_, hid⟩
        split
        · rw [Assoc.find?_erase, if_neg hkey, hf]
        · rw [Assoc.find?_put, if_neg hkey, hf]
  · intro key f hf
    obtain ⟨g, hg, _, _, hrefs, _⟩ := ht.entry_of_dropped he hf
    have htotal := Assoc.total_erase ht.distinct hx (onKey key)
    have hcount := ht.counted key g hg
    simp only [dropped]
    omega
  · intro key f hf
    obtain ⟨_, _, _, _, _, hpos⟩ := ht.entry_of_dropped he hf
    exact hpos
  · intro key f d hf
    obtain ⟨g, hg, _, howner, _, _⟩ := ht.entry_of_dropped he hf
    rw [howner, find?_dropped]
    refine (ht.owned key g d hg).trans ?_
    split
    · next hdc =>
      subst hdc
      constructor
      · rintro ⟨y, hy, _, hholding⟩
        rw [hx] at hy
        cases hy
        rw [hstage] at hholding
        cases hholding
      · rintro ⟨y, hy, _⟩
        cases hy
    · exact Iff.rfl

end KeyLocks

end Keyspace
