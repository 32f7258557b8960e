import Keyspace.Proofs.LockOwnership
import Keyspace.Proofs.Runs

/-!
# Exclusion and reclamation of locks

What a table of locks is like in every state that a run from an empty one reaches, however the steps
of its claims interleave (`KeyLocks.exclusive_and_reclaimed`). A soundness of two parts carries it:
`Sound` ties the claims to the entries, and `Registered` says of the entries alone that each key has
one of them and that no two keys ever share one, so that a claim cannot mistake the entry of another
key, or an earlier entry of its own key, for the one it refers to.

Nothing is lost that way either: a claim that waits can take its entry as soon as no claim on the
key holds, one that holds can always give it free, and one that gave it free can always be dropped.
So the claims of any state can be released, and then the table is empty (`Sound.drains`).
-/

namespace Keyspace

namespace KeyLocks

variable {t t' : KeyLocks} {c : ClaimId} {key : Bytes} {a : Step} {x : Claim} {e : LockEntry}
  {entries : Assoc Bytes LockEntry} {next : Nat}

/-- **The locks as a machine.** A step shows itself. -/
def machine : Machine KeyLocks Step Step where
  step? := step?
  event _ a := a

/-- **The claims on a key**: those that wait for its lock, hold it, or have given it free and are
not dropped yet. -/
def claimants (t : KeyLocks) (key : Bytes) : List ClaimId :=
  (t.claims.filter fun p => p.2.key = key).map Prod.fst

/-! ## Claimants -/

/-- The weight of the claims on a key is their number. -/
theorem total_onKey (claims : Assoc ClaimId Claim) (key : Bytes) :
    claims.total (onKey key) = (claims.filter fun p => p.2.key = key).length := by
  induction claims with
  | nil => rfl
  | cons p rest ih =>
    rw [Assoc.total, ih, List.filter_cons, onKey]
    by_cases hkey : p.2.key = key
    · simp only [hkey, decide_true, if_true, List.length_cons]
      omega
    · simp only [hkey, decide_false, if_false, Bool.false_eq_true]
      omega

theorem length_claimants (t : KeyLocks) (key : Bytes) :
    (t.claimants key).length = t.claims.total (onKey key) := by
  rw [total_onKey, claimants, List.length_map]

/-- No claim is counted twice. -/
theorem Sound.nodup_claimants (ht : Sound t) (key : Bytes) : (t.claimants key).Nodup := by
  apply List.Nodup.sublist _ ht.distinct
  exact List.filter_sublist.map Prod.fst

theorem Sound.mem_claimants_iff (ht : Sound t) (key : Bytes) (c : ClaimId) :
    c ∈ t.claimants key ↔ ∃ x, t.claims.find? c = some x ∧ x.key = key := by
  simp only [claimants, List.mem_map, List.mem_filter, decide_eq_true_eq]
  constructor
  · rintro ⟨⟨d, x⟩, ⟨hmem, hkey⟩, rfl⟩
    exact ⟨x, Assoc.find?_of_mem ht.distinct hmem, hkey⟩
  · rintro ⟨x, hx, hkey⟩
    exact ⟨(c, x), ⟨Assoc.mem_of_find? hx, hkey⟩, rfl⟩

/-- **A key has an entry exactly as long as there is a claim on it.** -/
theorem Sound.isSome_entry_iff (ht : Sound t) (key : Bytes) :
    (t.entries.find? key).isSome ↔ 0 < (t.claimants key).length := by
  rw [length_claimants]
  cases he : t.entries.find? key with
  | none =>
    simp only [Option.isSome_none, Bool.false_eq_true, ht.total_of_no_entry he, Nat.lt_irrefl]
  | some e =>
    have hpos := ht.wanted key e he
    rw [ht.counted key e he] at hpos
    simp only [Option.isSome_some, hpos]

/-! ## Entries -/

/-- **Entries are registered**: one for each key, and none for two keys. -/
structure Registered (entries : Assoc Bytes LockEntry) (next : Nat) : Prop where
  keys : entries.keys.Nodup
  numbered : ∀ key e, entries.find? key = some e → e.id < next
  distinct : ∀ key key' e e', entries.find? key = some e → entries.find? key' = some e' →
    e.id = e'.id → key = key'

/-- An entry that stands for the one that was there leaves the entries registered. -/
theorem Registered.put (h : Registered entries next) (he : entries.find? key = some e)
    {f : LockEntry} (hid : f.id = e.id) : Registered (entries.put key f) next := by
  -- whatever is found for a key now has the name of what was found for it before
  have before : ∀ k g, (entries.put key f).find? k = some g →
      ∃ g', entries.find? k = some g' ∧ g.id = g'.id := by
    intro k g hg
    rw [Assoc.find?_put] at hg
    split at hg
    · next hk =>
      cases hg
      exact ⟨e, hk ▸ he, hid⟩
    · exact ⟨g, hg, rfl⟩
  refine ⟨Assoc.nodup_keys_put h.keys _ _, ?_, ?_⟩
  · intro k g hg
    obtain ⟨g', hg', hsame⟩ := before k g hg
    rw [hsame]
    exact h.numbered k g' hg'
  · intro k k' g g' hg hg' heq
    obtain ⟨i, hi, hsame⟩ := before k g hg
    obtain ⟨j, hj, hsame'⟩ := before k' g' hg'
    exact h.distinct k k' i j hi hj (hsame.symm.trans (heq.trans hsame'))

/-- A new entry takes a name that none has had. -/
theorem Registered.add (h : Registered entries next) {f : LockEntry} (hid : f.id = next) :
    Registered (entries.put key f) (next + 1) := by
  have found : ∀ k g, (entries.put key f).find? k = some g →
      k = key ∧ g.id = next ∨ entries.find? k = some g ∧ g.id < next := by
    intro k g hg
    rw [Assoc.find?_put] at hg
    split at hg
    · next hk =>
      cases hg
      exact .inl ⟨hk, hid⟩
    · exact .inr ⟨hg, h.numbered k g hg⟩
  refine ⟨Assoc.nodup_keys_put h.keys _ _, ?_, ?_⟩
  · intro k g hg
    rcases found k g hg with ⟨-, hnew⟩ | ⟨-, hlt⟩ <;> omega
  · intro k k' g g' hg hg' heq
    rcases found k g hg with ⟨rfl, hnew⟩ | ⟨hold, hlt⟩
    · rcases found k' g' hg' with ⟨rfl, -⟩ | ⟨-, hlt'⟩
      · rfl
      · omega
    · rcases found k' g' hg' with ⟨rfl, hnew'⟩ | ⟨hold', -⟩
      · omega
      · exact h.distinct k k' g g' hold hold' heq

theorem Registered.erase (h : Registered entries next) (key : Bytes) :
    Registered (entries.erase key) next := by
  have before : ∀ k g, (entries.erase key).find? k = some g → entries.find? k = some g := by
    intro k g hg
    rw [Assoc.find?_erase] at hg
    split at hg
    · cases hg
    · exact hg
  exact ⟨Assoc.nodup_keys_erase h.keys _, fun k g hg => h.numbered k g (before k g hg),
    fun k k' g g' hg hg' => h.distinct k k' g g' (before k g hg) (before k' g' hg')⟩

/-- **A step leaves the entries registered.** -/
theorem Registered.step (h : Registered t.entries t.nextEntry) (hstep : t.step? a = some t') :
    Registered t'.entries t'.nextEntry := by
  cases a with
  | claim key =>
    cases hstep
    have hentries : (t.claim key).1.entries = t.entries.put key
        { t.entryFor key with references := (t.entryFor key).references + 1 } := rfl
    have hnext : (t.claim key).1.nextEntry =
        if t.entries.has key then t.nextEntry else t.nextEntry + 1 := rfl
    rw [hentries, hnext, Assoc.has]
    cases he : t.entries.find? key with
    | none =>
      have hid : (t.entryFor key).id = t.nextEntry := by rw [entryFor, he]; rfl
      exact h.add hid
    | some e => exact h.put he (by rw [entryFor_of_find? he])
  | acquire c =>
    obtain ⟨x, e, hat, -, rfl⟩ := acquire?_eq_some hstep
    exact h.put (at?_eq_some hat).2.1 rfl
  | free c =>
    obtain ⟨x, e, hat, rfl⟩ := free?_eq_some hstep
    exact h.put (at?_eq_some hat).2.1 rfl
  | drop c =>
    obtain ⟨x, e, hat, rfl⟩ := drop?_eq_some hstep
    simp only [dropped]
    split
    · exact h.erase x.key
    · exact h.put (at?_eq_some hat).2.1 rfl

/-! ## Runs -/

/-- **A step leaves the table sound.** -/
theorem Sound.step (ht : Sound t) (hstep : t.step? a = some t') : Sound t' := by
  cases a with
  | claim key =>
    cases hstep
    exact ht.claim key
  | acquire c => exact ht.acquire hstep
  | free c => exact ht.free hstep
  | drop c => exact ht.drop hstep

/-- **So does a run from an empty one**, and its entries stay registered. -/
theorem sound_of_run {steps : List Step} (hrun : machine.run? {} steps = some t) :
    Sound t ∧ Registered t.entries t.nextEntry := by
  refine Machine.run_induction (P := fun _ t => Sound t ∧ Registered t.entries t.nextEntry)
    ?_ ?_ hrun
  · rintro past u b u' ⟨hsound, hregistered⟩ hstep
    exact ⟨hsound.step hstep, hregistered.step hstep⟩
  · refine ⟨Sound.empty 0 0, List.nodup_nil, ?_, ?_⟩
    · intro k g hg
      cases hg
    · intro k k' g g' hg
      cases hg

/-! ## What claims can do -/

/-- **A claim that waits can take its entry exactly when no claim on the key holds.** -/
theorem Sound.isSome_acquire?_iff (ht : Sound t) (hx : t.claims.find? c = some x) :
    (t.acquire? c).isSome ↔ x.stage = .waiting ∧
      ∀ d y, t.claims.find? d = some y → y.key = x.key → y.stage ≠ .holding := by
  constructor
  · intro hsome
    obtain ⟨u, hu⟩ := Option.isSome_iff_exists.mp hsome
    obtain ⟨x', e, hat, hfree, -⟩ := acquire?_eq_some hu
    obtain ⟨hx', he, hstage, -⟩ := at?_eq_some hat
    rw [hx] at hx'
    cases hx'
    refine ⟨hstage, fun d y hy hkey hholds => ?_⟩
    have howner := (ht.owned x.key e d he).mpr ⟨y, hy, hkey, hholds⟩
    rw [hfree] at howner
    cases howner
  · rintro ⟨hstage, hnone⟩
    obtain ⟨e, he, hat⟩ := ht.at?_of_find? hx
    rw [hstage] at hat
    have hfree : e.owner = none := by
      cases howner : e.owner with
      | none => rfl
      | some d =>
        obtain ⟨y, hy, hkey, hholds⟩ := (ht.owned x.key e d he).mp howner
        exact absurd hholds (hnone d y hy hkey)
    simp only [acquire?, hat, hfree, Option.isNone_none, if_true, Option.isSome_some]

theorem Sound.isSome_free?_iff (ht : Sound t) (hx : t.claims.find? c = some x) :
    (t.free? c).isSome ↔ x.stage = .holding := by
  constructor
  · intro hsome
    obtain ⟨u, hu⟩ := Option.isSome_iff_exists.mp hsome
    obtain ⟨x', e, hat, -⟩ := free?_eq_some hu
    obtain ⟨hx', -, hstage, -⟩ := at?_eq_some hat
    rw [hx] at hx'
    cases hx'
    exact hstage
  · intro hstage
    obtain ⟨e, -, hat⟩ := ht.at?_of_find? hx
    rw [hstage] at hat
    simp only [free?, hat, Option.isSome_some]

theorem Sound.isSome_drop?_iff (ht : Sound t) (hx : t.claims.find? c = some x) :
    (t.drop? c).isSome ↔ x.stage = .releasing := by
  constructor
  · intro hsome
    obtain ⟨u, hu⟩ := Option.isSome_iff_exists.mp hsome
    obtain ⟨x', e, hat, -⟩ := drop?_eq_some hu
    obtain ⟨hx', -, hstage, -⟩ := at?_eq_some hat
    rw [hx] at hx'
    cases hx'
    exact hstage
  · intro hstage
    obtain ⟨e, -, hat⟩ := ht.at?_of_find? hx
    rw [hstage] at hat
    simp only [drop?, hat, Option.isSome_some]

/-! ## Releasing all claims -/

/-- How many steps a claim has before it. -/
def ClaimStage.remaining : ClaimStage → Nat
  | .waiting => 3
  | .holding => 2
  | .releasing => 1

/-- How many steps all claims have before them. -/
def remaining (t : KeyLocks) : Nat :=
  t.claims.total fun p => ClaimStage.remaining p.2.stage

/-- A step of a claim that is there brings the claims nearer to their end. -/
theorem Sound.remaining_lt (ht : Sound t) (hstep : t.step? a = some t')
    (hold : ∀ key, a ≠ .claim key) : t'.remaining < t.remaining := by
  have moved : ∀ {c : ClaimId} {x : Claim} (stage : ClaimStage), t.claims.find? c = some x →
      ClaimStage.remaining stage < ClaimStage.remaining x.stage →
      (t.claims.put c { x with stage }).total (fun p => ClaimStage.remaining p.2.stage) <
        t.claims.total fun p => ClaimStage.remaining p.2.stage := by
    intro c x stage hx hlt
    have htotal := Assoc.total_put_old hx { x with stage }
      fun p => ClaimStage.remaining p.2.stage
    simp only at htotal
    omega
  cases a with
  | claim key => exact absurd rfl (hold key)
  | acquire c =>
    obtain ⟨x, e, hat, -, rfl⟩ := acquire?_eq_some hstep
    obtain ⟨hx, -, hstage, -⟩ := at?_eq_some hat
    exact moved .holding hx (by rw [hstage]; decide)
  | free c =>
    obtain ⟨x, e, hat, rfl⟩ := free?_eq_some hstep
    obtain ⟨hx, -, hstage, -⟩ := at?_eq_some hat
    exact moved .releasing hx (by rw [hstage]; decide)
  | drop c =>
    obtain ⟨x, e, hat, rfl⟩ := drop?_eq_some hstep
    obtain ⟨hx, -, hstage, -⟩ := at?_eq_some hat
    have htotal := Assoc.total_erase ht.distinct hx fun p => ClaimStage.remaining p.2.stage
    simp only [hstage, ClaimStage.remaining] at htotal
    simp only [remaining, dropped, ClaimStage.remaining]
    omega

/-- Some claim can go on, as long as there is one. -/
theorem Sound.exists_step (ht : Sound t) (hx : t.claims.find? c = some x) :
    ∃ a t', (∀ key, a ≠ .claim key) ∧ t.step? a = some t' := by
  -- a claim that does not wait can always go on, and without one that holds every other can
  by_cases hbusy : ∃ d y, t.claims.find? d = some y ∧ y.stage ≠ .waiting
  · obtain ⟨d, y, hy, hstage⟩ := hbusy
    cases hys : y.stage with
    | waiting => exact absurd hys hstage
    | holding =>
      obtain ⟨u, hu⟩ := Option.isSome_iff_exists.mp ((ht.isSome_free?_iff hy).mpr hys)
      exact ⟨.free d, u, fun key h => (by cases h), hu⟩
    | releasing =>
      obtain ⟨u, hu⟩ := Option.isSome_iff_exists.mp ((ht.isSome_drop?_iff hy).mpr hys)
      exact ⟨.drop d, u, fun key h => (by cases h), hu⟩
  · have hwaits : ∀ d y, t.claims.find? d = some y → y.stage = .waiting := by
      intro d y hy
      exact Decidable.byContradiction fun hstage => hbusy ⟨d, y, hy, hstage⟩
    have htakes : (t.acquire? c).isSome := by
      refine (ht.isSome_acquire?_iff hx).mpr ⟨hwaits c x hx, fun d y hy _ => ?_⟩
      rw [hwaits d y hy]
      decide
    obtain ⟨u, hu⟩ := Option.isSome_iff_exists.mp htakes
    exact ⟨.acquire c, u, fun key h => (by cases h), hu⟩

/-- The table is empty exactly if there are no claims. -/
theorem Sound.size_eq_zero_iff (ht : Sound t) : t.size = 0 ↔ t.claims = [] := by
  constructor
  · intro hsize
    have hentries : t.entries = [] := List.eq_nil_of_length_eq_zero hsize
    apply Assoc.eq_nil_of_find?_eq_none
    intro d
    cases hx : t.claims.find? d with
    | none => rfl
    | some x =>
      obtain ⟨e, he, -⟩ := ht.entered d x hx
      rw [hentries] at he
      cases he
  · intro hclaims
    have hentries : t.entries = [] := by
      apply Assoc.eq_nil_of_find?_eq_none
      intro key
      apply ht.entry_of_total
      rw [hclaims]
      rfl
    rw [size, hentries]
    rfl

/-- **The claims of a table can all be released**, and that empties the table. -/
theorem Sound.drains (ht : Sound t) : ∃ rest u, (∀ a ∈ rest, ∀ key, a ≠ .claim key) ∧
    machine.run? t rest = some u ∧ u.size = 0 := by
  -- by induction on the steps that the claims have before them
  induction hn : t.remaining using Nat.strongRecOn generalizing t with
  | ind n ih =>
    by_cases hsize : t.size = 0
    · exact ⟨[], t, fun a ha => (by cases ha), rfl, hsize⟩
    · obtain ⟨d, y, hy⟩ : ∃ d y, t.claims.find? d = some y := by
        refine Classical.byContradiction fun hnone => hsize (ht.size_eq_zero_iff.mpr ?_)
        apply Assoc.eq_nil_of_find?_eq_none
        intro d
        cases hy : t.claims.find? d with
        | none => rfl
        | some y => exact absurd ⟨d, y, hy⟩ hnone
      obtain ⟨a, t', hold, hstep⟩ := ht.exists_step hy
      have hlt := ht.remaining_lt hstep hold
      obtain ⟨rest, u, hrest, hrun, hempty⟩ := ih t'.remaining (hn ▸ hlt) (ht.step hstep) rfl
      refine ⟨a :: rest, u, ?_, ?_, hempty⟩
      · rintro b (_ | ⟨_, hb⟩)
        · exact hold
        · exact hrest b hb
      · show (t.step? a).bind (fun t => machine.run? t rest) = some u
        rw [hstep, Option.bind_some, hrun]

/-! ## The contract -/

/-- **Locks are exclusive, and reclaimed exactly.** -/
structure Exact (t : KeyLocks) : Prop where
  exclusive : ∀ c d x y, t.claims.find? c = some x → t.claims.find? d = some y → x.key = y.key →
    x.stage = .holding → y.stage = .holding → c = d
  /-- Every claim refers to the entry that is registered for its key, and to that of no other. -/
  entered : ∀ c x, t.claims.find? c = some x → ∃ e, t.entries.find? x.key = some e ∧
    e.id = x.entry ∧ ∀ key f, t.entries.find? key = some f → f.id = x.entry → key = x.key
  claimed : ∀ key, (t.claimants key).Nodup ∧
    ∀ c, c ∈ t.claimants key ↔ ∃ x, t.claims.find? c = some x ∧ x.key = key
  counted : ∀ key e, t.entries.find? key = some e → e.references = (t.claimants key).length
  present_iff : ∀ key, (t.entries.find? key).isSome ↔ 0 < (t.claimants key).length
  size : ∃ keys : List Bytes, keys.Nodup ∧ keys.length = t.size ∧
    ∀ key, key ∈ keys ↔ 0 < (t.claimants key).length
  empty_iff : t.size = 0 ↔ t.claims = []
  /-- No claim is kept waiting by anything but a claim on its key that holds. -/
  acquires_iff : ∀ c x, t.claims.find? c = some x → ((t.acquire? c).isSome ↔
    x.stage = .waiting ∧ ∀ d y, t.claims.find? d = some y → y.key = x.key → y.stage ≠ .holding)
  releases_iff : ∀ c x, t.claims.find? c = some x →
    ((t.free? c).isSome ↔ x.stage = .holding) ∧ ((t.drop? c).isSome ↔ x.stage = .releasing)
  /-- The claims can be released without new ones, and then nothing is left. -/
  drains : ∃ rest u, (∀ a ∈ rest, ∀ key, a ≠ .claim key) ∧ machine.run? t rest = some u ∧
    u.size = 0

/-- **In every run, locks are exclusive and reclaimed exactly.** -/
theorem exclusive_and_reclaimed {steps : List Step} (hrun : machine.run? {} steps = some t) :
    t.Exact := by
  obtain ⟨ht, hentries⟩ := sound_of_run hrun
  exact {
    exclusive c d x y hx hy hkey hc hd := ht.holding_unique hx hy hc hd hkey
    entered c x hx := by
      obtain ⟨e, he, hid⟩ := ht.entered c x hx
      refine ⟨e, he, hid, fun key f hf hfid => ?_⟩
      exact hentries.distinct key x.key f e hf he (hfid.trans hid.symm)
    claimed key := ⟨ht.nodup_claimants key, ht.mem_claimants_iff key⟩
    counted key e he := by
      rw [length_claimants]
      exact ht.counted key e he
    present_iff := ht.isSome_entry_iff
    size := by
      refine ⟨t.entries.keys, hentries.keys, List.length_map .., fun key => ?_⟩
      rw [← Assoc.isSome_find?_iff, ht.isSome_entry_iff]
    empty_iff := ht.size_eq_zero_iff
    acquires_iff c x hx := ht.isSome_acquire?_iff hx
    releases_iff c x hx := ⟨ht.isSome_free?_iff hx, ht.isSome_drop?_iff hx⟩
    drains := ht.drains }

/-- On one key the first claim has given its entry free, the second holds it and the fourth waits;
the third waits on another key, whose entry is new. -/
def crowdedClaims : List Step :=
  [.claim [107], .claim [107], .acquire 0, .claim [108], .free 0, .acquire 1, .claim [107]]

theorem crowded_exact : ∃ t, machine.run? {} crowdedClaims = some t ∧
    t.claimants [107] = [0, 1, 3] ∧ t.claimants [108] = [2] ∧ t.size = 2 ∧ t.Exact := by
  have hrun : machine.run? {} crowdedClaims = some _ := rfl
  exact ⟨_, hrun, rfl, rfl, rfl, exclusive_and_reclaimed hrun⟩

end KeyLocks

end Keyspace
