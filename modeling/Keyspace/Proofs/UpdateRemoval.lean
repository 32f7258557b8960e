import Keyspace.Proofs.UpdateWrites

/-!
# Removals and updates

A `remove` takes no lock. An update that read its key before a removal stores its result after it all
the same, and the key is back (`removed_key_returns`). Those updates are the only ones: a call that
reads after the removal finds nothing and gives up. So a removed key stays removed until somebody
puts it exactly if no call that carried its value at the removal stores (`absent_until_put_iff`).
-/

namespace Keyspace

variable {V : Type}

namespace BucketSystem

variable {r s s' t u : BucketSystem V} {id : CallId} {c : UpdateCall V} {key : Bytes}

/-- **The key is absent**: a `get` fails with it, and the enumeration does not list it. -/
def Absent (s : BucketSystem V) (key : Bytes) : Prop :=
  s.bucket.get key = .error (.keyMissing key) ∧ key ∉ s.bucket.keys

/-- In a sound system, a key is absent when it has no value. -/
theorem Sound.absent_iff (h : Sound s) : s.Absent key ↔ s.value? key = none := by
  have hkeys : key ∈ s.bucket.keys ↔ (s.value? key).isSome = true := by
    rw [← h.contains_eq, ShardedMap.contains_eq]
    exact h.map.mem_keys_iff key
  cases hv : s.value? key with
  | none =>
    have hget : s.bucket.map.get? key = none := hv
    simp [Absent, Bucket.get, hget, hkeys, hv]
  | some v =>
    have hget : s.bucket.map.get? key = some v := hv
    simp [Absent, Bucket.get, hget, hkeys, hv]

/-- **Nobody brings a removed key back** but the calls that carried its value at the removal: as long
as none of them stores, the key has no value, and no other call comes to carry one. -/
structure Gone (key : Bytes) (r s : BucketSystem V) : Prop where
  value : s.value? key = none
  carriers : ∀ id c, s.calls.find? id = some c → c.key = key → c.stage.Carries →
    ∃ d, r.calls.find? id = some d ∧ d.key = key ∧ d.stage.Carries

variable [Storable V]

/-- **A step keeps the key gone** unless it puts the key or lets one of those calls store. -/
theorem Gone.step {e : Event V} (h : Gone key r s) (hs : Sound s) (htrans : Transition s e s')
    (hput : ∀ v, e ≠ .put key v)
    (hstore : ∀ id d w, r.calls.find? id = some d → d.key = key → d.stage.Carries →
      e ≠ .act id key (.stored w)) : Gone key r s' where
  value := by
    rw [htrans.value? hs, h.value, Event.after]
    cases hwrite : e.write? key with
    | none => rfl
    | some v =>
      rcases Event.write?_eq_some hwrite with ⟨x, rfl, _⟩ | ⟨id, x, rfl, _⟩ | ⟨_, rfl⟩
      · exact absurd rfl (hput x)
      · -- a call that stores carried the value, and so it did at the removal
        obtain ⟨⟨c, hc, hkey, hcarries⟩, _⟩ := htrans.stored
        obtain ⟨d, hd, hdkey, hdcarries⟩ := h.carriers id c hc hkey hcarries
        exact absurd rfl (hstore id d x hd hdkey hdcarries)
      · rfl
  carriers id d hd hkey hcarries := by
    rcases htrans.carries hd hcarries with ⟨v, _, hvalue⟩ | ⟨⟨c, hc, hckey, hccarries⟩, _⟩
    · -- there is nothing to read
      rw [hkey, h.value] at hvalue
      cases hvalue
    · exact h.carriers id c hc (hckey.trans hkey) hccarries

/-- **A run keeps the key gone** as long as nobody puts it and none of those calls stores. -/
theorem Gone.of_run (h : Gone key r s) (hs : Sound s) {steps : List (Step V)}
    (hrun : s.run? steps = some t) (hput : ∀ v, .put key v ∉ s.trace steps)
    (hstore : ∀ id d, r.calls.find? id = some d → d.key = key → d.stage.Carries →
      ∀ w, .act id key (.stored w) ∉ s.trace steps) : Gone key r t := by
  refine (hs.run_induction
    (P := fun past m => (∀ v, .put key v ∉ past) →
      (∀ id d, r.calls.find? id = some d → d.key = key → d.stage.Carries →
        ∀ w, .act id key (.stored w) ∉ past) → Gone key r m)
    (fun _ _ => h) ?_ hrun).2 hput hstore
  intro past m e m' hm hgone htrans hput hstore
  have hbefore : Gone key r m := by
    refine hgone ?_ ?_
    · intro v hv
      exact hput v (List.mem_append_left _ hv)
    · intro id d hd hkey hcarries w hw
      exact hstore id d hd hkey hcarries w (List.mem_append_left _ hw)
  refine hbefore.step hm htrans ?_ ?_
  · rintro v rfl
    exact hput v (List.mem_append_right _ (List.mem_singleton_self _))
  · rintro id d w hd hkey hcarries rfl
    exact hstore id d hd hkey hcarries w (List.mem_append_right _ (List.mem_singleton_self _))

/-- **When a removed key stays removed**: after a successful `remove` from any state that a run from
rest reaches, and until somebody puts the key, it is absent in every state exactly if no update
stores that carried the key's value at the removal. -/
theorem absent_until_put_iff (h : AtRest s) {before after : List (Step V)} {bucket : Bucket V}
    (hbefore : s.run? before = some r) (hremove : r.bucket.remove key = .ok bucket)
    (hafter : { r with bucket }.run? after = some t)
    (hput : ∀ v, .put key v ∉ { r with bucket }.trace after) :
    (∀ first rest m, after = first ++ rest → { r with bucket }.run? first = some m →
        m.Absent key) ↔
      ∀ id c, r.calls.find? id = some c → c.key = key → c.stage.Carries →
        ∀ w, .act id key (.stored w) ∉ { r with bucket }.trace after := by
  have hr := h.sound.of_run hbefore
  have hstep : r.step? (.remove key) = some { r with bucket } := by
    simp only [step?, hremove]
  have hu : Sound { r with bucket } := hr.step (transition_of_step? hstep)
  have hgone : Gone key r { r with bucket } := by
    refine ⟨?_, fun id c hc hkey hcar => ⟨c, hc, hkey, hcar⟩⟩
    simp only [Bucket.remove, ShardedMap.remove] at hremove
    split at hremove
    · next map heq =>
      cases hremove
      obtain ⟨_, rfl⟩ := Prod.mk.inj heq
      exact (hr.value?_remove key key).trans (if_pos rfl)
    · cases hremove
  constructor
  · intro habsent id c _ _ _ w hmem
    -- the state right after the store has the key
    obtain ⟨first, a, rest, m, m', hsplit, hfirst, hstep, hevent⟩ :=
      Machine.exists_step_of_mem_trace hafter hmem
    have hevent : m.event a = .act id key (.stored w) := hevent
    have hm : Sound m := hu.of_run hfirst
    have hvalue : m'.value? key = some w := by
      rw [(transition_of_step? hstep).value? hm key, hevent, Event.after, Event.write?, if_pos rfl,
        Option.getD_some]
    have hrun : { r with bucket }.run? (first ++ [a]) = some m' := by
      exact (Machine.run?_append_of_some hfirst [a]).trans (Machine.run?_singleton hstep)
    have hnone := (hm.step (transition_of_step? hstep)).absent_iff.mp
      (habsent (first ++ [a]) rest m' (by rw [hsplit]; simp) hrun)
    rw [hvalue] at hnone
    cases hnone
  · intro hstore first rest m hsplit hfirst
    have htrace : ∀ e, e ∈ { r with bucket }.trace first → e ∈ { r with bucket }.trace after := by
      intro e he
      rw [hsplit, trace, Machine.trace_append hfirst]
      exact List.mem_append_left _ he
    refine (hu.of_run hfirst).absent_iff.mpr (Gone.value (r := r) ?_)
    exact hgone.of_run hu hfirst (fun v hv => hput v (htrace _ hv))
      fun id d hd hkey hcar w hw => hstore id d hd hkey hcar w (htrace _ hw)

/-- A call that has locked its key and not read it yet. -/
def lockedSteps : List (Step Value) :=
  [.put [107] (some (.gated [103] [110])), .call gatedCall, .advance 0, .advance 0, .advance 0]

/-- It finds the key removed, and the key stays removed. -/
theorem locked_call_finds_nothing : ∃ r bucket t, idle.run? lockedSteps = some r ∧
    r.bucket.remove [107] = .ok bucket ∧
    { r with bucket }.run? [.advance 0, .advance 0, .advance 0] = some t ∧
    t.result? 0 = some (.error (.keyMissing [107])) ∧
    ((∀ first rest m, [.advance 0, .advance 0, .advance 0] = first ++ rest →
        { r with bucket }.run? first = some m → m.Absent [107]) ↔
      ∀ id c, r.calls.find? id = some c → c.key = [107] → c.stage.Carries → ∀ w,
        .act id [107] (.stored w) ∉
          { r with bucket }.trace [.advance 0, .advance 0, .advance 0]) := by
  refine ⟨_, _, _, rfl, rfl, rfl, rfl, ?_⟩
  have hrun : idle.run? lockedSteps = some _ := rfl
  apply absent_until_put_iff atRest_idle hrun rfl rfl
  intro v hv
  rcases hv with _ | ⟨_, _ | ⟨_, _ | ⟨_, hv⟩⟩⟩
  cases hv

/-- **An update brings a removed key back**: it read the key before the removal, and stores after
it. -/
theorem removed_key_returns : ∃ r bucket t,
    idle.run? (lockedSteps ++ [.advance 0, .advance 0, .pool (.take 0), .pool (.begin 0)]) =
      some r ∧
    r.bucket.remove [107] = .ok bucket ∧ bucket.get [107] = .error (.keyMissing [107]) ∧
    { r with bucket }.run?
      [.pool (.openGate (.named [103])), .pool (.finish 0), .advance 0, .advance 0] = some t ∧
    (∀ v, .put [107] v ∉ { r with bucket }.trace
      [.pool (.openGate (.named [103])), .pool (.finish 0), .advance 0, .advance 0]) ∧
    t.bucket.get [107] = .ok (.text [110]) ∧ t.bucket.keys = [[107]] := by
  refine ⟨_, _, _, rfl, rfl, rfl, rfl, ?_, rfl, rfl⟩
  intro v hv
  rcases hv with _ | ⟨_, _ | ⟨_, _ | ⟨_, _ | ⟨_, hv⟩⟩⟩⟩
  cases hv

end BucketSystem

end Keyspace
