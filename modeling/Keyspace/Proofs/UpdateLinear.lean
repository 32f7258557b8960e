import Keyspace.Proofs.AccessHistory

/-!
# Updates among other accesses

The accesses of a run to a key are a history (`effect_of_done`, `sourced_of_run`), to which the
results on histories apply (`update_linearizable_unless_put_lost`): with stores that fit it is
linearizable, stores fit exactly if no `put` is overwritten by a result of an older value, and a lost
`put` is a history that no order explains. Such a run exists (`put_is_overwritten`).
-/

namespace Keyspace

variable {V : Type}

namespace BucketSystem

variable [Storable V] {s s' t : BucketSystem V} {id : CallId} {c : UpdateCall V}
  {past : List (Event V)} {key : Bytes}

/-- What a call has shown stands somewhere in the trace, under its key. -/
theorem Recorded.exists_position (h : Recorded past s) (hc : s.calls.find? id = some c) {a : Act V}
    (ha : a ∈ actsOf id past) : ∃ i : Nat, past[i]? = some (.act id c.key a) := by
  obtain ⟨key, hmem⟩ := mem_actsOf.mp ha
  obtain ⟨d, hd, hkey⟩ := h.keyed id key a hmem
  rw [hc] at hd
  cases hd
  rw [hkey]
  exact List.mem_iff_getElem?.mp hmem

/-- **A call with a result is an access of the history**, from the time of its call. -/
theorem Recorded.effect_of_done (h : Recorded past s) {m : Nat} {start : UpdateCall V}
    (hm : past[m]? = some (.called id start)) (hkey : start.key = key)
    {result : Outcome Unit} (hresult : s.result? id = some result) (hc : Chronicle past) :
    ∃ n o, Effect key past n o ∧ o.start = m ∧
      ∀ (i : Nat) (w : V), past[i]? = some (.act id key (.stored w)) → n = i := by
  obtain ⟨d, hd, hstage⟩ := result?_eq_some_iff.mp hresult
  have hcourse := h.shown id d hd
  simp only [Shown, hstage] at hcourse
  obtain ⟨start', hstart', heq⟩ := h.started id d hd
  obtain ⟨m', hm'⟩ := List.mem_iff_getElem?.mp hstart'
  obtain ⟨_, rfl⟩ := hc.called_unique hm hm'
  have hdkey : d.key = key := by rw [heq, hkey]
  have hposition : ∀ a ∈ actsOf id past, ∃ i : Nat, past[i]? = some (.act id key a) := by
    intro a ha
    rw [← hdkey]
    exact h.exists_position hd ha
  have hstore : ∀ (i : Nat) (w : V), past[i]? = some (.act id key (.stored w)) →
      (actsOf id past).any Act.isStore = true := by
    intro i w hi
    exact List.any_eq_true.mpr ⟨_, mem_actsOf.mpr ⟨key, List.mem_of_getElem? hi⟩, rfl⟩
  cases result with
  | ok _ =>
    have hstored := hcourse.stores_iff.mpr rfl
    obtain ⟨a, ha, hisStore⟩ := List.any_eq_true.mp hstored
    cases a with
    | stored w =>
      obtain ⟨n, hn⟩ := hposition _ ha
      have hreturned : .returned (.ok ()) ∈ actsOf id past := by
        generalize actsOf id past = acts at hcourse
        cases hcourse
        simp
      obtain ⟨l, hl⟩ := hposition _ hreturned
      refine ⟨n, _, .update hm hkey hn hl, rfl, ?_⟩
      intro i u hi
      exact hc.act_unique hn hi rfl
    | _ => cases hisStore
  | error f =>
    have hnone : ∀ (i : Nat) (w : V), past[i]? ≠ some (.act id key (.stored w)) := by
      intro i w hi
      cases hcourse.stores_iff.mp (hstore i w hi)
    generalize hacts : actsOf id past = acts at hcourse
    cases hcourse with
    | absent =>
      obtain ⟨l, hl⟩ := hposition (.checked false) (by rw [hacts]; simp)
      exact ⟨l, _, .absent hm hkey hl, rfl, fun i w hi => absurd hi (hnone i w)⟩
    | locked verdict =>
      obtain ⟨l, hl⟩ := hposition (.returned (.error f)) (by rw [hacts]; simp)
      exact ⟨l, _, .failed hm hkey hl, rfl, fun i w hi => absurd hi (hnone i w)⟩

/-- **Nobody stores under a key while a call carries its value**: since the call read it. -/
structure Exclusive (key : Bytes) (past : List (Event V)) (s : BucketSystem V) : Prop where
  sourced : Sourced key past
  carried : ∀ id c, s.calls.find? id = some c → c.key = key → c.stage.Carries →
    ∃ (r : Nat) (v : V), past[r]? = some (.act id key (.read (some v))) ∧
      ∀ (i : Nat) (j : CallId) (u : V), r < i → past[i]? ≠ some (.act j key (.stored u))

/-- **Every step keeps the carried values exclusive**: a call that stores takes its value from what it
read, and after it nobody carries a value of the key. -/
theorem Exclusive.step {e : Event V} (h : Exclusive key past s) (hs : Sound s)
    (hrec : Recorded past s) (htrans : Transition s e s') : Exclusive key (past ++ [e]) s' where
  sourced := by
    refine h.sourced.snoc ?_
    rintro id w rfl
    obtain ⟨c, v, hc, hkey, hcarries, heval, hacts⟩ := hrec.of_stored htrans
    obtain ⟨r, v', hread, halone⟩ := h.carried id c hc hkey hcarries
    obtain ⟨start, hstart, hstage⟩ := hrec.started id c hc
    have hv : v' = v := by
      have hmem := mem_actsOf.mpr ⟨key, List.mem_of_getElem? hread⟩
      rw [hacts] at hmem
      simpa [entering] using hmem
    subst hv
    have hsame : start.evaluation v' = c.evaluation v' := by rw [hstage]; rfl
    refine ⟨r, v', start, hread, hstart, ?_, halone⟩
    rw [UpdateCall.makes?, hsame, heval]
    rfl
  carried j d hd hkey hcarries := by
    have hstore : ∀ i u, e ≠ .act i key (.stored u) := by
      rintro i u rfl
      obtain ⟨_, c, hc, hckey, hlocked, hfree⟩ := htrans.stored
      exact (hs.step htrans).not_carries hc hlocked hfree hd (hkey.trans hckey.symm) hcarries
    rcases htrans.carries hd hcarries with ⟨v, rfl, _⟩ | ⟨⟨c, hc, hckey, hbefore⟩, _⟩
    · refine ⟨past.length, v, ?_, ?_⟩
      · rw [List.getElem?_concat_length, hkey]
      · intro i k u hi hstored
        have hlt := lt_length_of_getElem? hstored
        rw [List.length_append, List.length_singleton] at hlt
        omega
    · obtain ⟨r, v, hread, halone⟩ := h.carried j c hc (hckey.trans hkey) hbefore
      refine ⟨r, v, getElem?_snoc_of_some hread e, ?_⟩
      intro i k u hi hstored
      rcases getElem?_snoc hstored with hold | ⟨_, heq⟩
      · exact halone i k u hi hold
      · exact hstore k u heq.symm

/-- **Every store of a run comes from a read of its call.** -/
theorem sourced_of_run (h : AtRest s) {steps : List (Step V)} (hrun : s.run? steps = some t)
    (key : Bytes) : Sourced key (s.trace steps) := by
  have hexclusive : Exclusive key (s.trace steps) t := by
    refine h.run_induction (P := Exclusive key) ⟨?_, ?_⟩ ?_ hrun
    · intro n id w hn
      cases hn
    · intro id c hc
      rw [h.calls] at hc
      cases hc
    · intro past u e u' hu hrec hexcl htrans
      exact hexcl.step hu hrec htrans
  exact hexclusive.sourced

/-- Every step of a run sees what its key has at its time. -/
theorem sees_at (h : AtRest s) {steps : List (Step V)} (hrun : s.run? steps = some t) (key : Bytes)
    (n : Nat) (e : Event V) (hn : (s.trace steps)[n]? = some e) :
    e.Sees key (replay key (s.value? key) ((s.trace steps).take n)) := by
  obtain ⟨hlt, rfl⟩ := List.getElem?_eq_some_iff.mp hn
  have hsplit : s.trace steps = (s.trace steps).take n ++
      (s.trace steps)[n] :: (s.trace steps).drop (n + 1) := by
    rw [← List.drop_eq_getElem_cons hlt, List.take_append_drop]
  exact sees_of_run h.sound hrun key hsplit

/-- **What becomes of the accesses to a key**, in a run after which every call on the key has its
result: each call is an access of the history; where nothing is removed, stores fit exactly if no
`put` is overwritten; a history whose stores fit is linearizable; one in which an update loses a `put`
is not. So where every `put` that is overwritten is lost, the history is linearizable exactly if none
is. -/
structure Accounted (key : Bytes) (initial : Option V) (events : List (Event V))
    (final : Option V) : Prop where
  complete : ∀ (m : Nat) (id : CallId) (c : UpdateCall V), events[m]? = some (.called id c) →
    c.key = key → ∃ n o, Effect key events n o ∧ o.start = m
  fits : .removed key true ∉ events →
    (Fits key initial events ↔ ∀ r p n id c x w, ¬ Overwritten key events r p n id c x w)
  linearizable : Fits key initial events → Linearizable key initial events final
  lost : ∀ r p n g id c x w, LostPut key events r p n g id c x w →
    ¬ Linearizable key initial events final
  exact : .removed key true ∉ events →
    (∀ r p n id c x w, Overwritten key events r p n id c x w →
      ∃ g, LostPut key events r p n g id c x w) →
    (Linearizable key initial events final ↔
      ∀ r p n id c x w, ¬ Overwritten key events r p n id c x w)

/-- **Updates among other accesses are linearizable unless a `put` is overwritten**, and are not when
it is lost. -/
theorem update_linearizable_unless_put_lost (h : AtRest s) {steps : List (Step V)}
    (hrun : s.run? steps = some t)
    (hdone : ∀ id c, t.calls.find? id = some c → c.key = key → ∃ result, t.result? id = some result) :
    Accounted key (s.value? key) (s.trace steps) (t.value? key) := by
  have hchron := chronicle_of_run h hrun
  have hrec := recorded_of_run h hrun
  have hsourced := sourced_of_run h hrun key
  have heffect : ∀ (m : Nat) (id : CallId) (c : UpdateCall V),
      (s.trace steps)[m]? = some (.called id c) → c.key = key →
      ∃ n o, Effect key (s.trace steps) n o ∧ o.start = m ∧ ∀ (i : Nat) (w : V),
        (s.trace steps)[i]? = some (.act id key (.stored w)) → n = i := by
    intro m id c hm hkey
    obtain ⟨d, hd⟩ := hrec.known id c (List.mem_of_getElem? hm)
    obtain ⟨start, hstart, heq⟩ := hrec.started id d hd
    obtain ⟨m', hm'⟩ := List.mem_iff_getElem?.mp hstart
    obtain ⟨_, rfl⟩ := hchron.called_unique hm hm'
    obtain ⟨result, hresult⟩ := hdone id d hd (by rw [heq]; exact hkey)
    exact hrec.effect_of_done hm hkey hresult hchron
  have hstored : ∀ (n : Nat) (id : CallId) (w : V),
      (s.trace steps)[n]? = some (.act id key (.stored w)) → ∃ o, Effect key (s.trace steps) n o := by
    intro n id w hn
    obtain ⟨d, hd, hdkey⟩ := hrec.keyed id key _ (List.mem_of_getElem? hn)
    obtain ⟨start, hstart, heq⟩ := hrec.started id d hd
    obtain ⟨m, hm⟩ := List.mem_iff_getElem?.mp hstart
    rw [heq] at hdkey
    obtain ⟨i, o, ho, _, hi⟩ := heffect m id start hm hdkey
    exact ⟨o, hi n w hn ▸ ho⟩
  have hvalue := value?_of_run h.sound hrun key
  have hfits := fits_iff hchron (sees_at h hrun key) hsourced
  have hlinear : Fits key (s.value? key) (s.trace steps) →
      Linearizable key (s.value? key) (s.trace steps) (t.value? key) := by
    rw [hvalue]
    exact linearizable_of_fits hchron (sees_at h hrun key) hstored
  have hlost : ∀ r p n g id c x w, LostPut key (s.trace steps) r p n g id c x w →
      ¬ Linearizable key (s.value? key) (s.trace steps) (t.value? key) := by
    rw [hvalue]
    exact fun r p n g id c x w hlost => hlost.not_linearizable hchron
  refine ⟨fun m id c hm hkey => ?_, hfits, hlinear, hlost, fun hremove hall => ⟨?_, ?_⟩⟩
  · obtain ⟨n, o, ho, hstart, _⟩ := heffect m id c hm hkey
    exact ⟨n, o, ho, hstart⟩
  · intro hlin r p n id c x w hover
    obtain ⟨g, hg⟩ := hall r p n id c x w hover
    exact hlost r p n g id c x w hg hlin
  · exact fun hnone => hlinear ((hfits hremove).mpr hnone)

/-- Of the gated update alone, the history is accounted for. -/
theorem gated_accounted : ∃ t, idle.run? gatedSteps = some t ∧
    Accounted [107] none (idle.trace gatedSteps) (t.value? [107]) := by
  have hrun : (idle.run? gatedSteps).any (fun t => t.calls.all fun p => (t.result? p.1).isSome) =
      true := by
    decide +kernel
  obtain ⟨t, ht, hdone⟩ := (Option.any_eq_true _ _).mp hrun
  refine ⟨t, ht, update_linearizable_unless_put_lost atRest_idle ht ?_⟩
  intro id c hc _
  exact Option.isSome_iff_exists.mp (List.all_eq_true.mp hdone (id, c) (Assoc.mem_of_find? hc))

/-- A run in which another value is put while the gated update waits, and read after its store. -/
def overwritingSteps : List (Step Value) :=
  [.put [107] (some (.gated [103] [110])), .call gatedCall, .advance 0, .advance 0, .advance 0,
    .advance 0, .advance 0, .pool (.take 0), .pool (.begin 0), .put [107] (some (.text [120])),
    .pool (.openGate (.named [103])), .pool (.finish 0), .advance 0, .advance 0, .advance 0,
    .advance 0, .get [107]]

/-- The `put` of that run is lost. -/
theorem lostPut_overwriting :
    LostPut [107] (idle.trace overwritingSteps) 5 9 13 16 0 gatedCall (.text [120]) (.text [110]) where
  called := List.mem_of_getElem? (i := 1) rfl
  read := ⟨some (.gated [103] [110]), rfl⟩
  put := rfl
  stored := rfl
  order := by decide
  last i e hi hi' he := by
    have hall : ∀ i < 13, 9 < i →
        ((idle.trace overwritingSteps)[i]?).all (fun e => (e.write? [107]).isNone) = true := by
      decide +kernel
    have hnone := hall i hi' hi
    rw [he] at hnone
    exact Option.isNone_iff_eq_none.mp hnone
  unfit := by decide
  changed := by decide
  observed := ⟨by decide, .inr rfl⟩
  quiet i e hi hi' he := by
    have hall : ∀ i < 16, 13 < i →
        ((idle.trace overwritingSteps)[i]?).all (fun e => (e.write? [107]).isNone) = true := by
      decide +kernel
    have hnone := hall i hi' hi
    rw [he] at hnone
    exact Option.isNone_iff_eq_none.mp hnone
  alone m k l j d v hj hm _ _ := by
    have hall : (idle.trace overwritingSteps).all (fun | .called j _ => j = 0 | _ => true) = true := by
      decide +kernel
    have hzero := List.all_eq_true.mp hall _ (List.mem_of_getElem? hm)
    exact absurd (of_decide_eq_true hzero) hj

/-- **A `put` is overwritten**: it had returned, the update that overwrites it had read before it, and
no order explains what the `get` sees afterwards. -/
theorem put_is_overwritten : ∃ t, idle.run? overwritingSteps = some t ∧
    t.result? 0 = some (.ok ()) ∧ t.bucket.get [107] = .ok (.text [110]) ∧
    ¬ Linearizable [107] none (idle.trace overwritingSteps) (t.value? [107]) := by
  have hrun : ∃ t, idle.run? overwritingSteps = some t ∧ t.result? 0 = some (.ok ()) ∧
      t.bucket.get [107] = .ok (.text [110]) :=
    ⟨_, rfl, rfl, rfl⟩
  obtain ⟨t, ht, hresult, hget⟩ := hrun
  refine ⟨t, ht, hresult, hget, ?_⟩
  rw [value?_of_run atRest_idle.sound ht]
  exact lostPut_overwriting.not_linearizable (chronicle_of_run atRest_idle ht)

end BucketSystem

end Keyspace
