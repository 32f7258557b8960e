import Keyspace.Proofs.RangeAnswers

/-!
# Range queries that nobody disturbs

A range query of a bucket in which no request is under way is a run of the machine of queries, from
the arrival of its request to its answer (`QueriedBucket.exists_run_keysInRange`). So what holds of
the answers of all runs holds of the ranges of a bucket that is used by one caller at a time
(`QueriedBucket.History.keysInRange`).
-/

namespace Keyspace

variable {V : Type}

namespace SnapshotCache

variable {c c' : SnapshotCache} {id : RequestId} {steps : List (Int64 × Step)}

/-- A request that is alone stays alone with its own steps. -/
theorem Alone.run (h : Alone c id) (hown : ∀ a ∈ steps, a.2.Of id) (hrun : c.run? steps = some c') :
    Alone c' id := by
  induction steps generalizing c with
  | nil =>
    cases hrun
    exact h
  | cons timed rest ih =>
    obtain ⟨now, a⟩ := timed
    obtain ⟨c₁, hstep, hrest, -⟩ := Machine.run?_cons_eq_some hrun
    obtain ⟨r, e, -, turn⟩ := turn_of_own (hown _ List.mem_cons_self) hstep
    exact ih (h.turn turn) (fun a ha => hown a (List.mem_cons_of_mem _ ha)) hrest

/-- A request that takes steps is the one that it was, at another stage. -/
theorem find?_own_of_run {r : Request} (hr : c.requests.find? id = some r)
    (hown : ∀ a ∈ steps, a.2.Of id) (hrun : c.run? steps = some c') :
    ∃ stage, c'.requests.find? id = some { r with stage } := by
  induction steps generalizing c r with
  | nil =>
    cases hrun
    exact ⟨r.stage, hr⟩
  | cons timed rest ih =>
    obtain ⟨now, a⟩ := timed
    obtain ⟨c₁, hstep, hrest, -⟩ := Machine.run?_cons_eq_some hrun
    obtain ⟨q, e, hq, turn⟩ := turn_of_own (hown _ List.mem_cons_self) hstep
    rw [hr] at hq
    cases hq
    obtain ⟨stage, hrequests, -⟩ := turn.requests_eq
    have hr₁ : c₁.requests.find? id = some { r with stage } := by
      rw [hrequests, Assoc.find?_put, if_pos rfl]
    obtain ⟨stage', hlast⟩ :=
      ih hr₁ (fun a ha => hown a (List.mem_cons_of_mem _ ha)) hrest
    exact ⟨stage', hlast⟩

/-- When a request that nobody disturbed is forgotten, the cache is idle again. -/
theorem Undisturbed.idle {ask : Request} {first : Int64} {result : Outcome Cached}
    (h : Undisturbed c ask first steps result c') (hidle : Idle c) :
    Idle (c'.forget c.nextRequest) := by
  have hother (j : RequestId) : (c'.forget c.nextRequest).requests.find? j =
      if j = c.nextRequest then none else c.requests.find? j := by
    refine (Assoc.find?_erase ..).trans ?_
    split
    · rfl
    · next hj => exact h.find?_other hj
  obtain ⟨-, ⟨arrival, rest, rfl⟩, hown, -, hrun, -⟩ := h
  obtain ⟨c₁, harrival, hrest, -⟩ := Machine.run?_cons_eq_some hrun
  cases harrival
  have halone := (Alone.request hidle ask.name ask.less ask.timeToLive).run hown hrest
  refine ⟨Assoc.nodup_keys_erase halone.keys _, fun j r hr => ?_⟩
  rw [hother] at hr
  split at hr
  · cases hr
  · exact hidle.done j r hr

/-- A request that nobody disturbed is served, if its enumeration gives keys whenever it makes one.
-/
theorem Undisturbed.exists_made {ask : Request} {first : Int64} {result : Outcome Cached}
    {keys : List Bytes} (h : Undisturbed c ask first steps result c')
    (hgiven : ∀ given ∈ enumerations steps, given = .ok keys) : ∃ made, result = .ok made := by
  have hserved := h.served
  generalize enumerations steps = given at hgiven hserved
  cases hserved with
  | found _ _ _ _ => exact ⟨_, rfl⟩
  | computed _ _ _ _ _ => exact ⟨_, rfl⟩
  | failed _ _ _ => cases hgiven _ (List.mem_singleton_self _)

end SnapshotCache

/-! ## Runs of the bucket -/

namespace QueriedBucket

open Enumeration (upTo)

variable [Storable V] {orders : Bytes → KeyOrder} {s t t' : QueriedBucket V} {id : RequestId}
  {c c' : SnapshotCache}

/-- **The bucket goes on alone**: some run leads from `s` to `t`, which is `s` with the cache `c`, and
with an enumeration of the request that saw the map of `s` alone. -/
structure Alone (orders : Bytes → KeyOrder) (id : RequestId) (s t : QueriedBucket V)
    (c : SnapshotCache) : Prop where
  run : ∃ steps, (machine orders).run? s steps = some t
  system : t.system = (s.withCache c).system
  progress : ∃ i ≤ s.map.shards.length, t.enumeration id = upTo s.map i

theorem Alone.cache_eq (h : Alone orders id s t c) : t.cache = c := by
  rw [cache, h.system]
  rfl

theorem Alone.map_eq (h : Alone orders id s t c) : t.map = s.map := by
  rw [map, h.system]
  rfl

theorem Alone.next (h : Alone orders id s t c) {a : Step V} (hstep : t.step? orders a = some t')
    (hsystem : t'.system = (s.withCache c').system)
    (hprogress : ∃ i ≤ s.map.shards.length, t'.enumeration id = upTo s.map i) :
    Alone orders id s t' c' := by
  obtain ⟨steps, hrun⟩ := h.run
  refine ⟨⟨steps ++ [a], ?_⟩, hsystem, hprogress⟩
  exact (Machine.run?_append_of_some hrun [a]).trans (Machine.run?_singleton hstep)

/-- The enumeration of a request that enumerates goes on to its end. -/
theorem Alone.visitAll (h : Alone orders id s t c) (henumerating : c.isEnumerating id = true) :
    ∃ t', Alone orders id s t' c ∧ t'.enumeration id = upTo s.map s.map.shards.length := by
  obtain ⟨i, hi, henum⟩ := h.progress
  induction hleft : s.map.shards.length - i generalizing i t with
  | zero =>
    obtain rfl : i = s.map.shards.length := by omega
    exact ⟨t, h, henum⟩
  | succ left ih =>
    have hvisit := Enumeration.visit?_upTo (m := s.map) (i := i) (by omega)
    have hstep : t.step? orders (.visit id) =
        some { t with enumerations := t.enumerations.put id (upTo s.map (i + 1)) } := by
      simp only [step?, h.cache_eq, henumerating, if_true, henum, h.map_eq, hvisit, Option.map_some]
    have henum' : ({ t with enumerations := t.enumerations.put id (upTo s.map (i + 1)) } :
        QueriedBucket V).enumeration id = upTo s.map (i + 1) := by
      rw [enumeration_put, if_pos rfl]
    exact ih (h.next hstep h.system ⟨i + 1, by omega, henum'⟩) (i + 1) (by omega) henum' (by omega)

/-- **A step of the request is a run of the bucket**, if an enumeration that it ends gave the keys of
the map. -/
theorem Alone.step (h : Alone orders id s t c) {now : Int64} {a : SnapshotCache.Step}
    (hown : a.Of id) (hgiven : ∀ keys, a.enumeration? = some keys → keys = .ok s.map.keys)
    (hstep : c.step? now a = some c') : ∃ t', Alone orders id s t' c' := by
  have hinner (hinner : a.isInner = true) : ∃ t', Alone orders id s t' c' := by
    have hmoves : t.step? orders (.cache now a) = some (t.withCache c') := by
      simp only [step?, hinner, if_true, h.cache_eq, hstep, Option.map_some]
    refine ⟨t.withCache c', h.next hmoves ?_ h.progress⟩
    rw [withCache, h.system]
    rfl
  cases a with
  | enumerate i keys =>
    cases hown
    cases hgiven keys rfl
    have henumerating : c.isEnumerating id = true := by
      simp only [SnapshotCache.step?, SnapshotCache.enumerate?] at hstep
      split at hstep
      · next hr => simp only [SnapshotCache.isEnumerating, hr]
      · cases hstep
    obtain ⟨t', h', henum⟩ := h.visitAll henumerating
    have hover : (t'.enumeration id).visit? t'.map = none := by
      rw [henum, h'.map_eq, Enumeration.visit?_eq_none_iff]
      exact Nat.le_refl _
    have hfound : (t'.enumeration id).found = s.map.keys := by
      rw [henum, Enumeration.found_upTo]
    have hgathers : t'.step? orders (.gather id) = some (t'.withCache c') := by
      simp only [step?, hover, hfound, h'.cache_eq]
      exact congrArg (Option.map t'.withCache) hstep
    refine ⟨t'.withCache c', h'.next hgathers ?_ h'.progress⟩
    rw [withCache, h'.system]
    rfl
  | request _ _ _ | invalidate _ => exact absurd hown not_false
  | _ => exact hinner rfl

theorem Alone.run_own (h : Alone orders id s t c) {steps : List (Int64 × SnapshotCache.Step)}
    (hown : ∀ a ∈ steps, a.2.Of id)
    (hgiven : ∀ keys ∈ SnapshotCache.enumerations steps, keys = .ok s.map.keys)
    (hrun : c.run? steps = some c') : ∃ t', Alone orders id s t' c' := by
  induction steps generalizing t c with
  | nil =>
    cases hrun
    exact ⟨t, h⟩
  | cons timed rest ih =>
    obtain ⟨now, a⟩ := timed
    obtain ⟨c₁, hstep, hrest, -⟩ := Machine.run?_cons_eq_some hrun
    obtain ⟨t₁, h₁⟩ := h.step (hown _ List.mem_cons_self)
      (fun keys hkeys => hgiven keys (List.mem_filterMap.mpr ⟨_, List.mem_cons_self, hkeys⟩)) hstep
    refine ih h₁ (fun a ha => hown a (List.mem_cons_of_mem _ ha)) (fun keys hkeys => ?_) hrest
    obtain ⟨b, hb, hgave⟩ := List.mem_filterMap.mp hkeys
    exact hgiven keys (List.mem_filterMap.mpr ⟨b, List.mem_cons_of_mem _ hb, hgave⟩)

/-- A query whose request is done answers, and the request is forgotten. -/
theorem Alone.answer (h : Alone orders id s t c) {r : Request} {made : Cached}
    (hr : c.requests.find? id = some r) (hdone : r.stage = .done (.ok made)) (range : Range) :
    ∃ steps t', (machine orders).run? s steps = some t' ∧
      t'.system = (s.withCache (c.forget id)).system ∧
      .answered r.name range made (made.snapshot.keysInRange range) ∈
        (machine orders).trace s steps := by
  have hanswers : answered? (V := V) t.cache id range =
      some (.answered r.name range made (made.snapshot.keysInRange range)) := by
    obtain ⟨name, less, timeToLive, stage⟩ := r
    cases hdone
    rw [h.cache_eq, answered?, hr]
  obtain ⟨steps, hsteps⟩ := h.run
  refine ⟨steps ++ [.answer id range], t.withCache (t.cache.forget id), ?_, ?_, ?_⟩
  · have hstep : t.step? orders (.answer id range) = some (t.withCache (t.cache.forget id)) := by
      simp only [step?, hanswers, Option.map_some]
    exact (Machine.run?_append_of_some hsteps _).trans (Machine.run?_singleton hstep)
  · rw [h.cache_eq, withCache, h.system]
    rfl
  · rw [Machine.trace_append hsteps]
    refine List.mem_append_right _ (List.mem_cons.mpr (.inl ?_))
    exact (congrArg (Option.getD · Event.silent) hanswers).symm

/-- **A range query that nobody disturbs is a run**, at the end of which its answer is shown and the
cache is idle again. -/
theorem exists_run_keysInRange (hidle : s.cache.Idle)
    (hnew : s.enumeration s.cache.nextRequest = {}) (name : Bytes) (range : Range)
    (timeToLive : Int64) (clock : Clock) :
    ∃ steps t made answer, (machine orders).run? s steps = some t ∧
      s.system.bucket.keysInRange range (orders name).less name timeToLive clock =
        (.ok answer, t.system.bucket) ∧
      .answered name range made answer ∈ (machine orders).trace s steps ∧ t.cache.Idle := by
  obtain ⟨own, result, c', hundisturbed, -, hgiven, hget⟩ :=
    SnapshotCache.getOrCompute_undisturbed hidle (.ok s.map.keys) name (orders name).less
      timeToLive clock
  obtain ⟨made, rfl⟩ := hundisturbed.exists_made hgiven
  have hidle' := hundisturbed.idle hidle
  obtain ⟨-, ⟨arrival, rest, rfl⟩, hown, -, hrun, hdone⟩ := hundisturbed
  obtain ⟨c₁, harrival, hrest, -⟩ := Machine.run?_cons_eq_some hrun
  cases harrival
  -- the request comes, goes on alone to its result, and answers
  have hcame : Alone orders s.cache.nextRequest s
      (s.withCache (s.cache.request name (orders name).less timeToLive).1)
      (s.cache.request name (orders name).less timeToLive).1 :=
    ⟨⟨[.query name timeToLive], rfl⟩, rfl, 0, Nat.zero_le _, hnew⟩
  obtain ⟨t, halone⟩ := hcame.run_own hown hgiven hrest
  obtain ⟨stage, hr⟩ := SnapshotCache.find?_own_of_run
    ((SnapshotCache.find?_request ..).trans (if_pos rfl)) hown hrest
  obtain ⟨r, hr', hstage⟩ := SnapshotCache.result?_eq_some_iff.mp hdone
  rw [hr] at hr'
  cases hr'
  obtain ⟨steps, t', hsteps, hsystem, hanswered⟩ := halone.answer hr hstage range
  refine ⟨steps, t', made, made.snapshot.keysInRange range, hsteps, ?_, hanswered, ?_⟩
  · have hget' : (s.system.bucket.cache.getD {}).getOrCompute (.ok s.system.bucket.keys) name
        (orders name).less timeToLive clock = (some (.ok made), c'.forget s.cache.nextRequest) :=
      hget
    rw [hsystem]
    simp only [Bucket.keysInRange, hget']
    rfl
  · rw [cache, hsystem]
    exact hidle'

namespace History

/-- The history that goes on with some steps. -/
def extend (h : History V) {steps : List (Step V)} {t : QueriedBucket V}
    (hrun : (machine h.orders).run? h.last steps = some t) : History V :=
  { h with
    steps := h.steps ++ steps
    last := t
    run := (Machine.run?_append_of_some h.run steps).trans hrun }

/-- **The range of a bucket that is used by one caller at a time** is the answer over the keys that
were present when its snapshot was computed, after whatever history. -/
theorem keysInRange (h : History V) (hidle : h.last.cache.Idle) (name : Bytes) (range : Range)
    (timeToLive : Int64) (clock : Clock) :
    ∃ (steps : List (Step V)) (t : QueriedBucket V)
      (hrun : (machine h.orders).run? h.last steps = some t) (id : RequestId) (answer : List Bytes),
      h.last.system.bucket.keysInRange range (h.orders name).less name timeToLive clock =
        (.ok answer, t.system.bucket) ∧
      (h.extend hrun).FromKeys name range id answer ∧ t.cache.Idle := by
  obtain ⟨-, -, hnew⟩ := h.kept.unasked _ (Nat.le_refl _)
  obtain ⟨steps, t, made, answer, hrun, hrange, hanswered, hidle'⟩ :=
    exists_run_keysInRange hidle hnew name range timeToLive clock
  have hshown : .answered name range made answer ∈ (h.extend hrun).trace := by
    rw [trace, extend, Machine.trace_append h.run]
    exact List.mem_append_right _ hanswered
  obtain ⟨id, hmade⟩ := ((h.extend hrun).kept.answered name range made answer hshown).1.published
  have hfrom : (h.extend hrun).Answered name range id answer := ⟨made, hshown, hmade⟩
  exact ⟨steps, t, hrun, id, answer, hrange, hfrom.fromKeys, hidle'⟩

end History

end QueriedBucket

end Keyspace
