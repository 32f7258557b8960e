import Keyspace.Proofs.CacheLocks

/-!
# What an invalidation promises

After an invalidation of a name, a later request for the name should be served a snapshot whose keys
were enumerated after the invalidation. `BuiltWithin` says of a snapshot that a trace holds its whole
making, from the beginning of the enumeration to the publication.

The promise is kept exactly when no request of the name is between the beginning of its enumeration
and its publication at the invalidation (`later_served_anew_iff`). If there is none, `Renewed` holds of
every state after it: what is cached for the name, and what a later request has got, was built since.
If there is one, it publishes what it enumerated before, and a request that came after the
invalidation takes it, whatever its lifetime is (`exists_overtaken_run`), because it is not the
snapshot that the request saw at first: it saw none.
-/

namespace Keyspace

namespace RequestStage

/-- The result that a request has, though it may not have returned it yet. -/
def result? : RequestStage → Option (Outcome Cached)
  | leaving _ result => some result
  | dropping _ result => some result
  | done result => some result
  | _ => none

/-- What a request has shown of the enumeration that it is in. -/
def trail (id : RequestId) : RequestStage → List SnapshotCache.Event
  | enumerating _ => [.began id]
  | enumerated _ keys => [.began id, .gave id keys]
  | _ => []

end RequestStage

namespace SnapshotCache

variable {c c' t : SnapshotCache} {now : Int64} {id : RequestId} {r : Request} {e : Event}
  {name : Bytes} {made : Cached} {past : List Event}

/-- **A snapshot is built within a trace**: some request began to enumerate, was given the keys, and
published the snapshot of these keys, in this order and all of it in the trace. -/
def BuiltWithin (trace : List Event) (made : Cached) : Prop :=
  ∃ id keys, [.began id, .gave id keys, .published id made].Sublist trace ∧
    made.snapshot.keys = (KeyOrder.sort made.snapshot.less keys).toArray

theorem BuiltWithin.snoc (h : BuiltWithin past made) (e : Event) :
    BuiltWithin (past ++ [e]) made := by
  obtain ⟨id, keys, hsub, hkeys⟩ := h
  exact ⟨id, keys, hsub.trans (List.sublist_append_left ..), hkeys⟩

/-- The request publishes the snapshot with this turn. -/
def Publishes (c : SnapshotCache) (now : Int64) (id : RequestId) (r : Request) (e : Event)
    (made : Cached) : Prop :=
  ∃ lock keys, r.stage = .enumerated lock keys ∧ made = c.make r keys now ∧ e = .published id made

/-! ## What a turn does to snapshots, trails and results -/

/-- A snapshot that is found after a turn was found before it or is published with it. -/
theorem Turn.find?_snapshot (turn : Turn c now id r e c') {m : Bytes}
    (h : c'.snapshots.find? m = some made) :
    c.snapshots.find? m = some made ∨ m = r.name ∧ Publishes c now id r e made := by
  cases turn with
  | published stage =>
    have hput : (c.snapshots.put r.name (c.make r _ now)).find? m = some made := h
    rw [Assoc.find?_put] at hput
    split at hput
    · next hm =>
      cases hput
      exact .inr ⟨hm, _, _, stage, rfl, rfl⟩
    · exact .inl hput
  | _ => exact .inl h

/-- A request that took a turn is the one that it was, at a stage whose trail is its own with what the
turn shows, or none. -/
theorem Turn.find?_self (turn : Turn c now id r e c') {q : Request}
    (hq : c'.requests.find? id = some q) : ∃ stage, q = { r with stage } ∧
      (stage.trail id = [] ∨ stage.trail id = r.stage.trail id ++ [e]) := by
  cases turn with
  | began stage => exact ⟨_, eq_of_find?_move hq, .inr (by rw [stage]; rfl)⟩
  | gave keys stage => exact ⟨_, eq_of_find?_move hq, .inr (by rw [stage]; rfl)⟩
  | _ => exact ⟨_, eq_of_find?_move hq, .inl rfl⟩

/-- A snapshot that a request has got after a turn is one that it had before, or is the one that is
cached for its name, or is published with the turn. -/
theorem Turn.result? (turn : Turn c now id r e c') {q : Request}
    (hq : c'.requests.find? id = some q) (hresult : q.stage.result? = some (.ok made)) :
    r.stage.result? = some (.ok made) ∨ c.snapshots.find? r.name = some made ∨
      Publishes c now id r e made := by
  have found : ∀ {c : SnapshotCache} {stage : RequestStage},
      (c.move id r stage).requests.find? id = some q → stage.result? = some (.ok made) := by
    intro c stage h
    rw [eq_of_find?_move h] at hresult
    exact hresult
  cases turn with
  | served _ hfound _ | taken _ hfound _ =>
    cases found hq
    exact .inr (.inl hfound)
  | published stage =>
    cases found hq
    exact .inr (.inr ⟨_, _, stage, rfl, rfl⟩)
  | left stage | dropped stage =>
    have hleft := found hq
    refine .inl ?_
    rw [stage]
    exact hleft
  | missed _ _ | outdated _ _ _ | joined _ _ | made _ _ | acquired _ _ | lacked _ _ | began _
  | gave _ _ | failed _ _ => cases found hq

/-- The other requests are what they were. -/
theorem Turn.find?_other (turn : Turn c now id r e c') {j : RequestId} (hj : j ≠ id) :
    c'.requests.find? j = c.requests.find? j := by
  obtain ⟨stage, hrequests, _⟩ := turn.requests_eq
  rw [hrequests, Assoc.find?_put, if_neg hj]

/-- A turn shows nothing of a new request. -/
theorem Turn.ne_requested (turn : Turn c now id r e c') (j : RequestId) (m : Bytes) :
    e ≠ .requested j m := by
  cases turn <;> exact Event.noConfusion

/-! ## After an invalidation that disturbs no computation -/

/-- **The name was renewed**: everything that is cached or was served for it was built in the past
that the trace records. -/
structure Renewed (name : Bytes) (past : List Event) (c : SnapshotCache) : Prop where
  trails : ∀ id r, c.requests.find? id = some r → r.name = name →
    (r.stage.trail id).Sublist past
  cached : ∀ made, c.snapshots.find? name = some made → BuiltWithin past made
  named : ∀ id, .requested id name ∈ past → ∃ r, c.requests.find? id = some r ∧ r.name = name
  served : ∀ id r made, .requested id name ∈ past → c.requests.find? id = some r →
    r.stage.result? = some (.ok made) → BuiltWithin past made

/-- An invalidation at which no request of the name computes renews the name. -/
theorem renewed_of_invalidate
    (h : ∀ id r, c.requests.find? id = some r → r.name = name → ¬ r.stage.Computing) :
    Renewed name [] (c.invalidate name) where
  trails id r hr hname := by
    have hidle := h id r hr hname
    cases hstage : r.stage with
    | enumerating _ | enumerated _ _ =>
      rw [hstage] at hidle
      exact absurd trivial hidle
    | _ => exact List.Sublist.refl _
  cached made hmade := by
    have hsnapshots : (c.invalidate name).snapshots = c.snapshots.erase name := rfl
    rw [hsnapshots, Assoc.find?_erase, if_pos rfl] at hmade
    cases hmade
  named id hid := by cases hid
  served id r made hid := by cases hid

/-- What a request of the name publishes was built in the past. -/
theorem Renewed.publishes (h : Renewed name past c) (hr : c.requests.find? id = some r)
    (hname : r.name = name) (hpub : Publishes c now id r e made) :
    BuiltWithin (past ++ [e]) made := by
  obtain ⟨lock, keys, hstage, rfl, rfl⟩ := hpub
  have htrail := h.trails id r hr hname
  rw [hstage] at htrail
  exact ⟨id, keys, htrail.append (List.Sublist.refl [_]), rfl⟩

/-- A turn of a request keeps the name renewed. -/
theorem Renewed.turn (h : Renewed name past c) (hr : c.requests.find? id = some r)
    (turn : Turn c now id r e c') : Renewed name (past ++ [e]) c' := by
  have hbefore : ∀ {j}, .requested j name ∈ past ++ [e] → .requested j name ∈ past := by
    intro j hj
    rcases List.mem_append.mp hj with hj | hj
    · exact hj
    · exact absurd (List.mem_singleton.mp hj).symm (turn.ne_requested j name)
  refine ⟨?_, ?_, ?_, ?_⟩
  · intro j q hq hname
    by_cases hj : j = id
    · subst hj
      obtain ⟨stage, rfl, htrail⟩ := turn.find?_self hq
      rcases htrail with hnil | hsnoc
      · rw [hnil]
        exact List.nil_sublist _
      · rw [hsnoc]
        exact (h.trails j r hr hname).append (List.Sublist.refl _)
    · rw [turn.find?_other hj] at hq
      exact (h.trails j q hq hname).trans (List.sublist_append_left ..)
  · intro made hmade
    rcases turn.find?_snapshot hmade with hold | ⟨hname, hpub⟩
    · exact (h.cached made hold).snoc e
    · exact h.publishes hr hname.symm hpub
  · intro j hj
    obtain ⟨q, hq, hname⟩ := h.named j (hbefore hj)
    by_cases hjid : j = id
    · subst hjid
      rw [hr] at hq
      cases hq
      obtain ⟨stage, hrequests, _⟩ := turn.requests_eq
      exact ⟨{ r with stage }, by rw [hrequests, Assoc.find?_put, if_pos rfl], hname⟩
    · exact ⟨q, by rw [turn.find?_other hjid, hq], hname⟩
  · intro j q made hj hq hresult
    by_cases hjid : j = id
    · subst hjid
      obtain ⟨p, hp, hname⟩ := h.named j (hbefore hj)
      rw [hr] at hp
      cases hp
      rcases turn.result? hq hresult with hold | hcached | hpub
      · exact (h.served j r made (hbefore hj) hr hold).snoc e
      · exact (h.cached made (hname ▸ hcached)).snoc e
      · exact h.publishes hr hname hpub
    · rw [turn.find?_other hjid] at hq
      exact (h.served j q made (hbefore hj) hq hresult).snoc e

/-- A step keeps the name renewed. -/
theorem Renewed.step (h : Renewed name past c) (hs : Sound c) (htrans : Transition c now e c') :
    Renewed name (past ++ [e]) c' := by
  cases htrans with
  | turned hr turn => exact h.turn hr turn
  | invalidated m =>
    have hpast : ∀ {j}, .requested j name ∈ past ++ [.silent] → .requested j name ∈ past := by
      intro j hj
      simpa using hj
    refine ⟨?_, ?_, fun j hj => h.named j (hpast hj), ?_⟩
    · intro j q hq hname
      exact (h.trails j q hq hname).trans (List.sublist_append_left ..)
    · intro made hmade
      have hsnapshots : (c.invalidate m).snapshots = c.snapshots.erase m := rfl
      rw [hsnapshots, Assoc.find?_erase] at hmade
      split at hmade
      · cases hmade
      · exact (h.cached made hmade).snoc _
    · intro j q made hj hq hresult
      exact (h.served j q made (hpast hj) hq hresult).snoc _
  | requested m less ttl =>
    refine ⟨?_, fun made hmade => (h.cached made hmade).snoc _, ?_, ?_⟩
    · intro j q hq hname
      rw [find?_request] at hq
      split at hq
      · cases hq
        exact List.nil_sublist _
      · exact (h.trails j q hq hname).trans (List.sublist_append_left ..)
    · intro j hj
      rw [find?_request]
      rcases List.mem_append.mp hj with hj | hj
      · obtain ⟨q, hq, hname⟩ := h.named j hj
        rw [if_neg, hq]
        · exact ⟨q, rfl, hname⟩
        · rintro rfl
          rw [hs.fresh _ (Nat.le_refl _)] at hq
          cases hq
      · cases List.mem_singleton.mp hj
        exact ⟨_, if_pos rfl, rfl⟩
    · intro j q made hj hq hresult
      rw [find?_request] at hq
      split at hq
      · cases hq
        cases hresult
      · next hnew =>
        have hj : .requested j name ∈ past := by
          rcases List.mem_append.mp hj with hj | hj
          · exact hj
          · cases List.mem_singleton.mp hj
            exact absurd rfl hnew
        exact (h.served j q made hj hq hresult).snoc _

/-! ## After an invalidation that disturbs a computation -/

/-- A request that saw nothing and waits for a free lock takes what is cached meanwhile, whether or
not that has expired. -/
theorem exists_taking_run {lock : Nat} (hr : c.requests.find? id = some r)
    (hstage : r.stage = .waiting none lock) (hfree : c.isOwned lock = false)
    (hcached : c.snapshots.find? r.name = some made) (now : Int64) :
    ∃ t, Reaches c [.silent, .silent, .silent, .silent] t ∧ t.result? id = some (.ok made) := by
  let c₁ := c.move id r (.holding none lock)
  let c₂ := c₁.move id { r with stage := .holding none lock } (.leaving lock (.ok made))
  let c₃ := c₂.move id { r with stage := .leaving lock (.ok made) } (.dropping lock (.ok made))
  let c₄ := c₃.move id { r with stage := .dropping lock (.ok made) } (.done (.ok made))
  have hmoved : ∀ {c : SnapshotCache} {r : Request} {stage : RequestStage},
      (c.move id r stage).requests.find? id = some { r with stage } := by
    intro c r stage
    rw [find?_move, if_pos rfl]
  have step₁ : Transition c now .silent c₁ := .turned hr (.acquired hstage hfree)
  have step₂ : Transition c₁ now .silent c₂ :=
    .turned hmoved (.taken rfl hcached (.inl (Option.some_ne_none _)))
  have step₃ : Transition c₂ now .silent c₃ := .turned hmoved (.left rfl)
  have step₄ : Transition c₃ now .silent c₄ := .turned hmoved (.dropped rfl)
  refine ⟨c₄, ?_, result?_eq_some_iff.mpr ⟨_, hmoved, rfl⟩⟩
  exact .cons step₁ <| .cons step₂ <| .cons step₃ <| .cons step₄ <| .refl c₄

/-- What is shown of a request `id` that comes while request `j` is about to publish, and waits for
it. -/
def overtaken (j id : RequestId) (name : Bytes) (made : Cached) : List Event :=
  [.requested id name, .silent, .silent, .published j made, .silent, .silent, .silent, .silent,
    .silent]

/-- **A request that comes when nothing is cached takes what another one publishes meanwhile**, even
if that has expired already. -/
theorem exists_overtaken_run (h : Sound c) {j : RequestId} {q : Request} {lock : Nat}
    {keys : List Bytes} (hq : c.requests.find? j = some q)
    (hstage : q.stage = .enumerated lock keys) (hnone : c.snapshots.find? q.name = none)
    (now : Int64) :
    ∃ t, Reaches c (overtaken j c.nextRequest q.name (c.make q keys now)) t ∧
      t.result? c.nextRequest = some (.ok (c.make q keys now)) := by
  have hlock : c.locks.find? q.name = some lock := h.registered j q lock hq (by rw [hstage]; rfl)
  have hji : j ≠ c.nextRequest := by
    rintro rfl
    rw [h.fresh _ (Nat.le_refl _)] at hq
    cases hq
  -- the request comes, sees nothing, and refers to the lock of the other
  let r : Request := { name := q.name, less := q.less, timeToLive := q.timeToLive }
  let c₁ := (c.request q.name q.less q.timeToLive).1
  let c₂ := c₁.move c.nextRequest r (.missed none)
  let c₃ := c₂.move c.nextRequest { r with stage := .missed none } (.waiting none lock)
  have find₁ : c₁.requests.find? c.nextRequest = some r := by
    simp only [c₁, find?_request, if_true, r]
  have find₂ : c₂.requests.find? c.nextRequest = some { r with stage := .missed none } := by
    simp only [c₂, find?_move, if_true]
  have find₃ : c₃.requests.find? j = some q := by
    simp only [c₃, c₂, c₁, find?_move, find?_request, if_neg hji, hq]
  -- the other publishes and leaves the lock
  let made := c.make q keys now
  let c₄ := (c₃.withSnapshot q.name made).move j q (.leaving lock (.ok made))
  let c₅ := c₄.move j { q with stage := .leaving lock (.ok made) } (.dropping lock (.ok made))
  have find₄ : c₄.requests.find? j = some { q with stage := .leaving lock (.ok made) } := by
    simp only [c₄, find?_move, if_true]
  have find₅ : c₅.requests.find? c.nextRequest = some { r with stage := .waiting none lock } := by
    simp only [c₅, c₄, c₃, withSnapshot, find?_move, if_neg hji.symm, if_true]
  have cached : c₅.snapshots.find? q.name = some made :=
    (Assoc.find?_put ..).trans (if_pos rfl)
  have step₁ : Transition c now (.requested c.nextRequest q.name) c₁ := .requested ..
  have step₂ : Transition c₁ now .silent c₂ := .turned find₁ (.missed rfl hnone)
  have step₃ : Transition c₂ now .silent c₃ := .turned find₂ (.joined rfl hlock)
  have step₄ : Transition c₃ now (.published j made) c₄ := .turned find₃ (.published hstage)
  have step₅ : Transition c₄ now .silent c₅ := .turned find₄ (.left rfl)
  have free : c₅.isOwned lock = false := by
    have h₅ : Sound c₅ := ((((h.step step₁).step step₂).step step₃).step step₄).step step₅
    refine isOwned_eq_false h₅.keys fun k p hp howned => ?_
    by_cases hkj : k = j
    · simp only [c₅, find?_move, if_pos hkj, Option.some.injEq] at hp
      cases hp
      cases howned
    · by_cases hki : k = c.nextRequest
      · rw [hki, find₅] at hp
        cases hp
        cases howned
      · simp only [c₅, c₄, c₃, c₂, c₁, withSnapshot, find?_move, find?_request, if_neg hkj,
          if_neg hki] at hp
        exact hkj (h.exclusive k j p q lock hp hq howned (by rw [hstage]; rfl))
  -- the lock is free, and the snapshot there
  obtain ⟨t, hreach, hresult⟩ := exists_taking_run find₅ rfl free cached now
  refine ⟨t, ?_, hresult⟩
  exact .cons step₁ <| .cons step₂ <| .cons step₃ <| .cons step₄ <| .cons step₅ hreach

/-- An invalidation that falls into a computation is followed by a run in which a request comes after
it and is served what was enumerated before. -/
theorem exists_stale_run (h : Sound c) {j : RequestId} {q : Request}
    (hq : c.requests.find? j = some q) (hcomputing : q.stage.Computing) :
    ∃ trace t id made, Reaches (c.invalidate q.name) trace t ∧ .requested id q.name ∈ trace ∧
      t.result? id = some (.ok made) ∧ ∀ i, .began i ∉ trace := by
  have hnone : (c.invalidate q.name).snapshots.find? q.name = none :=
    (Assoc.find?_erase ..).trans (if_pos rfl)
  have hs := h.invalidate q.name
  cases hstage : q.stage with
  | enumerated lock keys =>
    obtain ⟨t, hreach, hresult⟩ := exists_overtaken_run hs hq hstage hnone 0
    refine ⟨_, t, _, _, hreach, List.mem_cons_self, hresult, fun i hi => ?_⟩
    simp [overtaken] at hi
  | enumerating lock =>
    -- the enumeration gives its keys first
    have hgave : Transition (c.invalidate q.name) 0 (.gave j []) _ :=
      .turned hq (.gave [] hstage)
    obtain ⟨t, hreach, hresult⟩ := exists_overtaken_run (hs.step hgave) (j := j)
      (q := { q with stage := .enumerated lock [] }) ((find?_move ..).trans (if_pos rfl)) rfl
      hnone 0
    refine ⟨_, t, _, _, hreach.cons hgave, List.mem_cons_of_mem _ List.mem_cons_self, hresult,
      fun i hi => ?_⟩
    simp [overtaken] at hi
  | _ =>
    rw [hstage] at hcomputing
    exact absurd hcomputing id

/-! ## When the promise is kept -/

/-- **When an invalidation keeps its promise.** Whatever happens after an invalidation, every request
of the name that comes after it and is served a snapshot is served one that was built after it,
exactly if no request of the name was between the beginning of its enumeration and its publication
at the invalidation. -/
theorem later_served_anew_iff {before : List (Int64 × Step)}
    (hbefore : ({} : SnapshotCache).run? before = some c) (name : Bytes) :
    (∀ after t id made, (c.invalidate name).run? after = some t →
      .requested id name ∈ (c.invalidate name).trace after → t.result? id = some (.ok made) →
      BuiltWithin ((c.invalidate name).trace after) made) ↔
      ∀ id r, c.requests.find? id = some r → r.name = name → ¬ r.stage.Computing := by
  have hs : Sound c := Sound.empty.of_run hbefore
  constructor
  · intro hanew j q hq hname hcomputing
    subst hname
    obtain ⟨_, t, id, made, ⟨after, hrun, rfl⟩, hcame, hresult, hnot⟩ :=
      exists_stale_run hs hq hcomputing
    obtain ⟨i, keys, hsub, _⟩ := hanew after t id made hrun hcame hresult
    exact hnot i (hsub.subset List.mem_cons_self)
  · intro hidle after t id made hrun hcame hresult
    have hboth : Sound t ∧ Renewed name ((c.invalidate name).trace after) t := by
      refine run_induction (P := fun past c => Sound c ∧ Renewed name past c) ?_
        ⟨hs.invalidate name, renewed_of_invalidate hidle⟩ hrun
      rintro past m now e m' ⟨hm, hrenewed⟩ htrans
      exact ⟨hm.step htrans, hrenewed.step hm htrans⟩
    obtain ⟨r, hr, hdone⟩ := result?_eq_some_iff.mp hresult
    exact hboth.2.served id r made hcame hr (by rw [hdone]; rfl)

/-- A request that has got its keys and not published them yet. -/
def enumeratedSteps : List (Int64 × Step) :=
  [(0, .request [115] Bytes.less 1000), (0, .look 0), (0, .join 0), (0, .acquire 0), (0, .review 0),
    (0, .begin 0), (0, .enumerate 0 (.ok [[97]]))]

/-- The rest of its steps, and a request that comes after it. -/
def servedSteps : List (Int64 × Step) :=
  [(0, .publish 0), (0, .leave 0), (0, .drop 0), (0, .request [115] Bytes.less 1000), (0, .look 1)]

/-- When it has published, an invalidation makes the next request enumerate the keys anew. -/
theorem published_served_anew : ∃ c,
    ({} : SnapshotCache).run? (enumeratedSteps ++ servedSteps) = some c ∧
    ((∀ after t id made, (c.invalidate [115]).run? after = some t →
      .requested id [115] ∈ (c.invalidate [115]).trace after → t.result? id = some (.ok made) →
      BuiltWithin ((c.invalidate [115]).trace after) made) ↔
      ∀ id r, c.requests.find? id = some r → r.name = [115] → ¬ r.stage.Computing) := by
  have hrun : ({} : SnapshotCache).run? (enumeratedSteps ++ servedSteps) = some _ := rfl
  exact ⟨_, hrun, later_served_anew_iff hrun [115]⟩

/-- **A request that comes after an invalidation is served keys that were enumerated before it.** -/
theorem served_keys_from_before : ∃ c t made,
    ({} : SnapshotCache).run? enumeratedSteps = some c ∧
    (c.invalidate [115]).run? servedSteps = some t ∧
    .requested 1 [115] ∈ (c.invalidate [115]).trace servedSteps ∧
    t.result? 1 = some (.ok made) ∧
    ¬ BuiltWithin ((c.invalidate [115]).trace servedSteps) made := by
  refine ⟨_, _, _, rfl, rfl, ?_, rfl, ?_⟩
  · exact List.mem_cons_of_mem _ (List.mem_cons_of_mem _ (List.mem_cons_of_mem _
      List.mem_cons_self))
  · rintro ⟨i, keys, hsub, _⟩
    have hbegan := hsub.subset List.mem_cons_self
    rcases hbegan with _ | ⟨_, _ | ⟨_, _ | ⟨_, _ | ⟨_, _ | ⟨_, hbegan⟩⟩⟩⟩⟩
    cases hbegan

end SnapshotCache

end Keyspace
