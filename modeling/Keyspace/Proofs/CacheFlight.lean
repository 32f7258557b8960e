import Keyspace.Proofs.CacheOrigins
import Keyspace.Proofs.Deadlines

/-!
# Requests that share a computation

Requests for a name that overlap get one snapshot between them, as long as the name is not
invalidated and what is cached for it does not expire (`requests_share_one`). What carries this is
that every answer given so far is what is cached (`Shared.answered`): before a publication nobody
has an answer, and after it nobody makes another snapshot, because the requests that were to make
one own the lock of the name (`Shared.settled`). So the enumerations that give their keys are one at
most: the first of them leaves the name `Spent`.

A failing enumeration fails the request that it belongs to and no other (`answer?_eq_error_iff`). As
long as nothing is cached, another request that finds the lock free comes to an enumeration of its
own by its next steps, whenever it takes them (`Clear.enumerates`).

To expire is what the cache takes for it, by a deadline in 64 bits. What stays due does not expire
as long as it is due within these (`unexpired_of_due`); a lifetime that is too long for them ends the
sharing at once.
-/

namespace Keyspace

namespace RequestStage

/-- The request found nothing to take, and is making a snapshot itself. -/
def Making : RequestStage → Prop
  | lacking _ => True
  | enumerating _ => True
  | enumerated _ _ => True
  | _ => False

/-- A request that makes a snapshot owns a lock. -/
theorem Making.owned {stage : RequestStage} (h : stage.Making) :
    ∃ lock, stage.owned? = some lock := by
  cases stage with
  | lacking lock => exact ⟨lock, rfl⟩
  | enumerating lock => exact ⟨lock, rfl⟩
  | enumerated lock _ => exact ⟨lock, rfl⟩
  | _ => exact absurd h id

/-- The steps that take a request to its enumeration when there is nothing for it to take. -/
def approach (id : RequestId) : RequestStage → List SnapshotCache.Step
  | looking => [.look id, .join id, .acquire id, .review id, .begin id]
  | missed _ => [.join id, .acquire id, .review id, .begin id]
  | waiting _ _ => [.acquire id, .review id, .begin id]
  | holding _ _ => [.review id, .begin id]
  | lacking _ => [.begin id]
  | _ => []

end RequestStage

namespace SnapshotCache

variable {c c' t : SnapshotCache} {now : Int64} {id : RequestId} {r : Request} {e : Event} {a : Step}
  {made : Cached} {name : Bytes} {steps : List (Int64 × Step)} {new : RequestId → Prop}

/-- Whether, whenever a step of a run is taken, what is cached for the name has not expired. -/
def unexpired (name : Bytes) (c : SnapshotCache) : List (Int64 × Step) → Bool
  | [] => true
  | (now, a) :: rest =>
    ((c.snapshots.find? name).all fun made => !made.snapshot.isExpired now) &&
      match c.step? now a with
      | some c => unexpired name c rest
      | none => true

/-- The result that a request has, though it may not have returned it yet. -/
def answer? (c : SnapshotCache) (id : RequestId) : Option (Outcome Cached) :=
  (c.requests.find? id).bind fun r => r.stage.result?

/-- The request of the name that an event gives its keys. -/
def Event.supplies? (t : SnapshotCache) (name : Bytes) : Event → Option RequestId
  | .gave id _ => if t.name? id = some name then some id else none
  | _ => none

/-- **The requests of a name whose enumeration gave its keys**, in order. -/
def supplied (t : SnapshotCache) (name : Bytes) (trace : List Event) : List RequestId :=
  trace.filterMap (Event.supplies? t name)

theorem unexpired_cons {rest : List (Int64 × Step)}
    (h : unexpired name c ((now, a) :: rest) = true) :
    (∀ made, c.snapshots.find? name = some made → made.snapshot.isExpired now = false) ∧
      ∀ c', c.step? now a = some c' → unexpired name c' rest = true := by
  rw [unexpired, Bool.and_eq_true] at h
  obtain ⟨hnow, hrest⟩ := h
  refine ⟨fun made hmade => ?_, fun c' hstep => ?_⟩
  · rw [hmade, Option.all_some, Bool.not_eq_true'] at hnow
    exact hnow
  · rw [hstep] at hrest
    exact hrest

/-- **What is due whenever a step is taken has not expired then**, if it is due within the times of 64
bits. -/
theorem unexpired_of_due (hdue : ∀ first now a rest u made, steps = first ++ (now, a) :: rest →
    c.run? first = some u → u.snapshots.find? name = some made →
    now.toInt ≤ made.snapshot.due ∧ made.snapshot.due < 2 ^ 63) : unexpired name c steps = true := by
  induction steps generalizing c with
  | nil => rfl
  | cons timed rest ih =>
    obtain ⟨now, a⟩ := timed
    rw [unexpired, Bool.and_eq_true]
    constructor
    · cases hmade : c.snapshots.find? name with
      | none => rfl
      | some made =>
        obtain ⟨hle, hwithin⟩ := hdue [] now a rest c made rfl rfl hmade
        rw [Option.all_some, Snapshot.isExpired_eq_false_of_due hle hwithin]
        rfl
    · cases hstep : c.step? now a with
      | none => rfl
      | some c' =>
        refine ih fun first later b rest' u made hsteps hrun => ?_
        refine hdue ((now, a) :: first) later b rest' u made (by rw [hsteps]; rfl) ?_
        have hnext : machine.step? c (now, a) = some c' := hstep
        rw [run?, Machine.run?_cons hnext]
        exact hrun

theorem answer?_eq_some_iff {result : Outcome Cached} : c.answer? id = some result ↔
    ∃ r, c.requests.find? id = some r ∧ r.stage.result? = some result :=
  Option.bind_eq_some_iff

theorem Event.supplies?_eq_some (h : Event.supplies? t name e = some id) :
    ∃ keys, e = .gave id keys ∧ t.name? id = some name := by
  cases e with
  | gave j keys =>
    rw [Event.supplies?] at h
    split at h
    · next hname =>
      cases h
      exact ⟨keys, rfl, hname⟩
    · cases h
  | _ => cases h

/-! ## What a turn does -/

/-- What is cached stays, unless the turn is a publication for its name. -/
theorem Turn.find?_kept (turn : Turn c now id r e c') {m : Bytes}
    (hcached : c.snapshots.find? m = some made) (hnot : m = r.name → ¬ r.stage.Making) :
    c'.snapshots.find? m = some made := by
  cases turn with
  | published stage =>
    show (c.snapshots.put r.name _).find? m = some made
    rw [Assoc.find?_put, if_neg, hcached]
    intro hm
    apply hnot hm
    rw [stage]
    trivial
  | _ => exact hcached

/-- A request whose keys are given publishes with its next turn. -/
theorem Turn.of_enumerated {lock : Nat} {keys : List Bytes} (turn : Turn c now id r e c')
    (hstage : r.stage = .enumerated lock keys) :
    c'.snapshots.find? r.name = some (c.make r keys now) ∧
      c'.requests.find? id = some { r with stage := .leaving lock (.ok (c.make r keys now)) } := by
  cases turn with
  | published stage =>
    rw [hstage] at stage
    cases stage
    exact ⟨(Assoc.find?_put ..).trans (if_pos rfl), find?_move_self ..⟩
  | missed stage _ | outdated stage _ _ | served stage _ _ | joined stage _ | made stage _
  | acquired stage _ | taken stage _ _ | lacked stage _ | began stage | gave _ stage
  | failed _ stage | left stage | dropped stage =>
    rw [hstage] at stage
    cases stage

/-- A request comes to make a snapshot only where it finds none that has not expired. -/
theorem Turn.making (turn : Turn c now id r e c') {q : Request}
    (hq : c'.requests.find? id = some q) (hmaking : q.stage.Making) :
    r.stage.Making ∨ ∀ current, c.snapshots.find? r.name = some current →
      current.snapshot.isExpired now = true := by
  have found : ∀ {c : SnapshotCache} {stage : RequestStage},
      (c.move id r stage).requests.find? id = some q → stage.Making := by
    intro c stage h
    rw [find?_move_self] at h
    cases h
    exact hmaking
  cases turn with
  | lacked _ unusable => exact .inr fun current hcurrent => (unusable current hcurrent).2
  | began stage | gave _ stage =>
    left
    rw [stage]
    trivial
  | missed _ _ | outdated _ _ _ | served _ _ _ | joined _ _ | made _ _ | acquired _ _ | taken _ _ _
  | failed _ _ | published _ | left _ | dropped _ => exact absurd (found hq) not_false

/-- Keys are given to a request that enumerates. -/
theorem Turn.gave_inv {keys : List Bytes} (turn : Turn c now id r (.gave id keys) c') :
    ∃ lock, r.stage = .enumerating lock ∧
      c'.requests.find? id = some { r with stage := .enumerated lock keys } := by
  cases turn with
  | gave _ stage => exact ⟨_, stage, find?_move_self ..⟩

/-- And they are given by a turn of it. -/
theorem Transition.gave_inv {keys : List Bytes} (h : Transition c now (.gave id keys) c') :
    ∃ r, c.requests.find? id = some r ∧ Turn c now id r (.gave id keys) c' := by
  cases h with
  | turned hr turn =>
    cases turn with
    | gave _ stage => exact ⟨_, hr, .gave _ stage⟩

/-! ## One snapshot for all -/

/-- **The requests of a name share one snapshot.** -/
structure Shared (name : Bytes) (new : RequestId → Prop) (c : SnapshotCache) : Prop where
  /-- Every answer to a new request is what is cached. -/
  answered : ∀ id r made, new id → c.requests.find? id = some r → r.name = name →
    r.stage.result? = some (.ok made) → c.snapshots.find? name = some made
  /-- Once a snapshot is cached, no request makes another one. -/
  settled : (c.snapshots.find? name).isSome → ∀ id r, c.requests.find? id = some r →
    r.name = name → ¬ r.stage.Making

/-- What is cached stays through a turn. -/
theorem Shared.find?_turn (h : Shared name new c) (hr : c.requests.find? id = some r)
    (turn : Turn c now id r e c') (hcached : c.snapshots.find? name = some made) :
    c'.snapshots.find? name = some made := by
  apply turn.find?_kept hcached
  intro hname
  exact h.settled (Option.isSome_of_eq_some hcached) id r hr hname.symm

/-- **A turn leaves one snapshot for all.** -/
theorem Shared.turn (h : Shared name new c) (hs : Sound c)
    (hfresh : ∀ made, c.snapshots.find? name = some made → made.snapshot.isExpired now = false)
    (hr : c.requests.find? id = some r) (turn : Turn c now id r e c') : Shared name new c' where
  answered j q made hnew hq hname hresult := by
    by_cases hj : j = id
    · subst hj
      obtain ⟨stage, rfl, -⟩ := turn.find?_self hq
      rcases turn.result? hq hresult with hold | hcached | hpub
      · exact h.find?_turn hr turn (h.answered j r made hnew hr hname hold)
      · rw [hname] at hcached
        exact h.find?_turn hr turn hcached
      · obtain ⟨lock, keys, hstage, rfl, -⟩ := hpub
        rw [← hname]
        exact (turn.of_enumerated hstage).1
    · rw [turn.find?_other hj] at hq
      exact h.find?_turn hr turn (h.answered j q made hnew hq hname hresult)
  settled hsome j q hq hname hmaking := by
    obtain ⟨made, hmade⟩ := Option.isSome_iff_exists.mp hsome
    rcases turn.find?_snapshot hmade with hold | ⟨hpname, hpub⟩
    · -- the snapshot was there before: nobody was making one, and nobody begins to
      have hbefore := h.settled (Option.isSome_of_eq_some hold)
      by_cases hj : j = id
      · subst hj
        obtain ⟨stage, rfl, -⟩ := turn.find?_self hq
        rcases turn.making hq hmaking with hmaking | hexpired
        · exact hbefore j r hr hname hmaking
        · have hold' := hexpired made (by rw [hname, hold])
          rw [hfresh made hold] at hold'
          cases hold'
      · rw [turn.find?_other hj] at hq
        exact hbefore j q hq hname hmaking
    · -- the one that publishes owned the lock of the name
      obtain ⟨lock, keys, hstage, -, -⟩ := hpub
      have howned : ∃ lock, r.stage.owned? = some lock := ⟨lock, by rw [hstage]; rfl⟩
      by_cases hj : j = id
      · rw [hj, (turn.of_enumerated hstage).2] at hq
        cases hq
        exact hmaking
      · rw [turn.find?_other hj] at hq
        exact hj (hs.owner_unique hq hr (hname.trans hpname) hmaking.owned howned)

/-- **A step leaves one snapshot for all**, unless it invalidates the name. -/
theorem Shared.step (h : Shared name new c) (hs : Sound c)
    (hfresh : ∀ made, c.snapshots.find? name = some made → made.snapshot.isExpired now = false)
    (hkeep : a ≠ .invalidate name) (hstep : c.step? now a = some c') : Shared name new c' := by
  rcases step?_cases hstep with ⟨m, less, ttl, -, rfl⟩ | ⟨m, rfl, rfl⟩ | ⟨j, r, -, hr, turn⟩
  · refine ⟨fun j q made hnew hq hname hresult => ?_, fun hsome j q hq hname hmaking => ?_⟩
    · rw [find?_request] at hq
      split at hq
      · cases hq
        cases hresult
      · exact h.answered j q made hnew hq hname hresult
    · rw [find?_request] at hq
      split at hq
      · cases hq
        exact hmaking
      · exact h.settled hsome j q hq hname hmaking
  · have hname : name ≠ m := fun hname => hkeep (by rw [hname])
    have hsame : (c.invalidate m).snapshots.find? name = c.snapshots.find? name := by
      rw [find?_snapshots_invalidate, if_neg hname]
    refine ⟨fun j q made hnew hq hname hresult => ?_, fun hsome => ?_⟩
    · rw [hsame]
      exact h.answered j q made hnew hq hname hresult
    · rw [hsame] at hsome
      exact h.settled hsome
  · exact h.turn hs hfresh hr turn

/-! ## One enumeration at most -/

/-- An enumeration for the name has given its keys: they are published, or are going to be. -/
def Spent (name : Bytes) (c : SnapshotCache) : Prop :=
  (c.snapshots.find? name).isSome ∨ ∃ id r lock keys, c.requests.find? id = some r ∧
    r.name = name ∧ r.stage = .enumerated lock keys

/-- **What is spent stays spent.** -/
theorem Spent.step (hspent : Spent name c) (h : Shared name new c) (hs : Sound c)
    (hkeep : a ≠ .invalidate name) (hstep : c.step? now a = some c') : Spent name c' := by
  rcases step?_cases hstep with ⟨m, less, ttl, -, rfl⟩ | ⟨m, rfl, rfl⟩ | ⟨j, q, -, hq, turn⟩
  · rcases hspent with hsome | ⟨i, r, lock, keys, hr, hname, hstage⟩
    · exact .inl hsome
    · exact .inr ⟨i, r, lock, keys, hs.find?_request_old hr .., hname, hstage⟩
  · rcases hspent with hsome | hkeys
    · left
      rw [find?_snapshots_invalidate, if_neg fun hname => hkeep (by rw [hname])]
      exact hsome
    · exact .inr hkeys
  · rcases hspent with hsome | ⟨i, r, lock, keys, hr, hname, hstage⟩
    · obtain ⟨made, hmade⟩ := Option.isSome_iff_exists.mp hsome
      exact .inl (Option.isSome_of_eq_some (h.find?_turn hq turn hmade))
    · by_cases hi : i = j
      · subst hi
        rw [hr] at hq
        cases hq
        have hmade := (turn.of_enumerated hstage).1
        rw [hname] at hmade
        exact .inl (Option.isSome_of_eq_some hmade)
      · exact .inr ⟨i, r, lock, keys, by rw [turn.find?_other hi, hr], hname, hstage⟩

/-- No enumeration for the name gives keys after another, and the first leaves the name spent. -/
theorem Shared.gave {keys : List Bytes} (h : Shared name new c) (hs : Sound c)
    (hr : c.requests.find? id = some r) (turn : Turn c now id r (.gave id keys) c')
    (hname : r.name = name) : ¬ Spent name c ∧ Spent name c' := by
  obtain ⟨lock, hstage, hafter⟩ := turn.gave_inv
  have hmaking : r.stage.Making := by
    rw [hstage]
    trivial
  constructor
  · rintro (hsome | ⟨j, q, lock', keys', hq, hqname, hqstage⟩)
    · exact h.settled hsome id r hr hname hmaking
    · have hij : id = j := by
        refine hs.owner_unique hr hq (hname.trans hqname.symm) hmaking.owned ⟨lock', ?_⟩
        rw [hqstage]
        rfl
      subst hij
      rw [hr] at hq
      cases hq
      rw [hstage] at hqstage
      cases hqstage
  · exact .inr ⟨id, _, lock, keys, hafter, hname, rfl⟩

/-- **A run leaves one snapshot for all**, and at most one of its enumerations for the name gives
its keys; none does if one has before. -/
theorem Shared.run (h : Shared name new c) (hs : Sound c)
    (hkeep : ∀ s ∈ steps, s.2 ≠ .invalidate name) (hfresh : unexpired name c steps = true)
    (hrun : c.run? steps = some t) : Shared name new t ∧
      (supplied t name (c.trace steps)).length ≤ 1 ∧
      (Spent name c → supplied t name (c.trace steps) = []) := by
  induction steps generalizing c with
  | nil =>
    cases hrun
    exact ⟨h, Nat.zero_le _, fun _ => rfl⟩
  | cons timed rest ih =>
    obtain ⟨now, a⟩ := timed
    obtain ⟨c₁, hstep, hrest, htrace⟩ := Machine.run?_cons_eq_some hrun
    obtain ⟨hnow, hlater⟩ := unexpired_cons hfresh
    have hfirst : a ≠ .invalidate name := hkeep _ List.mem_cons_self
    have htrans : Transition c now (c.event now a) c₁ := transition_of_step? hstep
    obtain ⟨hshared, hone, hnone⟩ := ih (h.step hs hnow hfirst hstep) (hs.step htrans)
      (fun s hs => hkeep s (List.mem_cons_of_mem _ hs)) (hlater c₁ hstep) hrest
    refine ⟨hshared, ?_⟩
    have hcons : supplied t name (c.trace ((now, a) :: rest)) =
        supplied t name (c.event now a :: c₁.trace rest) := congrArg (supplied t name) htrace
    rw [hcons, supplied, List.filterMap_cons]
    cases hsupplies : Event.supplies? t name (c.event now a) with
    | none => exact ⟨hone, fun hspent => hnone (hspent.step h hs hfirst hstep)⟩
    | some i =>
      -- the step gives keys to a request of the name, which leaves none to any other
      obtain ⟨keys, hevent, hname⟩ := Event.supplies?_eq_some hsupplies
      rw [hevent] at htrans
      obtain ⟨r, hr, turn⟩ := htrans.gave_inv
      have hrname : r.name = name := by
        have hbefore : c.name? i = some r.name := name?_eq_some_iff.mpr ⟨r, hr, rfl⟩
        have hafter := name?_of_run hs hbefore hrun
        rw [hname] at hafter
        exact (Option.some.inj hafter).symm
      obtain ⟨hnot, hspent⟩ := h.gave hs hr turn hrname
      refine ⟨?_, fun hspent' => absurd hspent' hnot⟩
      show (i :: supplied t name (c₁.trace rest)).length ≤ 1
      rw [hnone hspent]
      exact Nat.le_refl 1

/-! ## Failing enumerations -/

/-- Only the end of an enumeration makes a request fail. -/
theorem Turn.error_iff (turn : Turn c now id r e c') (hnot : ∀ lock, r.stage ≠ .enumerating lock)
    {q : Request} (hq : c'.requests.find? id = some q) (f : Failure) :
    q.stage.result? = some (.error f) ↔ r.stage.result? = some (.error f) := by
  cases turn with
  | gave _ stage | failed _ stage => exact absurd stage (hnot _)
  | left stage | dropped stage =>
    rw [eq_of_find?_move hq, stage]
    exact Iff.rfl
  | missed stage _ | outdated stage _ _ | served stage _ _ | joined stage _ | made stage _
  | acquired stage _ | taken stage _ _ | lacked stage _ | began stage | published stage =>
    rw [eq_of_find?_move hq, stage]
    exact iff_of_false (fun h => by cases h) (fun h => by cases h)

/-- **A step fails a request exactly if it ends the request's own enumeration with a failure.** -/
theorem error_iff_of_step (hs : Sound c) (hstep : c.step? now a = some c') (f : Failure) :
    c'.answer? id = some (.error f) ↔
      c.answer? id = some (.error f) ∨ a = .enumerate id (.error f) := by
  -- a step that leaves the request alone is not the end of its enumeration
  have alone : a ≠ .enumerate id (.error f) → c'.answer? id = c.answer? id →
      (c'.answer? id = some (.error f) ↔
        c.answer? id = some (.error f) ∨ a = .enumerate id (.error f)) := by
    intro hnot hsame
    rw [hsame, or_iff_left hnot]
  rcases step?_cases hstep with ⟨m, less, ttl, rfl, rfl⟩ | ⟨m, rfl, rfl⟩ | ⟨j, r, hown, hr, turn⟩
  · apply alone (fun h => by cases h)
    rw [answer?, answer?, find?_request]
    split
    · next hid =>
      rw [hs.fresh id (Nat.le_of_eq hid.symm)]
      rfl
    · rfl
  · exact alone (fun h => by cases h) rfl
  · by_cases hid : id = j
    · subst hid
      have hends := enumeration?_of_own hr hown hstep
      by_cases hend : ∃ keys, a = .enumerate id keys
      · obtain ⟨lock, hstage⟩ := hends.mpr hend
        obtain ⟨keys, rfl⟩ := hend
        obtain ⟨n, less, ttl, stage⟩ := r
        subst hstage
        cases keys with
        | ok keys =>
          simp only [step?, enumerate?, hr, Option.some.injEq] at hstep
          subst hstep
          simp [answer?, hr, find?_move, RequestStage.result?]
        | error g =>
          simp only [step?, enumerate?, hr, Option.some.injEq] at hstep
          subst hstep
          simp [answer?, hr, find?_move, RequestStage.result?]
      · have hnot : a ≠ .enumerate id (.error f) := fun h => hend ⟨_, h⟩
        obtain ⟨stage, hrequests, -⟩ := turn.requests_eq
        have hq : c'.requests.find? id = some { r with stage } := by
          rw [hrequests, Assoc.find?_put, if_pos rfl]
        rw [or_iff_left hnot, answer?, answer?, hq, hr]
        exact turn.error_iff (fun lock hlock => hend (hends.mp ⟨lock, hlock⟩)) hq f
    · apply alone
      · rintro rfl
        exact hid hown
      · rw [answer?, answer?, turn.find?_other hid]

/-- **Through a run, a request fails exactly by its own enumeration.** -/
theorem answer?_eq_error_iff (hs : Sound c) (hrun : c.run? steps = some t) (f : Failure) :
    t.answer? id = some (.error f) ↔
      c.answer? id = some (.error f) ∨ ∃ now, (now, .enumerate id (.error f)) ∈ steps := by
  induction steps generalizing c with
  | nil =>
    cases hrun
    simp
  | cons timed rest ih =>
    obtain ⟨now, a⟩ := timed
    obtain ⟨c₁, hstep, hrest, -⟩ := Machine.run?_cons_eq_some hrun
    rw [ih (hs.step (transition_of_step? hstep)) hrest, error_iff_of_step hs hstep, or_assoc]
    apply or_congr_right
    simp only [List.mem_cons, Prod.mk.injEq]
    constructor
    · rintro (rfl | ⟨n, hn⟩)
      · exact ⟨now, .inl ⟨rfl, rfl⟩⟩
      · exact ⟨n, .inr hn⟩
    · rintro ⟨n, ⟨-, ha⟩ | hn⟩
      · exact .inl ha.symm
      · exact .inr ⟨n, hn⟩

/-! ## Going on after a failure -/

/-- **Nothing keeps a request of the name from making a snapshot**: there is none, and no other
request of the name owns a lock. -/
structure Clear (name : Bytes) (id : RequestId) (c : SnapshotCache) : Prop where
  sound : Sound c
  nothing : c.snapshots.find? name = none
  free : ∀ j q, j ≠ id → c.requests.find? j = some q → q.name = name → q.stage.owned? = none

theorem Clear.turn (h : Clear name id c) (hr : c.requests.find? id = some r)
    (turn : Turn c now id r .silent c') : Clear name id c' where
  sound := h.sound.step (.turned hr turn)
  nothing := by
    cases hfound : c'.snapshots.find? name with
    | none => rfl
    | some made =>
      rcases turn.find?_snapshot hfound with hold | ⟨-, _, _, -, -, hshown⟩
      · rw [h.nothing] at hold
        cases hold
      · cases hshown
  free j q hj hq := by
    rw [turn.find?_other hj] at hq
    exact h.free j q hj hq

/-- The lock that such a request waits for is free. -/
theorem Clear.isOwned (h : Clear name id c) (hr : c.requests.find? id = some r)
    (hname : r.name = name) {lock : Nat} (hlock : r.stage.lock? = some lock)
    (hnone : r.stage.owned? = none) : c.isOwned lock = false := by
  refine isOwned_eq_false h.sound.keys fun j q hq howned => ?_
  by_cases hj : j = id
  · rw [hj, hr] at hq
    cases hq
    rw [hnone] at howned
    cases howned
  · have hmine := h.sound.registered id r lock hr hlock
    have htheirs := h.sound.registered j q lock hq (RequestStage.lock?_of_owned? howned)
    have hsame := h.sound.distinct q.name r.name lock htheirs hmine
    rw [h.free j q hj hq (hsame.trans hname)] at howned
    cases howned

/-- Each step of the approach can be taken, and leaves the rest of it. -/
theorem Clear.approach (h : Clear name id c) (hr : c.requests.find? id = some r)
    (hname : r.name = name) {rest : List Step} (happroach : r.stage.approach id = a :: rest)
    (now : Int64) : ∃ c' stage, c.step? now a = some c' ∧
      c'.requests.find? id = some { r with stage } ∧ stage.approach id = rest ∧
      (Clear name id c' ∧ rest ≠ [] ∨ ∃ lock, stage = .enumerating lock) := by
  obtain ⟨m, less, ttl, stage⟩ := r
  obtain rfl : m = name := hname
  cases stage with
  | looking =>
    cases happroach
    let r : Request := { name := m, less, timeToLive := ttl }
    have hstep : c.step? now (.look id) = some (c.move id r (.missed none)) := by
      simp only [step?, look?, hr, h.nothing, r]
    have turn : Turn c now id r .silent _ := .missed rfl h.nothing
    exact ⟨_, _, hstep, find?_move_self .., rfl, .inl ⟨h.turn hr turn, List.cons_ne_nil _ _⟩⟩
  | missed observed =>
    cases happroach
    let r : Request := { name := m, less, timeToLive := ttl, stage := .missed observed }
    cases hlock : c.locks.find? m with
    | some lock =>
      have hstep : c.step? now (.join id) = some (c.move id r (.waiting observed lock)) := by
        simp only [step?, join?, hr, hlock, r]
      have turn : Turn c now id r .silent _ := .joined rfl hlock
      exact ⟨_, _, hstep, find?_move_self .., rfl, .inl ⟨h.turn hr turn, List.cons_ne_nil _ _⟩⟩
    | none =>
      have hstep : c.step? now (.join id) =
          some ((c.withLock m).move id r (.waiting observed c.nextLock)) := by
        simp only [step?, join?, hr, hlock, r]
        rfl
      have turn : Turn c now id r .silent _ := .made rfl hlock
      exact ⟨_, _, hstep, find?_move_self .., rfl, .inl ⟨h.turn hr turn, List.cons_ne_nil _ _⟩⟩
  | waiting observed lock =>
    cases happroach
    let r : Request := { name := m, less, timeToLive := ttl, stage := .waiting observed lock }
    have hfree : c.isOwned lock = false := h.isOwned hr rfl rfl rfl
    have hstep : c.step? now (.acquire id) = some (c.move id r (.holding observed lock)) := by
      simp only [step?, acquire?, hr, hfree, Bool.false_eq_true, if_false, r]
    have turn : Turn c now id r .silent _ := .acquired rfl hfree
    exact ⟨_, _, hstep, find?_move_self .., rfl, .inl ⟨h.turn hr turn, List.cons_ne_nil _ _⟩⟩
  | holding observed lock =>
    cases happroach
    let r : Request := { name := m, less, timeToLive := ttl, stage := .holding observed lock }
    have hstep : c.step? now (.review id) = some (c.move id r (.lacking lock)) := by
      simp only [step?, review?, hr, h.nothing, r]
    have turn : Turn c now id r .silent (c.move id r (.lacking lock)) := by
      refine .lacked rfl fun current hcurrent => ?_
      rw [h.nothing] at hcurrent
      cases hcurrent
    exact ⟨_, _, hstep, find?_move_self .., rfl, .inl ⟨h.turn hr turn, List.cons_ne_nil _ _⟩⟩
  | lacking lock =>
    cases happroach
    let r : Request := { name := m, less, timeToLive := ttl, stage := .lacking lock }
    have hstep : c.step? now (.begin id) = some (c.move id r (.enumerating lock)) := by
      simp only [step?, begin?, hr, r]
    exact ⟨_, _, hstep, find?_move_self .., rfl, .inr ⟨lock, rfl⟩⟩
  | enumerating _ | enumerated _ _ | leaving _ _ | dropping _ _ | done _ => cases happroach

/-- **A request that nothing keeps from it comes to its enumeration** by its next steps, at whatever
times it takes them. -/
theorem Clear.enumerates (h : Clear name id c) (hr : c.requests.find? id = some r)
    (hname : r.name = name) {rest : List (Int64 × Step)}
    (hrest : rest.map Prod.snd = r.stage.approach id) (hsome : rest ≠ []) :
    ∃ u, c.run? rest = some u ∧ u.isEnumerating id = true := by
  induction rest generalizing c r with
  | nil => exact absurd rfl hsome
  | cons timed rest ih =>
    obtain ⟨now, a⟩ := timed
    obtain ⟨c', stage, hstep, hr', happroach, hclear⟩ := h.approach hr hname hrest.symm now
    rw [run?, Machine.run?_cons (m := machine) hstep]
    rcases hclear with ⟨hclear, hmore⟩ | ⟨lock, rfl⟩
    · have hmore : rest ≠ [] := by
        rintro rfl
        exact hmore rfl
      exact ih hclear hr' hname happroach.symm hmore
    · have hempty : rest = [] := List.map_eq_nil_iff.mp happroach.symm
      subst hempty
      exact ⟨c', rfl, by simp only [isEnumerating, hr']⟩

/-! ## The contract -/

/-- **The requests of a name share one computation** in a run. -/
structure SharesOne (name : Bytes) (c : SnapshotCache) (steps : List (Int64 × Step))
    (t : SnapshotCache) : Prop where
  once : (supplied t name (c.trace steps)).length ≤ 1
  /-- Every request that is answered with a snapshot is answered with the same one, which was
  published in the run and is still cached. -/
  shared : ∀ id made, c.answer? id = none → t.name? id = some name →
    t.answer? id = some (.ok made) →
    t.snapshots.find? name = some made ∧ ∃ j, .published j made ∈ c.trace steps
  /-- An enumeration that fails fails its own request, and nothing else does. -/
  failed : ∀ id f, c.answer? id = none →
    (t.answer? id = some (.error f) ↔ ∃ now, (now, .enumerate id (.error f)) ∈ steps)
  /-- As long as there is no snapshot, a request that finds the lock of the name free comes to an
  enumeration of its own by its next steps. -/
  instead : t.snapshots.find? name = none → ∀ id r, t.requests.find? id = some r → r.name = name →
    (∀ j q, j ≠ id → t.requests.find? j = some q → q.name = name → q.stage.owned? = none) →
    ∀ rest : List (Int64 × Step), rest.map Prod.snd = r.stage.approach id → rest ≠ [] →
    ∃ u, t.run? rest = some u ∧ u.isEnumerating id = true

/-- **Requests that overlap share one computation.** In every run from a reachable cache that holds
no snapshot of the name, as long as the name is not invalidated and what is cached for it has not
expired when a step is taken, one enumeration at most gives its keys, all requests that are answered
are answered with the one snapshot made of them, and a failing enumeration fails its own request
alone. -/
theorem requests_share_one {before : List (Int64 × Step)}
    (hbefore : ({} : SnapshotCache).run? before = some c) (hnone : c.snapshots.find? name = none)
    (hkeep : ∀ s ∈ steps, s.2 ≠ .invalidate name) (hfresh : unexpired name c steps = true)
    (hrun : c.run? steps = some t) : SharesOne name c steps t := by
  have hs : Sound c := Sound.empty.of_run hbefore
  have hstart : Shared name (fun id => c.answer? id = none) c := by
    refine ⟨fun id r made hnew hr _ hresult => ?_, fun hsome => ?_⟩
    · rw [answer?, hr, Option.bind_some, hresult] at hnew
      cases hnew
    · rw [hnone] at hsome
      cases hsome
  obtain ⟨hshared, honce, -⟩ := hstart.run hs hkeep hfresh hrun
  refine ⟨honce, fun id made hnew hname hanswer => ?_, fun id f hnew => ?_, ?_⟩
  · obtain ⟨r, hr, hresult⟩ := answer?_eq_some_iff.mp hanswer
    obtain ⟨r', hr', hname⟩ := name?_eq_some_iff.mp hname
    rw [hr] at hr'
    cases hr'
    have hcached := hshared.answered id r made hnew hr hname hresult
    refine ⟨hcached, ?_⟩
    rcases cached_since hrun hcached with hold | hpublished
    · rw [hnone] at hold
      cases hold
    · exact hpublished
  · rw [answer?_eq_error_iff hs hrun, hnew]
    simp only [reduceCtorEq, false_or]
  · intro hnothing id r hr hname hfree rest hrest hsome
    have hclear : Clear name id t := ⟨hs.of_run hrun, hnothing, hfree⟩
    exact hclear.enumerates hr hname hrest hsome

/-- A failing enumeration while a second request waits, which enumerates next; a third waits for it,
and a fourth comes when it has published. -/
def flightSteps : List (Int64 × Step) :=
  [(0, .request [115] Bytes.less 1000), (0, .look 0), (0, .join 0), (0, .acquire 0), (0, .review 0),
    (0, .begin 0), (1, .request [115] Bytes.less 1000), (1, .look 1), (1, .join 1),
    (2, .enumerate 0 (.error (.raised .runtimeError [33]))), (2, .leave 0), (2, .acquire 1),
    (3, .drop 0), (3, .review 1), (3, .begin 1), (3, .request [115] Bytes.less 5), (3, .look 2),
    (3, .join 2), (4, .enumerate 1 (.ok [[98], [97]])), (4, .publish 1), (4, .leave 1),
    (4, .acquire 2), (5, .review 2), (5, .leave 2), (5, .drop 1), (5, .drop 2),
    (5, .request [115] Bytes.less 0), (5, .look 3)]

/-- The first request fails alone, and the others are answered with one snapshot. -/
theorem flight_shares_one : ∃ t made, ({} : SnapshotCache).run? flightSteps = some t ∧
    t.answer? 0 = some (.error (.raised .runtimeError [33])) ∧
    (∀ id ∈ [1, 2, 3], t.answer? id = some (.ok made)) ∧
    supplied t [115] (({} : SnapshotCache).trace flightSteps) = [1] ∧
    SharesOne [115] {} flightSteps t := by
  have hrun : ({} : SnapshotCache).run? flightSteps = some _ := rfl
  refine ⟨_, ({} : SnapshotCache).make { name := [115], less := Bytes.less, timeToLive := 1000 }
    [[98], [97]] 4, hrun, rfl, ?_, rfl, ?_⟩
  · simp only [List.mem_cons, List.not_mem_nil, or_false]
    rintro id (rfl | rfl | rfl) <;> rfl
  · have hbefore : ({} : SnapshotCache).run? [] = some {} := rfl
    exact requests_share_one hbefore rfl (by simp [flightSteps]) rfl hrun

end SnapshotCache

end Keyspace
