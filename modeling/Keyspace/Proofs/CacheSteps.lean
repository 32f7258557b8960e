import Keyspace.Proofs.Runs
import Keyspace.SnapshotCache

/-!
# The steps of the snapshot cache

The steps of the cache, inverted once: `SnapshotCache.Transition` says what each step finds and
leaves, and what it shows of itself (`Event`), so that no later proof opens the step function again
(`transition_of_step?`). What a request shows is that it began, that its enumeration began and which
keys it gave, and which snapshot it published.

With its steps and what they show the cache is a `Machine`, each step with the time at which it is
taken. What every transition keeps of the trace so far and the state, a run keeps (`run_induction`).
-/

namespace Keyspace

namespace SnapshotCache

/-- **What a step of the cache shows.** -/
inductive Event where
  | requested (id : RequestId) (name : Bytes)
  | began (id : RequestId)
  | gave (id : RequestId) (keys : List Bytes)
  | published (id : RequestId) (made : Cached)
  | silent

variable {c c' : SnapshotCache} {now : Int64} {id : RequestId} {r : Request} {e : Event}

/-- The snapshot that a request makes now of the keys that it was given. -/
def make (c : SnapshotCache) (r : Request) (keys : List Bytes) (now : Int64) : Cached where
  id := c.nextSnapshot
  snapshot :=
    { name := r.name, keys := (KeyOrder.sort r.less keys).toArray, less := r.less,
      createdAt := now, timeToLive := r.timeToLive }

/-- What a step shows. -/
def event (c : SnapshotCache) (now : Int64) : Step → Event
  | .request name _ _ => .requested c.nextRequest name
  | .begin id => .began id
  | .enumerate id (.ok keys) => .gave id keys
  | .publish id =>
    match c.requests.find? id with
    | some r@{ stage := .enumerated _ keys, .. } => .published id (c.make r keys now)
    | _ => .silent
  | _ => .silent

/-! ## What the steps find and leave -/

/-- The cache with a lock for a name that had none. -/
def withLock (c : SnapshotCache) (name : Bytes) : SnapshotCache :=
  { c with locks := c.locks.put name c.nextLock, nextLock := c.nextLock + 1 }

/-- The cache with a snapshot that was just made. -/
def withSnapshot (c : SnapshotCache) (name : Bytes) (made : Cached) : SnapshotCache :=
  { c with snapshots := c.snapshots.put name made, nextSnapshot := c.nextSnapshot + 1 }

/-- **A step of a request**: what it shows, and the cache after it. -/
inductive Turn (c : SnapshotCache) (now : Int64) (id : RequestId) (r : Request) :
    Event → SnapshotCache → Prop
  | missed (stage : r.stage = .looking) (absent : c.snapshots.find? r.name = none) :
    Turn c now id r .silent (c.move id r (.missed none))
  | outdated {seen : Cached} (stage : r.stage = .looking)
    (found : c.snapshots.find? r.name = some seen)
    (expired : seen.snapshot.isExpired now = true) :
    Turn c now id r .silent (c.move id r (.missed (some seen.id)))
  | served {seen : Cached} (stage : r.stage = .looking)
    (found : c.snapshots.find? r.name = some seen)
    (fresh : seen.snapshot.isExpired now = false) :
    Turn c now id r .silent (c.move id r (.done (.ok seen)))
  | joined {observed : Option Nat} {lock : Nat} (stage : r.stage = .missed observed)
    (found : c.locks.find? r.name = some lock) :
    Turn c now id r .silent (c.move id r (.waiting observed lock))
  | made {observed : Option Nat} (stage : r.stage = .missed observed)
    (absent : c.locks.find? r.name = none) :
    Turn c now id r .silent ((c.withLock r.name).move id r (.waiting observed c.nextLock))
  | acquired {observed : Option Nat} {lock : Nat} (stage : r.stage = .waiting observed lock)
    (free : c.isOwned lock = false) :
    Turn c now id r .silent (c.move id r (.holding observed lock))
  | taken {observed : Option Nat} {lock : Nat} {current : Cached}
    (stage : r.stage = .holding observed lock)
    (found : c.snapshots.find? r.name = some current)
    (usable : some current.id ≠ observed ∨ current.snapshot.isExpired now = false) :
    Turn c now id r .silent (c.move id r (.leaving lock (.ok current)))
  | lacked {observed : Option Nat} {lock : Nat} (stage : r.stage = .holding observed lock)
    (unusable : ∀ current, c.snapshots.find? r.name = some current →
      some current.id = observed ∧ current.snapshot.isExpired now = true) :
    Turn c now id r .silent (c.move id r (.lacking lock))
  | began {lock : Nat} (stage : r.stage = .lacking lock) :
    Turn c now id r (.began id) (c.move id r (.enumerating lock))
  | gave {lock : Nat} (keys : List Bytes) (stage : r.stage = .enumerating lock) :
    Turn c now id r (.gave id keys) (c.move id r (.enumerated lock keys))
  | failed {lock : Nat} (f : Failure) (stage : r.stage = .enumerating lock) :
    Turn c now id r .silent (c.move id r (.leaving lock (.error f)))
  | published {lock : Nat} {keys : List Bytes} (stage : r.stage = .enumerated lock keys) :
    Turn c now id r (.published id (c.make r keys now))
      ((c.withSnapshot r.name (c.make r keys now)).move id r
        (.leaving lock (.ok (c.make r keys now))))
  | left {lock : Nat} {result : Outcome Cached} (stage : r.stage = .leaving lock result) :
    Turn c now id r .silent (c.move id r (.dropping lock result))
  | dropped {lock : Nat} {result : Outcome Cached} (stage : r.stage = .dropping lock result) :
    Turn c now id r .silent (c.move id r (.done result))

/-- **A step of the cache**: what it shows, and the cache after it. -/
inductive Transition (c : SnapshotCache) (now : Int64) : Event → SnapshotCache → Prop
  | requested (name : Bytes) (less : Comparison) (timeToLive : Int64) :
    Transition c now (.requested c.nextRequest name) (c.request name less timeToLive).1
  | turned {id : RequestId} {r : Request} {e : Event} {c' : SnapshotCache}
    (request : c.requests.find? id = some r) (turn : Turn c now id r e c') :
    Transition c now e c'
  | invalidated (name : Bytes) : Transition c now .silent (c.invalidate name)

theorem turn_of_look? (h : c.look? id now = some c') :
    ∃ r, c.requests.find? id = some r ∧ Turn c now id r .silent c' := by
  unfold look? at h
  split at h
  · next hr =>
    split at h
    · next habsent =>
      cases h
      exact ⟨_, hr, .missed rfl habsent⟩
    · next seen hfound =>
      split at h
      · next hexpired =>
        cases h
        exact ⟨_, hr, .outdated rfl hfound hexpired⟩
      · next hfresh =>
        cases h
        exact ⟨_, hr, .served rfl hfound (Bool.eq_false_iff.mpr hfresh)⟩
  · cases h

theorem turn_of_join? (h : c.join? id = some c') :
    ∃ r, c.requests.find? id = some r ∧ Turn c now id r .silent c' := by
  unfold join? at h
  split at h
  · next hr =>
    split at h
    · next lock hfound =>
      cases h
      exact ⟨_, hr, .joined rfl hfound⟩
    · next habsent =>
      cases h
      exact ⟨_, hr, .made rfl habsent⟩
  · cases h

theorem turn_of_acquire? (h : c.acquire? id = some c') :
    ∃ r, c.requests.find? id = some r ∧ Turn c now id r .silent c' := by
  unfold acquire? at h
  split at h
  · next hr =>
    split at h
    · cases h
    · next hfree =>
      cases h
      exact ⟨_, hr, .acquired rfl (Bool.eq_false_iff.mpr hfree)⟩
  · cases h

theorem turn_of_review? (h : c.review? id now = some c') :
    ∃ r, c.requests.find? id = some r ∧ Turn c now id r .silent c' := by
  unfold review? at h
  split at h
  · next hr =>
    split at h
    · next habsent =>
      cases h
      refine ⟨_, hr, .lacked rfl fun current hcurrent => ?_⟩
      rw [habsent] at hcurrent
      cases hcurrent
    · next current hfound =>
      split at h
      · next husable =>
        cases h
        simp only [Bool.or_eq_true, decide_eq_true_eq, Bool.not_eq_true'] at husable
        exact ⟨_, hr, .taken rfl hfound husable⟩
      · next hunusable =>
        cases h
        simp only [Bool.or_eq_true, decide_eq_true_eq, Bool.not_eq_true', not_or, ne_eq,
          Decidable.not_not, Bool.not_eq_false] at hunusable
        refine ⟨_, hr, .lacked rfl fun other hother => ?_⟩
        rw [hfound] at hother
        cases hother
        exact hunusable
  · cases h

theorem turn_of_begin? (h : c.begin? id = some c') :
    ∃ r, c.requests.find? id = some r ∧ Turn c now id r (.began id) c' := by
  unfold begin? at h
  split at h
  · next hr =>
    cases h
    exact ⟨_, hr, .began rfl⟩
  · cases h

theorem turn_of_enumerate? {keys : Outcome (List Bytes)} (h : c.enumerate? id keys = some c') :
    ∃ r, c.requests.find? id = some r ∧ Turn c now id r (c.event now (.enumerate id keys)) c' := by
  unfold enumerate? at h
  split at h
  · next hr =>
    cases keys with
    | ok keys =>
      cases h
      exact ⟨_, hr, .gave keys rfl⟩
    | error f =>
      cases h
      exact ⟨_, hr, .failed f rfl⟩
  · cases h

theorem turn_of_publish? (h : c.publish? id now = some c') :
    ∃ r, c.requests.find? id = some r ∧ Turn c now id r (c.event now (.publish id)) c' := by
  unfold publish? at h
  split at h
  · next hr =>
    cases h
    refine ⟨_, hr, ?_⟩
    simp only [event, hr]
    exact .published rfl
  · cases h

theorem turn_of_leave? (h : c.leave? id = some c') :
    ∃ r, c.requests.find? id = some r ∧ Turn c now id r .silent c' := by
  unfold leave? at h
  split at h
  · next hr =>
    cases h
    exact ⟨_, hr, .left rfl⟩
  · cases h

theorem turn_of_drop? (h : c.drop? id = some c') :
    ∃ r, c.requests.find? id = some r ∧ Turn c now id r .silent c' := by
  unfold drop? at h
  split at h
  · next hr =>
    cases h
    exact ⟨_, hr, .dropped rfl⟩
  · cases h

/-- **Every step of the cache is a transition**, which shows what the step shows. -/
theorem transition_of_step? {a : Step} (h : c.step? now a = some c') :
    Transition c now (c.event now a) c' := by
  have turned : ∀ {id e}, (∃ r, c.requests.find? id = some r ∧ Turn c now id r e c') →
      Transition c now e c' := by
    rintro id e ⟨r, hr, hturn⟩
    exact .turned hr hturn
  cases a with
  | request name less ttl =>
    cases h
    exact .requested name less ttl
  | look id => exact turned (turn_of_look? h)
  | join id => exact turned (turn_of_join? h)
  | acquire id => exact turned (turn_of_acquire? h)
  | review id => exact turned (turn_of_review? h)
  | begin id => exact turned (turn_of_begin? h)
  | enumerate id keys => exact turned (turn_of_enumerate? h)
  | publish id => exact turned (turn_of_publish? h)
  | leave id => exact turned (turn_of_leave? h)
  | drop id => exact turned (turn_of_drop? h)
  | invalidate name =>
    cases h
    exact .invalidated name

/-- And every turn of a request is a step that shows what the turn shows. -/
theorem step?_of_turn (hr : c.requests.find? id = some r) (turn : Turn c now id r e c') :
    ∃ a, c.step? now a = some c' ∧ c.event now a = e := by
  obtain ⟨name, less, ttl, stage⟩ := r
  cases turn with
  | missed hstage absent =>
    subst hstage
    exact ⟨.look id, by simp only [step?, look?, hr, absent], rfl⟩
  | outdated hstage found expired =>
    subst hstage
    exact ⟨.look id, by simp only [step?, look?, hr, found, expired, if_true], rfl⟩
  | served hstage found fresh =>
    subst hstage
    exact ⟨.look id, by
      simp only [step?, look?, hr, found, fresh, Bool.false_eq_true, if_false], rfl⟩
  | joined hstage found =>
    subst hstage
    exact ⟨.join id, by simp only [step?, join?, hr, found], rfl⟩
  | made hstage absent =>
    subst hstage
    exact ⟨.join id, by simp only [step?, join?, hr, absent]; rfl, rfl⟩
  | acquired hstage free =>
    subst hstage
    exact ⟨.acquire id, by
      simp only [step?, acquire?, hr, free, Bool.false_eq_true, if_false], rfl⟩
  | taken hstage found usable =>
    subst hstage
    refine ⟨.review id, ?_, rfl⟩
    simp only [step?, review?, hr, found]
    rw [if_pos]
    simpa only [Bool.or_eq_true, decide_eq_true_eq, Bool.not_eq_true'] using usable
  | lacked hstage unusable =>
    subst hstage
    refine ⟨.review id, ?_, rfl⟩
    cases hfound : c.snapshots.find? name with
    | none => simp only [step?, review?, hr, hfound]
    | some current =>
      obtain ⟨hsame, hexpired⟩ := unusable current hfound
      simp only [step?, review?, hr, hfound, hsame, hexpired, ne_eq, not_true_eq_false,
        decide_false, Bool.not_true, Bool.or_self, Bool.false_eq_true, if_false]
  | began hstage =>
    subst hstage
    exact ⟨.begin id, by simp only [step?, begin?, hr], rfl⟩
  | gave keys hstage =>
    subst hstage
    exact ⟨.enumerate id (.ok keys), by simp only [step?, enumerate?, hr], rfl⟩
  | failed f hstage =>
    subst hstage
    exact ⟨.enumerate id (.error f), by simp only [step?, enumerate?, hr], rfl⟩
  | published hstage =>
    subst hstage
    exact ⟨.publish id, by simp only [step?, publish?, hr]; rfl, by simp only [event, hr]⟩
  | left hstage =>
    subst hstage
    exact ⟨.leave id, by simp only [step?, leave?, hr], rfl⟩
  | dropped hstage =>
    subst hstage
    exact ⟨.drop id, by simp only [step?, drop?, hr], rfl⟩

/-- **Every transition is a step of the cache**, which shows what the transition shows. -/
theorem step?_of_transition (h : Transition c now e c') :
    ∃ a, c.step? now a = some c' ∧ c.event now a = e := by
  cases h with
  | requested name less ttl => exact ⟨.request name less ttl, rfl, rfl⟩
  | turned hr turn => exact step?_of_turn hr turn
  | invalidated name => exact ⟨.invalidate name, rfl, rfl⟩

/-! ## What the steps leave alone -/

/-- Only the request that moves changes, and only in its stage. -/
theorem find?_move (c : SnapshotCache) (id j : RequestId) (r : Request) (stage : RequestStage) :
    (c.move id r stage).requests.find? j =
      if j = id then some { r with stage } else c.requests.find? j :=
  Assoc.find?_put ..

theorem eq_of_find?_move {c : SnapshotCache} {r q : Request} {stage : RequestStage}
    (h : (c.move id r stage).requests.find? id = some q) : q = { r with stage } := by
  rw [find?_move, if_pos rfl] at h
  cases h
  rfl

/-- A new request comes under the next name. -/
theorem find?_request (c : SnapshotCache) (name : Bytes) (less : Comparison) (timeToLive : Int64)
    (j : RequestId) : (c.request name less timeToLive).1.requests.find? j =
      if j = c.nextRequest then some { name, less, timeToLive } else c.requests.find? j :=
  Assoc.find?_put ..

/-- A turn changes its own request alone, and only in its stage. -/
theorem Turn.requests_eq (turn : Turn c now id r e c') :
    ∃ stage, c'.requests = c.requests.put id { r with stage } ∧
      c'.nextRequest = c.nextRequest := by
  cases turn <;> exact ⟨_, rfl, rfl⟩

/-- A request has its result when it is done. -/
theorem result?_eq_some_iff {result : Outcome Cached} :
    c.result? id = some result ↔ ∃ r, c.requests.find? id = some r ∧ r.stage = .done result := by
  unfold result?
  constructor
  · intro h
    split at h
    · next hr =>
      cases h
      exact ⟨_, hr, rfl⟩
    · cases h
  · rintro ⟨⟨name, less, ttl, stage⟩, hr, rfl⟩
    simp only [hr]

/-- A lock that no request owns is owned by none of those that a look-up finds. -/
theorem owned?_ne_of_isOwned_eq_false {lock : Nat} (h : c.isOwned lock = false)
    (hr : c.requests.find? id = some r) : r.stage.owned? ≠ some lock := by
  have hnone := List.any_eq_false.mp h (id, r) (Assoc.mem_of_find? hr)
  simpa using hnone

/-- A lock that no request refers to is referred to by none of those that a look-up finds. -/
theorem lock?_ne_of_isReferred_eq_false {lock : Nat} (h : c.isReferred lock = false)
    (hr : c.requests.find? id = some r) : r.stage.lock? ≠ some lock := by
  have hnone := List.any_eq_false.mp h (id, r) (Assoc.mem_of_find? hr)
  simpa using hnone

/-! ## Runs -/

/-- **The cache as a machine**; a step comes with the time at which it is taken. -/
def machine : Machine SnapshotCache (Int64 × Step) Event where
  step? c timed := c.step? timed.1 timed.2
  event c timed := c.event timed.1 timed.2

/-- The cache after a list of steps, each taken at its time; `none` if one of them is not possible.
-/
abbrev run? (c : SnapshotCache) (steps : List (Int64 × Step)) : Option SnapshotCache :=
  machine.run? c steps

/-- **The trace of a run**: what its steps show, in order. -/
abbrev trace (c : SnapshotCache) (steps : List (Int64 × Step)) : List Event :=
  machine.trace c steps

/-- **Induction over runs**: what every transition keeps of the trace so far and the state, a run
keeps. -/
theorem run_induction {P : List Event → SnapshotCache → Prop}
    (step : ∀ past c now e c', P past c → Transition c now e c' → P (past ++ [e]) c')
    {steps : List (Int64 × Step)} {t : SnapshotCache} (h : P [] c) (hrun : c.run? steps = some t) :
    P (c.trace steps) t :=
  Machine.run_induction
    (fun past c _ c' hpast hstep => step past c _ _ c' hpast (transition_of_step? hstep)) h hrun

/-- Some run leads from one cache to another and shows what the list says. -/
def Reaches (c : SnapshotCache) (trace : List Event) (t : SnapshotCache) : Prop :=
  ∃ steps, c.run? steps = some t ∧ c.trace steps = trace

theorem Reaches.refl (c : SnapshotCache) : Reaches c [] c :=
  ⟨[], rfl, rfl⟩

theorem Reaches.cons {rest : List Event} {t : SnapshotCache} (h : Transition c now e c')
    (hrest : Reaches c' rest t) : Reaches c (e :: rest) t := by
  obtain ⟨a, hstep, rfl⟩ := step?_of_transition h
  obtain ⟨steps, hrun, rfl⟩ := hrest
  have htimed : machine.step? c (now, a) = some c' := hstep
  exact ⟨(now, a) :: steps, (Machine.run?_cons htimed steps).trans hrun,
    Machine.trace_cons htimed steps⟩

end SnapshotCache

end Keyspace
