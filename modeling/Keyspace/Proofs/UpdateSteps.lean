import Keyspace.BucketSystem
import Keyspace.Proofs.MapAccess
import Keyspace.Proofs.Runs

/-!
# The steps of updates

The steps of a bucket's system, inverted once: `BucketSystem.Transition` says what each step finds
and leaves, and what it shows of itself (`Event`), so that no later proof opens the step function
again (`transition_of_step?`). What a call shows are its acts: that it found its key, claimed and
locked it, which value it read, what became of its evaluation, what it stored.

With its steps and what they show the system is a `Machine`. Properties of runs are properties of the
trace and the state that it leads to, proved one transition at a time (`run_induction`).
-/

namespace Keyspace

variable {V : Type}

/-- The value that a task gave, if it gave one. -/
def Product.value? : Product V → Option V
  | .value v => v
  | .number _ => none

/-- **What one step of a call does.** -/
inductive Act (V : Type) where
  | checked (present : Bool)
  | claimed
  | locked
  | read (value : Option V)
  | submitted (refusal : Option Failure)
  | evaluated (outcome : Outcome (Option V))
  | expired
  | stored (value : V)
  | freed
  | returned (result : Outcome Unit)

/-- **What a step of the system shows**: the start or an act of a call, or an access to a key. -/
inductive Event (V : Type) where
  | called (id : CallId) (call : UpdateCall V)
  | act (id : CallId) (key : Bytes) (act : Act V)
  | put (key : Bytes) (value : V)
  | got (key : Bytes) (seen : Option V)
  | removed (key : Bytes) (found : Bool)
  | silent

/-- The number of turns that a call at a stage can still take at most. -/
def UpdateStage.rank : UpdateStage V → Nat
  | .checking => 9
  | .claiming => 8
  | .locking _ => 7
  | .reading _ => 6
  | .submitting _ _ => 5
  | .awaiting _ _ => 4
  | .storing _ _ => 3
  | .freeing _ _ => 2
  | .dropping _ _ => 1
  | .done _ => 0

namespace BucketSystem

variable {s s' : BucketSystem V} {id : CallId} {c : UpdateCall V}

/-- The value of a key, if it is present. -/
def value? (s : BucketSystem V) (key : Bytes) : Option V :=
  s.bucket.map.get? key

/-- The result that an await gives, as the call of an update sees it. -/
def gives (s : BucketSystem V) (task : TaskId) : Outcome (Option V) :=
  (s.pool.await task).1.map fun p => p.bind Product.value?

/-! ## What the updates of the state leave alone -/

@[simp] theorem move_pool (s : BucketSystem V) (id : CallId) (c : UpdateCall V)
    (stage : UpdateStage V) : (s.move id c stage).pool = s.pool := rfl

@[simp] theorem value?_move (s : BucketSystem V) (id : CallId) (c : UpdateCall V)
    (stage : UpdateStage V) (key : Bytes) : (s.move id c stage).value? key = s.value? key := rfl

/-- Only the call that moves changes, and only in its stage. -/
theorem find?_move (s : BucketSystem V) (id j : CallId) (c : UpdateCall V) (stage : UpdateStage V) :
    (s.move id c stage).calls.find? j =
      if j = id then some { c with stage } else s.calls.find? j :=
  Assoc.find?_put ..

/-- A new call comes under the next name. -/
theorem find?_call (s : BucketSystem V) (c : UpdateCall V) (j : CallId) :
    (s.call c).1.calls.find? j =
      if j = s.nextCall then some { c with stage := .checking } else s.calls.find? j :=
  Assoc.find?_put ..

/-- A call has its result when it is done. -/
theorem result?_eq_some_iff {result : Outcome Unit} :
    s.result? id = some result ↔ ∃ c, s.calls.find? id = some c ∧ c.stage = .done result := by
  unfold result?
  constructor
  · intro h
    split at h
    · next hc =>
      cases h
      exact ⟨_, hc, rfl⟩
    · cases h
  · rintro ⟨⟨key, update, function, timeout, stage⟩, hc, rfl⟩
    simp only [hc]

section Steps

variable [Storable V]

/-! ## What the steps show -/

/-- What the submission of an evaluation is refused with, if it is. -/
def refusal? (s : BucketSystem V) (c : UpdateCall V) (value : V) : Option Failure :=
  match s.pool.submit (Storable.evaluate value c.update c.function) with
  | .ok _ => none
  | .error f => some f

/-- The act that a call comes to next. -/
def nextAct (s : BucketSystem V) (c : UpdateCall V) : Act V :=
  match c.stage with
  | .checking => .checked (s.bucket.map.contains c.key)
  | .claiming => .claimed
  | .locking _ => .locked
  | .reading _ => .read (s.value? c.key)
  | .submitting _ v => .submitted (s.refusal? c v)
  | .awaiting _ task => .evaluated (s.gives task)
  | .storing _ v => .stored v
  | .freeing _ _ => .freed
  | .dropping _ result => .returned result
  | .done result => .returned result

/-- What a step shows. -/
def event (s : BucketSystem V) : Step V → Event V
  | .call c => .called s.nextCall c
  | .advance id =>
    match s.calls.find? id with
    | some c => .act id c.key (s.nextAct c)
    | none => .silent
  | .expire id =>
    match s.calls.find? id with
    | some c => .act id c.key .expired
    | none => .silent
  | .put key (some value) => .put key value
  | .put _ none => .silent
  | .get key => .got key (s.value? key)
  | .remove key => .removed key (s.bucket.map.contains key)
  | .pool _ => .silent

/-! ## What the steps find and leave -/

/-- **A step of a call**: the act, and the system after it. -/
inductive Turn (s : BucketSystem V) (id : CallId) (c : UpdateCall V) : Act V → BucketSystem V → Prop
  | present (stage : c.stage = .checking) (found : s.bucket.map.contains c.key = true) :
    Turn s id c (.checked true) (s.move id c .claiming)
  | absent (stage : c.stage = .checking) (missing : s.bucket.map.contains c.key = false) :
    Turn s id c (.checked false) (s.move id c (.done (.error (.keyMissing c.key))))
  | claim (stage : c.stage = .claiming) :
    Turn s id c .claimed ((s.withLocks (s.bucket.locks.claim c.key).1).move id c
      (.locking (s.bucket.locks.claim c.key).2))
  | lock {claim : ClaimId} {locks : KeyLocks} (stage : c.stage = .locking claim)
    (acquired : s.bucket.locks.acquire? claim = some locks) :
    Turn s id c .locked ((s.withLocks locks).move id c (.reading claim))
  | read {claim : ClaimId} {v : V} (stage : c.stage = .reading claim)
    (found : s.value? c.key = some v) :
    Turn s id c (.read (some v)) (s.move id c (.submitting claim v))
  | missing {claim : ClaimId} (stage : c.stage = .reading claim)
    (missing : s.value? c.key = none) :
    Turn s id c (.read none) (s.move id c (.freeing claim (.error (.keyMissing c.key))))
  | accepted {claim : ClaimId} {v : V} {pool : WorkerPool (Product V)} {task : TaskId}
    (stage : c.stage = .submitting claim v)
    (accepted : s.pool.submit (Storable.evaluate v c.update c.function) = .ok (pool, task)) :
    Turn s id c (.submitted none) ({ s with pool }.move id c (.awaiting claim task))
  | refused {claim : ClaimId} {v : V} {f : Failure} (stage : c.stage = .submitting claim v)
    (refused : s.pool.submit (Storable.evaluate v c.update c.function) = .error f) :
    Turn s id c (.submitted (some f))
      (s.move id c (.freeing claim (.error (.updateUnscheduled f.message))))
  | gave {claim : ClaimId} {task : TaskId} {w : V} {pool : WorkerPool (Product V)}
    (stage : c.stage = .awaiting claim task)
    (result : s.pool.await task = (.ok (some (.value (some w))), pool)) :
    Turn s id c (.evaluated (.ok (some w))) ({ s with pool }.move id c (.storing claim w))
  | gaveNothing {claim : ClaimId} {task : TaskId} {p : Product V} {pool : WorkerPool (Product V)}
    (stage : c.stage = .awaiting claim task) (result : s.pool.await task = (.ok (some p), pool))
    (nothing : p.value? = none) :
    Turn s id c (.evaluated (.ok none))
      ({ s with pool := pool.cancel task }.move id c (.freeing claim (.error .updateExpired)))
  | failed {claim : ClaimId} {task : TaskId} {f : Failure} {pool : WorkerPool (Product V)}
    (stage : c.stage = .awaiting claim task) (result : s.pool.await task = (.error f, pool)) :
    Turn s id c (.evaluated (.error f)) ({ s with pool := pool.cancel task }.move id c
      (.freeing claim (.error (.updateFailed f.message))))
  | expired {claim : ClaimId} {task : TaskId} (stage : c.stage = .awaiting claim task)
    (unfinished : (s.pool.await task).1 = .ok none) :
    Turn s id c .expired ({ s with pool := s.pool.cancel task }.move id c
      (.freeing claim (.error .updateExpired)))
  | store {claim : ClaimId} {v : V} (stage : c.stage = .storing claim v) :
    Turn s id c (.stored v)
      ((s.withMap (s.bucket.map.put c.key (some v))).move id c (.freeing claim (.ok ())))
  | free {claim : ClaimId} {result : Outcome Unit} {locks : KeyLocks}
    (stage : c.stage = .freeing claim result) (freed : s.bucket.locks.free? claim = some locks) :
    Turn s id c .freed ((s.withLocks locks).move id c (.dropping claim result))
  | «return» {claim : ClaimId} {result : Outcome Unit} {locks : KeyLocks}
    (stage : c.stage = .dropping claim result)
    (dropped : s.bucket.locks.drop? claim = some locks) :
    Turn s id c (.returned result) ((s.withLocks locks).move id c (.done result))

/-- **A step of the system**: what it shows, and the system after it. -/
inductive Transition (s : BucketSystem V) : Event V → BucketSystem V → Prop
  | called (c : UpdateCall V) : Transition s (.called s.nextCall c) (s.call c).1
  | turned {id : CallId} {c : UpdateCall V} {a : Act V} {s' : BucketSystem V}
    (call : s.calls.find? id = some c) (turn : Turn s id c a s') :
    Transition s (.act id c.key a) s'
  | put (key : Bytes) (value : V) :
    Transition s (.put key value) (s.withMap (s.bucket.map.put key (some value)))
  | rejected : Transition s .silent s
  | got (key : Bytes) : Transition s (.got key (s.value? key)) s
  | removed {key : Bytes} (found : s.bucket.map.contains key = true) :
    Transition s (.removed key true) (s.withMap (s.bucket.map.remove key).2)
  | notRemoved {key : Bytes} (missing : s.bucket.map.contains key = false) :
    Transition s (.removed key false) s
  | worked {step : WorkerPool.Step (Product V)} {pool : WorkerPool (Product V)}
    (unreserved : s.reserved step = false) (stepped : s.pool.step? step = some pool) :
    Transition s .silent { s with pool }

/-- A submission is accepted or refused. -/
theorem turn_of_submit {claim : ClaimId} {v : V} (hstage : c.stage = .submitting claim v) :
    Turn s id c (.submitted (s.refusal? c v)) (s.submit id c claim v).1 := by
  unfold refusal? submit
  cases hsub : s.pool.submit (Storable.evaluate v c.update c.function) with
  | ok r => exact .accepted hstage hsub
  | error f => exact .refused hstage hsub

/-- An await that takes a result finds a value, something else, or a failure. -/
theorem turn_of_take? {claim : ClaimId} {task : TaskId} {log : Log}
    (hstage : c.stage = .awaiting claim task) (h : s.take? id c claim task = some (s', log)) :
    Turn s id c (.evaluated (s.gives task)) s' := by
  unfold take? at h
  unfold gives
  cases hawait : s.pool.await task with
  | mk result pool =>
    simp only [hawait] at h
    cases result with
    | error f =>
      cases h
      exact .failed hstage hawait
    | ok product =>
      cases product with
      | none => cases h
      | some p =>
        cases p with
        | value v =>
          cases v with
          | none =>
            cases h
            exact .gaveNothing hstage hawait rfl
          | some w =>
            cases h
            exact .gave hstage hawait
        | number n =>
          cases h
          exact .gaveNothing hstage hawait rfl

/-- A call that advances takes the turn of its stage. -/
theorem turn_of_advance? {log : Log} (hc : s.calls.find? id = some c)
    (h : s.advance? id = some (s', log)) : Turn s id c (s.nextAct c) s' := by
  unfold advance? at h
  simp only [hc] at h
  unfold nextAct
  cases hstage : c.stage with
  | checking =>
    simp only [hstage] at h
    cases hfound : s.bucket.map.contains c.key with
    | true =>
      simp only [hfound, if_true, Option.some.injEq, Prod.mk.injEq] at h
      obtain ⟨rfl, _⟩ := h
      exact .present hstage hfound
    | false =>
      simp only [hfound, Bool.false_eq_true, if_false, Option.some.injEq, Prod.mk.injEq] at h
      obtain ⟨rfl, _⟩ := h
      exact .absent hstage hfound
  | claiming =>
    simp only [hstage, Option.some.injEq, Prod.mk.injEq] at h
    obtain ⟨rfl, _⟩ := h
    exact .claim hstage
  | locking claim =>
    simp only [hstage] at h
    obtain ⟨locks, hlocks, heq⟩ := Option.map_eq_some_iff.mp h
    cases heq
    exact .lock hstage hlocks
  | reading claim =>
    simp only [hstage] at h
    cases hv : s.value? c.key with
    | none =>
      have hget : s.bucket.map.get? c.key = none := hv
      simp only [hget, Option.some.injEq, Prod.mk.injEq] at h
      obtain ⟨rfl, _⟩ := h
      exact .missing hstage hv
    | some v =>
      have hget : s.bucket.map.get? c.key = some v := hv
      simp only [hget, Option.some.injEq, Prod.mk.injEq] at h
      obtain ⟨rfl, _⟩ := h
      exact .read hstage hv
  | submitting claim v =>
    simp only [hstage, Option.some.injEq] at h
    have hturn : Turn s id c (.submitted (s.refusal? c v)) (s.submit id c claim v).1 :=
      turn_of_submit hstage
    rw [h] at hturn
    exact hturn
  | awaiting claim task =>
    simp only [hstage] at h
    exact turn_of_take? hstage h
  | storing claim v =>
    simp only [hstage, Option.some.injEq, Prod.mk.injEq] at h
    obtain ⟨rfl, _⟩ := h
    exact .store hstage
  | freeing claim result =>
    simp only [hstage] at h
    obtain ⟨locks, hlocks, heq⟩ := Option.map_eq_some_iff.mp h
    cases heq
    exact .free hstage hlocks
  | dropping claim result =>
    simp only [hstage] at h
    obtain ⟨locks, hlocks, heq⟩ := Option.map_eq_some_iff.mp h
    cases heq
    exact .return hstage hlocks
  | done result => simp only [hstage, reduceCtorEq] at h

/-- A call that is given up awaits an unfinished task. -/
theorem turn_of_expire? {log : Log} (hc : s.calls.find? id = some c)
    (h : s.expire? id = some (s', log)) : Turn s id c .expired s' := by
  unfold expire? at h
  simp only [hc] at h
  split at h
  · next claim task hstage =>
    split at h
    · next pool hawait =>
      cases h
      exact .expired hstage (by rw [hawait])
    · cases h
  · cases h

/-- **Every step of the system is a transition**, which shows what the step shows. -/
theorem transition_of_step? {a : Step V} (h : s.step? a = some s') :
    Transition s (s.event a) s' := by
  cases a with
  | call c =>
    cases h
    exact .called c
  | advance id =>
    obtain ⟨⟨_, log⟩, hadv, rfl⟩ := Option.map_eq_some_iff.mp h
    simp only [event]
    cases hc : s.calls.find? id with
    | none => simp only [advance?, hc, reduceCtorEq] at hadv
    | some c => exact .turned hc (turn_of_advance? hc hadv)
  | expire id =>
    obtain ⟨⟨_, log⟩, hexp, rfl⟩ := Option.map_eq_some_iff.mp h
    simp only [event]
    cases hc : s.calls.find? id with
    | none => simp only [expire?, hc, reduceCtorEq] at hexp
    | some c => exact .turned hc (turn_of_expire? hc hexp)
  | put key value =>
    cases value with
    | none =>
      cases h
      exact .rejected
    | some v =>
      cases h
      exact .put key v
  | get key =>
    cases h
    exact .got key
  | remove key =>
    simp only [step?, Bucket.remove, ShardedMap.remove] at h
    simp only [event]
    cases hfound : s.bucket.map.contains key with
    | true =>
      simp only [hfound, Option.some.injEq] at h
      subst h
      exact .removed hfound
    | false =>
      simp only [hfound, Option.some.injEq] at h
      subst h
      exact .notRemoved hfound
  | pool step =>
    simp only [step?] at h
    split at h
    · cases h
    · next hres =>
      obtain ⟨pool, hpool, rfl⟩ := Option.map_eq_some_iff.mp h
      exact .worked (Bool.eq_false_iff.mpr hres) hpool

/-! ## What the turns leave alone -/

/-- A turn changes its own call alone, which goes on to a stage of lower rank. -/
theorem Turn.calls_eq {a : Act V} (turn : Turn s id c a s') :
    ∃ stage, s'.calls = s.calls.put id { c with stage } ∧ s'.nextCall = s.nextCall ∧
      stage.rank < c.stage.rank := by
  cases turn with
  | present stage _ | absent stage _ | claim stage | lock stage _ | read stage _ | missing stage _
  | accepted stage _ | refused stage _ | gave stage _ | gaveNothing stage _ _ | failed stage _
  | expired stage _ | store stage | free stage _ | «return» stage _ =>
    exact ⟨_, rfl, rfl, by simp only [stage, UpdateStage.rank, Nat.reduceLT]⟩

/-- A call that took a turn is the call that it was, at another stage. -/
theorem Turn.find?_self {a : Act V} (turn : Turn s id c a s') {d : UpdateCall V}
    (hd : s'.calls.find? id = some d) : ∃ stage, d = { c with stage } := by
  obtain ⟨stage, hcalls, _, _⟩ := turn.calls_eq
  rw [hcalls, Assoc.find?_put, if_pos rfl] at hd
  cases hd
  exact ⟨stage, rfl⟩

/-- The other calls are what they were. -/
theorem Turn.find?_other {a : Act V} (turn : Turn s id c a s') {j : CallId} (hj : j ≠ id) :
    s'.calls.find? j = s.calls.find? j := by
  obtain ⟨stage, hcalls, _, _⟩ := turn.calls_eq
  rw [hcalls, Assoc.find?_put, if_neg hj]

/-! ## Runs -/

/-- **The system as a machine.** -/
def machine (V : Type) [Storable V] : Machine (BucketSystem V) (Step V) (Event V) where
  step? := step?
  event := event

/-- The system after a list of steps; `none` if one of them is not possible. -/
abbrev run? (s : BucketSystem V) (steps : List (Step V)) : Option (BucketSystem V) :=
  (machine V).run? s steps

/-- **The trace of a run**: what its steps show, in order. -/
abbrev trace (s : BucketSystem V) (steps : List (Step V)) : List (Event V) :=
  (machine V).trace s steps

/-- **Induction over runs**: what every transition keeps of the trace so far and the state, a run
keeps. -/
theorem run_induction {P : List (Event V) → BucketSystem V → Prop}
    (step : ∀ past s e s', P past s → Transition s e s' → P (past ++ [e]) s')
    {steps : List (Step V)} {t : BucketSystem V} (h : P [] s) (hrun : s.run? steps = some t) :
    P (s.trace steps) t :=
  Machine.run_induction
    (fun past s _ s' hpast hstep => step past s _ s' hpast (transition_of_step? hstep)) h hrun

end Steps

/-- **A system at rest**: a sound map without null values, no locks and no calls. Its pool may be in
any state. -/
structure AtRest (s : BucketSystem V) : Prop where
  map : s.bucket.map.Sound
  solid : ∀ key, s.bucket.map.slot? key ≠ some none
  entries : s.bucket.locks.entries = []
  claims : s.bucket.locks.claims = []
  calls : s.calls = []

/-- A new bucket with any pool is at rest. -/
theorem AtRest.created {name : Bytes} {hash : Bytes → Nat} {shards : Nat} {hasExecutor : Bool}
    {bucket : Bucket V} (pool : WorkerPool (Product V))
    (h : Bucket.create name hash shards hasExecutor = .ok bucket) : AtRest { bucket, pool } := by
  obtain ⟨map, hmap, rfl⟩ := Bucket.eq_of_create h
  obtain ⟨hsound, hnone⟩ := ShardedMap.Sound.create hmap
  refine ⟨hsound, fun key => ?_, rfl, rfl, rfl⟩
  rw [hnone key]
  exact fun heq => by cases heq

/-- An empty bucket of one shard with a pool of one worker, for runs on fixed steps. -/
def idle : BucketSystem Value where
  bucket := { name := [], map := { hash := fun _ => 0, shards := [[]] } }
  pool := { capacity := 1, workers := [.idle] }

theorem atRest_idle : AtRest idle := by
  have hcreate : Bucket.create [] (fun _ => 0) 1 true = .ok idle.bucket := rfl
  exact .created idle.pool hcreate

/-- The update of a key whose value gives another text when its gate is open. -/
def gatedCall : UpdateCall Value where
  key := [107]
  update := { functionName := [] }
  function := .replace
  timeout := 1000

end BucketSystem

end Keyspace
