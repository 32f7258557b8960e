import Keyspace.Proofs.LockOwnership
import Keyspace.Proofs.TaskOutcome
import Keyspace.Proofs.UpdateSteps

/-!
# What the calls of updates own

A call owns a claim from the moment it claims its key until it drops the claim, and the handle of a
task while it awaits it. `Held` ties the stages of the calls to the table of locks, `Handled` to the
tasks of the pool; both hold in every state that a run from rest reaches (`Sound.of_run`). Two calls
past their lock on one key are the same call (`Sound.alone`), which is what serializes updates.
-/

namespace Keyspace

variable {V : Type}

/-- The claim of a call at a stage, and where the claim stands. -/
def UpdateStage.claim? : UpdateStage V → Option (ClaimId × ClaimStage)
  | .checking => none
  | .claiming => none
  | .locking claim => some (claim, .waiting)
  | .reading claim => some (claim, .holding)
  | .submitting claim _ => some (claim, .holding)
  | .awaiting claim _ => some (claim, .holding)
  | .storing claim _ => some (claim, .holding)
  | .freeing claim _ => some (claim, .holding)
  | .dropping claim _ => some (claim, .releasing)
  | .done _ => none

/-- A call at the stage has locked its key and not given it free yet. -/
def UpdateStage.Locked (stage : UpdateStage V) : Prop :=
  ∃ claim, stage.claim? = some (claim, .holding)

/-- A call at the stage has read its key and may store what it makes of the value. -/
def UpdateStage.Carries : UpdateStage V → Prop
  | .submitting _ _ => True
  | .awaiting _ _ => True
  | .storing _ _ => True
  | _ => False

/-- A call that carries a value has locked its key. -/
theorem UpdateStage.Carries.locked {stage : UpdateStage V} (h : stage.Carries) : stage.Locked := by
  cases stage with
  | submitting claim _ => exact ⟨claim, rfl⟩
  | awaiting claim _ => exact ⟨claim, rfl⟩
  | storing claim _ => exact ⟨claim, rfl⟩
  | _ => exact absurd h id

/-- The task that a call at a stage awaits. -/
def UpdateStage.task? : UpdateStage V → Option TaskId
  | .awaiting _ task => some task
  | _ => none

/-- One for a call on the key that has a claim, nothing for any other. -/
def claimant (key : Bytes) (p : CallId × UpdateCall V) : Nat :=
  if p.2.key = key ∧ p.2.stage.claim?.isSome then 1 else 0

namespace BucketSystem

variable {s s' : BucketSystem V} {id : CallId} {c : UpdateCall V}

/-- **The claims in the table are the calls'**, each its own, on its key and at its stage. -/
structure Held (locks : KeyLocks) (calls : Assoc CallId (UpdateCall V)) (next : CallId) : Prop where
  sound : locks.Sound
  fresh : ∀ id, next ≤ id → calls.find? id = none
  claimed : ∀ id c claim stage, calls.find? id = some c → c.stage.claim? = some (claim, stage) →
    ∃ entry, locks.claims.find? claim = some ⟨c.key, entry, stage⟩
  distinct : ∀ i j c d claim st st', calls.find? i = some c → calls.find? j = some d →
    c.stage.claim? = some (claim, st) → d.stage.claim? = some (claim, st') → i = j
  owned : ∀ claim x, locks.claims.find? claim = some x →
    ∃ id c stage, calls.find? id = some c ∧ c.stage.claim? = some (claim, stage)
  counted : ∀ key, locks.claims.total (KeyLocks.onKey key) = calls.total (claimant key)

/-- **The awaited tasks are the calls'**, each its own, and nobody else has touched them. -/
structure Handled (pool : WorkerPool (Product V)) (calls : Assoc CallId (UpdateCall V)) : Prop where
  faithful : ∀ id c task, calls.find? id = some c → c.stage.task? = some task →
    ∃ t, pool.tasks[task]? = some t ∧ t.Faithful
  distinct : ∀ i j c d task, calls.find? i = some c → calls.find? j = some d →
    c.stage.task? = some task → d.stage.task? = some task → i = j

/-- **The system is sound.** -/
structure Sound (s : BucketSystem V) : Prop where
  map : s.bucket.map.Sound
  solid : ∀ key, s.bucket.map.slot? key ≠ some none
  held : Held s.bucket.locks s.calls s.nextCall
  handled : Handled s.pool s.calls

theorem AtRest.sound (h : AtRest s) : Sound s where
  map := h.map
  solid := h.solid
  held := by
    rw [h.calls, show s.bucket.locks = ⟨[], [], s.bucket.locks.nextEntry,
      s.bucket.locks.nextClaim⟩ by rw [← h.entries, ← h.claims]]
    exact ⟨.empty _ _, fun _ _ => rfl, fun _ _ _ _ h => (by cases h),
      fun _ _ _ _ _ _ _ h => (by cases h), fun _ _ h => (by cases h), fun _ => rfl⟩
  handled := by
    rw [h.calls]
    exact ⟨fun _ _ _ h => (by cases h), fun _ _ _ _ _ h => (by cases h)⟩

/-! ## Claims -/

section Held

variable {locks locks' : KeyLocks} {calls : Assoc CallId (UpdateCall V)} {next : CallId}

/-- **A call goes to another stage with one claim changed**, which is its own or none of the calls':
`k` is the claim, and `x?` what the table has under it afterwards. -/
structure ClaimChange (locks locks' : KeyLocks) (calls : Assoc CallId (UpdateCall V)) (id : CallId)
    (c : UpdateCall V) (stage : UpdateStage V) (k : ClaimId) (x? : Option Claim) : Prop where
  call : calls.find? id = some c
  sound : locks'.Sound
  find? : ∀ d, locks'.claims.find? d = if d = k then x? else locks.claims.find? d
  stands : stage.claim? = x?.map fun x => (k, x.stage)
  key : ∀ x ∈ x?, x.key = c.key
  before : ∀ d st, c.stage.claim? = some (d, st) → d = k
  alone : ∀ j d st, calls.find? j = some d → d.stage.claim? = some (k, st) → j = id
  count : ∀ key, locks'.claims.total (KeyLocks.onKey key) + claimant key (id, c) =
    locks.claims.total (KeyLocks.onKey key) + claimant key (id, { c with stage })

variable {stage : UpdateStage V} {k : ClaimId} {x? : Option Claim}

/-- The claim of the call that moved is the one that changed. -/
theorem ClaimChange.own (g : ClaimChange locks locks' calls id c stage k x?) {claim : ClaimId}
    {st : ClaimStage} (hclaim : stage.claim? = some (claim, st)) :
    claim = k ∧ ∃ x, x? = some x ∧ x.stage = st := by
  obtain ⟨x, hx, heq⟩ := Option.map_eq_some_iff.mp (g.stands.symm.trans hclaim)
  cases heq
  exact ⟨rfl, x, hx, rfl⟩

theorem ClaimChange.claimed (g : ClaimChange locks locks' calls id c stage k x?)
    (h : Held locks calls next) {j : CallId} {d : UpdateCall V} {claim : ClaimId} {st : ClaimStage}
    (hd : (calls.put id { c with stage }).find? j = some d)
    (hclaim : d.stage.claim? = some (claim, st)) :
    ∃ entry, locks'.claims.find? claim = some ⟨d.key, entry, st⟩ := by
  rw [Assoc.find?_put] at hd
  rw [g.find?]
  split at hd
  · cases hd
    obtain ⟨rfl, x, hx, rfl⟩ := g.own hclaim
    exact ⟨x.entry, by rw [if_pos rfl, hx, ← g.key x hx]⟩
  · next hj =>
    have hk : claim ≠ k := fun hk => hj (g.alone j d st hd (hk ▸ hclaim))
    rw [if_neg hk]
    exact h.claimed j d claim st hd hclaim

theorem ClaimChange.distinct (g : ClaimChange locks locks' calls id c stage k x?)
    (h : Held locks calls next) {i j : CallId} {d e : UpdateCall V} {claim : ClaimId}
    {st st' : ClaimStage} (hd : (calls.put id { c with stage }).find? i = some d)
    (he : (calls.put id { c with stage }).find? j = some e)
    (hclaim : d.stage.claim? = some (claim, st)) (hclaim' : e.stage.claim? = some (claim, st')) :
    i = j := by
  rw [Assoc.find?_put] at hd he
  split at hd
  · next hi =>
    cases hd
    obtain ⟨rfl, -⟩ := g.own hclaim
    split at he
    · next hj => exact hi.trans hj.symm
    · exact hi.trans (g.alone j e st' he hclaim').symm
  · split at he
    · next hj =>
      cases he
      obtain ⟨rfl, -⟩ := g.own hclaim'
      exact (g.alone i d st hd hclaim).trans hj.symm
    · exact h.distinct i j d e claim st st' hd he hclaim hclaim'

theorem ClaimChange.owned (g : ClaimChange locks locks' calls id c stage k x?)
    (h : Held locks calls next) {claim : ClaimId} {x : Claim}
    (hx : locks'.claims.find? claim = some x) :
    ∃ j d st, (calls.put id { c with stage }).find? j = some d ∧
      d.stage.claim? = some (claim, st) := by
  rw [g.find?] at hx
  split at hx
  · next hk =>
    refine ⟨id, { c with stage }, x.stage, (Assoc.find?_put ..).trans (if_pos rfl), ?_⟩
    rw [hk, g.stands, hx, Option.map_some]
  · next hk =>
    obtain ⟨j, d, st, hd, hclaim⟩ := h.owned claim x hx
    have hj : j ≠ id := by
      rintro rfl
      rw [g.call] at hd
      cases hd
      exact hk (g.before claim st hclaim)
    exact ⟨j, d, st, (Assoc.find?_put ..).trans ((if_neg hj).trans hd), hclaim⟩

/-- **A change of one claim leaves the claims the calls'.** -/
theorem Held.change (h : Held locks calls next)
    (g : ClaimChange locks locks' calls id c stage k x?) :
    Held locks' (calls.put id { c with stage }) next where
  sound := g.sound
  fresh j hj := by
    have hjid : j ≠ id := by
      rintro rfl
      cases (h.fresh j hj).symm.trans g.call
    rw [Assoc.find?_put, if_neg hjid]
    exact h.fresh j hj
  claimed _ _ _ _ := g.claimed h
  distinct _ _ _ _ _ _ _ := g.distinct h
  owned _ _ := g.owned h
  counted key := by
    have hput := Assoc.total_put_old g.call { c with stage } (claimant key)
    have hold := h.counted key
    have hnew := g.count key
    omega

/-- No call has the claim that comes next. -/
theorem Held.unclaimed (h : Held locks calls next) {j : CallId} {d : UpdateCall V}
    {st : ClaimStage} (hd : calls.find? j = some d) :
    d.stage.claim? ≠ some (locks.nextClaim, st) := by
  intro hclaim
  obtain ⟨entry, hentry⟩ := h.claimed j d _ st hd hclaim
  cases (h.sound.fresh locks.nextClaim (Nat.le_refl _)).symm.trans hentry

/-- A call that goes to another stage with its claim as it is leaves the claims the calls'. -/
theorem Held.move (h : Held locks calls next) (hc : calls.find? id = some c)
    (hstage : stage.claim? = c.stage.claim?) : Held locks (calls.put id { c with stage }) next := by
  have hcount : ∀ key, locks.claims.total (KeyLocks.onKey key) + claimant key (id, c) =
      locks.claims.total (KeyLocks.onKey key) + claimant key (id, { c with stage }) := by
    intro key
    simp only [claimant, hstage]
  -- nothing changes under the claim of the call, or under the next one if it has none
  have hsame : ∀ k d, locks.claims.find? d =
      if d = k then locks.claims.find? k else locks.claims.find? d := by
    intro k d
    split
    · next hd => rw [hd]
    · rfl
  cases hclaim : c.stage.claim? with
  | none =>
    have hnone := h.sound.fresh locks.nextClaim (Nat.le_refl _)
    exact h.change {
      call := hc
      sound := h.sound
      find? := hsame locks.nextClaim
      stands := by rw [hstage, hclaim, hnone, Option.map_none]
      key x hx := by
        rw [hnone] at hx
        cases hx
      before d st hd := by cases hclaim.symm.trans hd
      alone j d st hd hk := absurd hk (h.unclaimed hd)
      count := hcount }
  | some p =>
    obtain ⟨claim, st⟩ := p
    obtain ⟨entry, hentry⟩ := h.claimed id c claim st hc hclaim
    exact h.change {
      call := hc
      sound := h.sound
      find? := hsame claim
      stands := by rw [hstage, hclaim, hentry, Option.map_some]
      key x hx := by
        cases hentry.symm.trans hx
        rfl
      before d st' hd := by
        cases hclaim.symm.trans hd
        rfl
      alone j d st' hd hk := h.distinct j id d c claim st' st hd hc hk hclaim
      count := hcount }

/-- A new call owns nothing. -/
theorem Held.call (h : Held locks calls next) (c : UpdateCall V) :
    Held locks (calls.put next { c with stage := .checking }) (next + 1) where
  sound := h.sound
  fresh j hj := by
    rw [Assoc.find?_put, if_neg (Nat.ne_of_gt hj)]
    exact h.fresh j (Nat.le_of_succ_le hj)
  claimed j d claim st hd hclaim := by
    rw [Assoc.find?_put] at hd
    split at hd
    · cases hd
      cases hclaim
    · exact h.claimed j d claim st hd hclaim
  distinct i j d e claim st st' hd he hclaim hclaim' := by
    rw [Assoc.find?_put] at hd he
    split at hd
    · cases hd
      cases hclaim
    · split at he
      · cases he
        cases hclaim'
      · exact h.distinct i j d e claim st st' hd he hclaim hclaim'
  owned claim x hx := by
    obtain ⟨j, d, st, hd, hclaim⟩ := h.owned claim x hx
    refine ⟨j, d, st, ?_, hclaim⟩
    rw [Assoc.find?_put, if_neg fun hj => ?_, hd]
    rw [hj, h.fresh next (Nat.le_refl _)] at hd
    cases hd
  counted key := by
    rw [Assoc.total_put_new (h.fresh next (Nat.le_refl _)), h.counted key]
    simp only [claimant, UpdateStage.claim?, Option.isSome_none, Bool.false_eq_true, and_false,
      if_false, Nat.add_zero]

/-- A call makes its claim. -/
theorem Held.claim (h : Held locks calls next) (hc : calls.find? id = some c)
    (hnone : c.stage.claim? = none) : Held (locks.claim c.key).1
      (calls.put id { c with stage := .locking (locks.claim c.key).2 }) next :=
  h.change {
    call := hc
    sound := h.sound.claim c.key
    find? := locks.find?_claim c.key
    stands := rfl
    key x hx := by
      cases hx
      rfl
    before d st hd := by cases hnone.symm.trans hd
    alone j d st hd hk := absurd hk (h.unclaimed hd)
    count key := by
      have hnew := h.sound.fresh locks.nextClaim (Nat.le_refl _)
      rw [show (locks.claim c.key).1.claims = locks.claims.put locks.nextClaim _ from rfl,
        Assoc.total_put_new hnew]
      have hzero : claimant key (id, c) = 0 := by
        simp only [claimant, hnone, Option.isSome_none, Bool.false_eq_true, and_false, if_false]
      rw [hzero]
      simp only [KeyLocks.onKey, claimant, UpdateStage.claim?, Option.isSome_some, and_true,
        Nat.add_zero] }

/-- A call that takes a step with its own claim: the table has the claim at another stage, or not any
more, and every other claim as it was. -/
theorem Held.own (h : Held locks calls next) (hc : calls.find? id = some c) {k : ClaimId}
    {x : Claim} {st : ClaimStage} (hclaim : c.stage.claim? = some (k, st))
    (hx : locks.claims.find? k = some x) (hlocks : locks'.Sound) (stage' : Option ClaimStage)
    {stage : UpdateStage V}
    (hfind : ∀ d, locks'.claims.find? d =
      if d = k then stage'.map fun st => { x with stage := st } else locks.claims.find? d)
    (hstage : stage.claim? = stage'.map fun st => (k, st))
    (htotal : ∀ weight, locks'.claims.total weight + weight (k, x) = locks.claims.total weight +
      (stage'.elim 0 fun st => weight (k, { x with stage := st }))) :
    Held locks' (calls.put id { c with stage }) next := by
  have hkey : x.key = c.key := by
    obtain ⟨entry, hentry⟩ := h.claimed id c k st hc hclaim
    cases hx.symm.trans hentry
    rfl
  exact h.change {
    call := hc
    sound := hlocks
    find? := hfind
    stands := by
      rw [hstage]
      cases stage' <;> rfl
    key y hy := by
      obtain ⟨st', _, rfl⟩ := Option.map_eq_some_iff.mp hy
      exact hkey
    before d st' hd := by
      cases hclaim.symm.trans hd
      rfl
    alone j d st' hd hk := h.distinct j id d c k st' st hd hc hk hclaim
    count key := by
      have hsum := htotal (KeyLocks.onKey key)
      cases stage' with
      | none =>
        simp only [KeyLocks.onKey, hkey, Option.elim_none, claimant, hclaim, hstage,
          Option.map_none, Option.isSome_some, Option.isSome_none, and_true, Bool.false_eq_true,
          and_false, if_false] at hsum ⊢
        exact hsum
      | some st' =>
        simp only [KeyLocks.onKey, hkey, Option.elim_some, claimant, hclaim, hstage,
          Option.map_some, Option.isSome_some, and_true] at hsum ⊢
        exact hsum }

end Held

/-! ## Handles -/

section Handled

variable {pool pool' : WorkerPool (Product V)} {calls : Assoc CallId (UpdateCall V)}

/-- A call that goes to a stage where it awaits nothing leaves the handles the calls', when the pool
keeps the tasks of the others. -/
theorem Handled.change (h : Handled pool calls) {stage : UpdateStage V} (hstage : stage.task? = none)
    (hkeeps : ∀ j d task, j ≠ id → calls.find? j = some d → d.stage.task? = some task →
      pool.Keeps pool' task) : Handled pool' (calls.put id { c with stage }) where
  faithful j d task hd htask := by
    rw [Assoc.find?_put] at hd
    split at hd
    · cases hd
      rw [hstage] at htask
      cases htask
    · next hjid =>
      obtain ⟨t, ht, hf⟩ := h.faithful j d task hd htask
      obtain ⟨t', ht', _, hf'⟩ := hkeeps j d task hjid hd htask t ht hf
      exact ⟨t', ht', hf'⟩
  distinct i j d e task hd he htask htask' := by
    rw [Assoc.find?_put] at hd he
    split at hd
    · cases hd
      rw [hstage] at htask
      cases htask
    · split at he
      · cases he
        rw [hstage] at htask'
        cases htask'
      · exact h.distinct i j d e task hd he htask htask'

/-- A call that awaits the task that it just submitted has a handle of its own. -/
theorem Handled.submit (h : Handled pool calls) {work : Work (Product V)} {claim : ClaimId}
    {task : TaskId} (hsubmit : pool.submit work = .ok (pool', task)) :
    Handled pool' (calls.put id { c with stage := .awaiting claim task }) := by
  obtain ⟨rfl, htasks⟩ := WorkerPool.submit_eq_ok hsubmit
  have hnew : pool'.tasks[pool.tasks.length]? = some { work := work } := by
    rw [htasks, List.getElem?_concat_length]
  have hold : ∀ j d task, calls.find? j = some d → d.stage.task? = some task →
      task ≠ pool.tasks.length := by
    intro j d task hd htask heq
    obtain ⟨t, ht, _⟩ := h.faithful j d task hd htask
    rw [heq, List.getElem?_eq_none (Nat.le_refl _)] at ht
    cases ht
  refine ⟨?_, ?_⟩
  · intro j d task hd htask
    rw [Assoc.find?_put] at hd
    split at hd
    · cases hd
      cases htask
      exact ⟨_, hnew, rfl, rfl, fun o ho => by cases ho⟩
    · obtain ⟨t, ht, hf⟩ := h.faithful j d task hd htask
      obtain ⟨t', ht', _, hf'⟩ := WorkerPool.Keeps.of_submit hsubmit t ht hf
      exact ⟨t', ht', hf'⟩
  · intro i j d e task hd he htask htask'
    rw [Assoc.find?_put] at hd he
    split at hd
    · next hi =>
      cases hd
      cases htask
      split at he
      · next hj => exact hi.trans hj.symm
      · exact absurd rfl (hold j e _ he htask')
    · split at he
      · cases he
        cases htask'
        exact absurd rfl (hold i d _ hd htask)
      · exact h.distinct i j d e task hd he htask htask'

/-- The await of a call, and what else it does to its own task, keeps the tasks of the others. -/
theorem Handled.keeps_own (h : Handled pool calls) (hc : calls.find? id = some c) {task : TaskId}
    (htask : c.stage.task? = some task) {j : CallId} {d : UpdateCall V} {task' : TaskId}
    (hjid : j ≠ id) (hd : calls.find? j = some d) (htask' : d.stage.task? = some task') :
    pool.Keeps (pool.await task).2 task' ∧ pool.Keeps (pool.cancel task) task' ∧
      pool.Keeps ((pool.await task).2.cancel task) task' := by
  have hne : task ≠ task' := fun heq => hjid (h.distinct j id d c task hd hc (heq ▸ htask') htask)
  refine ⟨.of_await_ne hne, .of_change_ne rfl hne, ?_⟩
  intro t ht hf
  obtain ⟨t', ht', hwork, hf'⟩ := WorkerPool.Keeps.of_await_ne hne t ht hf
  have hcancel : (pool.await task).2.Keeps ((pool.await task).2.cancel task) task' :=
    .of_change_ne rfl hne
  obtain ⟨t'', ht'', hwork', hf''⟩ := hcancel t' ht' hf'
  exact ⟨t'', ht'', hwork'.trans hwork, hf''⟩

end Handled

/-- A step of the pool that needs no handle of a call keeps the tasks of the calls. -/
theorem keeps_of_unreserved {step : WorkerPool.Step (Product V)} {pool : WorkerPool (Product V)}
    (hres : s.reserved step = false) (hstep : s.pool.step? step = some pool)
    (hc : s.calls.find? id = some c) {task : TaskId} (htask : c.stage.task? = some task) :
    s.pool.Keeps pool task := by
  have hawaits : s.awaits task = true := by
    refine List.any_eq_true.mpr ⟨(id, c), Assoc.mem_of_find? hc, ?_⟩
    cases hstage : c.stage with
    | awaiting claim t =>
      rw [hstage] at htask
      cases htask
      simp only [hstage, decide_true]
    | _ =>
      rw [hstage] at htask
      cases htask
  refine WorkerPool.keeps_of_step? hstep ?_ ?_
  · rintro rfl
    cases hres.symm.trans hawaits
  · rintro rfl
    cases hres.symm.trans hawaits

/-! ## Mutual exclusion -/

/-- **Two calls that have locked one key are the same call.** -/
theorem Sound.alone (h : Sound s) {i j : CallId} {c d : UpdateCall V}
    (hc : s.calls.find? i = some c) (hd : s.calls.find? j = some d) (hkey : c.key = d.key)
    (hci : c.stage.Locked) (hdj : d.stage.Locked) : i = j := by
  obtain ⟨k, hk⟩ := hci
  obtain ⟨l, hl⟩ := hdj
  obtain ⟨x, hx⟩ := h.held.claimed i c k .holding hc hk
  obtain ⟨y, hy⟩ := h.held.claimed j d l .holding hd hl
  have heq : k = l := h.held.sound.holding_unique hx hy rfl rfl hkey
  subst heq
  exact h.held.distinct i j c d k _ _ hc hd hk hl

/-- A key that no call claims has no entry in the table of locks. -/
theorem Sound.entry_eq_none (h : Sound s) {key : Bytes}
    (hnone : ∀ id c, s.calls.find? id = some c → c.key = key → c.stage.claim? = none) :
    s.bucket.locks.entries.find? key = none := by
  apply h.held.sound.entry_of_total
  apply Assoc.total_eq_zero
  intro p hp
  obtain ⟨claim, x⟩ := p
  have hx := Assoc.find?_of_mem h.held.sound.distinct hp
  obtain ⟨id, c, stage, hc, hclaim⟩ := h.held.owned claim x hx
  obtain ⟨entry, hentry⟩ := h.held.claimed id c claim stage hc hclaim
  rw [hx] at hentry
  cases hentry
  apply if_neg
  intro hkey
  rw [hnone id c hc hkey] at hclaim
  cases hclaim

/-- While a call that carries nothing is past its lock, nobody carries a value of its key. -/
theorem Sound.not_carries (h : Sound s) {j : CallId} {d : UpdateCall V}
    (hc : s.calls.find? id = some c) (hlocked : c.stage.Locked) (hfree : ¬ c.stage.Carries)
    (hd : s.calls.find? j = some d) (hkey : d.key = c.key) : ¬ d.stage.Carries := by
  intro hcarries
  have hj : j = id := h.alone hd hc hkey hcarries.locked hlocked
  subst hj
  rw [hc] at hd
  cases hd
  exact hfree hcarries

/-! ## Soundness of runs -/

theorem Sound.withPool (h : Sound s) {pool : WorkerPool (Product V)} (hp : Handled pool s.calls) :
    Sound { s with pool } :=
  ⟨h.map, h.solid, h.held, hp⟩

/-- The map with a value for a key has no null value if it had none. -/
theorem solid_put {m : ShardedMap V} (hm : m.Sound) (hsolid : ∀ j, m.slot? j ≠ some none)
    (key : Bytes) (v : V) (j : Bytes) : (m.put key (some v)).slot? j ≠ some none := by
  rw [hm.slot?_put]
  split
  · exact fun h => by cases h
  · exact hsolid j

theorem solid_remove {m : ShardedMap V} (hm : m.Sound) (hsolid : ∀ j, m.slot? j ≠ some none)
    (key j : Bytes) : (m.remove key).2.slot? j ≠ some none := by
  rw [hm.slot?_remove]
  split
  · exact fun h => by cases h
  · exact hsolid j

/-- A call that moves without touching the pool keeps the handles. -/
theorem Handled.move {pool : WorkerPool (Product V)} {calls : Assoc CallId (UpdateCall V)}
    (h : Handled pool calls) {stage : UpdateStage V} (hstage : stage.task? = none) :
    Handled pool (calls.put id { c with stage }) :=
  h.change hstage fun _ _ _ _ _ _ => .of_tasks_eq rfl

variable [Storable V]

/-- **A turn of a call keeps the claims the calls'.** -/
theorem Held.turn {a : Act V} (h : Held s.bucket.locks s.calls s.nextCall)
    (hc : s.calls.find? id = some c) (turn : Turn s id c a s') :
    Held s'.bucket.locks s'.calls s'.nextCall := by
  cases turn with
  | present stage _ | absent stage _ | read stage _ | missing stage _ | accepted stage _
  | refused stage _ | gave stage _ | gaveNothing stage _ _ | failed stage _ | expired stage _
  | store stage => exact h.move hc (by rw [stage]; rfl)
  | claim stage => exact h.claim hc (by rw [stage]; rfl)
  | @lock claim locks stage acquired =>
    obtain ⟨x, e, hat, _, rfl⟩ := KeyLocks.acquire?_eq_some acquired
    obtain ⟨hx, _, _, _⟩ := KeyLocks.at?_eq_some hat
    exact h.own hc (by rw [stage]; rfl) hx (h.sound.acquire acquired) (some .holding)
      (s.bucket.locks.find?_acquired claim · x e) rfl (Assoc.total_put_old hx _)
  | @free claim result locks stage freed =>
    obtain ⟨x, e, hat, rfl⟩ := KeyLocks.free?_eq_some freed
    obtain ⟨hx, _, _, _⟩ := KeyLocks.at?_eq_some hat
    exact h.own hc (by rw [stage]; rfl) hx (h.sound.free freed) (some .releasing)
      (s.bucket.locks.find?_freed claim · x e) rfl (Assoc.total_put_old hx _)
  | @«return» claim result locks stage dropped =>
    obtain ⟨x, e, hat, rfl⟩ := KeyLocks.drop?_eq_some dropped
    obtain ⟨hx, _, _, _⟩ := KeyLocks.at?_eq_some hat
    exact h.own hc (by rw [stage]; rfl) hx (h.sound.drop dropped) none
      (s.bucket.locks.find?_dropped claim · x e) rfl (Assoc.total_erase h.sound.distinct hx)

/-- **A turn of a call keeps the tasks that the other calls await.** -/
theorem Handled.keeps_turn {a : Act V} (h : Handled s.pool s.calls) (hc : s.calls.find? id = some c)
    (turn : Turn s id c a s') {j : CallId} {d : UpdateCall V} {task' : TaskId} (hjid : j ≠ id)
    (hd : s.calls.find? j = some d) (htask' : d.stage.task? = some task') :
    s.pool.Keeps s'.pool task' := by
  cases turn with
  | accepted _ accepted => exact .of_submit accepted
  | @gave claim task w pool stage result =>
    have htask : c.stage.task? = some task := by rw [stage]; rfl
    have hown := h.keeps_own hc htask hjid hd htask'
    rw [result] at hown
    exact hown.1
  | @gaveNothing claim task p pool stage result _ =>
    have htask : c.stage.task? = some task := by rw [stage]; rfl
    have hown := h.keeps_own hc htask hjid hd htask'
    rw [result] at hown
    exact hown.2.2
  | @failed claim task f pool stage result =>
    have htask : c.stage.task? = some task := by rw [stage]; rfl
    have hown := h.keeps_own hc htask hjid hd htask'
    rw [result] at hown
    exact hown.2.2
  | expired stage _ => exact (h.keeps_own hc (by rw [stage]; rfl) hjid hd htask').2.1
  | _ => exact .of_tasks_eq rfl

/-- **A turn of a call keeps the handles the calls'.** -/
theorem Handled.turn {a : Act V} (h : Handled s.pool s.calls) (hc : s.calls.find? id = some c)
    (turn : Turn s id c a s') : Handled s'.pool s'.calls := by
  have hkeeps : ∀ j d task, j ≠ id → s.calls.find? j = some d → d.stage.task? = some task →
      s.pool.Keeps s'.pool task :=
    fun j d task hjid hd htask => h.keeps_turn hc turn hjid hd htask
  cases turn with
  | accepted _ accepted => exact h.submit accepted
  | _ => exact h.change rfl hkeeps

/-- **A transition keeps the system sound.** -/
theorem Sound.step {e : Event V} (h : Sound s) (htrans : Transition s e s') : Sound s' := by
  cases htrans with
  | called c =>
    refine ⟨h.map, h.solid, h.held.call c, h.handled.move rfl⟩
  | @turned id c a s' hc turn =>
    refine ⟨?_, ?_, h.held.turn hc turn, h.handled.turn hc turn⟩
    · cases turn with
      | store _ => exact h.map.put _ _
      | _ => exact h.map
    · cases turn with
      | store _ => exact solid_put h.map h.solid _ _
      | _ => exact h.solid
  | put key value => exact ⟨h.map.put _ _, solid_put h.map h.solid _ _, h.held, h.handled⟩
  | rejected => exact h
  | got key => exact h
  | removed _ => exact ⟨h.map.remove _, solid_remove h.map h.solid _, h.held, h.handled⟩
  | notRemoved _ => exact h
  | @worked step pool hres hstep =>
    refine h.withPool ⟨?_, h.handled.distinct⟩
    intro j d task hd htask
    obtain ⟨t, ht, hf⟩ := h.handled.faithful j d task hd htask
    obtain ⟨t', ht', _, hf'⟩ := keeps_of_unreserved hres hstep hd htask t ht hf
    exact ⟨t', ht', hf'⟩

/-- **Induction over the runs of a sound system**, which is sound in each of their states. -/
theorem Sound.run_induction (h : Sound s) {P : List (Event V) → BucketSystem V → Prop} (start : P [] s)
    (step : ∀ past u e u', Sound u → P past u → Transition u e u' → P (past ++ [e]) u')
    {steps : List (Step V)} {t : BucketSystem V} (hrun : s.run? steps = some t) :
    Sound t ∧ P (s.trace steps) t := by
  refine BucketSystem.run_induction (P := fun past u => Sound u ∧ P past u) ?_ ⟨h, start⟩ hrun
  intro past u e u' hpast htrans
  obtain ⟨hu, hP⟩ := hpast
  exact ⟨hu.step htrans, step past u e u' hu hP htrans⟩

/-- **Every state that a run from a sound one reaches is sound.** -/
theorem Sound.of_run (h : Sound s) {steps : List (Step V)} {t : BucketSystem V}
    (hrun : s.run? steps = some t) : Sound t :=
  (h.run_induction (P := fun _ _ => True) trivial (fun _ _ _ _ _ _ _ => trivial) hrun).1

/-! ## The calls of a step -/

/-- **A call stays the call that it is**, at whatever stage. -/
theorem Transition.find?_eq_some {e : Event V} (h : Sound s) (htrans : Transition s e s')
    (hc : s.calls.find? id = some c) : ∃ stage, s'.calls.find? id = some { c with stage } := by
  cases htrans with
  | called d =>
    refine ⟨c.stage, ?_⟩
    rw [find?_call, if_neg fun hid => ?_, hc]
    rw [hid, h.held.fresh _ (Nat.le_refl _)] at hc
    cases hc
  | @turned j d a s' hd turn =>
    by_cases hid : id = j
    · subst hid
      rw [hc] at hd
      cases hd
      obtain ⟨stage, hcalls, _, _⟩ := turn.calls_eq
      exact ⟨stage, by rw [hcalls, Assoc.find?_put, if_pos rfl]⟩
    · exact ⟨c.stage, by rw [turn.find?_other hid, hc]⟩
  | _ => exact ⟨c.stage, hc⟩

/-- **The calls after a step** are those before it, and the one that it starts. -/
theorem Transition.of_find? {e : Event V} {d : UpdateCall V} (htrans : Transition s e s')
    (hd : s'.calls.find? id = some d) :
    (∃ c stage, s.calls.find? id = some c ∧ d = { c with stage }) ∨
      ∃ c, e = .called id c ∧ d = { c with stage := .checking } := by
  cases htrans with
  | called c =>
    rw [find?_call] at hd
    split at hd
    · next hid =>
      cases hd
      exact .inr ⟨c, by rw [hid], rfl⟩
    · exact .inl ⟨d, d.stage, hd, rfl⟩
  | @turned j c a s' hc turn =>
    by_cases hid : id = j
    · subst hid
      obtain ⟨stage, hstage⟩ := turn.find?_self hd
      exact .inl ⟨c, stage, hc, hstage⟩
    · rw [turn.find?_other hid] at hd
      exact .inl ⟨d, d.stage, hd, rfl⟩
  | _ => exact .inl ⟨d, d.stage, hd, rfl⟩

/-! ## The calls past their lock -/

/-- A call is past its lock because it just took it or because it was before. -/
theorem Turn.locked {a : Act V} {d : UpdateCall V} (turn : Turn s id c a s')
    (hd : s'.calls.find? id = some d) (hlocked : d.stage.Locked) :
    a = .locked ∨ c.stage.Locked := by
  obtain ⟨k, hk⟩ := hlocked
  cases turn with
  | lock _ _ => exact .inl rfl
  | present _ _ | absent _ _ | claim _ | free _ _ | «return» _ _ =>
    rw [find?_move, if_pos rfl] at hd
    cases hd
    cases hk
  | read stage _ | missing stage _ | accepted stage _ | refused stage _ | gave stage _
  | gaveNothing stage _ _ | failed stage _ | expired stage _ | store stage =>
    exact .inr ⟨_, by rw [stage]; rfl⟩

/-- A call carries a value because it just read it or because it did before. -/
theorem Turn.carries {a : Act V} {d : UpdateCall V} (turn : Turn s id c a s')
    (hd : s'.calls.find? id = some d) (hcarries : d.stage.Carries) :
    (∃ v, a = .read (some v) ∧ s.value? c.key = some v) ∨
      (c.stage.Carries ∧ ∀ r, a ≠ .read r) := by
  cases turn with
  | @read claim v _ found => exact .inl ⟨v, rfl, found⟩
  | accepted stage _ | gave stage _ =>
    exact .inr ⟨by rw [stage]; trivial, fun _ h => (by cases h)⟩
  | _ =>
    rw [find?_move, if_pos rfl] at hd
    cases hd
    exact hcarries.elim

/-- **After a step the calls past their lock** are the one that just took it, and those that were. -/
theorem Transition.locked {e : Event V} {d : UpdateCall V} (htrans : Transition s e s')
    (hd : s'.calls.find? id = some d) (hlocked : d.stage.Locked) :
    e = .act id d.key .locked ∨
      ∃ c, s.calls.find? id = some c ∧ c.key = d.key ∧ c.stage.Locked := by
  cases htrans with
  | called c =>
    rw [find?_call] at hd
    split at hd
    · cases hd
      obtain ⟨_, hclaim⟩ := hlocked
      cases hclaim
    · exact .inr ⟨d, hd, rfl, hlocked⟩
  | @turned j c a s' hc turn =>
    by_cases hj : id = j
    · subst hj
      obtain ⟨stage, rfl⟩ := turn.find?_self hd
      rcases turn.locked hd hlocked with rfl | hbefore
      · exact .inl rfl
      · exact .inr ⟨c, hc, rfl, hbefore⟩
    · rw [turn.find?_other hj] at hd
      exact .inr ⟨d, hd, rfl, hlocked⟩
  | _ => exact .inr ⟨d, hd, rfl, hlocked⟩

/-- **After a step the calls that carry a value** are the one that just read it, and those that did. -/
theorem Transition.carries {e : Event V} {d : UpdateCall V} (htrans : Transition s e s')
    (hd : s'.calls.find? id = some d) (hcarries : d.stage.Carries) :
    (∃ v, e = .act id d.key (.read (some v)) ∧ s.value? d.key = some v) ∨
      ((∃ c, s.calls.find? id = some c ∧ c.key = d.key ∧ c.stage.Carries) ∧
        ∀ key r, e ≠ .act id key (.read r)) := by
  cases htrans with
  | called c =>
    rw [find?_call] at hd
    split at hd
    · cases hd
      exact hcarries.elim
    · exact .inr ⟨⟨d, hd, rfl, hcarries⟩, fun _ _ heq => (by cases heq)⟩
  | @turned j c a s' hc turn =>
    by_cases hj : id = j
    · subst hj
      obtain ⟨stage, rfl⟩ := turn.find?_self hd
      rcases turn.carries hd hcarries with ⟨v, rfl, hvalue⟩ | ⟨hbefore, hread⟩
      · exact .inl ⟨v, rfl, hvalue⟩
      · refine .inr ⟨⟨c, hc, rfl, hbefore⟩, ?_⟩
        intro key r heq
        cases heq
        exact hread r rfl
    · rw [turn.find?_other hj] at hd
      refine .inr ⟨⟨d, hd, rfl, hcarries⟩, ?_⟩
      intro key r heq
      cases heq
      exact hj rfl
  | _ => exact .inr ⟨⟨d, hd, rfl, hcarries⟩, fun _ _ heq => (by cases heq)⟩

/-- A call that stores carried its value before, and is past its lock still. -/
theorem Transition.stored {key : Bytes} {w : V}
    (htrans : Transition s (.act id key (.stored w)) s') :
    (∃ c, s.calls.find? id = some c ∧ c.key = key ∧ c.stage.Carries) ∧
      ∃ d, s'.calls.find? id = some d ∧ d.key = key ∧ d.stage.Locked ∧ ¬ d.stage.Carries := by
  cases htrans with
  | @turned _ c _ _ hc turn =>
    cases turn with
    | @store claim _ stage =>
      refine ⟨⟨c, hc, rfl, by rw [stage]; trivial⟩, _, (find?_move ..).trans (if_pos rfl), rfl, ?_⟩
      exact ⟨⟨claim, rfl⟩, fun hcarries => hcarries⟩

end BucketSystem

end Keyspace
