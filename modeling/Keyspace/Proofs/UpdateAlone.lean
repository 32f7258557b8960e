import Keyspace.BucketSession
import Keyspace.Proofs.MapAccess
import Keyspace.Proofs.TaskOutcome

/-!
# Updates without company

The course of an update that is the only call of its bucket, with a pool that has nothing else to
do: each state of the session leads to the next (`Solo.Leads`), and there are three ways in which it
ends, when the evaluation waits for nothing and gives a value or fails: `update_of_absent`,
`update_of_gave` and `update_of_failed`. Each of them leaves locks and pool as idle as it found them,
so that the next update finds the same conditions.

A session goes on by itself until nothing can, and only then does time pass. The course here ends by
itself, so no deadline plays a part in it.
-/

namespace Keyspace

variable {V : Type}

/-- A body that waits for nothing gives its own outcome. -/
theorem Work.finish?_of_nothing {α : Type} {w : Work α} (h : w.waits = .nothing)
    (isOpen : Gate → Bool) : w.finish? isOpen false = some w.outcome := by
  have hfree : w.isFree isOpen = true := by rw [isFree, h]
  rw [finish?, if_pos hfree]
  cases w.outcome <;> simp

namespace WorkerPool

variable {α : Type} {p : WorkerPool α}

/-- **A pool at rest**: it takes tasks, none of them waits, and its workers are idle. -/
structure Rested (p : WorkerPool α) : Prop where
  running : p.stopping = false
  room : 0 < p.capacity
  queue : p.queue = []
  staffed : p.workers ≠ []
  idle : ∀ w ∈ p.workers, w = .idle

theorem Rested.create {workers capacity : Nat} (h : create workers capacity = .ok p) :
    p.Rested := by
  have hstaffed := workers_ne_nil_of_create h
  obtain ⟨-, hcapacity, rfl⟩ := create_eq_ok_iff.mp h
  exact ⟨rfl, Nat.pos_of_ne_zero hcapacity, rfl, hstaffed, fun w hw => (List.mem_replicate.mp hw).2⟩

/-- In a pool at rest no worker has anything to do. -/
theorem Rested.advance? (h : p.Rested) : p.advance? = none := by
  refine List.findSome?_eq_none_iff.mpr fun worker hworker => ?_
  have hidle : p.workers[worker]? = some .idle := by
    have hlt := List.mem_range.mp hworker
    rw [List.getElem?_eq_getElem hlt, h.idle _ (List.getElem_mem hlt)]
  simp [workerStep?, take?, begin?, finish?, leave?, hidle, h.queue, h.running]

/-- The first worker comes first. -/
theorem advance?_of_first {p' : WorkerPool α} {w : Worker} {others : List Worker}
    (hw : p.workers = w :: others) (h : p.workerStep? 0 = some p') : p.advance? = some p' := by
  rw [WorkerPool.advance?, hw, List.length_cons, List.range_succ_eq_map, List.findSome?_cons, h]

/-! ## One task -/

section Serving

variable {others : List Worker} {begun : List TaskId} {work : Work α}

/-- The pool that has one task more, its first worker at work on it. -/
def serving (p : WorkerPool α) (others : List Worker) (worker : Worker)
    (queue begun : List TaskId) (t : Task α) : WorkerPool α :=
  { p with workers := worker :: others, queue, begun, tasks := p.tasks ++ [t] }

theorem tasks_serving (worker : Worker) (queue : List TaskId) (t : Task α) :
    (p.serving others worker queue begun t).tasks[p.tasks.length]? = some t :=
  List.getElem?_concat_length

theorem change_serving (worker : Worker) (queue : List TaskId) (t : Task α) (f : Task α → Task α) :
    (p.serving others worker queue begun t).change p.tasks.length f =
      p.serving others worker queue begun (f t) := by
  have hlast : (p.tasks ++ [t]).modify p.tasks.length f = p.tasks ++ [f t] := by
    induction p.tasks with
    | nil => rfl
    | cons u rest ih => exact congrArg (u :: ·) ih
  simp only [serving, change, hlast]

theorem Rested.workers_eq (h : p.Rested) : ∃ others, p.workers = .idle :: others := by
  cases hw : p.workers with
  | nil => exact absurd hw h.staffed
  | cons w others => exact ⟨others, by rw [h.idle w (hw ▸ List.mem_cons_self)]⟩

/-- With its first worker idle again, the pool is at rest as before. -/
theorem Rested.serving (h : p.Rested) (hw : p.workers = .idle :: others) (t : Task α) :
    (p.serving others .idle [] begun t).Rested where
  running := h.running
  room := h.room
  queue := rfl
  staffed := nofun
  idle w hmem := h.idle w (hw ▸ hmem)

theorem Rested.submit (h : p.Rested) (hw : p.workers = .idle :: others) (work : Work α) :
    p.submit work =
      .ok (p.serving others .idle [p.tasks.length] p.begun { work }, p.tasks.length) := by
  have hroom : ¬ p.capacity ≤ 0 := Nat.not_le_of_lt h.room
  simp [WorkerPool.submit, h.running, h.queue, hroom, WorkerPool.serving, hw]

theorem take_serving :
    (p.serving others .idle [p.tasks.length] begun { work }).advance? =
      some (p.serving others (.busy p.tasks.length) [] begun { work, state := .claimed }) := by
  refine advance?_of_first rfl ?_
  rw [workerStep?, take?]
  exact congrArg some
    (change_serving (p := p) (.busy p.tasks.length) [] { work } fun t => { t with state := .claimed })

theorem begin_serving :
    (p.serving others (.busy p.tasks.length) [] begun { work, state := .claimed }).advance? =
      some (p.serving others (.busy p.tasks.length) [] (begun ++ [p.tasks.length])
        { work, state := .running }) := by
  refine advance?_of_first rfl ?_
  have hbegin :
      (p.serving others (.busy p.tasks.length) [] begun { work, state := .claimed }).begin? 0 =
        some ((p.serving others (.busy p.tasks.length) [] (begun ++ [p.tasks.length])
          { work, state := .claimed }).change p.tasks.length
            fun t => { t with state := .running }) := by
    rw [begin?]
    simp only [serving, List.getElem?_cons_zero, List.getElem?_concat_length]
    rfl
  rw [workerStep?, hbegin, change_serving]
  rfl

theorem finish_serving (hfree : work.waits = .nothing) :
    (p.serving others (.busy p.tasks.length) [] begun { work, state := .running }).advance? =
      some (p.serving others .idle [] begun { work, state := .finished work.outcome }) := by
  let running := p.serving others (.busy p.tasks.length) [] begun { work, state := .running }
  refine advance?_of_first rfl ?_
  have hbegin : running.begin? 0 = none := by
    rw [begin?]
    simp only [running, serving, List.getElem?_cons_zero, List.getElem?_concat_length]
  have hfinish : running.finish? 0 =
      some ((p.serving others .idle [] begun { work, state := .running }).change p.tasks.length
        fun t => { t with state := .finished work.outcome }) := by
    rw [finish?]
    simp only [running, serving, List.getElem?_cons_zero, List.getElem?_concat_length,
      Work.finish?_of_nothing hfree, Option.map_some]
    rfl
  rw [workerStep?, hbegin, hfinish, change_serving]
  rfl

theorem await_serving (worker : Worker) (queue : List TaskId) {t : Task α} (ht : t.taken = false)
    (hstate : ∀ outcome, t.state ≠ .finished outcome) :
    (p.serving others worker queue begun t).await p.tasks.length =
      (.ok none, p.serving others worker queue begun t) := by
  rw [await, tasks_serving]
  simp only [ht, Bool.false_eq_true, if_false]

theorem await_served :
    (p.serving others .idle [] begun { work, state := .finished work.outcome }).await
        p.tasks.length =
      (work.outcome.map some,
        p.serving others .idle [] begun
          { work, state := .finished work.outcome, taken := true }) := by
  rw [await, tasks_serving]
  simp only [Bool.false_eq_true, if_false, change_serving]

/-- **A pool at rest serves a task**: the task is accepted, taken, begun and finished with the outcome
of its body; until then there is nothing to await, and after it the pool is at rest. -/
theorem Rested.serve (h : p.Rested) (hfree : work.waits = .nothing) :
    ∃ accepted taken begun finished left, p.submit work = .ok (accepted, p.tasks.length) ∧
      accepted.advance? = some taken ∧ taken.advance? = some begun ∧
      begun.advance? = some finished ∧
      (∀ q ∈ [accepted, taken, begun], q.await p.tasks.length = (.ok none, q)) ∧
      finished.await p.tasks.length = (work.outcome.map some, left) ∧
      left.Rested ∧ (left.cancel p.tasks.length).Rested := by
  obtain ⟨others, hw⟩ := h.workers_eq
  refine ⟨_, _, _, _, _, h.submit hw work, take_serving, begin_serving, finish_serving hfree, ?_,
    await_served, h.serving hw _, ?_⟩
  · intro q hq
    simp only [List.mem_cons, List.not_mem_nil, or_false] at hq
    rcases hq with rfl | rfl | rfl <;> exact await_serving _ _ rfl nofun
  · rw [cancel, change_serving]
    exact h.serving hw _

end Serving

end WorkerPool

namespace KeyLocks

variable {t : KeyLocks}

/-- **No key is locked or wanted.** -/
structure Idle (t : KeyLocks) : Prop where
  entries : t.entries = []
  claims : t.claims = []

/-- A claim on locks that nobody else wants comes through at once and leaves nothing behind. -/
theorem Idle.pass (h : t.Idle) (key : Bytes) :
    ∃ claimed held freed left id, t.claim key = (claimed, id) ∧
      claimed.acquire? id = some held ∧ held.free? id = some freed ∧
      freed.drop? id = some left ∧ left.Idle := by
  obtain ⟨entries, claims, entry, id⟩ := t
  obtain ⟨rfl, rfl⟩ := h
  have hlocks : ∀ owner stage, at? ⟨[(key, ⟨entry, 1, owner⟩)], [(id, ⟨key, entry, stage⟩)],
      entry + 1, id + 1⟩ id stage = some (⟨key, entry, stage⟩, ⟨entry, 1, owner⟩) := by
    intro owner stage
    simp [at?, Assoc.find?]
  refine ⟨⟨[(key, ⟨entry, 1, none⟩)], [(id, ⟨key, entry, .waiting⟩)], entry + 1, id + 1⟩,
    ⟨[(key, ⟨entry, 1, some id⟩)], [(id, ⟨key, entry, .holding⟩)], entry + 1, id + 1⟩,
    ⟨[(key, ⟨entry, 1, none⟩)], [(id, ⟨key, entry, .releasing⟩)], entry + 1, id + 1⟩,
    ⟨[], [], entry + 1, id + 1⟩, id, rfl, ?_, ?_, ?_, rfl, rfl⟩
  · simp [acquire?, hlocks, Assoc.put]
  · simp [free?, hlocks, Assoc.put]
  · simp [drop?, hlocks, Assoc.erase]

end KeyLocks

namespace BucketSession

/-- **A bucket with one call**, and the pool that serves it. -/
structure Solo (V : Type) where
  bucket : Bucket V
  pool : WorkerPool (Product V)
  call : UpdateCall V

namespace Solo

variable {x y z : Solo V} {log later : Log}

/-- The system of a single call. -/
def system (x : Solo V) : BucketSystem V where
  bucket := x.bucket
  pool := x.pool
  calls := [(0, x.call)]
  nextCall := 1

/-- The call goes to another stage. -/
def move (x : Solo V) (stage : UpdateStage V) : Solo V :=
  { x with call := { x.call with stage } }

/-- The state with other locks. -/
def withLocks (x : Solo V) (locks : KeyLocks) : Solo V :=
  { x with bucket := { x.bucket with locks } }

theorem find?_system (x : Solo V) : x.system.calls.find? 0 = some x.call := rfl

theorem pool_system (x : Solo V) (stage : UpdateStage V) : (x.move stage).system.pool = x.pool := rfl

/-- The session of a single call at some time, with or without a deadline. -/
def session (x : Solo V) (now : Int) (deadlines : Assoc CallId Int) : BucketSession V :=
  { system := x.system, now, deadlines }

variable [Storable V]

/-- **One state leads to another** in a number of steps, and what the steps print. -/
def Leads (x : Solo V) (steps : Nat) (log : Log) (y : Solo V) : Prop :=
  ∀ now deadlines, ∃ deadlines', ∀ bound,
    (x.session now deadlines).advance (steps + bound) =
      (((y.session now deadlines').advance bound).1,
        log ++ ((y.session now deadlines').advance bound).2)

theorem Leads.trans {m n : Nat} (h : Leads x m log y) (h' : Leads y n later z) :
    Leads x (m + n) (log ++ later) z := by
  intro now deadlines
  obtain ⟨deadlines', h⟩ := h now deadlines
  obtain ⟨deadlines'', h'⟩ := h' now deadlines'
  refine ⟨deadlines'', fun bound => ?_⟩
  rw [Nat.add_assoc, h, h', Log.append_assoc]

/-- A step of the session, whatever its deadlines are, is a step of its one call or its pool. -/
theorem Leads.of_advance? (h : ∀ now deadlines, ∃ deadlines',
    (x.session now deadlines).advance? = some (y.session now deadlines', log)) : Leads x 1 log y := by
  intro now deadlines
  obtain ⟨deadlines', hstep⟩ := h now deadlines
  refine ⟨deadlines', fun bound => ?_⟩
  rw [Nat.add_comm, BucketSession.advance, hstep]

/-- The call takes its turn. -/
theorem Leads.turn (h : x.system.advance? 0 = some (y.system, log)) : Leads x 1 log y := by
  refine .of_advance? fun now deadlines => ?_
  obtain ⟨deadlines', hcall⟩ : ∃ deadlines',
      (x.session now deadlines).advanceCall? 0 = some (y.session now deadlines', log) := by
    rw [advanceCall?, session, h]
    exact ⟨_, rfl⟩
  refine ⟨deadlines', ?_⟩
  rw [BucketSession.advance?]
  change (([(0, x.call)] : Assoc CallId (UpdateCall V)).findSome? _).or _ = _
  rw [List.findSome?_cons, hcall, Option.some_or]

/-- The call waits, and the pool goes on. -/
theorem Leads.work {pool : WorkerPool (Product V)} (hwait : x.system.advance? 0 = none)
    (h : x.pool.advance? = some pool) : Leads x 1 {} { x with pool } := by
  refine .of_advance? fun now deadlines => ⟨deadlines, ?_⟩
  have hcall : (x.session now deadlines).advanceCall? 0 = none := by
    rw [advanceCall?, session, hwait]
    rfl
  rw [BucketSession.advance?]
  change (([(0, x.call)] : Assoc CallId (UpdateCall V)).findSome? _).or _ = _
  rw [List.findSome?_cons, hcall, List.findSome?_nil, Option.none_or]
  change (x.pool.advance?).map _ = _
  rw [h]
  rfl

/-! ## The course of the call -/

section Course

variable {id : ClaimId} {v : V} {result : Outcome Unit}

/-- The key is found, its lock is taken, and its value is read. -/
theorem Leads.enter (hvalue : x.bucket.map.get? x.call.key = some v) {claimed held : KeyLocks}
    (hclaim : x.bucket.locks.claim x.call.key = (claimed, id))
    (hacquire : claimed.acquire? id = some held) :
    Leads (x.move .checking) 4 {} ((x.withLocks held).move (.submitting id v)) := by
  have hfound : x.bucket.map.contains x.call.key = true := by
    rw [ShardedMap.get?_eq] at hvalue
    rw [ShardedMap.contains_eq]
    cases hslot : x.bucket.map.slot? x.call.key with
    | none => rw [hslot] at hvalue; cases hvalue
    | some slot => rfl
  have hcheck : Leads (x.move .checking) 1 {} (x.move .claiming) := by
    refine .turn ?_
    rw [BucketSystem.advance?, find?_system]
    exact if_pos hfound
  have hwait : Leads (x.move .claiming) 1 {} ((x.withLocks claimed).move (.locking id)) := by
    refine .turn ?_
    rw [BucketSystem.advance?, find?_system]
    change some (((x.move .claiming).system.withLocks (x.bucket.locks.claim x.call.key).1).move 0 _
      (.locking (x.bucket.locks.claim x.call.key).2), _) = _
    rw [hclaim]
    rfl
  have hlock : Leads ((x.withLocks claimed).move (.locking id)) 1 {}
      ((x.withLocks held).move (.reading id)) := by
    refine .turn ?_
    rw [BucketSystem.advance?, find?_system]
    change (claimed.acquire? id).map _ = _
    rw [hacquire]
    rfl
  have hread : Leads ((x.withLocks held).move (.reading id)) 1 {}
      ((x.withLocks held).move (.submitting id v)) := by
    refine .turn ?_
    have hread : ((x.withLocks held).move (.reading id)).system.bucket.map.get?
        ((x.withLocks held).move (.reading id)).call.key = some v := hvalue
    simp only [BucketSystem.advance?, find?_system, move] at hread ⊢
    rw [hread]
    rfl
  exact ((hcheck.trans hwait).trans hlock).trans hread

/-- The evaluation is submitted, served and awaited. -/
theorem Leads.evaluate (id : ClaimId) (v : V) (hrest : x.pool.Rested)
    (hfree : (Storable.evaluate v x.call.update x.call.function).waits = .nothing) :
    ∃ finished left task, Leads (x.move (.submitting id v)) 4 {}
        ({ x with pool := finished }.move (.awaiting id task)) ∧
      finished.await task =
        ((Storable.evaluate v x.call.update x.call.function).outcome.map some, left) ∧
      left.Rested ∧ (left.cancel task).Rested := by
  obtain ⟨accepted, taken, begun, finished, left, hsubmit, htake, hbegin, hfinish, hawait, hdone,
    hrested, hcancelled⟩ := hrest.serve hfree
  have hsubmitted : Leads (x.move (.submitting id v)) 1 {}
      ({ x with pool := accepted }.move (.awaiting id x.pool.tasks.length)) := by
    refine .turn ?_
    rw [BucketSystem.advance?, find?_system]
    change some (BucketSystem.submit _ 0 _ id v) = _
    rw [BucketSystem.submit, pool_system]
    simp only [move, hsubmit]
    rfl
  have hwork : ∀ {q q' : WorkerPool (Product V)}, q ∈ [accepted, taken, begun] →
      q.advance? = some q' →
      Leads ({ x with pool := q }.move (.awaiting id x.pool.tasks.length)) 1 {}
        ({ x with pool := q' }.move (.awaiting id x.pool.tasks.length)) := by
    intro q q' hq hstep
    refine .work ?_ hstep
    rw [BucketSystem.advance?, find?_system]
    change BucketSystem.take? _ 0 _ id x.pool.tasks.length = none
    rw [BucketSystem.take?, pool_system, hawait q hq]
  refine ⟨finished, left, x.pool.tasks.length, ?_, hdone, hrested, hcancelled⟩
  exact ((hsubmitted.trans (hwork (by simp) htake)).trans (hwork (by simp) hbegin)).trans
    (hwork (by simp) hfinish)

/-- The value that an evaluation gave is taken and stored. -/
theorem Leads.store {task : TaskId} {pool : WorkerPool (Product V)}
    (hawait : x.pool.await task = (.ok (some (.value (some v))), pool)) :
    Leads (x.move (.awaiting id task)) 2 {}
      ({ x with
          pool
          bucket := { x.bucket with map := x.bucket.map.put x.call.key (some v) } }.move
        (.freeing id (.ok ()))) := by
  have htake : Leads (x.move (.awaiting id task)) 1 {} ({ x with pool }.move (.storing id v)) := by
    refine .turn ?_
    rw [BucketSystem.advance?, find?_system]
    change BucketSystem.take? _ 0 _ id task = _
    rw [BucketSystem.take?, pool_system, hawait]
    rfl
  have hstore : Leads ({ x with pool }.move (.storing id v)) 1 {}
      ({ x with
          pool
          bucket := { x.bucket with map := x.bucket.map.put x.call.key (some v) } }.move
        (.freeing id (.ok ()))) := .turn rfl
  exact htake.trans hstore

/-- The failure of an evaluation is taken and reported. -/
theorem Leads.fail {task : TaskId} {pool : WorkerPool (Product V)} {f : Failure}
    (hawait : x.pool.await task = (.error f, pool)) :
    Leads (x.move (.awaiting id task)) 1
      (x.system.report x.call (Bytes.ascii "cancelled") (Bytes.ascii " after failure: " ++ f.message))
      ({ x with pool := pool.cancel task }.move
        (.freeing id (.error (.updateFailed f.message)))) := by
  refine .turn ?_
  rw [BucketSystem.advance?, find?_system]
  change BucketSystem.take? _ 0 _ id task = _
  rw [BucketSystem.take?, pool_system, hawait]
  rfl

/-- The lock is given free and the claim dropped. -/
theorem Leads.leave {freed left : KeyLocks} (hfree : x.bucket.locks.free? id = some freed)
    (hdrop : freed.drop? id = some left) :
    Leads (x.move (.freeing id result)) 2 {} ((x.withLocks left).move (.done result)) := by
  have hfreed : Leads (x.move (.freeing id result)) 1 {}
      ((x.withLocks freed).move (.dropping id result)) := by
    refine .turn ?_
    rw [BucketSystem.advance?, find?_system]
    change (x.bucket.locks.free? id).map _ = _
    rw [hfree]
    rfl
  have hdropped : Leads ((x.withLocks freed).move (.dropping id result)) 1 {}
      ((x.withLocks left).move (.done result)) := by
    refine .turn ?_
    rw [BucketSystem.advance?, find?_system]
    change (freed.drop? id).map _ = _
    rw [hdrop]
    rfl
  exact hfreed.trans hdropped

end Course

end Solo

/-! ## How an update ends -/

section Update

open Solo

variable [Storable V] {b : Bucket V} {pool : WorkerPool (Product V)} {c : UpdateCall V} {v w : V}

/-- A call that comes to its end within the bound on its steps is the whole of an update. -/
theorem update_of_leads {y : Solo V} {steps : Nat} {log : Log} {result : Outcome Unit}
    (h : Leads ((Solo.mk b pool c).move .checking) steps log (y.move (.done result)))
    (hsteps : steps ≤ 13) (hrest : y.pool.Rested) (now : Int) :
    ∃ s, (ofBucket b pool now).update c = (result, s, log) ∧ s.bucket = y.bucket ∧
      s.pool = y.pool := by
  let x := (Solo.mk b pool c).move .checking
  obtain ⟨deadlines, hadvance⟩ := h now []
  let t := (y.move (.done result)).session now deadlines
  have hstill : ∀ bound, t.advance bound = (t, {}) := by
    have hnone : t.advance? = none := by
      change (y.pool.advance?).map _ = none
      rw [hrest.advance?]
      rfl
    intro bound
    cases bound with
    | zero => rfl
    | succ bound => rw [advance, hnone]
  have hsettle : (x.session now []).settle = (t, log) := by
    have hbound : steps ≤ (x.session now []).stepBound := by
      have hcalls : (x.session now []).system.calls.length = 1 := rfl
      rw [stepBound, hcalls]
      omega
    obtain ⟨bound, hbound⟩ := Nat.exists_eq_add_of_le hbound
    rw [settle, hbound, hadvance, hstill, Log.append_empty]
  have hupdate : (ofBucket b pool now).update c = (x.session now []).join 0 := rfl
  refine ⟨(t.collect 0).2, ?_, rfl, rfl⟩
  rw [hupdate, join, hsettle]
  change (result, (t.collect 0).2, log ++ ({} : Log)) = _
  rw [Log.append_empty]

/-- **An update of a key that is absent** fails and changes nothing. -/
theorem update_of_absent (hpool : pool.Rested) (habsent : b.map.contains c.key = false) (now : Int) :
    ∃ s, (ofBucket b pool now).update c = (.error (.keyMissing c.key), s, {}) ∧ s.bucket = b ∧
      s.pool = pool := by
  have hcheck : Leads ((Solo.mk b pool c).move .checking) 1 {}
      ((Solo.mk b pool c).move (.done (.error (.keyMissing c.key)))) := by
    refine .turn ?_
    rw [BucketSystem.advance?, find?_system]
    exact if_neg (Bool.eq_false_iff.mp habsent)
  exact update_of_leads hcheck (by omega) hpool now

/-- An update of a value whose evaluation waits for nothing comes to the end of the evaluation under
the lock of its key, with its own outcome to await and the way out free. -/
theorem exists_evaluated (hpool : pool.Rested) (hlocks : b.locks.Idle)
    (hvalue : b.map.get? c.key = some v)
    (hwaits : (Storable.evaluate v c.update c.function).waits = .nothing) :
    ∃ held freed left id finished after task,
      Leads ((Solo.mk b pool c).move .checking) 8 {}
        ((Solo.mk { b with locks := held } finished c).move (.awaiting id task)) ∧
      finished.await task =
        ((Storable.evaluate v c.update c.function).outcome.map some, after) ∧
      after.Rested ∧ (after.cancel task).Rested ∧
      held.free? id = some freed ∧ freed.drop? id = some left ∧ left.Idle := by
  obtain ⟨claimed, held, freed, left, id, hclaim, hacquire, hfree, hdrop, hidle⟩ :=
    hlocks.pass c.key
  obtain ⟨finished, after, task, hevaluate, hawait, hrested, hcancelled⟩ :=
    Leads.evaluate (x := (Solo.mk b pool c).withLocks held) id v hpool hwaits
  have henter := Leads.enter (x := ⟨b, pool, c⟩) hvalue hclaim hacquire
  exact ⟨held, freed, left, id, finished, after, task, henter.trans hevaluate, hawait, hrested,
    hcancelled, hfree, hdrop, hidle⟩

/-- **An update whose evaluation gives a value** stores the value. -/
theorem update_of_gave (hpool : pool.Rested) (hlocks : b.locks.Idle)
    (hvalue : b.map.get? c.key = some v)
    (hwaits : (Storable.evaluate v c.update c.function).waits = .nothing)
    (hgave : (Storable.evaluate v c.update c.function).outcome = .ok (.value (some w)))
    (now : Int) :
    ∃ s locks, (ofBucket b pool now).update c = (.ok (), s, {}) ∧
      s.bucket = { b with locks, map := b.map.put c.key (some w) } ∧ locks.Idle ∧
      s.pool.Rested := by
  obtain ⟨held, freed, left, id, finished, after, task, hevaluated, hawait, hrested, -, hfree,
    hdrop, hidle⟩ := exists_evaluated hpool hlocks hvalue hwaits
  rw [hgave] at hawait
  have hcourse := (hevaluated.trans (.store hawait)).trans (.leave hfree hdrop)
  obtain ⟨s, hs, hbucket, hleft⟩ := update_of_leads hcourse (by omega) hrested now
  exact ⟨s, left, hs, hbucket, hidle, hleft ▸ hrested⟩

/-- **An update whose evaluation fails** fails for the same reason, reports it and changes nothing. -/
theorem update_of_failed (hpool : pool.Rested) (hlocks : b.locks.Idle) {f : Failure}
    (hvalue : b.map.get? c.key = some v)
    (hwaits : (Storable.evaluate v c.update c.function).waits = .nothing)
    (hfailed : (Storable.evaluate v c.update c.function).outcome = .error f) (now : Int) :
    ∃ s locks line, (ofBucket b pool now).update c =
        (.error (.updateFailed f.message), s, .warn line) ∧
      s.bucket = { b with locks } ∧ locks.Idle ∧ s.pool.Rested := by
  obtain ⟨held, freed, left, id, finished, after, task, hevaluated, hawait, -, hrested, hfree,
    hdrop, hidle⟩ := exists_evaluated hpool hlocks hvalue hwaits
  rw [hfailed] at hawait
  have hcourse := (hevaluated.trans (.fail hawait)).trans (.leave hfree hdrop)
  obtain ⟨s, hs, hbucket, hleft⟩ := update_of_leads hcourse (by omega) hrested now
  exact ⟨s, left, _, hs, hbucket, hidle, hleft ▸ hrested⟩

end Update

end BucketSession

end Keyspace
