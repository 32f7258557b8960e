import Keyspace.Proofs.CacheAlone
import Keyspace.Proofs.Deadlines
import Keyspace.Proofs.KeyOrders

/-!
# The cache and its history

A **history** is a list of operations that do not overlap: visits, which are requests that nobody
disturbs, and invalidations. What the cache holds for a name is read off the history: the snapshot
that was last made for the name, unless the name was invalidated since (`lastMade`); and a name has
a lock when a visit enumerated keys for it, with or without success, and it was not invalidated
since (`attempted`). Every operation keeps this (`Mirrors.visited`, `Mirrors.invalidated`).

So a visit is decided by the history and the moment of its first look alone (`Answers`): it returns
the very snapshot that was last made as long as the deadline of that has not passed, and makes a new
one otherwise. The deadline is the moment at which the snapshot is due, except that it wraps around
beyond the times of 64 bits; so a snapshot that is due for centuries may be made anew at every visit
(`endless_remade`). A visit keeps to what is due as long as the snapshot last made is not `Misjudged`
at its first look.
-/

namespace Keyspace

namespace SnapshotCache

variable {c c' : SnapshotCache} {steps : List (Int64 × Step)} {name : Bytes}

/-! ## Histories -/

/-- **A visit**: what a request asked for, when it looked for the first time, what its enumerations
gave, and its result. -/
structure Visit where
  ask : Request
  first : Int64
  enumerations : List (Outcome (List Bytes))
  result : Outcome Cached

/-- What was done to a cache. -/
inductive Deed where
  | visited (visit : Visit)
  | invalidated (name : Bytes)

/-- What is held for a name after a deed. -/
def Deed.holds (name : Bytes) (made : Option Cached) : Deed → Option Cached
  | visited v =>
    if v.ask.name = name ∧ v.enumerations.isEmpty = false then
      match v.result with
      | .ok new => some new
      | .error _ => made
    else made
  | invalidated m => if m = name then none else made

/-- **The snapshot last made for a name**, unless the name was invalidated since. -/
def lastMade (name : Bytes) (history : List Deed) : Option Cached :=
  history.foldl (Deed.holds name) none

/-- Whether keys were to be enumerated for a name since it was last invalidated. -/
def Deed.attempts (name : Bytes) (before : Bool) : Deed → Bool
  | visited v => before || (v.ask.name = name ∧ v.enumerations.isEmpty = false)
  | invalidated m => before && m ≠ name

/-- Whether a visit enumerated keys for a name since the name was last invalidated. -/
def attempted (name : Bytes) (history : List Deed) : Bool :=
  history.foldl (Deed.attempts name) false

/-- A visit takes its steps, and they lead from one cache to another. -/
structure Takes (c : SnapshotCache) (v : Visit) (steps : List (Int64 × Step)) (c' : SnapshotCache) :
    Prop where
  undisturbed : Undisturbed c v.ask v.first steps v.result c'
  enumerated : v.enumerations = SnapshotCache.enumerations steps

/-- **A history of a cache** that was empty at first. -/
inductive History : List Deed → SnapshotCache → Prop
  | start : History [] {}
  | visited {past : List Deed} {c c' : SnapshotCache} {v : Visit} {steps : List (Int64 × Step)}
    (before : History past c) (takes : Takes c v steps c') : History (past ++ [.visited v]) c'
  | invalidated {past : List Deed} {c : SnapshotCache} (before : History past c) (name : Bytes) :
    History (past ++ [.invalidated name]) (c.invalidate name)

variable {past : List Deed} {v : Visit}

theorem lastMade_snoc (name : Bytes) (past : List Deed) (d : Deed) :
    lastMade name (past ++ [d]) = d.holds name (lastMade name past) := by
  rw [lastMade, List.foldl_append]
  rfl

theorem attempted_snoc (name : Bytes) (past : List Deed) (d : Deed) :
    attempted name (past ++ [d]) = d.attempts name (attempted name past) := by
  rw [attempted, List.foldl_append]
  rfl

/-! ## The cache is what its history says -/

/-- Snapshots and locks are registered once for each name. -/
structure Tidy (c : SnapshotCache) : Prop where
  snapshots : c.snapshots.keys.Nodup
  locks : c.locks.keys.Nodup

theorem Tidy.step {now : Int64} {e : Event} (h : Tidy c) (htrans : Transition c now e c') :
    Tidy c' := by cases htrans with
  | requested _ _ _ => exact ⟨h.snapshots, h.locks⟩
  | invalidated name =>
    refine ⟨Assoc.nodup_keys_erase h.snapshots name, ?_⟩
    unfold invalidate
    split
    · split
      · exact h.locks
      · exact Assoc.nodup_keys_erase h.locks name
    · exact h.locks
  | turned _ turn =>
    cases turn with
    | made _ _ => exact ⟨h.snapshots, Assoc.nodup_keys_put h.locks _ _⟩
    | published _ => exact ⟨Assoc.nodup_keys_put h.snapshots _ _, h.locks⟩
    | _ => exact ⟨h.snapshots, h.locks⟩

theorem Tidy.run (h : Tidy c) (hrun : c.run? steps = some c') : Tidy c' :=
  run_induction (P := fun _ c => Tidy c) (fun _ _ _ _ _ h htrans => h.step htrans) h hrun

/-- **The cache mirrors its history.** -/
structure Mirrors (past : List Deed) (c : SnapshotCache) : Prop where
  sound : Sound c
  tidy : Tidy c
  done : ∀ id r, c.requests.find? id = some r → ∃ result, r.stage = .done result
  held : ∀ name, c.snapshots.find? name = lastMade name past
  locked : ∀ name, (c.locks.find? name).isSome = attempted name past
  /-- What is cached, and what was ever returned, is older than the next snapshot. -/
  older : ∀ name made, c.snapshots.find? name = some made → made.id < c.nextSnapshot
  returned : ∀ v made, .visited v ∈ past → v.result = .ok made → made.id < c.nextSnapshot

theorem Mirrors.idle (h : Mirrors past c) : Idle c :=
  ⟨h.sound.keys, h.done⟩

theorem Mirrors.start : Mirrors [] {} where
  sound := Sound.empty
  tidy := ⟨List.nodup_nil, List.nodup_nil⟩
  done _ _ h := by cases h
  held _ := rfl
  locked _ := rfl
  older _ _ h := by cases h
  returned _ _ h := by cases h

theorem Takes.served (h : Takes c v steps c') :
    Served c v.ask v.first v.enumerations v.result c' :=
  h.enumerated ▸ h.undisturbed.served

/-- After a visit every request is done again. -/
theorem Takes.done (h : Takes c v steps c')
    (hdone : ∀ id r, c.requests.find? id = some r → ∃ result, r.stage = .done result) :
    ∀ id r, c'.requests.find? id = some r → ∃ result, r.stage = .done result := by
  intro id r hr
  by_cases hid : id = c.nextRequest
  · obtain ⟨q, hq, hstage⟩ := result?_eq_some_iff.mp h.undisturbed.done
    rw [hid, hq] at hr
    cases hr
    exact ⟨_, hstage⟩
  · rw [h.undisturbed.find?_other hid] at hr
    exact hdone id r hr

/-- What a visit does to the locks. -/
theorem Locked.isSome {name : Bytes} (h : Locked c name c') (m : Bytes) :
    (c'.locks.find? m).isSome = ((c.locks.find? m).isSome || decide (name = m)) := by
  by_cases hm : m = name
  · rw [hm, h.own, decide_eq_true rfl, Bool.or_true]
  · rw [h.others m hm, decide_eq_false (Ne.symm hm), Bool.or_false]

/-- A visit that leaves what its deed says keeps the cache like its history. -/
theorem Mirrors.leaves (h : Mirrors past c) (hv : Takes c v steps c')
    (held : ∀ m, c'.snapshots.find? m = (Deed.visited v).holds m (lastMade m past))
    (locked : ∀ m, (c'.locks.find? m).isSome = (Deed.visited v).attempts m (attempted m past))
    (older : ∀ m made, c'.snapshots.find? m = some made → made.id < c'.nextSnapshot)
    (counter : c.nextSnapshot ≤ c'.nextSnapshot)
    (last : ∀ made, v.result = .ok made → made.id < c'.nextSnapshot) :
    Mirrors (past ++ [.visited v]) c' where
  sound := h.sound.of_run hv.undisturbed.run
  tidy := h.tidy.run hv.undisturbed.run
  done := hv.done h.done
  held m := by rw [lastMade_snoc, held]
  locked m := by rw [attempted_snoc, locked]
  older := older
  returned w made hw hresult := by
    rcases List.mem_append.mp hw with hw | hw
    · exact Nat.lt_of_lt_of_le (h.returned w made hw hresult) counter
    · cases List.mem_singleton.mp hw
      exact last made hresult

/-- **A visit keeps the cache like its history.** -/
theorem Mirrors.visited (h : Mirrors past c) (hv : Takes c v steps c') :
    Mirrors (past ++ [.visited v]) c' := by
  have hserved := hv.served
  obtain ⟨ask, first, enumerations, result⟩ := v
  change Served c ask first enumerations result c' at hserved
  cases hserved with
  | found cached fresh same locks =>
    refine h.leaves hv (fun m => ?held) (fun m => ?locked) ?older ?counter fun made hmade => ?last
    case held =>
      rw [same.snapshots, h.held]
      exact (if_neg fun hboth => Bool.noConfusion hboth.2).symm
    case locked =>
      rw [locks, h.locked]
      simp [Deed.attempts]
    case older =>
      rw [same.snapshots, same.counter]
      exact h.older
    case counter => exact Nat.le_of_eq same.counter.symm
    case last =>
      cases hmade
      rw [same.counter]
      exact h.older _ _ cached
  | @computed keys now _ stale later locked snapshots counter =>
    refine h.leaves hv (fun m => ?held) (fun m => ?locked) (fun m made hmade => ?older) ?counter
      fun made hmade => ?last
    case held =>
      rw [snapshots, Assoc.find?_put, h.held]
      by_cases hm : m = ask.name
      · subst hm
        simp [Deed.holds]
      · simp [Deed.holds, hm, Ne.symm hm]
    case locked =>
      rw [locked.isSome, h.locked]
      simp [Deed.attempts]
    case older =>
      rw [snapshots, Assoc.find?_put] at hmade
      rw [counter]
      split at hmade
      · cases hmade
        exact Nat.lt_succ_self _
      · exact Nat.lt_succ_of_lt (h.older m made hmade)
    case counter => exact counter ▸ Nat.le_succ _
    case last =>
      cases hmade
      exact counter ▸ Nat.lt_succ_self _
  | failed stale locked same =>
    refine h.leaves hv (fun m => ?held) (fun m => ?locked) ?older ?counter fun made hmade => ?last
    case held =>
      rw [same.snapshots, h.held]
      simp [Deed.holds]
    case locked =>
      rw [locked.isSome, h.locked]
      simp [Deed.attempts]
    case older =>
      rw [same.snapshots, same.counter]
      exact h.older
    case counter => exact Nat.le_of_eq same.counter.symm
    case last => cases hmade

/-- **An invalidation keeps the cache like its history.** -/
theorem Mirrors.invalidated (h : Mirrors past c) (name : Bytes) :
    Mirrors (past ++ [.invalidated name]) (c.invalidate name) where
  sound := h.sound.invalidate name
  tidy := h.tidy.step (show Transition c 0 .silent (c.invalidate name) from .invalidated name)
  done := h.done
  held m := by
    have hsnapshots : (c.invalidate name).snapshots = c.snapshots.erase name := rfl
    rw [lastMade_snoc, hsnapshots, Assoc.find?_erase, h.held]
    simp [Deed.holds, eq_comm]
  locked m := by
    rw [attempted_snoc, find?_locks_invalidate, Deed.attempts, ← h.locked]
    by_cases hm : m = name
    · subst hm
      have hnone := (h.sound.find?_invalidate_eq_none_iff m).mpr fun id r hr _ => by
        obtain ⟨result, hstage⟩ := h.done id r hr
        rw [hstage]
        rfl
      rw [find?_locks_invalidate] at hnone
      rw [hnone]
      simp
    · rw [if_neg fun hboth => hm hboth.1]
      simp [Ne.symm hm]
  older m made hmade := by
    have hsnapshots : (c.invalidate name).snapshots = c.snapshots.erase name := rfl
    rw [hsnapshots, Assoc.find?_erase] at hmade
    split at hmade
    · cases hmade
    · exact h.older m made hmade
  returned w made hw hresult := by
    refine h.returned w made ?_ hresult
    simpa using hw

/-- Every history leads to a cache that mirrors it. -/
theorem History.mirrors (h : History past c) : Mirrors past c := by
  induction h with
  | start => exact .start
  | visited _ takes ih => exact ih.visited takes
  | invalidated _ name ih => exact ih.invalidated name

/-! ## What visits are answered -/

/-- The name has a snapshot that was not invalidated and is due, by the lifetime with which it was
made, no earlier than the first look of a visit. -/
def Due (past : List Deed) (v : Visit) : Prop :=
  ∃ made, lastMade v.ask.name past = some made ∧ v.first.toInt ≤ made.snapshot.due

/-- The same of the moment that is left of it in 64 bits. -/
def Usable (past : List Deed) (v : Visit) : Prop :=
  ∃ made, lastMade v.ask.name past = some made ∧
    v.first.toInt ≤ made.snapshot.due.bmod (2 ^ 64)

/-- A visit returns the snapshot last made, and no keys are enumerated. -/
def Reuses (past : List Deed) (v : Visit) : Prop :=
  v.enumerations = [] ∧ ∃ made, lastMade v.ask.name past = some made ∧ v.result = .ok made

/-- **A new snapshot** of given keys, made for a visit after a past. -/
structure New (past : List Deed) (v : Visit) (keys : List Bytes) (made : Cached) : Prop where
  name : made.snapshot.name = v.ask.name
  less : made.snapshot.less = v.ask.less
  timeToLive : made.snapshot.timeToLive = v.ask.timeToLive
  later : v.first ≤ made.snapshot.createdAt
  keys : made.snapshot.keys.toList.Perm keys
  sorted : Comparison.StrictWeak v.ask.less →
    Comparison.Ordered v.ask.less made.snapshot.keys.toList
  /-- It is none of those that were returned before. -/
  unlike : ∀ w old, .visited w ∈ past → w.result = .ok old → old.id ≠ made.id

/-- **What a visit is answered** after a past, and what it does to the cache. -/
structure Answers (past : List Deed) (c : SnapshotCache) (v : Visit) (c' : SnapshotCache) :
    Prop where
  /-- The snapshot last made is reused exactly as long as it is usable. -/
  reused_iff : Reuses past v ↔ Usable past v
  reused : Usable past v → c'.snapshots = c.snapshots
  /-- Otherwise the keys are enumerated once. -/
  enumerated : ¬ Usable past v → ∃ given, v.enumerations = [given]
  computed : ∀ keys, v.enumerations = [.ok keys] → ∃ made, New past v keys made ∧
    v.result = .ok made ∧ c'.snapshots.find? v.ask.name = some made
  failed : ∀ f, v.enumerations = [.error f] → v.result = .error f ∧ c'.snapshots = c.snapshots ∧
    ∀ w : Visit, w.ask.name = v.ask.name → v.first ≤ w.first →
      ¬ Usable (past ++ [.visited v]) w
  others : ∀ m ≠ v.ask.name, c'.snapshots.find? m = c.snapshots.find? m ∧
    c'.locks.find? m = c.locks.find? m

/-- What is usable is what is due exactly if the snapshot last made is judged rightly. -/
theorem usable_iff_due_iff (past : List Deed) (v : Visit) : (Usable past v ↔ Due past v) ↔
    ∀ made, lastMade v.ask.name past = some made → ¬ made.snapshot.Misjudged v.first := by
  cases hmade : lastMade v.ask.name past with
  | none => simp [Usable, Due, hmade]
  | some made =>
    have hjudged := made.snapshot.isExpired_iff_due_iff v.first
    have hsame : (Usable past v ↔ Due past v) ↔
        (v.first.toInt ≤ made.snapshot.due.bmod (2 ^ 64) ↔ v.first.toInt ≤ made.snapshot.due) := by
      simp [Usable, Due, hmade]
    rw [Snapshot.isExpired_iff, ← Int.not_le, ← Int.not_le, Decidable.not_iff_not] at hjudged
    rw [hsame, hjudged]
    exact ⟨fun h _ heq => Option.some.inj heq ▸ h, fun h => h made rfl⟩

theorem Mirrors.not_usable (h : Mirrors past c) (hstale : Stale c v.ask.name v.first) :
    ¬ Usable past v := by
  rintro ⟨made, hmade, hle⟩
  rw [← h.held] at hmade
  rw [← Snapshot.isExpired_eq_false_iff, hstale made hmade] at hle
  cases hle

/-- The new snapshot of a visit that enumerates keys. -/
theorem Mirrors.new (h : Mirrors past c) {keys : List Bytes} {now : Int64} (hle : v.first ≤ now) :
    New past v keys (c.make v.ask keys now) where
  name := rfl
  less := rfl
  timeToLive := rfl
  later := hle
  keys := KeyOrder.sort_perm v.ask.less keys
  sorted hless := KeyOrder.sort_ordered hless keys
  unlike w old hw hresult := Nat.ne_of_lt (h.returned w old hw hresult)

/-- **Every visit is answered by the history.** -/
theorem Mirrors.answers (h : Mirrors past c) (hv : Takes c v steps c') : Answers past c v c' := by
  have hserved := hv.served
  have hcomputes : Stale c v.ask.name v.first → v.enumerations ≠ [] →
      (Reuses past v ↔ Usable past v) := fun hstale hsome =>
    iff_of_false (fun hnone => hsome hnone.1) (h.not_usable hstale)
  obtain ⟨ask, first, enumerations, result⟩ := v
  change Served c ask first enumerations result c' at hserved
  cases hserved with
  | @found made _ cached fresh same locks =>
    have husable : Usable past ⟨ask, first, [], .ok made⟩ :=
      ⟨made, (h.held _).symm.trans cached, Snapshot.isExpired_eq_false_iff.mp fresh⟩
    exact {
      reused_iff := iff_of_true ⟨rfl, made, (h.held _).symm.trans cached, rfl⟩ husable
      reused _ := same.snapshots
      enumerated hnot := absurd husable hnot
      computed keys hkeys := by cases hkeys
      failed f hf := by cases hf
      others m _ := ⟨by rw [same.snapshots], by rw [locks]⟩ }
  | @computed keys now _ stale later locked snapshots counter =>
    exact {
      reused_iff := hcomputes stale (List.cons_ne_nil _ _)
      reused husable := absurd husable (h.not_usable stale)
      enumerated _ := ⟨_, rfl⟩
      computed given hgiven := by
        cases hgiven
        refine ⟨_, h.new later, rfl, ?_⟩
        rw [snapshots, Assoc.find?_put, if_pos rfl]
      failed f hf := by cases hf
      others m hm := by
        refine ⟨?_, locked.others m hm⟩
        rw [snapshots, Assoc.find?_put, if_neg hm] }
  | failed stale locked same =>
    exact {
      reused_iff := hcomputes stale (List.cons_ne_nil _ _)
      reused husable := absurd husable (h.not_usable stale)
      enumerated _ := ⟨_, rfl⟩
      computed keys hkeys := by cases hkeys
      failed f hf := by
        cases hf
        refine ⟨rfl, same.snapshots, fun w hname hle => ?_⟩
        -- what was stale at the first look is stale at a later one
        refine (h.visited hv).not_usable fun seen hseen => ?_
        rw [same.snapshots, hname] at hseen
        exact Snapshot.isExpired_mono (stale seen hseen) hle
      others m hm := ⟨by rw [same.snapshots], locked.others m hm⟩ }

/-- There are so many names of a kind. -/
def Counts (n : Nat) (p : Bytes → Prop) : Prop :=
  ∃ names : List Bytes, names.Nodup ∧ names.length = n ∧ ∀ name, name ∈ names ↔ p name

theorem counts_keys {ν : Type} {m : Assoc Bytes ν} (hm : m.keys.Nodup) :
    Counts m.length fun name => (m.find? name).isSome :=
  ⟨m.keys, hm, List.length_map .., fun name => (m.isSome_find?_iff name).symm⟩

/-- An invalidation leaves nothing of its name, and the other names alone. -/
theorem Mirrors.drops (h : Mirrors past c) (name : Bytes) :
    (c.invalidate name).snapshots.find? name = none ∧ (c.invalidate name).locks.find? name = none ∧
    ∀ m ≠ name, (c.invalidate name).snapshots.find? m = c.snapshots.find? m ∧
      (c.invalidate name).locks.find? m = c.locks.find? m := by
  have hsnapshots : (c.invalidate name).snapshots = c.snapshots.erase name := rfl
  refine ⟨by rw [hsnapshots, Assoc.find?_erase, if_pos rfl], ?_, fun m hm => ⟨?_, ?_⟩⟩
  · rw [← Option.isSome_eq_false_iff.trans Option.isNone_iff_eq_none,
      (h.invalidated name).locked, attempted_snoc]
    simp [Deed.attempts]
  · rw [hsnapshots, Assoc.find?_erase, if_neg hm]
  · rw [find?_locks_invalidate, if_neg fun hboth => hm hboth.1]

/-- **The cache serves what its history says.** -/
structure Serves (past : List Deed) (c : SnapshotCache) : Prop where
  held : ∀ name, c.snapshots.find? name = lastMade name past
  size : Counts c.size fun name => (lastMade name past).isSome
  lockCount : Counts c.lockCount fun name => attempted name past
  answers : ∀ v steps c', Takes c v steps c' → Answers past c v c'
  /-- A visit reuses what is due and nothing else, exactly if the snapshot last made is judged rightly
  at its first look. -/
  due_iff : ∀ v steps c', Takes c v steps c' → ((Reuses past v ↔ Due past v) ↔
    ∀ made, lastMade v.ask.name past = some made → ¬ made.snapshot.Misjudged v.first)
  /-- There is a visit for every request, every clock and every outcome of the enumeration. -/
  visits : ∀ keys name less timeToLive clock, ∃ v steps c', Takes c v steps c' ∧
    v.ask = { name, less, timeToLive } ∧ v.first = clock.now ∧
    (∀ given ∈ v.enumerations, given = keys) ∧
    c.getOrCompute keys name less timeToLive clock = (some v.result, c'.forget c.nextRequest)
  drops : ∀ name, (c.invalidate name).snapshots.find? name = none ∧
    (c.invalidate name).locks.find? name = none ∧
    ∀ m ≠ name, (c.invalidate name).snapshots.find? m = c.snapshots.find? m ∧
      (c.invalidate name).locks.find? m = c.locks.find? m

/-- **After any history of operations that do not overlap, the cache serves what the history says.**
-/
theorem serves_last_made (h : History past c) : Serves past c := by
  have hm := h.mirrors
  refine ⟨hm.held, ?_, ?_, fun v steps c' hv => hm.answers hv, fun v steps c' hv => ?_, ?_, hm.drops⟩
  · have hcount := counts_keys hm.tidy.snapshots
    simp only [hm.held] at hcount
    exact hcount
  · have hcount := counts_keys hm.tidy.locks
    simp only [hm.locked] at hcount
    exact hcount
  · rw [(hm.answers hv).reused_iff]
    exact usable_iff_due_iff past v
  · intro keys name less timeToLive clock
    obtain ⟨steps, result, c', hundisturbed, -, hgiven, hget⟩ :=
      getOrCompute_undisturbed hm.idle keys name less timeToLive clock
    exact ⟨⟨_, clock.now, _, result⟩, steps, c', ⟨hundisturbed, rfl⟩, rfl, rfl, hgiven, hget⟩

/-- A request for a snapshot with a given lifetime. -/
def asking (timeToLive : Int64) : Request where
  name := [115]
  less := Bytes.less
  timeToLive

/-- The keys are enumerated, and the snapshot is made after two nanoseconds. -/
def makingSteps (timeToLive : Int64) : List (Int64 × Step) :=
  [(0, .request [115] Bytes.less timeToLive), (0, .look 0), (1, .join 0), (1, .acquire 0),
    (1, .review 0), (1, .begin 0), (2, .enumerate 0 (.ok [[98], [97]])), (2, .publish 0),
    (3, .leave 0), (3, .drop 0)]

/-- The snapshot that these steps make. -/
def madeFirst (timeToLive : Int64) : Cached :=
  ({} : SnapshotCache).make (asking timeToLive) [[98], [97]] 2

/-- The cache whose one snapshot was made with these steps, when requests have these results. -/
def askedCache (timeToLive : Int64) (results : List (Outcome Cached)) : SnapshotCache where
  snapshots := [([115], madeFirst timeToLive)]
  locks := [([115], 0)]
  requests := results.zipIdx.map fun r => (r.2, { asking timeToLive with stage := .done r.1 })
  nextLock := 1
  nextSnapshot := 1
  nextRequest := results.length

theorem takes_making (timeToLive : Int64) : Takes {}
    ⟨asking timeToLive, 0, [.ok [[98], [97]]], .ok (madeFirst timeToLive)⟩ (makingSteps timeToLive)
    (askedCache timeToLive [.ok (madeFirst timeToLive)]) :=
  ⟨⟨rfl, ⟨0, _, rfl⟩, by simp [makingSteps, Step.Of], by simp [makingSteps], rfl, rfl⟩, rfl⟩

/-- Another request looks when a lifetime of one millisecond has one nanosecond left. -/
def reusingSteps : List (Int64 × Step) :=
  [(1000000, .request [115] Bytes.less 1), (1000001, .look 1)]

/-- A third one looks when it is over, and its enumeration fails. -/
def failingSteps : List (Int64 × Step) :=
  [(1000003, .request [115] Bytes.less 1), (1000003, .look 2), (1000003, .join 2),
    (1000003, .acquire 2), (1000003, .review 2), (1000003, .begin 2),
    (1000004, .enumerate 2 (.error (.raised .runtimeError [33]))), (1000004, .leave 2),
    (1000004, .drop 2)]

/-- The visits that take these steps. -/
def briefVisits : List Deed :=
  [.visited ⟨asking 1, 0, [.ok [[98], [97]]], .ok (madeFirst 1)⟩,
    .visited ⟨asking 1, 1000001, [], .ok (madeFirst 1)⟩,
    .visited ⟨asking 1, 1000003, [.error (.raised .runtimeError [33])],
      .error (.raised .runtimeError [33])⟩]

/-- **A snapshot is reused until it expires, and kept when its renewal fails.** -/
theorem brief_served : ∃ c, History briefVisits c ∧ c.size = 1 ∧
    lastMade [115] briefVisits = some (madeFirst 1) ∧ Serves briefVisits c := by
  let c₂ := askedCache 1 [.ok (madeFirst 1), .ok (madeFirst 1)]
  let c₃ := askedCache 1
    [.ok (madeFirst 1), .ok (madeFirst 1), .error (.raised .runtimeError [33])]
  have reusing : Takes (askedCache 1 [.ok (madeFirst 1)])
      ⟨asking 1, 1000001, [], .ok (madeFirst 1)⟩ reusingSteps c₂ :=
    ⟨⟨rfl, ⟨1000000, _, rfl⟩, by simp [reusingSteps, Step.Of, askedCache], by decide, rfl, rfl⟩,
      rfl⟩
  have failing : Takes c₂ ⟨asking 1, 1000003, [.error (.raised .runtimeError [33])],
      .error (.raised .runtimeError [33])⟩ failingSteps c₃ :=
    ⟨⟨rfl, ⟨1000003, _, rfl⟩, by simp [failingSteps, Step.Of, c₂, askedCache],
      by simp [failingSteps], rfl, rfl⟩, rfl⟩
  have history : History briefVisits c₃ :=
    ((History.start.visited (takes_making 1)).visited reusing).visited failing
  exact ⟨c₃, history, rfl, rfl, serves_last_made history⟩

/-- The longest lifetime that there is. -/
def endless : Int64 :=
  Int64.maxValue

/-- A second request enumerates the keys a moment after the snapshot was made. -/
def remakingSteps : List (Int64 × Step) :=
  [(3, .request [115] Bytes.less endless), (3, .look 1), (3, .join 1), (3, .acquire 1),
    (3, .review 1), (3, .begin 1), (3, .enumerate 1 (.ok [[97]])), (3, .publish 1), (3, .leave 1),
    (3, .drop 1)]

/-- **A snapshot with the longest lifetime is made anew a moment later.** -/
theorem endless_remade : ∃ past c v steps c' made new, History past c ∧ Takes c v steps c' ∧
    lastMade v.ask.name past = some made ∧ Due past v ∧ v.enumerations = [.ok [[97]]] ∧
    v.result = .ok new ∧ new.id ≠ made.id := by
  let c := askedCache endless [.ok (madeFirst endless)]
  let new := c.make (asking endless) [[97]] 3
  have remaking : ∃ c', Takes c ⟨asking endless, 3, [.ok [[97]]], .ok new⟩ remakingSteps c' :=
    ⟨_, ⟨⟨rfl, ⟨3, _, rfl⟩, by simp [remakingSteps, Step.Of, c, askedCache],
      by simp [remakingSteps], rfl, rfl⟩, rfl⟩⟩
  obtain ⟨c', remaking⟩ := remaking
  exact ⟨_, c, _, _, c', madeFirst endless, new, History.start.visited (takes_making endless),
    remaking, rfl, ⟨madeFirst endless, rfl, by decide⟩, rfl, rfl, by decide⟩

end SnapshotCache

end Keyspace
