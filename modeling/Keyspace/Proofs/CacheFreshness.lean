import Keyspace.Proofs.CacheOrigins
import Keyspace.Proofs.Deadlines

/-!
# Freshness of answers

A request that waited takes what another one published meanwhile without asking whether that has
expired, so that an answer of the cache need not be fresh when it is returned. What holds of every
answer is that, at some step that was taken while the request was under way, it was cached and had
not expired, or it was published (`answers_freshly`).

That is said of what the cache can tell. A lifetime far below zero takes the deadline of a snapshot
below the least time that there is, and it wraps around: then the cache serves what was never fresh
(`bygone_served`). How long the lifetimes may be is part of the contract.

The invariant says what a request may take at each stage (`Warranted`). One that waits has seen some
snapshot first, or none; whatever else is cached by now was published since. So the second look
needs no clock to take what is not the snapshot seen first. The time of a step is what its request
reads off the clock, which may be later than what another one has read that goes next. No more is
asked of the clock than that nobody reads a time from before the request came, and that only where
an answer is told apart from a snapshot that had expired by then.
-/

namespace Keyspace

/-- What a request saw first that has still to look again. -/
def RequestStage.observed? : RequestStage → Option (Option Nat)
  | missed observed => some observed
  | waiting observed _ => some observed
  | holding observed _ => some observed
  | _ => none

namespace SnapshotCache

variable {c t u u' : SnapshotCache} {now : Int64} {id : RequestId} {r : Request} {e : Event}
  {a : Step} {made : Cached} {name : Bytes} {steps past : List (Int64 × Step)}

/-- **A step of a run that is taken while a request is under way**, in a state in which the request
has not returned. -/
structure Meanwhile (c : SnapshotCache) (steps : List (Int64 × Step)) (id : RequestId)
    (u : SnapshotCache) (now : Int64) (a : Step) : Prop where
  taken : ∃ first rest, steps = first ++ (now, a) :: rest ∧ c.run? first = some u
  pending : u.result? id = none

/-- The snapshot was cached for the name and had not expired, at some step while the request was
under way. -/
def FreshMeanwhile (c : SnapshotCache) (steps : List (Int64 × Step)) (id : RequestId) (name : Bytes)
    (made : Cached) : Prop :=
  ∃ u now a, Meanwhile c steps id u now a ∧ u.snapshots.find? name = some made ∧
    made.snapshot.isExpired now = false

/-- The snapshot was published for the name, by whichever request, while the request was under way.
-/
def PublishedMeanwhile (c : SnapshotCache) (steps : List (Int64 × Step)) (id : RequestId)
    (name : Bytes) (made : Cached) : Prop :=
  made.snapshot.name = name ∧
    ∃ u now a j, Meanwhile c steps id u now a ∧ u.event now a = .published j made

theorem Meanwhile.append (h : Meanwhile c steps id u now a) (rest : List (Int64 × Step)) :
    Meanwhile c (steps ++ rest) id u now a := by
  obtain ⟨⟨first, later, rfl, hrun⟩, hpending⟩ := h
  refine ⟨⟨first, later ++ rest, ?_, hrun⟩, hpending⟩
  rw [List.append_assoc, List.cons_append]

/-- The step that comes after a run. -/
theorem Meanwhile.last (hrun : c.run? past = some u) (hpending : u.result? id = none) (now : Int64)
    (a : Step) : Meanwhile c (past ++ [(now, a)]) id u now a :=
  ⟨⟨past, [], rfl, hrun⟩, hpending⟩

theorem FreshMeanwhile.append (h : FreshMeanwhile c steps id name made)
    (rest : List (Int64 × Step)) : FreshMeanwhile c (steps ++ rest) id name made := by
  obtain ⟨u, now, a, hmeanwhile, hfresh⟩ := h
  exact ⟨u, now, a, hmeanwhile.append rest, hfresh⟩

theorem PublishedMeanwhile.append (h : PublishedMeanwhile c steps id name made)
    (rest : List (Int64 × Step)) : PublishedMeanwhile c (steps ++ rest) id name made := by
  obtain ⟨hname, u, now, a, j, hmeanwhile, hpublished⟩ := h
  exact ⟨hname, u, now, a, j, hmeanwhile.append rest, hpublished⟩

/-- A request that is not done has not returned. -/
theorem result?_eq_none (hr : u.requests.find? id = some r)
    (hstage : ∀ result, r.stage ≠ .done result) : u.result? id = none := by
  cases hresult : u.result? id with
  | none => rfl
  | some result =>
    obtain ⟨q, hq, hdone⟩ := result?_eq_some_iff.mp hresult
    rw [hr] at hq
    cases hq
    exact absurd hdone (hstage result)

/-! ## What a request may take -/

/-- **What a request may take or has taken** at a stage. -/
structure Warranted (c : SnapshotCache) (past : List (Int64 × Step)) (id : RequestId) (name : Bytes)
    (u : SnapshotCache) (stage : RequestStage) : Prop where
  /-- Whatever is cached, but for the snapshot that the request saw first, was published since. -/
  others : ∀ observed made, stage.observed? = some observed →
    u.snapshots.find? name = some made → some made.id ≠ observed →
    PublishedMeanwhile c past id name made
  result : ∀ made, stage.result? = some (.ok made) →
    FreshMeanwhile c past id name made ∨ PublishedMeanwhile c past id name made

/-- A request that is not to look again has only to account for its result. -/
theorem Warranted.of_unobserved {stage : RequestStage} (hobserved : stage.observed? = none)
    (hresult : ∀ made, stage.result? = some (.ok made) →
      FreshMeanwhile c past id name made ∨ PublishedMeanwhile c past id name made) :
    Warranted c past id name u stage where
  others observed made h := by
    rw [hobserved] at h
    cases h
  result := hresult

/-- A step after which nothing is cached but what was, or what it publishes, keeps what a request
may take that sees and has what it saw and had. -/
theorem Warranted.later (h : Warranted c past id name u r.stage) (hrun : c.run? past = some u)
    (hr : u.requests.find? id = some r)
    (hback : ∀ made, u'.snapshots.find? name = some made → u.snapshots.find? name = some made ∨
      made.snapshot.name = name ∧ ∃ j, u.event now a = .published j made)
    {stage : RequestStage} (hobserved : ∀ observed, stage.observed? = some observed →
      r.stage.observed? = some observed)
    (hresult : ∀ made, stage.result? = some (.ok made) → r.stage.result? = some (.ok made)) :
    Warranted c (past ++ [(now, a)]) id name u' stage where
  others observed made hsees hcached hother := by
    have hsaw := hobserved observed hsees
    rcases hback made hcached with hold | ⟨hname, j, hshown⟩
    · exact (h.others observed made hsaw hold hother).append _
    · have hpending : u.result? id = none := by
        apply result?_eq_none hr
        intro result hdone
        rw [hdone] at hsaw
        cases hsaw
      exact ⟨hname, u, now, a, j, .last hrun hpending now a, hshown⟩
  result made hhas := by
    rcases h.result made (hresult made hhas) with hfresh | hpublished
    · exact .inl (hfresh.append _)
    · exact .inr (hpublished.append _)

/-- What a turn leaves cached was cached before, or is what it publishes. -/
theorem Turn.find?_back (turn : Turn u now id r e u')
    (hcached : u'.snapshots.find? name = some made) : u.snapshots.find? name = some made ∨
      made.snapshot.name = name ∧ ∃ j, e = .published j made := by
  rcases turn.find?_snapshot hcached with hold | ⟨rfl, lock, keys, -, rfl, hshown⟩
  · exact .inl hold
  · exact .inr ⟨rfl, id, hshown⟩

/-- **A turn of the request keeps to what it may take.** -/
theorem Warranted.turn (h : Warranted c past id name u r.stage) (hrun : c.run? past = some u)
    (hr : u.requests.find? id = some r) (hname : r.name = name)
    (turn : Turn u now id r (u.event now a) u') : ∃ stage,
      u'.requests.find? id = some { r with stage } ∧
      Warranted c (past ++ [(now, a)]) id name u' stage := by
  have hpending : (∀ result, r.stage ≠ .done result) →
      Meanwhile c (past ++ [(now, a)]) id u now a := fun hstage =>
    .last hrun (result?_eq_none hr hstage) now a
  generalize he : u.event now a = e at turn
  cases turn with
  | missed hstage absent =>
    refine ⟨_, find?_move_self .., { others := ?_, result := ?_ }⟩
    · intro observed made _ hcached
      have hcached : u.snapshots.find? name = some made := hcached
      rw [← hname, absent] at hcached
      cases hcached
    · intro made hmade
      cases hmade
  | outdated hstage found expired =>
    refine ⟨_, find?_move_self .., { others := ?_, result := ?_ }⟩
    · intro observed made hsees hcached hother
      have hcached : u.snapshots.find? name = some made := hcached
      rw [← hname, found] at hcached
      cases hcached
      cases hsees
      exact absurd rfl hother
    · intro made hmade
      cases hmade
  | served hstage found fresh =>
    refine ⟨_, find?_move_self .., .of_unobserved rfl fun made hmade => ?_⟩
    cases hmade
    rw [hname] at found
    exact .inl ⟨u, now, a, hpending (by simp [hstage]), found, fresh⟩
  | @taken observed lock current hstage found usable =>
    refine ⟨_, find?_move_self .., .of_unobserved rfl fun made hmade => ?_⟩
    cases hmade
    rw [hname] at found
    rcases usable with hother | fresh
    · have hsaw : r.stage.observed? = some observed := by rw [hstage]; rfl
      exact .inr ((h.others observed current hsaw found hother).append _)
    · exact .inl ⟨u, now, a, hpending (by simp [hstage]), found, fresh⟩
  | published hstage =>
    refine ⟨_, find?_move_self .., .of_unobserved rfl fun made hmade => ?_⟩
    cases hmade
    exact .inr ⟨hname, u, now, a, id, hpending (by simp [hstage]), he⟩
  | joined hstage _ | made hstage _ | acquired hstage _ | left hstage | dropped hstage =>
    refine ⟨_, find?_move_self .., h.later hrun hr ?_ ?_ ?_⟩
    · exact fun made hcached => .inl hcached
    · intro observed hsees
      rw [hstage]
      exact hsees
    · intro made hhas
      rw [hstage]
      exact hhas
  | lacked _ _ | began _ | gave _ _ | failed _ _ =>
    exact ⟨_, find?_move_self .., .of_unobserved rfl (by simp [RequestStage.result?])⟩

/-- **A step keeps to what the request may take.** -/
theorem Warranted.step (h : Warranted c past id name u r.stage) (hs : Sound u)
    (hrun : c.run? past = some u) (hr : u.requests.find? id = some r) (hname : r.name = name)
    (hstep : u.step? now a = some u') : ∃ stage,
      u'.requests.find? id = some { r with stage } ∧
      Warranted c (past ++ [(now, a)]) id name u' stage := by
  have kept : (∀ made, u'.snapshots.find? name = some made → u.snapshots.find? name = some made ∨
      made.snapshot.name = name ∧ ∃ j, u.event now a = .published j made) →
      Warranted c (past ++ [(now, a)]) id name u' r.stage := fun hback =>
    h.later hrun hr hback (fun _ h => h) fun _ h => h
  rcases step?_cases hstep with ⟨m, less, ttl, rfl, rfl⟩ | ⟨m, rfl, rfl⟩ | ⟨j, q, -, hq, turn⟩
  · exact ⟨r.stage, hs.find?_request_old hr .., kept fun made hcached => .inl hcached⟩
  · refine ⟨r.stage, hr, kept fun made hcached => .inl ?_⟩
    rw [find?_snapshots_invalidate] at hcached
    split at hcached
    · cases hcached
    · exact hcached
  · by_cases hid : id = j
    · subst hid
      rw [hr] at hq
      cases hq
      exact h.turn hrun hr hname turn
    · refine ⟨r.stage, ?_, kept fun made hcached => turn.find?_back hcached⟩
      rw [turn.find?_other hid, hr]

/-- **A run keeps to what the request may take.** -/
theorem Warranted.run (h : Warranted c past id name u r.stage) (hs : Sound u)
    (hpast : c.run? past = some u) (hr : u.requests.find? id = some r) (hname : r.name = name)
    (hrun : u.run? steps = some t) : ∃ stage,
      t.requests.find? id = some { r with stage } ∧
      Warranted c (past ++ steps) id name t stage := by
  induction steps generalizing past u r with
  | nil =>
    cases hrun
    rw [List.append_nil]
    exact ⟨r.stage, hr, h⟩
  | cons timed rest ih =>
    obtain ⟨now, a⟩ := timed
    obtain ⟨u', hstep, hrest, -⟩ := Machine.run?_cons_eq_some hrun
    obtain ⟨stage, hr', h'⟩ := h.step hs hpast hr hname hstep
    have hpast' : c.run? (past ++ [(now, a)]) = some u' := by
      rw [run?, Machine.run?_append]
      exact (congrArg (Option.bind · _) hpast).trans (Machine.run?_singleton hstep)
    have hlater := ih h' (hs.step (transition_of_step? hstep)) hpast' hr' hname hrest
    rw [List.append_assoc, List.singleton_append] at hlater
    exact hlater

/-! ## The contract -/

/-- The snapshot was cached for the name and its lifetime was not over, at some step while the request
was under way. -/
def DueMeanwhile (c : SnapshotCache) (steps : List (Int64 × Step)) (id : RequestId) (name : Bytes)
    (made : Cached) : Prop :=
  ∃ u now a, Meanwhile c steps id u now a ∧ u.snapshots.find? name = some made ∧
    now.toInt ≤ made.snapshot.due

/-- **A request that comes and is answered**, with the steps that are taken after it came. -/
structure Answered (c : SnapshotCache) (name : Bytes) (came : SnapshotCache)
    (steps : List (Int64 × Step)) (made : Cached) : Prop where
  comes : ∃ less timeToLive, came = (c.request name less timeToLive).1
  returned : ∃ t, came.run? steps = some t ∧ t.result? c.nextRequest = some (.ok made)

variable {came : SnapshotCache} {arrival : Int64}

/-- An answer was fresh, as far as the cache can tell, or published while the request was under way.
-/
theorem Answered.fresh_or_published (h : Answered c name came steps made) (hs : Sound c) :
    FreshMeanwhile came steps c.nextRequest name made ∨
      PublishedMeanwhile came steps c.nextRequest name made := by
  obtain ⟨⟨less, timeToLive, rfl⟩, t, hrun, hresult⟩ := h
  have hr : (c.request name less timeToLive).1.requests.find? c.nextRequest =
      some { name, less, timeToLive } := (find?_request ..).trans (if_pos rfl)
  have hstart : Warranted (c.request name less timeToLive).1 [] c.nextRequest name
      (c.request name less timeToLive).1 .looking :=
    .of_unobserved rfl (by simp [RequestStage.result?])
  obtain ⟨stage, hr', hwarranted⟩ := hstart.run (hs.request name less timeToLive) rfl hr rfl hrun
  obtain ⟨q, hq, hdone⟩ := result?_eq_some_iff.mp hresult
  rw [hr'] at hq
  cases hq
  apply hwarranted.result made
  rw [show stage = .done (.ok made) from hdone]
  rfl

/-- What is published after a request came is none of what was cached by then. -/
theorem Answered.nextSnapshot_le_of_published (h : Answered c name came steps made)
    {j : RequestId} (hmem : .published j made ∈ came.trace steps) : c.nextSnapshot ≤ made.id := by
  obtain ⟨⟨less, timeToLive, rfl⟩, t, hrun, -⟩ := h
  exact (le_id_of_published hrun).2 j made hmem

/-- An answer is none of the snapshots that had expired, as far as the cache can tell, when the request
came. -/
theorem Answered.id_ne_of_isExpired (h : Answered c name came steps made) (hs : Sound c)
    (hordered : ∀ s ∈ steps, arrival ≤ s.1) {old : Cached}
    (hcached : c.snapshots.find? name = some old) (holder : old.id < c.nextSnapshot)
    (hexpired : old.snapshot.isExpired arrival = true) : made.id ≠ old.id := by
  rintro hid
  rcases h.fresh_or_published hs with ⟨u, now, a, ⟨⟨first, rest, rfl, hfirst⟩, -⟩, hmade, hfresh⟩ |
    ⟨-, u, now, a, j, ⟨⟨first, rest, rfl, hfirst⟩, -⟩, hshown⟩
  · have hle : arrival ≤ now :=
      hordered (now, a) (List.mem_append_right _ List.mem_cons_self)
    rcases cached_since hfirst hmade with hbefore | ⟨j, hpublished⟩
    · obtain ⟨⟨less, timeToLive, rfl⟩, -⟩ := h
      have hsame : c.snapshots.find? name = some made := hbefore
      rw [hcached] at hsame
      cases hsame
      rw [Snapshot.isExpired_mono hexpired hle] at hfresh
      cases hfresh
    · have hmem : .published j made ∈ came.trace (first ++ (now, a) :: rest) := by
        rw [trace, Machine.trace_append hfirst]
        exact List.mem_append_left _ hpublished
      have hnew := h.nextSnapshot_le_of_published hmem
      omega
  · have hmem : .published j made ∈ came.trace (first ++ (now, a) :: rest) :=
      hshown ▸ Machine.event_mem_trace hfirst (now, a) rest
    have hnew := h.nextSnapshot_le_of_published hmem
    omega

/-- A request that comes and finds what is cached fresh, as far as the cache can tell, is answered
with it at once. -/
theorem answered_of_fresh {old : Cached} (hcached : c.snapshots.find? name = some old)
    (hfresh : old.snapshot.isExpired arrival = false) :
    Answered c name (c.request name Bytes.less 0).1 [(arrival, .look c.nextRequest)] old where
  comes := ⟨_, _, rfl⟩
  returned := by
    let ask : Request := { name, less := Bytes.less, timeToLive := 0 }
    have hr : (c.request name Bytes.less 0).1.requests.find? c.nextRequest = some ask :=
      (find?_request ..).trans (if_pos rfl)
    have hcached : (c.request name Bytes.less 0).1.snapshots.find? ask.name = some old := hcached
    have hlook : (c.request name Bytes.less 0).1.look? c.nextRequest arrival =
        some ((c.request name Bytes.less 0).1.move c.nextRequest ask (.done (.ok old))) := by
      simp only [look?, hr, ask, hcached, hfresh, Bool.false_eq_true, if_false]
    exact ⟨_, Machine.run?_singleton (m := machine) hlook,
      result?_eq_some_iff.mpr ⟨_, find?_move_self .., rfl⟩⟩

/-- **How fresh the answers are** to the requests for a name that come to a cache. -/
structure AnswersFreshly (c : SnapshotCache) (name : Bytes) : Prop where
  /-- As far as the cache can tell, an answer was fresh, or it is new. -/
  judged : ∀ came steps made, Answered c name came steps made →
    FreshMeanwhile came steps c.nextRequest name made ∨
      PublishedMeanwhile came steps c.nextRequest name made
  /-- By creation and lifetime it was due, or it is new, exactly if it was not due before all times. -/
  due : ∀ came steps made, Answered c name came steps made →
    ((DueMeanwhile came steps c.nextRequest name made ∨
        PublishedMeanwhile came steps c.nextRequest name made) ↔
      -2 ^ 63 ≤ made.snapshot.due ∨ PublishedMeanwhile came steps c.nextRequest name made)
  /-- As long as no step is taken before a request came, a snapshot whose lifetime was over by then is
  never the answer, exactly if it was judged rightly then. -/
  overdue : ∀ arrival old, c.snapshots.find? name = some old →
    old.snapshot.due < arrival.toInt →
    ((∀ came steps made, Answered c name came steps made → (∀ s ∈ steps, arrival ≤ s.1) →
      made.id ≠ old.id) ↔ ¬ old.snapshot.Misjudged arrival)

/-- **Answers are fresh or new, as far as lifetimes can be told.** Whatever else happens, a request
that is answered with a snapshot is answered with one that was cached and had not expired at some
step taken while the request was under way, or that was published while it was. What the cache takes
for fresh is due, unless its deadline wrapped around from before all times; and for the same reason
alone a snapshot that was due before a request came may be the answer to it. -/
theorem answers_freshly {before : List (Int64 × Step)}
    (hbefore : ({} : SnapshotCache).run? before = some c) (name : Bytes) :
    AnswersFreshly c name := by
  have hs : Sound c := Sound.empty.of_run hbefore
  refine ⟨fun came steps made h => h.fresh_or_published hs, ?_, ?_⟩
  · intro came steps made h
    constructor
    · rintro (⟨u, now, a, -, -, hdue⟩ | hpublished)
      · exact .inl (Int.le_trans now.le_toInt hdue)
      · exact .inr hpublished
    · rintro (hlow | hpublished)
      · rcases h.fresh_or_published hs with ⟨u, now, a, hmeanwhile, hmade, hfresh⟩ | hpublished
        · exact .inl ⟨u, now, a, hmeanwhile, hmade, (Snapshot.le_due_iff hfresh).mpr hlow⟩
        · exact .inr hpublished
      · exact .inr hpublished
  · intro arrival old hcached hover
    have hjudged := old.snapshot.isExpired_iff_due_iff arrival
    constructor
    · intro hnever
      rw [← hjudged]
      refine iff_of_true (Bool.not_eq_false _ ▸ fun hfresh => ?_) hover
      refine hnever _ _ _ (answered_of_fresh hcached hfresh) (fun s hs => ?_) rfl
      cases List.mem_singleton.mp hs
      exact Int64.le_refl arrival
    · intro hright came steps made h hordered
      exact h.id_ne_of_isExpired hs hordered hcached (lt_nextSnapshot_of_cached hbefore hcached)
        ((hjudged.mpr hright).mpr hover)

/-- A snapshot with a given lifetime. -/
def lasting (timeToLive : Int64) (id : Nat) (keys : List Bytes) (createdAt : Int64) : Cached where
  id := id
  snapshot :=
    { name := [115], keys := (KeyOrder.sort Bytes.less keys).toArray, less := Bytes.less,
      createdAt, timeToLive }

/-- A request has published one. -/
def lastingSteps (timeToLive : Int64) : List (Int64 × Step) :=
  [(0, .request [115] Bytes.less timeToLive), (0, .look 0), (0, .join 0), (0, .acquire 0),
    (0, .review 0), (0, .begin 0), (0, .enumerate 0 (.ok [[97]])), (0, .publish 0), (0, .leave 0),
    (0, .drop 0)]

/-- The cache after it. -/
def lastingCache (timeToLive : Int64) : SnapshotCache where
  snapshots := [([115], lasting timeToLive 0 [[97]] 0)]
  locks := [([115], 0)]
  requests :=
    [(0, { name := [115], less := Bytes.less, timeToLive,
           stage := .done (.ok (lasting timeToLive 0 [[97]] 0)) })]
  nextLock := 1
  nextSnapshot := 1
  nextRequest := 1

/-- A second request finds a snapshot expired that has no lifetime, and waits for a third, whose
snapshot has expired too by the time the second looks again. -/
def outlastedSteps : List (Int64 × Step) :=
  [(1, .look 1), (1, .join 1), (1, .request [115] Bytes.less 0), (1, .look 2), (1, .join 2),
    (1, .acquire 2), (1, .review 2), (1, .begin 2), (2, .enumerate 2 (.ok [[98], [97]])),
    (2, .publish 2), (2, .leave 2), (3, .acquire 1), (3, .review 1), (3, .leave 1), (3, .drop 1)]

/-- The second request is answered with a snapshot that has expired and is new. -/
theorem outlasted_answered_freshly :
    let came := ((lastingCache 0).request [115] Bytes.less 0).1
    let made := lasting 0 1 [[98], [97]] 2
    made.snapshot.isExpired 3 = true ∧ Answered (lastingCache 0) [115] came outlastedSteps made ∧
    (DueMeanwhile came outlastedSteps 1 [115] made ∨
      PublishedMeanwhile came outlastedSteps 1 [115] made) ∧
    ∀ old, (lastingCache 0).snapshots.find? [115] = some old → made.id ≠ old.id := by
  have hbefore : ({} : SnapshotCache).run? (lastingSteps 0) = some (lastingCache 0) := rfl
  obtain ⟨-, hdue, hoverdue⟩ := answers_freshly hbefore [115]
  have hanswered : Answered (lastingCache 0) [115] ((lastingCache 0).request [115] Bytes.less 0).1
      outlastedSteps (lasting 0 1 [[98], [97]] 2) := ⟨⟨_, _, rfl⟩, _, rfl, rfl⟩
  refine ⟨rfl, hanswered, (hdue _ _ _ hanswered).mpr (.inl (by decide)), fun old hold => ?_⟩
  cases hold
  exact (hoverdue 1 _ rfl (by decide)).mpr (by decide) _ _ _ hanswered (by decide)

/-- **A snapshot whose lifetime was over is served as fresh**: it was over before all times, and the
deadline wrapped around to a time to come. -/
theorem bygone_served : ∃ c came steps made,
    ({} : SnapshotCache).run? (lastingSteps (-10000000000000)) = some c ∧
    c.snapshots.find? [115] = some made ∧ made.snapshot.due < 1 ∧
    Answered c [115] came steps made ∧ (∀ s ∈ steps, 1 ≤ s.1) ∧
    ¬ DueMeanwhile came steps c.nextRequest [115] made ∧
    ¬ PublishedMeanwhile came steps c.nextRequest [115] made := by
  have hfresh : (lasting (-10000000000000) 0 [[97]] 0).snapshot.isExpired 1 = false := by decide
  have hdue : (lasting (-10000000000000) 0 [[97]] 0).snapshot.due < -2 ^ 63 := by decide
  refine ⟨lastingCache (-10000000000000), _, _, _, rfl, rfl, by omega, answered_of_fresh rfl hfresh,
    by decide, ?_, ?_⟩
  · rintro ⟨u, now, a, -, -, hle⟩
    have hlow := now.le_toInt
    omega
  · rintro ⟨-, u, now, a, j, ⟨⟨first, rest, hsteps, hfirst⟩, -⟩, hshown⟩
    have hmem := Machine.event_mem_trace hfirst (now, a) rest
    rw [← hsteps] at hmem
    have hsilent : u.event now a = .silent := List.mem_singleton.mp hmem
    rw [hshown] at hsilent
    cases hsilent

end SnapshotCache

end Keyspace
