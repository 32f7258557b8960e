import Keyspace.Proofs.CacheLocks

/-!
# Requests that nobody disturbs

What becomes of a request that takes all its steps while nothing else happens. The **first look**
decides: a snapshot that has not expired by then is the result, and otherwise the keys are
enumerated once, however late the later steps are taken, because what has expired stays expired
(`Served`). `Stands` says at each stage what has happened so far, every step of the request keeps it
(`Stands.step`), and at the last stage it is `Served`.

Such a request comes to its end: no stage but the enumeration is left to wait for anything, since no
other request owns a lock (`Idle`). `getOrCompute` is the request that takes its steps at three
readings of the clock (`getOrCompute_undisturbed`).
-/

namespace Keyspace

/-- A snapshot that has expired stays expired. -/
theorem Snapshot.isExpired_mono {s : Snapshot} {now later : Int64} (h : s.isExpired now = true)
    (hle : now ≤ later) : s.isExpired later = true := by
  rw [isExpired, decide_eq_true_eq] at h ⊢
  exact Int64.lt_of_lt_of_le h hle

/-- How many steps a request takes at most before its result or its enumeration. -/
def RequestStage.remaining : RequestStage → Nat
  | looking => 6
  | missed _ => 5
  | waiting _ _ => 4
  | holding _ _ => 3
  | lacking _ => 1
  | enumerating _ => 0
  | enumerated _ _ => 3
  | leaving _ _ => 2
  | dropping _ _ => 1
  | done _ => 0

namespace SnapshotCache

variable {c c₀ c' : SnapshotCache} {now first : Int64} {id : RequestId} {r ask : Request} {e : Event}
  {a : Step} {steps : List (Int64 × Step)} {past : List (Outcome (List Bytes))}
  {result : Outcome Cached}

/-- The step is one of the request. -/
def Step.Of (id : RequestId) : Step → Prop
  | .look i | .join i | .acquire i | .review i | .begin i | .enumerate i _ | .publish i | .leave i
  | .drop i => i = id
  | .request _ _ _ | .invalidate _ => False

/-- What the enumeration gave that ends with a step. -/
def Step.enumeration? : Step → Option (Outcome (List Bytes))
  | .enumerate _ keys => some keys
  | _ => none

/-- What the enumerations gave that end in a list of steps. -/
def enumerations (steps : List (Int64 × Step)) : List (Outcome (List Bytes)) :=
  steps.filterMap fun timed => timed.2.enumeration?

/-! ## The steps of one request -/

/-- A step of a request is a turn of it. -/
theorem turn_of_own (hown : a.Of id) (h : c.step? now a = some c') :
    ∃ r e, c.requests.find? id = some r ∧ Turn c now id r e c' := by
  have turned : ∀ {e}, (∃ r, c.requests.find? id = some r ∧ Turn c now id r e c') →
      ∃ r e, c.requests.find? id = some r ∧ Turn c now id r e c' := by
    rintro e ⟨r, hr, turn⟩
    exact ⟨r, e, hr, turn⟩
  cases a with
  | request _ _ _ | invalidate _ => exact absurd hown not_false
  | look i => exact turned (turn_of_look? (hown ▸ h))
  | join i => exact turned (turn_of_join? (hown ▸ h))
  | acquire i => exact turned (turn_of_acquire? (hown ▸ h))
  | review i => exact turned (turn_of_review? (hown ▸ h))
  | begin i => exact turned (turn_of_begin? (hown ▸ h))
  | enumerate i keys => exact turned (turn_of_enumerate? (hown ▸ h))
  | publish i => exact turned (turn_of_publish? (hown ▸ h))
  | leave i => exact turned (turn_of_leave? (hown ▸ h))
  | drop i => exact turned (turn_of_drop? (hown ▸ h))

/-- The end of an enumeration is the one step of a request that enumerates, and of no other. -/
theorem enumeration?_of_own (hr : c.requests.find? id = some r) (hown : a.Of id)
    (h : c.step? now a = some c') :
    (∃ lock, r.stage = .enumerating lock) ↔ ∃ keys, a = .enumerate id keys := by
  obtain ⟨name, less, ttl, stage⟩ := r
  cases a with
  | request _ _ _ | invalidate _ => exact absurd hown not_false
  | enumerate i keys =>
    cases hown
    refine iff_of_true ?_ ⟨keys, rfl⟩
    cases stage with
    | enumerating lock => exact ⟨lock, rfl⟩
    | _ => simp [step?, enumerate?, hr] at h
  | look i | join i | acquire i | review i | begin i | publish i | leave i | drop i =>
    cases hown
    refine iff_of_false ?_ (by rintro ⟨keys, hkeys⟩; cases hkeys)
    rintro ⟨lock, rfl⟩
    simp [step?, look?, join?, acquire?, review?, begin?, publish?, leave?, drop?, hr] at h

/-! ## What has happened so far -/

/-- The snapshots are the ones that they were. -/
structure Untouched (c₀ c : SnapshotCache) : Prop where
  snapshots : c.snapshots = c₀.snapshots
  counter : c.nextSnapshot = c₀.nextSnapshot

/-- The name has a lock, and the other names have those that they had. -/
structure Locked (c₀ : SnapshotCache) (name : Bytes) (c : SnapshotCache) : Prop where
  own : (c.locks.find? name).isSome
  others : ∀ m ≠ name, c.locks.find? m = c₀.locks.find? m

/-- Nothing is cached for the name, or what is cached has expired. -/
def Stale (c₀ : SnapshotCache) (name : Bytes) (first : Int64) : Prop :=
  ∀ seen, c₀.snapshots.find? name = some seen → seen.snapshot.isExpired first = true

/-- **What a request comes to**, with what its enumerations gave, its result, and the cache that it
leaves. It looked at the cache `c₀` for the first time at the moment `first`. -/
inductive Served (c₀ : SnapshotCache) (ask : Request) (first : Int64) :
    List (Outcome (List Bytes)) → Outcome Cached → SnapshotCache → Prop
  | found {seen : Cached} {c : SnapshotCache}
    (cached : c₀.snapshots.find? ask.name = some seen)
    (fresh : seen.snapshot.isExpired first = false) (same : Untouched c₀ c)
    (locks : c.locks = c₀.locks) : Served c₀ ask first [] (.ok seen) c
  | computed {keys : List Bytes} {now : Int64} {c : SnapshotCache} (stale : Stale c₀ ask.name first)
    (later : first ≤ now) (locked : Locked c₀ ask.name c)
    (snapshots : c.snapshots = c₀.snapshots.put ask.name (c₀.make ask keys now))
    (counter : c.nextSnapshot = c₀.nextSnapshot + 1) :
    Served c₀ ask first [.ok keys] (.ok (c₀.make ask keys now)) c
  | failed {f : Failure} {c : SnapshotCache} (stale : Stale c₀ ask.name first)
    (locked : Locked c₀ ask.name c) (same : Untouched c₀ c) :
    Served c₀ ask first [.error f] (.error f) c

/-! A move of a request concerns neither snapshots nor locks. -/

theorem Untouched.move (h : Untouched c₀ c) (id : RequestId) (r : Request)
    (stage : RequestStage) : Untouched c₀ (c.move id r stage) :=
  ⟨h.snapshots, h.counter⟩

theorem Locked.move {name : Bytes} (h : Locked c₀ name c) (id : RequestId) (r : Request)
    (stage : RequestStage) : Locked c₀ name (c.move id r stage) :=
  ⟨h.own, h.others⟩

theorem Served.move (h : Served c₀ ask first past result c) (id : RequestId) (r : Request)
    (stage : RequestStage) : Served c₀ ask first past result (c.move id r stage) := by
  cases h with
  | found cached fresh same locks =>
    exact .found cached fresh (same.move ..) locks
  | computed stale later locked snapshots counter =>
    exact .computed stale later (locked.move ..) snapshots counter
  | failed stale locked same =>
    exact .failed stale (locked.move ..) (same.move ..)

/-- What a request has seen that found nothing to take. -/
def Seen (c₀ : SnapshotCache) (name : Bytes) (first : Int64) (observed : Option Nat) : Prop :=
  ∀ seen, c₀.snapshots.find? name = some seen →
    observed = some seen.id ∧ seen.snapshot.isExpired first = true

theorem Seen.stale {name : Bytes} {observed : Option Nat} (h : Seen c₀ name first observed) :
    Stale c₀ name first :=
  fun seen hseen => (h seen hseen).2

/-- **What has happened to a request** that has looked, when it stands at a stage: what its
enumerations gave, and what the cache is. -/
def Stands (c₀ : SnapshotCache) (ask : Request) (first : Int64) (past : List (Outcome (List Bytes)))
    (c : SnapshotCache) : RequestStage → Prop
  | .looking => False
  | .missed observed =>
    past = [] ∧ Untouched c₀ c ∧ c.locks = c₀.locks ∧ Seen c₀ ask.name first observed
  | .waiting observed _ | .holding observed _ =>
    past = [] ∧ Untouched c₀ c ∧ Locked c₀ ask.name c ∧ Seen c₀ ask.name first observed
  | .lacking _ | .enumerating _ =>
    past = [] ∧ Untouched c₀ c ∧ Locked c₀ ask.name c ∧ Stale c₀ ask.name first
  | .enumerated _ keys =>
    past = [.ok keys] ∧ Untouched c₀ c ∧ Locked c₀ ask.name c ∧ Stale c₀ ask.name first
  | .leaving _ result | .dropping _ result | .done result => Served c₀ ask first past result c

/-- A request that moves is at its new stage. -/
theorem find?_move_self (c : SnapshotCache) (id : RequestId) (r : Request) (stage : RequestStage) :
    (c.move id r stage).requests.find? id = some { r with stage } := by
  rw [find?_move, if_pos rfl]

/-- The first look. -/
theorem stands_of_look (same : Untouched c₀ c) (locks : c.locks = c₀.locks)
    (hr : c.requests.find? id = some ask) (hlooks : ask.stage = .looking)
    (h : c.step? first (.look id) = some c') :
    ∃ stage, c'.requests.find? id = some { ask with stage } ∧ Stands c₀ ask first [] c' stage := by
  obtain ⟨r, hr', turn⟩ := turn_of_look? h
  rw [hr] at hr'
  cases hr'
  cases turn with
  | missed _ absent =>
    rw [same.snapshots] at absent
    refine ⟨_, find?_move_self .., rfl, same.move .., locks, fun seen hseen => ?_⟩
    rw [absent] at hseen
    cases hseen
  | outdated _ found expired =>
    rw [same.snapshots] at found
    refine ⟨_, find?_move_self .., rfl, same.move .., locks, fun seen hseen => ?_⟩
    rw [found] at hseen
    cases hseen
    exact ⟨rfl, expired⟩
  | served _ found fresh =>
    rw [same.snapshots] at found
    exact ⟨_, find?_move_self .., .found found fresh (same.move ..) locks⟩
  | joined hstage _ | made hstage _ | acquired hstage _ | taken hstage _ _ | lacked hstage _
  | failed _ hstage | left hstage | dropped hstage =>
    rw [hlooks] at hstage
    cases hstage

/-- The end of the enumeration. -/
theorem Stands.enumerate {stage : RequestStage} {keys : Outcome (List Bytes)}
    (h : Stands c₀ ask first past c stage) (hr : c.requests.find? id = some { ask with stage })
    (hstep : c.enumerate? id keys = some c') :
    ∃ stage, c'.requests.find? id = some { ask with stage } ∧
      Stands c₀ ask first (past ++ [keys]) c' stage := by
  unfold enumerate? at hstep
  split at hstep
  · next hr' =>
    rw [hr] at hr'
    cases hr'
    obtain ⟨rfl, same, locked, stale⟩ := h
    cases keys with
    | ok keys =>
      cases hstep
      exact ⟨_, find?_move_self .., rfl, same.move .., locked.move .., stale⟩
    | error f =>
      cases hstep
      exact ⟨_, find?_move_self .., .failed stale (locked.move ..) (same.move ..)⟩
  · cases hstep

/-- A turn of a request other than the end of its enumeration. -/
theorem Stands.turn {stage : RequestStage} (h : Stands c₀ ask first past c stage)
    (turn : Turn c now id { ask with stage } e c') (hle : first ≤ now)
    (hnot : ∀ lock, stage ≠ .enumerating lock) :
    ∃ stage, c'.requests.find? id = some { ask with stage } ∧
      Stands c₀ ask first past c' stage := by
  cases turn with
  | missed hstage _ | outdated hstage _ _ | served hstage _ _ =>
    subst hstage
    exact absurd h not_false
  | gave _ hstage | failed _ hstage => exact absurd hstage (hnot _)
  | joined hstage found =>
    subst hstage
    obtain ⟨rfl, same, locks, seen⟩ := h
    refine ⟨_, find?_move_self .., rfl, same.move .., ⟨?_, fun m _ => ?_⟩, seen⟩
    · exact Option.isSome_of_eq_some found
    · exact congrArg (fun locks => locks.find? m) locks
  | made hstage absent =>
    subst hstage
    obtain ⟨rfl, same, locks, seen⟩ := h
    refine ⟨_, find?_move_self .., rfl, ⟨same.snapshots, same.counter⟩, ⟨?_, fun m hm => ?_⟩, seen⟩
    · exact Option.isSome_of_eq_some ((Assoc.find?_put ..).trans (if_pos rfl))
    · exact ((Assoc.find?_put ..).trans (if_neg hm)).trans (by rw [locks])
  | acquired hstage free =>
    subst hstage
    obtain ⟨rfl, same, locked, seen⟩ := h
    exact ⟨_, find?_move_self .., rfl, same.move .., locked.move .., seen⟩
  | taken hstage found usable =>
    subst hstage
    obtain ⟨rfl, same, locked, seen⟩ := h
    rw [same.snapshots] at found
    obtain ⟨rfl, hexpired⟩ := seen _ found
    rcases usable with hother | hfresh
    · exact absurd rfl hother
    · rw [Snapshot.isExpired_mono hexpired hle] at hfresh
      cases hfresh
  | lacked hstage _ =>
    subst hstage
    obtain ⟨rfl, same, locked, seen⟩ := h
    exact ⟨_, find?_move_self .., rfl, same.move .., locked.move .., seen.stale⟩
  | began hstage =>
    subst hstage
    obtain ⟨rfl, same, locked, stale⟩ := h
    exact ⟨_, find?_move_self .., rfl, same.move .., locked.move .., stale⟩
  | @published lock keys hstage =>
    subst hstage
    obtain ⟨rfl, same, locked, stale⟩ := h
    have hmade : c.make { ask with stage := .enumerated lock keys } keys now =
        c₀.make ask keys now := by
      simp only [make, same.counter]
    rw [hmade]
    refine ⟨_, find?_move_self .., .computed stale hle ⟨locked.own, locked.others⟩ ?_ ?_⟩
    · exact congrArg (fun m => m.put ask.name (c₀.make ask keys now)) same.snapshots
    · exact congrArg (· + 1) same.counter
  | left hstage =>
    subst hstage
    exact ⟨_, find?_move_self .., h.move id _ _⟩
  | dropped hstage =>
    subst hstage
    exact ⟨_, find?_move_self .., h.move id _ _⟩

/-- **Every step of the request keeps what it stands for.** -/
theorem Stands.step {stage : RequestStage} (h : Stands c₀ ask first past c stage)
    (hr : c.requests.find? id = some { ask with stage }) (hown : a.Of id) (hle : first ≤ now)
    (hstep : c.step? now a = some c') :
    ∃ stage, c'.requests.find? id = some { ask with stage } ∧
      Stands c₀ ask first (past ++ a.enumeration?.toList) c' stage := by
  have hends := enumeration?_of_own hr hown hstep
  by_cases hend : ∃ keys, a = .enumerate id keys
  · obtain ⟨keys, rfl⟩ := hend
    exact h.enumerate hr hstep
  · have hnone : a.enumeration? = none := by
      cases a with
      | enumerate i keys =>
        cases hown
        exact absurd ⟨keys, rfl⟩ hend
      | _ => rfl
    obtain ⟨r, e, hr', turn⟩ := turn_of_own hown hstep
    rw [hr] at hr'
    cases hr'
    rw [hnone, Option.toList_none, List.append_nil]
    exact h.turn turn hle fun lock hlock => hend (hends.mp ⟨lock, hlock⟩)

/-- All its steps keep it. -/
theorem Stands.run {stage : RequestStage} (h : Stands c₀ ask first past c stage)
    (hr : c.requests.find? id = some { ask with stage }) (hown : ∀ s ∈ steps, s.2.Of id)
    (hlater : ∀ s ∈ steps, first ≤ s.1) (hrun : c.run? steps = some c') :
    ∃ stage, c'.requests.find? id = some { ask with stage } ∧
      Stands c₀ ask first (past ++ enumerations steps) c' stage := by
  induction steps generalizing past c stage with
  | nil =>
    cases hrun
    exact ⟨stage, hr, by rwa [enumerations, List.filterMap_nil, List.append_nil]⟩
  | cons timed rest ih =>
    obtain ⟨now, a⟩ := timed
    obtain ⟨c₁, hstep, hrest, -⟩ := Machine.run?_cons_eq_some hrun
    obtain ⟨stage₁, hr₁, h₁⟩ :=
      h.step hr (hown _ List.mem_cons_self) (hlater _ List.mem_cons_self) hstep
    obtain ⟨stage', hr', h'⟩ := ih h₁ hr₁ (fun s hs => hown s (List.mem_cons_of_mem _ hs))
      (fun s hs => hlater s (List.mem_cons_of_mem _ hs)) hrest
    refine ⟨stage', hr', ?_⟩
    have hcons : enumerations ((now, a) :: rest) = a.enumeration?.toList ++ enumerations rest := by
      rw [enumerations, List.filterMap_cons]
      cases a.enumeration? <;> rfl
    rwa [hcons, ← List.append_assoc]

/-- The steps of a request leave the other requests alone. -/
theorem find?_other_of_run (hown : ∀ s ∈ steps, s.2.Of id) (hrun : c.run? steps = some c')
    {j : RequestId} (hj : j ≠ id) : c'.requests.find? j = c.requests.find? j := by
  induction steps generalizing c with
  | nil =>
    cases hrun
    rfl
  | cons timed rest ih =>
    obtain ⟨c₁, hstep, hrest, -⟩ := Machine.run?_cons_eq_some hrun
    obtain ⟨r, e, -, turn⟩ := turn_of_own (hown _ List.mem_cons_self) hstep
    obtain ⟨stage, hrequests, -⟩ := turn.requests_eq
    rw [ih (fun s hs => hown s (List.mem_cons_of_mem _ hs)) hrest, hrequests, Assoc.find?_put,
      if_neg hj]

/-! ## The end of a request -/

/-- **A request that nobody disturbs**, from its arrival to its result, at times that do not
decrease. -/
structure Undisturbed (c : SnapshotCache) (ask : Request) (first : Int64)
    (steps : List (Int64 × Step)) (result : Outcome Cached) (c' : SnapshotCache) : Prop where
  arrives : ask.stage = .looking
  looks : ∃ arrival rest, steps =
    (arrival, .request ask.name ask.less ask.timeToLive) :: (first, .look c.nextRequest) :: rest
  own : ∀ s ∈ steps.tail, s.2.Of c.nextRequest
  ordered : steps.Pairwise fun s s' => s.1 ≤ s'.1
  run : c.run? steps = some c'
  done : c'.result? c.nextRequest = some result

/-- The other requests are not seen. -/
theorem Undisturbed.find?_other (h : Undisturbed c ask first steps result c') {j : RequestId}
    (hj : j ≠ c.nextRequest) : c'.requests.find? j = c.requests.find? j := by
  obtain ⟨-, ⟨arrival, rest, rfl⟩, hown, -, hrun, -⟩ := h
  obtain ⟨c₁, harrival, hrun, -⟩ := Machine.run?_cons_eq_some hrun
  cases harrival
  rw [find?_other_of_run hown hrun hj, find?_request, if_neg hj]

/-- **What a request comes to that nobody disturbs** is decided by its first look. -/
theorem Undisturbed.served (h : Undisturbed c ask first steps result c') :
    Served c ask first (enumerations steps) result c' := by
  obtain ⟨harrives, ⟨arrival, rest, rfl⟩, hown, hordered, hrun, hdone⟩ := h
  obtain ⟨c₁, harrival, hrun, -⟩ := Machine.run?_cons_eq_some hrun
  cases harrival
  obtain ⟨c₂, hlook, hrun, -⟩ := Machine.run?_cons_eq_some hrun
  have hr : (c.request ask.name ask.less ask.timeToLive).1.requests.find? c.nextRequest =
      some ask := by
    rw [find?_request, if_pos rfl, ← harrives]
  have same : Untouched c (c.request ask.name ask.less ask.timeToLive).1 := ⟨rfl, rfl⟩
  obtain ⟨stage, hr₂, hstands⟩ := stands_of_look same rfl hr harrives hlook
  have hlater : ∀ s ∈ rest, first ≤ s.1 := (List.pairwise_cons.mp hordered.tail).1
  obtain ⟨stage', hr', hstands'⟩ := hstands.run hr₂
    (fun s hs => hown s (List.mem_cons_of_mem _ hs)) hlater hrun
  obtain ⟨r, hfound, hstage⟩ := result?_eq_some_iff.mp hdone
  rw [hr'] at hfound
  cases hfound
  cases hstage
  exact hstands'

/-! ## Nothing is in its way -/

/-- **No request is under way**: every one has its result. -/
structure Idle (c : SnapshotCache) : Prop where
  keys : c.requests.keys.Nodup
  done : ∀ id r, c.requests.find? id = some r → ∃ result, r.stage = .done result

/-- No request but one owns a lock. -/
structure Alone (c : SnapshotCache) (id : RequestId) : Prop where
  keys : c.requests.keys.Nodup
  others : ∀ j r, j ≠ id → c.requests.find? j = some r → r.stage.owned? = none

theorem Alone.request (h : Idle c) (name : Bytes) (less : Comparison) (timeToLive : Int64) :
    Alone (c.request name less timeToLive).1 c.nextRequest where
  keys := Assoc.nodup_keys_put h.keys _ _
  others j r hj hr := by
    rw [find?_request, if_neg hj] at hr
    obtain ⟨result, hstage⟩ := h.done j r hr
    rw [hstage]
    rfl

theorem Alone.turn (h : Alone c id) (turn : Turn c now id r e c') : Alone c' id where
  keys := by
    obtain ⟨stage, hrequests, -⟩ := turn.requests_eq
    rw [hrequests]
    exact Assoc.nodup_keys_put h.keys _ _
  others j q hj hq := by
    obtain ⟨stage, hrequests, -⟩ := turn.requests_eq
    rw [hrequests, Assoc.find?_put, if_neg hj] at hq
    exact h.others j q hj hq

/-- A request that waits finds its lock free. -/
theorem Alone.isOwned (h : Alone c id) (hr : c.requests.find? id = some r)
    (hnone : r.stage.owned? = none) (lock : Nat) : c.isOwned lock = false := by
  refine isOwned_eq_false h.keys fun j q hq => ?_
  by_cases hj : j = id
  · rw [hj, hr] at hq
    cases hq
    rw [hnone]
    exact fun h => by cases h
  · rw [h.others j q hj hq]
    exact fun h => by cases h

/-- What a request does of itself is a step of it that ends no enumeration. -/
theorem own_of_advance? (h : c.advance? id now = some c') :
    ∃ a, a.Of id ∧ a.enumeration? = none ∧ c.step? now a = some c' := by
  simp only [advance?, Option.or_eq_some_iff] at h
  rcases h with h | ⟨-, h | ⟨-, h | ⟨-, h | ⟨-, h | ⟨-, h | ⟨-, h | ⟨-, h⟩⟩⟩⟩⟩⟩⟩
  · exact ⟨.look id, rfl, rfl, h⟩
  · exact ⟨.join id, rfl, rfl, h⟩
  · exact ⟨.acquire id, rfl, rfl, h⟩
  · exact ⟨.review id, rfl, rfl, h⟩
  · exact ⟨.begin id, rfl, rfl, h⟩
  · exact ⟨.publish id, rfl, rfl, h⟩
  · exact ⟨.leave id, rfl, rfl, h⟩
  · exact ⟨.drop id, rfl, rfl, h⟩

/-- **A request goes on by itself** until it enumerates or is done. -/
theorem Alone.advance? (h : Alone c id) (hr : c.requests.find? id = some r)
    (hnone : c.advance? id now = none) : r.stage.remaining = 0 := by
  simp only [SnapshotCache.advance?, Option.or_eq_none_iff] at hnone
  obtain ⟨hlook, hjoin, hacquire, hreview, hbegin, hpublish, hleave, hdrop⟩ := hnone
  obtain ⟨name, less, ttl, stage⟩ := r
  cases stage with
  | looking =>
    simp only [look?, hr] at hlook
    split at hlook
    · cases hlook
    · split at hlook <;> cases hlook
  | missed observed =>
    simp only [join?, hr] at hjoin
    split at hjoin <;> cases hjoin
  | waiting observed lock =>
    have hfree := h.isOwned hr rfl lock
    simp only [acquire?, hr, hfree] at hacquire
    cases hacquire
  | holding observed lock =>
    simp only [review?, hr] at hreview
    split at hreview
    · cases hreview
    · split at hreview <;> cases hreview
  | lacking lock =>
    simp only [begin?, hr] at hbegin
    cases hbegin
  | enumerated lock keys =>
    simp only [publish?, hr] at hpublish
    cases hpublish
  | leaving lock result =>
    simp only [leave?, hr] at hleave
    cases hleave
  | dropping lock result =>
    simp only [drop?, hr] at hdrop
    cases hdrop
  | enumerating lock => rfl
  | done result => rfl

/-- Each turn brings the request nearer to its enumeration or its result. -/
theorem Turn.remaining (turn : Turn c now id r e c') (hnot : ∀ lock, r.stage ≠ .enumerating lock) :
    ∃ stage, c'.requests.find? id = some { r with stage } ∧
      stage.remaining < r.stage.remaining := by
  cases turn with
  | gave _ hstage | failed _ hstage => exact absurd hstage (hnot _)
  | missed hstage _ | outdated hstage _ _ | served hstage _ _ | joined hstage _ | made hstage _
  | acquired hstage _ | taken hstage _ _ | lacked hstage _ | began hstage | published hstage
  | left hstage | dropped hstage =>
    refine ⟨_, find?_move_self .., ?_⟩
    rw [hstage]
    simp only [RequestStage.remaining]
    omega

/-- A step at a moment that is one of the request and ends no enumeration. -/
def Forward (id : RequestId) (now : Int64) (s : Int64 × Step) : Prop :=
  s.1 = now ∧ s.2.Of id ∧ s.2.enumeration? = none

/-- **What a request does of itself** takes it to its enumeration or its result. -/
theorem Alone.advance (h : Alone c id) (hr : c.requests.find? id = some r) {n : Nat}
    (hn : r.stage.remaining ≤ n) (now : Int64) :
    ∃ steps stage, (∀ s ∈ steps, Forward id now s) ∧
      c.run? steps = some (c.advance id now n) ∧
      (c.advance id now n).requests.find? id = some { r with stage } ∧ stage.remaining = 0 ∧
      Alone (c.advance id now n) id := by
  induction n generalizing c r with
  | zero => exact ⟨[], r.stage, fun s hs => (by cases hs), rfl, hr, Nat.le_zero.mp hn, h⟩
  | succ n ih =>
    rw [SnapshotCache.advance]
    split
    · next hnone => exact ⟨[], r.stage, fun s hs => (by cases hs), rfl, hr, h.advance? hr hnone, h⟩
    · next c₁ hsome =>
      obtain ⟨a, hown, hends, hstep⟩ := own_of_advance? hsome
      have hnot : ∀ lock, r.stage ≠ .enumerating lock := by
        intro lock hlock
        obtain ⟨keys, rfl⟩ := (enumeration?_of_own hr hown hstep).mp ⟨lock, hlock⟩
        cases hends
      obtain ⟨r', e, hr', turn⟩ := turn_of_own hown hstep
      rw [hr] at hr'
      cases hr'
      obtain ⟨stage₁, hr₁, hlt⟩ := turn.remaining hnot
      obtain ⟨steps, stage, hsteps, hrun, hfound, hzero, halone⟩ :=
        ih (h.turn turn) hr₁ (Nat.le_of_lt_succ (Nat.lt_of_lt_of_le hlt hn))
      refine ⟨(now, a) :: steps, stage, ?_, ?_, hfound, hzero, halone⟩
      · rintro s (_ | ⟨_, hs⟩)
        · exact ⟨rfl, hown, hends⟩
        · exact hsteps s hs
      · exact (Machine.run?_cons hstep steps).trans hrun

theorem enumerations_of_forward (h : ∀ s ∈ steps, Forward id now s) : enumerations steps = [] :=
  List.filterMap_eq_nil_iff.mpr fun s hs => (h s hs).2.2

/-- What a request does of itself keeps what it stands for. -/
theorem Alone.stands (h : Alone c id) {stage : RequestStage}
    (hstands : Stands c₀ ask first past c stage)
    (hr : c.requests.find? id = some { ask with stage }) (hle : first ≤ now) {n : Nat}
    (hn : stage.remaining ≤ n) :
    ∃ steps stage', (∀ s ∈ steps, Forward id now s) ∧
      c.run? steps = some (c.advance id now n) ∧
      (c.advance id now n).requests.find? id = some { ask with stage := stage' } ∧
      Stands c₀ ask first past (c.advance id now n) stage' ∧ stage'.remaining = 0 ∧
      Alone (c.advance id now n) id := by
  obtain ⟨steps, stage₁, hsteps, hrun, hfound, hzero, halone⟩ := h.advance hr hn now
  obtain ⟨stage₂, hfound', hstands'⟩ := hstands.run hr (fun s hs => (hsteps s hs).2.1)
    (fun s hs => (hsteps s hs).1.symm ▸ hle) hrun
  rw [hfound] at hfound'
  cases hfound'
  rw [enumerations_of_forward hsteps, List.append_nil] at hstands'
  exact ⟨steps, stage₁, hsteps, hrun, hfound, hstands', hzero, halone⟩

/-- A request that has enumerated is near its result. -/
theorem Stands.near {stage : RequestStage} (h : Stands c₀ ask first past c stage)
    (hpast : past ≠ []) : stage.remaining ≤ 3 ∧ ∀ lock, stage ≠ .enumerating lock := by
  cases stage with
  | looking => exact absurd h not_false
  | missed _ | waiting _ _ | holding _ _ | lacking _ | enumerating _ => exact absurd h.1 hpast
  | enumerated _ _ | leaving _ _ | dropping _ _ | done _ =>
    refine ⟨?_, fun _ h => by cases h⟩
    simp only [RequestStage.remaining]
    omega

/-- A request that is done, or is given the keys that it enumerates, has its result. -/
theorem Alone.finish (h : Alone c id) {stage : RequestStage}
    (hstands : Stands c₀ ask first past c stage)
    (hr : c.requests.find? id = some { ask with stage }) (hle : first ≤ now)
    (hzero : stage.remaining = 0) (keys : Outcome (List Bytes)) :
    ∃ steps result, (∀ s ∈ steps, s.1 = now ∧ s.2.Of id) ∧
      (∀ given ∈ enumerations steps, given = keys) ∧
      c.run? steps = some (c.finish id keys now) ∧
      (c.finish id keys now).result? id = some result := by
  cases stage with
  | done result =>
    have hfinish : c.finish id keys now = c := by
      simp only [SnapshotCache.finish, enumerate?, hr]
    exact ⟨[], result, fun s hs => (by cases hs), fun given hgiven => (by cases hgiven),
      by rw [hfinish]; rfl, by rw [hfinish]; exact result?_eq_some_iff.mpr ⟨_, hr, rfl⟩⟩
  | enumerating lock =>
    obtain ⟨c₁, hends⟩ : ∃ c₁, c.enumerate? id keys = some c₁ := by
      cases keys <;> exact ⟨_, by simp only [enumerate?, hr]; rfl⟩
    obtain ⟨stage₁, hr₁, h₁⟩ := hstands.enumerate hr hends
    have hstep : c.step? now (.enumerate id keys) = some c₁ := hends
    obtain ⟨r, e, hr', turn⟩ := turn_of_own (a := .enumerate id keys) rfl hstep
    rw [hr] at hr'
    cases hr'
    obtain ⟨hnear, -⟩ := h₁.near (by simp)
    obtain ⟨steps, stage, hsteps, hrun, hfound, h', hzero', -⟩ := (h.turn turn).stands h₁ hr₁ hle hnear
    have hfinish : c.finish id keys now = c₁.advance id now 3 := by
      simp only [SnapshotCache.finish, hends]
    obtain ⟨-, hnot⟩ := h'.near (by simp)
    cases stage with
    | done result =>
      refine ⟨(now, .enumerate id keys) :: steps, result, ?_, ?_, ?_, ?_⟩
      · rintro s (_ | ⟨_, hs⟩)
        · exact ⟨rfl, rfl⟩
        · exact ⟨(hsteps s hs).1, (hsteps s hs).2.1⟩
      · intro given hgiven
        have hcons : enumerations ((now, .enumerate id keys) :: steps) = [keys] :=
          congrArg (keys :: ·) (enumerations_of_forward hsteps)
        rw [hcons] at hgiven
        exact List.mem_singleton.mp hgiven
      · rw [hfinish]
        exact (Machine.run?_cons hstep steps).trans hrun
      · rw [hfinish]
        exact result?_eq_some_iff.mpr ⟨_, hfound, rfl⟩
    | enumerating lock => exact absurd rfl (hnot lock)
    | _ => cases hzero'
  | _ => cases hzero

/-- A request that comes can look. -/
theorem exists_look (hr : c.requests.find? id = some r) (hlooks : r.stage = .looking) :
    ∃ c', c.look? id now = some c' := by
  obtain ⟨name, less, ttl, stage⟩ := r
  subst hlooks
  simp only [look?, hr]
  split
  · exact ⟨_, rfl⟩
  · split <;> exact ⟨_, rfl⟩

/-- Steps at one moment are in order. -/
theorem pairwise_of_moment (h : ∀ s ∈ steps, s.1 = now) :
    steps.Pairwise fun s s' => s.1 ≤ s'.1 := by
  induction steps with
  | nil => exact .nil
  | cons s rest ih =>
    refine List.pairwise_cons.mpr ⟨fun s' hs' => ?_, ih fun s hs => h s (List.mem_cons_of_mem _ hs)⟩
    exact Int64.le_of_eq
      ((h s List.mem_cons_self).trans (h s' (List.mem_cons_of_mem _ hs')).symm)

/-- Steps that are in order stay so behind earlier ones. -/
theorem pairwise_append_of_moment {rest : List (Int64 × Step)}
    (h : steps.Pairwise fun s s' => s.1 ≤ s'.1) (hrest : rest.Pairwise fun s s' => s.1 ≤ s'.1)
    (hle : ∀ s ∈ steps, s.1 ≤ now) (hge : ∀ s ∈ rest, now ≤ s.1) :
    (steps ++ rest).Pairwise fun s s' => s.1 ≤ s'.1 :=
  List.pairwise_append.mpr
    ⟨h, hrest, fun s hs s' hs' => Int64.le_trans (hle s hs) (hge s' hs')⟩

/-- **A request that comes into an idle cache** looks, and goes on at a later moment to its
enumeration or its result. -/
theorem Idle.start (h : Idle c) (name : Bytes) (less : Comparison) (timeToLive : Int64)
    (hle : first ≤ now) :
    let c' := (c.start name less timeToLive first now).1
    ∃ steps past stage, (∀ s ∈ steps, Forward c.nextRequest now s) ∧
      c.run? ((first, .request name less timeToLive) :: (first, .look c.nextRequest) :: steps) =
        some c' ∧
      c'.requests.find? c.nextRequest = some { name, less, timeToLive, stage } ∧
      Stands c { name, less, timeToLive } first past c' stage ∧ stage.remaining = 0 ∧
      Alone c' c.nextRequest := by
  let ask : Request := { name, less, timeToLive }
  let c₁ := (c.request name less timeToLive).1
  have hr₁ : c₁.requests.find? c.nextRequest = some ask := (find?_request ..).trans (if_pos rfl)
  have same₁ : Untouched c c₁ := ⟨rfl, rfl⟩
  obtain ⟨c₂, hlook⟩ : ∃ c₂, c₁.look? c.nextRequest first = some c₂ := exists_look hr₁ rfl
  obtain ⟨stage₂, hr₂, h₂⟩ := stands_of_look same₁ rfl hr₁ rfl hlook
  obtain ⟨r, hr', turn⟩ := turn_of_look? hlook
  rw [hr₁] at hr'
  cases hr'
  have alone₂ : Alone c₂ c.nextRequest := (Alone.request h name less timeToLive).turn turn
  have hlt : stage₂.remaining < 6 := by
    obtain ⟨stage', hr', hlt⟩ := turn.remaining fun _ h => by cases h
    rw [hr₂] at hr'
    cases hr'
    exact hlt
  obtain ⟨steps, stage, hsteps, hrun, hfound, hstands, hzero, alone⟩ :=
    alone₂.stands h₂ hr₂ hle (Nat.le_of_lt_succ hlt)
  have hstart : (c.start name less timeToLive first now).1 = c₂.advance c.nextRequest now 5 := by
    have hfirst : c₁.advance c.nextRequest first 1 = c₂ := by
      simp only [SnapshotCache.advance, advance?, hlook, Option.some_or]
    exact congrArg (fun c₂ => SnapshotCache.advance c₂ c.nextRequest now 5) hfirst
  simp only [hstart]
  have harrival : machine.step? c (first, .request name less timeToLive) = some c₁ := rfl
  have hlook' : machine.step? c₁ (first, .look c.nextRequest) = some c₂ := hlook
  refine ⟨steps, _, stage, hsteps, ?_, hfound, hstands, hzero, alone⟩
  rw [run?, Machine.run?_cons harrival, Machine.run?_cons hlook']
  exact hrun

/-- **The snapshot of a name is what an undisturbed request comes to** that takes its steps at the
next three readings of the clock, the first of them at its first look and the last when it
publishes. In a cache that no request is under way in there always is a result. -/
theorem getOrCompute_undisturbed (h : Idle c) (keys : Outcome (List Bytes)) (name : Bytes)
    (less : Comparison) (timeToLive : Int64) (clock : Clock) :
    ∃ steps result c', Undisturbed c { name, less, timeToLive } clock.now steps result c' ∧
      (∀ s ∈ steps, s.1 ≤ (clock.later 2).now) ∧ (∀ given ∈ enumerations steps, given = keys) ∧
      c.getOrCompute keys name less timeToLive clock = (some result, c'.forget c.nextRequest) := by
  have hsecond : clock.now ≤ (clock.later 1).now := clock.now_le_later 1
  have hthird : (clock.later 1).now ≤ (clock.later 2).now := (clock.later 1).now_le_later 1
  have hlast : clock.now ≤ (clock.later 2).now := Int64.le_trans hsecond hthird
  obtain ⟨steps, past, stage, hsteps, hrun, hfound, hstands, hzero, alone⟩ :=
    h.start name less timeToLive hsecond
  obtain ⟨rest, result, hrest, hgiven, hfinish, hresult⟩ :=
    alone.finish hstands hfound hlast hzero keys
  let arrival : List (Int64 × Step) :=
    [(clock.now, .request name less timeToLive), (clock.now, .look c.nextRequest)]
  have hfirst : ∀ s ∈ arrival, s.1 = clock.now := by simp [arrival]
  have hmid : ∀ s ∈ steps, s.1 = (clock.later 1).now := fun s hs => (hsteps s hs).1
  have hend : ∀ s ∈ rest, s.1 = (clock.later 2).now := fun s hs => (hrest s hs).1
  have hordered : (arrival ++ (steps ++ rest)).Pairwise fun s s' => s.1 ≤ s'.1 := by
    refine pairwise_append_of_moment (pairwise_of_moment hfirst)
      (pairwise_append_of_moment (pairwise_of_moment hmid) (pairwise_of_moment hend)
        (fun s hs => Int64.le_of_eq (hmid s hs)) fun s hs => hend s hs ▸ hthird)
      (fun s hs => hfirst s hs ▸ hsecond) fun s hs => ?_
    rcases List.mem_append.mp hs with hs | hs
    · exact Int64.le_of_eq (hmid s hs).symm
    · exact hend s hs ▸ hthird
  have hearly : ∀ s ∈ arrival ++ (steps ++ rest), s.1 ≤ (clock.later 2).now := by
    simp only [List.mem_append]
    rintro s (hs | hs | hs)
    · exact hfirst s hs ▸ hlast
    · exact hmid s hs ▸ hthird
    · exact Int64.le_of_eq (hend s hs)
  have hown : ∀ s ∈ (clock.now, .look c.nextRequest) :: (steps ++ rest), s.2.Of c.nextRequest := by
    simp only [List.mem_cons, List.mem_append]
    rintro s (rfl | hs | hs)
    · rfl
    · exact (hsteps s hs).2.1
    · exact (hrest s hs).2
  have hgives : enumerations (arrival ++ (steps ++ rest)) = enumerations rest := by
    have hsplit : enumerations (steps ++ rest) = enumerations steps ++ enumerations rest :=
      List.filterMap_append
    rw [enumerations_of_forward hsteps, List.nil_append] at hsplit
    exact hsplit
  refine ⟨arrival ++ (steps ++ rest), result, _,
    ⟨rfl, ⟨clock.now, _, rfl⟩, hown, hordered, ?_, hresult⟩, hearly,
    fun given hmem => hgiven given (hgives ▸ hmem), ?_⟩
  · have hall : arrival ++ (steps ++ rest) = (arrival ++ steps) ++ rest :=
      (List.append_assoc ..).symm
    rw [hall, run?, Machine.run?_append]
    exact (congrArg (Option.bind · _) hrun).trans hfinish
  · rw [getOrCompute]
    exact congrArg (·, _) hresult

end SnapshotCache

end Keyspace
