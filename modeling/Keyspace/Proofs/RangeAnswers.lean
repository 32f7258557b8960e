import Keyspace.Proofs.BucketCoherence
import Keyspace.Proofs.KeyEnumeration
import Keyspace.Proofs.RangeSteps
import Keyspace.Proofs.SnapshotRange
import Mathlib.Data.Set.Basic

/-!
# Range answers depend on the keys alone

The answer of a range is read off a snapshot of the keys, which was computed some time ago by a
request that visited the shards one at a time. Nothing of that shows in the answer but the set of the
keys that were there then (`QueriedBucket.History.answers_depend_on_keys`): not the history of the
bucket, not its shards and how they are picked, and not in which order the keys came.

Three facts carry this. A snapshot holds what the visits of its request gathered, which is without
repetition and contains a key exactly if the visit of its shard saw it. The snapshot of a name is in
the order of the name (`Kept`, which every step keeps). And the built-in orders tell any two keys
apart, so that a set of keys is sorted in one way only (`Range.IsAnswer.unique`).
-/

namespace Keyspace

variable {V : Type}

namespace QueriedBucket

open Enumeration (gathered Saw)

/-- The map that an event shows of a visit of a request's enumeration. -/
def Event.seen? (id : RequestId) : Event V → Option (ShardedMap V)
  | .visited j map => if j = id then some map else none
  | _ => none

/-- The maps that the visits of a request's enumeration saw, in order. -/
def seenBy (id : RequestId) (trace : List (Event V)) : List (ShardedMap V) :=
  trace.filterMap (Event.seen? id)

variable {orders : Bytes → KeyOrder} {s s' : QueriedBucket V} {id : RequestId}
  {past : List (Event V)} {e : Event V} {hash : Bytes → Nat} {shards : Nat} {name : Bytes}
  {made : Cached}

theorem seenBy_snoc (id : RequestId) (past : List (Event V)) (e : Event V) :
    seenBy id (past ++ [e]) = seenBy id past ++ (e.seen? id).toList := by
  rw [seenBy, List.filterMap_append, List.filterMap_cons, List.filterMap_nil]
  cases e.seen? id <;> rfl

/-- **The snapshot of a name is one that was published**, and is in the order of the name. -/
structure Sourced (orders : Bytes → KeyOrder) (past : List (Event V)) (name : Bytes)
    (made : Cached) : Prop where
  published : ∃ id, .published id made ∈ past
  less : made.snapshot.less = (orders name).less

theorem Sourced.snoc (h : Sourced orders past name made) (e : Event V) :
    Sourced orders (past ++ [e]) name made := by
  obtain ⟨⟨id, hid⟩, hless⟩ := h
  exact ⟨⟨id, List.mem_append_left _ hid⟩, hless⟩

/-- **What is known of the enumeration of a request** at a stage. -/
def Stands (shards : Nat) (past : List (Event V)) (s : QueriedBucket V) (id : RequestId) :
    RequestStage → Prop
  | .looking | .missed _ | .waiting _ _ | .holding _ _ | .lacking _ =>
    seenBy id past = [] ∧ s.enumeration id = {}
  | .enumerating _ => (s.enumeration id).Saw (seenBy id past) ∧ (seenBy id past).length ≤ shards
  | .enumerated _ keys => keys = gathered (seenBy id past) ∧ (seenBy id past).length = shards
  | .leaving _ _ | .dropping _ _ | .done _ => True

/-- **What is known of a request**: where its enumeration stands, that it has the order of its name,
and where the snapshot comes from that it was given. -/
structure Queries (orders : Bytes → KeyOrder) (shards : Nat) (past : List (Event V))
    (s : QueriedBucket V) (id : RequestId) (r : Request) : Prop where
  stands : Stands shards past s id r.stage
  less : r.less = (orders r.name).less
  served : ∀ made, r.stage.result? = some (.ok made) → Sourced orders past r.name made

/-- **What holds of the queries of a bucket.** -/
structure Kept (orders : Bytes → KeyOrder) (hash : Bytes → Nat) (shards : Nat)
    (past : List (Event V)) (s : QueriedBucket V) : Prop where
  map : s.map.Spread hash shards
  seen : ∀ id, ∀ m ∈ seenBy id past, m.Partitioned hash shards
  /-- A request that has not come yet has not visited anything. -/
  unasked : ∀ id, s.cache.nextRequest ≤ id → s.cache.requests.find? id = none ∧
    seenBy id past = [] ∧ s.enumeration id = {}
  queries : ∀ id r, s.cache.requests.find? id = some r → Queries orders shards past s id r
  cached : ∀ name made, s.cache.snapshots.find? name = some made → Sourced orders past name made
  /-- A snapshot that was published holds what its enumeration gathered, and that is over. -/
  published : ∀ id made, .published id made ∈ past →
    made.snapshot.keys = (KeyOrder.sort made.snapshot.less (gathered (seenBy id past))).toArray ∧
      (seenBy id past).length = shards ∧ id < s.cache.nextRequest ∧
      ∀ r, s.cache.requests.find? id = some r → r.stage.result?.isSome
  answered : ∀ name range made answer, .answered name range made answer ∈ past →
    Sourced orders past name made ∧ answer = made.snapshot.keysInRange range

theorem Kept.start (h : s.map.Spread hash shards) (hcache : s.cache = {})
    (hnone : s.enumerations = []) : Kept orders hash shards [] s where
  map := h
  seen id m hm := by cases hm
  unasked id _ := by
    refine ⟨?_, rfl, ?_⟩
    · rw [hcache]
      rfl
    · rw [enumeration, hnone]
      rfl
  queries id r hr := by
    rw [hcache] at hr
    cases hr
  cached name made hmade := by
    rw [hcache] at hmade
    cases hmade
  published id made h := by cases h
  answered name range made answer h := by cases h

/-! ### Steps that visit nothing -/

/-- An event that shows no visit leaves what was seen as it is. -/
theorem seenBy_quiet (h : ∀ id, e.seen? id = none) (id : RequestId) :
    seenBy id (past ++ [e]) = seenBy id past := by
  rw [seenBy_snoc, h, Option.toList_none, List.append_nil]

/-- What is known of an enumeration depends on what it saw and on where it is. -/
theorem Stands.congr {past' : List (Event V)} {stage : RequestStage}
    (h : Stands shards past s id stage) (hseen : seenBy id past' = seenBy id past)
    (henum : s'.enumeration id = s.enumeration id) :
    Stands shards past' s' id stage := by
  cases stage with
  | looking | missed _ | waiting _ _ | holding _ _ | lacking _ | enumerating _ =>
    simp only [Stands, hseen, henum] at h ⊢
    exact h
  | enumerated _ _ =>
    simp only [Stands, hseen] at h ⊢
    exact h
  | leaving _ _ | dropping _ _ | done _ => trivial

/-- What happened to the requests of a cache in a step that shows `e`: one that is there now was
there before, or it is a new one, or one that went on and has kept the result that it had. -/
structure Renews (orders : Bytes → KeyOrder) (shards : Nat) (past : List (Event V)) (e : Event V)
    (s : QueriedBucket V) (c : SnapshotCache) : Prop where
  next : s.cache.nextRequest ≤ c.nextRequest
  fresh : ∀ id, c.nextRequest ≤ id → c.requests.find? id = none
  requests : ∀ id r, c.requests.find? id = some r →
    s.cache.requests.find? id = some r ∨
      Stands shards past s id r.stage ∧ r.less = (orders r.name).less ∧
      (∀ made, r.stage.result? = some (.ok made) → Sourced orders (past ++ [e]) r.name made) ∧
      (s.cache.nextRequest ≤ id ∨ ∃ q, s.cache.requests.find? id = some q ∧
        (q.stage.result?.isSome → r.stage.result?.isSome))
  snapshots : ∀ name made, c.snapshots.find? name = some made →
    Sourced orders (past ++ [e]) name made
  /-- What the step publishes. -/
  published : ∀ id made, e = .published id made →
    made.snapshot.keys = (KeyOrder.sort made.snapshot.less (gathered (seenBy id past))).toArray ∧
      (seenBy id past).length = shards ∧ id < c.nextRequest ∧
      ∀ r, c.requests.find? id = some r → r.stage.result?.isSome
  answered : ∀ name range made answer, e = .answered name range made answer →
    Sourced orders past name made ∧ answer = made.snapshot.keysInRange range

/-- **A step that visits nothing.** -/
theorem Kept.still (h : Kept orders hash shards past s) (hmap : s'.map.Spread hash shards)
    (henums : ∀ id, s'.enumeration id = s.enumeration id) (hquiet : ∀ id, e.seen? id = none)
    (hrenews : Renews orders shards past e s s'.cache) :
    Kept orders hash shards (past ++ [e]) s' where
  map := hmap
  seen id m hm := h.seen id m (seenBy_quiet hquiet id ▸ hm)
  unasked id hid := by
    obtain ⟨-, hseen, henum⟩ := h.unasked id (Nat.le_trans hrenews.next hid)
    exact ⟨hrenews.fresh id hid, (seenBy_quiet hquiet id).trans hseen, (henums id).trans henum⟩
  queries id r hr := by
    rcases hrenews.requests id r hr with hold | ⟨hstands, hless, hserved, -⟩
    · obtain ⟨hstands, hless, hserved⟩ := h.queries id r hold
      exact ⟨hstands.congr (seenBy_quiet hquiet id) (henums id), hless,
        fun made hmade => (hserved made hmade).snoc e⟩
    · exact ⟨hstands.congr (seenBy_quiet hquiet id) (henums id), hless, hserved⟩
  cached := hrenews.snapshots
  published id made hmade := by
    rw [seenBy_quiet hquiet]
    rcases List.mem_append.mp hmade with hold | hnew
    · obtain ⟨hkeys, hlength, hlt, hover⟩ := h.published id made hold
      refine ⟨hkeys, hlength, Nat.lt_of_lt_of_le hlt hrenews.next, fun r hr => ?_⟩
      rcases hrenews.requests id r hr with hsame | ⟨-, -, -, hge | ⟨q, hq, hkept⟩⟩
      · exact hover r hsame
      · exact absurd hlt (Nat.not_lt.mpr hge)
      · exact hkept (hover q hq)
    · exact hrenews.published id made (List.mem_singleton.mp hnew).symm
  answered name range made answer hanswer := by
    rcases List.mem_append.mp hanswer with hold | hnew
    · obtain ⟨hsourced, heq⟩ := h.answered name range made answer hold
      exact ⟨hsourced.snoc e, heq⟩
    · obtain ⟨hsourced, heq⟩ := hrenews.answered name range made answer
        (List.mem_singleton.mp hnew).symm
      exact ⟨hsourced.snoc e, heq⟩

/-- A step of the cache. -/
theorem Kept.recache (h : Kept orders hash shards past s) {c : SnapshotCache}
    (hquiet : ∀ id, e.seen? id = none) (hrenews : Renews orders shards past e s c) :
    Kept orders hash shards (past ++ [e]) (s.withCache c) :=
  h.still h.map (fun _ => rfl) hquiet hrenews

/-- A query that comes has the order of its name and has visited nothing. -/
theorem Kept.query (h : Kept orders hash shards past s) (name : Bytes) (timeToLive : Int64) :
    Kept orders hash shards (past ++ [.silent])
      (s.withCache (s.cache.request name (orders name).less timeToLive).1) := by
  refine h.recache (fun _ => rfl) ⟨Nat.le_succ _, fun id hid => ?_, fun id r hr => ?_,
    fun m made hmade => (h.cached m made hmade).snoc _, nofun, nofun⟩
  · rw [SnapshotCache.find?_request, if_neg (Nat.ne_of_gt hid)]
    exact (h.unasked id (Nat.le_of_succ_le hid)).1
  · rw [SnapshotCache.find?_request] at hr
    split at hr
    · next hid =>
      cases hr
      obtain ⟨-, hseen, henum⟩ := h.unasked id (Nat.le_of_eq hid.symm)
      refine .inr ⟨⟨hseen, henum⟩, rfl, fun made hmade => ?_, .inl (Nat.le_of_eq hid.symm)⟩
      cases hmade
    · exact .inl hr

theorem Kept.invalidate (h : Kept orders hash shards past s) (name : Bytes) :
    Kept orders hash shards (past ++ [.silent]) (s.withCache (s.cache.invalidate name)) := by
  refine h.recache (fun _ => rfl) ⟨Nat.le_refl _, fun id hid => (h.unasked id hid).1,
    fun id r hr => .inl hr, fun m made hmade => ?_, nofun, nofun⟩
  rw [SnapshotCache.find?_snapshots_invalidate] at hmade
  split at hmade
  · cases hmade
  · exact (h.cached m made hmade).snoc _

/-- A query that answers reads off the snapshot that its request was given, and is forgotten. -/
theorem Kept.answer (h : Kept orders hash shards past s) {r : Request}
    (hr : s.cache.requests.find? id = some r) (hdone : r.stage = .done (.ok made)) (range : Range) :
    Kept orders hash shards
      (past ++ [.answered r.name range made (made.snapshot.keysInRange range)])
      (s.withCache (s.cache.forget id)) := by
  have hforget (j : RequestId) : (s.cache.forget id).requests.find? j =
      if j = id then none else s.cache.requests.find? j := Assoc.find?_erase ..
  refine h.recache (fun _ => rfl) ⟨Nat.le_refl _, fun j hj => ?_, fun j q hq => ?_,
    fun m made hmade => (h.cached m made hmade).snoc _, nofun, fun _ _ _ _ he => ?_⟩
  · rw [hforget]
    split
    · rfl
    · exact (h.unasked j hj).1
  · rw [hforget] at hq
    split at hq
    · cases hq
    · exact .inl hq
  · cases he
    exact ⟨(h.queries id r hr).served made (by rw [hdone]; rfl), rfl⟩

/-- The enumeration of a request stands after a turn where the turn says. -/
theorem Stands.turn {r q : Request} {now : Int64} {t : SnapshotCache.Event} {c : SnapshotCache}
    (h : Stands shards past s id r.stage) (turn : SnapshotCache.Turn s.cache now id r t c)
    (hinner : ∀ keys, t ≠ .gave id keys) (hq : c.requests.find? id = some q) :
    Stands shards past s id q.stage := by
  cases turn with
  | missed hstage _ | outdated hstage _ _ | joined hstage _ | made hstage _ | acquired hstage _
  | lacked hstage _ =>
    rw [SnapshotCache.eq_of_find?_move hq]
    rw [hstage] at h
    exact h
  | began hstage =>
    rw [SnapshotCache.eq_of_find?_move hq]
    rw [hstage] at h
    obtain ⟨hseen, henum⟩ := h
    simp only [Stands, hseen, henum]
    exact ⟨.start, Nat.zero_le _⟩
  | gave keys _ => exact absurd rfl (hinner keys)
  | served _ _ _ | taken _ _ _ | failed _ _ | published _ | left _ | dropped _ =>
    rw [SnapshotCache.eq_of_find?_move hq]
    trivial

/-- A request that has its result keeps it. -/
theorem isSome_result?_of_turn {r q : Request} {now : Int64} {t : SnapshotCache.Event}
    {c c' : SnapshotCache} (turn : SnapshotCache.Turn c now id r t c')
    (hq : c'.requests.find? id = some q) (h : r.stage.result?.isSome) : q.stage.result?.isSome := by
  cases turn with
  | left hstage | dropped hstage =>
    rw [SnapshotCache.eq_of_find?_move hq]
    rw [hstage] at h
    exact h
  | missed hstage _ | outdated hstage _ _ | served hstage _ _ | joined hstage _ | made hstage _
  | acquired hstage _ | taken hstage _ _ | lacked hstage _ | began hstage | gave _ hstage
  | failed _ hstage | published hstage =>
    rw [hstage] at h
    cases h

/-- A turn of a request that is not the end of its enumeration. -/
theorem Kept.turn (h : Kept orders hash shards past s) {r : Request} {now : Int64}
    {t : SnapshotCache.Event} {c : SnapshotCache} (hr : s.cache.requests.find? id = some r)
    (turn : SnapshotCache.Turn s.cache now id r t c) (hinner : ∀ keys, t ≠ .gave id keys) :
    Kept orders hash shards (past ++ [.ofCache t]) (s.withCache c) := by
  obtain ⟨stage, hrequests, hnext⟩ := turn.requests_eq
  obtain ⟨hstands, hless, hserved⟩ := h.queries id r hr
  have hlt : id < s.cache.nextRequest := by
    by_contra hge
    rw [(h.unasked id (Nat.not_lt.mp hge)).1] at hr
    cases hr
  have hpublishes {made : Cached} (hpub : SnapshotCache.Publishes s.cache now id r t made) :
      Sourced orders (past ++ [.ofCache t]) r.name made := by
    obtain ⟨lock, keys, -, rfl, rfl⟩ := hpub
    exact ⟨⟨id, List.mem_append_right _ List.mem_cons_self⟩, hless⟩
  have hquiet : ∀ j, (Event.ofCache t : Event V).seen? j = none := by
    cases t <;> exact fun _ => rfl
  refine h.recache hquiet ⟨Nat.le_of_eq hnext.symm, ?_, ?_, ?_, ?_, ?_⟩
  · intro j hj
    rw [hnext] at hj
    rw [turn.find?_other (Nat.ne_of_gt (Nat.lt_of_lt_of_le hlt hj))]
    exact (h.unasked j hj).1
  · intro j q hq
    by_cases hj : j = id
    · subst hj
      refine .inr ⟨hstands.turn turn hinner hq, ?_, fun made hmade => ?_,
        .inr ⟨r, hr, isSome_result?_of_turn turn hq⟩⟩
      · obtain ⟨stage, rfl, -⟩ := turn.find?_self hq
        exact hless
      · have hname : q.name = r.name := by
          obtain ⟨stage, rfl, -⟩ := turn.find?_self hq
          rfl
        rw [hname]
        rcases turn.result? hq hmade with hold | hcached | hpub
        · exact (hserved made hold).snoc _
        · exact (h.cached r.name made hcached).snoc _
        · exact hpublishes hpub
    · rw [turn.find?_other hj] at hq
      exact .inl hq
  · intro m made hmade
    rcases turn.find?_snapshot hmade with hold | ⟨rfl, hpub⟩
    · exact (h.cached m made hold).snoc _
    · exact hpublishes hpub
  · intro j made hmade
    cases turn with
    | published hstage =>
      cases hmade
      rw [hstage] at hstands
      obtain ⟨hkeys, hlength⟩ := hstands
      refine ⟨by rw [← hkeys]; rfl, hlength, hlt, fun q hq => ?_⟩
      rw [SnapshotCache.eq_of_find?_move hq]
      rfl
    | _ => cases hmade
  · intro m range made answer hanswer
    cases t <;> cases hanswer

/-- The end of an enumeration: all shards have been visited. -/
theorem Kept.gather (h : Kept orders hash shards past s) {r : Request} {lock : Nat}
    (hr : s.cache.requests.find? id = some r) (hstage : r.stage = .enumerating lock)
    (hover : (s.enumeration id).visit? s.map = none) :
    Kept orders hash shards (past ++ [.silent])
      (s.withCache (s.cache.move id r (.enumerated lock (s.enumeration id).found))) := by
  obtain ⟨hstands, hless, hserved⟩ := h.queries id r hr
  rw [hstage] at hstands
  obtain ⟨hsaw, hle⟩ := hstands
  have hlength : (seenBy id past).length = shards := by
    rw [Enumeration.visit?_eq_none_iff, h.map.count, hsaw.visited] at hover
    exact Nat.le_antisymm hle hover
  refine h.recache (fun _ => rfl) ⟨Nat.le_refl _, fun j hj => ?_, fun j q hq => ?_,
    fun m made hmade => (h.cached m made hmade).snoc _, nofun, nofun⟩
  · rw [SnapshotCache.find?_move, if_neg]
    · exact (h.unasked j hj).1
    · rintro rfl
      rw [(h.unasked j hj).1] at hr
      cases hr
  · rw [SnapshotCache.find?_move] at hq
    split at hq
    · next hj =>
      subst hj
      cases hq
      refine .inr ⟨⟨hsaw.found, hlength⟩, hless, fun made hmade => ?_,
        .inr ⟨r, hr, fun hsome => ?_⟩⟩
      · cases hmade
      · rw [hstage] at hsome
        cases hsome
    · exact .inl hq

/-! ### Visits, and steps of the bucket's system -/

/-- A visit of the enumeration of a request. -/
theorem Kept.visit (h : Kept orders hash shards past s) {r : Request} {lock : Nat} {e : Enumeration}
    (hr : s.cache.requests.find? id = some r) (hstage : r.stage = .enumerating lock)
    (hvisit : (s.enumeration id).visit? s.map = some e) :
    Kept orders hash shards (past ++ [.visited id s.map])
      { s with enumerations := s.enumerations.put id e } := by
  have hsnoc (j : RequestId) : seenBy j (past ++ [.visited id s.map]) =
      if j = id then seenBy j past ++ [s.map] else seenBy j past := by
    rw [seenBy_snoc, Event.seen?]
    by_cases hj : j = id
    · rw [if_pos hj, if_pos hj.symm]
      rfl
    · rw [if_neg hj, if_neg (Ne.symm hj), Option.toList_none, List.append_nil]
  have hne {j : RequestId} (hj : s.cache.requests.find? j ≠ some r) : j ≠ id := by
    rintro rfl
    exact hj hr
  have hother {j : RequestId} (hj : j ≠ id) :
      seenBy j (past ++ [.visited id s.map]) = seenBy j past ∧
        ({ s with enumerations := s.enumerations.put id e } : QueriedBucket V).enumeration j =
          s.enumeration j := by
    rw [hsnoc, enumeration_put, if_neg hj, if_neg hj]
    exact ⟨rfl, rfl⟩
  refine ⟨h.map, fun j m hm => ?_, fun j hj => ?_, fun j q hq => ?_,
    fun m made hmade => (h.cached m made hmade).snoc _, fun j made hmade => ?_,
    fun m range made answer hanswer => ?_⟩
  · rw [hsnoc] at hm
    split at hm
    · rcases List.mem_append.mp hm with hm | hm
      · exact h.seen j m hm
      · rw [List.mem_singleton.mp hm]
        exact h.map.partitioned
    · exact h.seen j m hm
  · obtain ⟨hnone, hseen, henum⟩ := h.unasked j hj
    obtain ⟨hseen', henum'⟩ := hother (hne (by rw [hnone]; exact nofun))
    exact ⟨hnone, hseen'.trans hseen, henum'.trans henum⟩
  · obtain ⟨hstands, hless, hserved⟩ := h.queries j q hq
    refine ⟨?_, hless, fun made hmade => (hserved made hmade).snoc _⟩
    by_cases hj : j = id
    · subst hj
      have hsame : some q = some r := hq.symm.trans hr
      cases hsame
      rw [hstage] at hstands ⊢
      obtain ⟨hsaw, -⟩ := hstands
      obtain ⟨hlt, -⟩ := Enumeration.visited_lt_of_visit? hvisit
      rw [hsaw.visited, h.map.count] at hlt
      simp only [Stands, hsnoc, enumeration_put, if_true]
      exact ⟨hsaw.visit hvisit, by rw [List.length_append]; exact hlt⟩
    · exact hstands.congr (hother hj).1 (hother hj).2
  · obtain ⟨hkeys, hlength, hlt, hover⟩ := h.published j made (by simpa using hmade)
    have hj : j ≠ id := by
      rintro rfl
      have hsome := hover r hr
      rw [hstage] at hsome
      cases hsome
    rw [(hother hj).1]
    exact ⟨hkeys, hlength, hlt, hover⟩
  · obtain ⟨hsourced, heq⟩ := h.answered m range made answer (by simpa using hanswer)
    exact ⟨hsourced.snoc _, heq⟩

/-- A step of the bucket's system leaves the queries alone. -/
theorem Kept.work [Storable V] (h : Kept orders hash shards past s) {t : Keyspace.Event V}
    {system : BucketSystem V} (htrans : BucketSystem.Transition s.system t system) :
    Kept orders hash shards (past ++ [.silent]) { s with system } := by
  have hcache : ({ s with system } : QueriedBucket V).cache = s.cache :=
    congrArg (·.getD {}) htrans.cache_eq
  refine h.still (htrans.spread h.map) (fun _ => rfl) (fun _ => rfl) ?_
  rw [hcache]
  exact ⟨Nat.le_refl _, fun id hid => (h.unasked id hid).1, fun id r hr => .inl hr,
    fun m made hmade => (h.cached m made hmade).snoc _, nofun, nofun⟩

/-- **Every step keeps what holds of the queries.** -/
theorem Kept.step [Storable V] (h : Kept orders hash shards past s)
    (htrans : Transition orders s e s') :
    Kept orders hash shards (past ++ [e]) s' := by
  cases htrans with
  | worked moved => exact h.work moved
  | queried name ttl => exact h.query name ttl
  | turned request turn inner => exact h.turn request turn inner
  | invalidated name => exact h.invalidate name
  | visited request stage visit => exact h.visit request stage visit
  | gathered request stage ended => exact h.gather request stage ended
  | answered request done range => exact h.answer request done range

theorem kept_of_run [Storable V] {t : QueriedBucket V} {steps : List (Step V)}
    (h : Kept orders hash shards [] s) (hrun : (machine orders).run? s steps = some t) :
    Kept orders hash shards ((machine orders).trace s steps) t :=
  Machine.run_induction (P := Kept orders hash shards)
    (fun _ _ _ _ h hstep => h.step (transition_of_step? hstep)) h hrun

end QueriedBucket

/-! ## The answer of a range over a set of keys -/

namespace Range

open Comparison (Increasing)

variable {r : Range} {order : KeyOrder} {keys : Set Bytes} {answer answer' : List Bytes}

/-- **The answer of a range over a set of keys**: those that the range covers, each before the ones
that come after it in the order, and as many of them as the range asks for. -/
def IsAnswer (r : Range) (order : KeyOrder) (keys : Set Bytes) (answer : List Bytes) : Prop :=
  ∃ covered, Increasing order.less covered ∧
    (∀ key, key ∈ covered ↔ key ∈ keys ∧ r.covers order.less key = true) ∧
    answer = r.truncate covered

theorem IsAnswer.increasing (h : r.IsAnswer order keys answer) : Increasing order.less answer := by
  obtain ⟨covered, hincreasing, -, rfl⟩ := h
  exact List.Pairwise.sublist (r.truncate_sublist covered) hincreasing

theorem IsAnswer.nodup (h : r.IsAnswer order keys answer) : answer.Nodup :=
  h.increasing.nodup order.strictTotal.strictWeak

/-- **A set of keys has one answer.** -/
theorem IsAnswer.unique (h : r.IsAnswer order keys answer) (h' : r.IsAnswer order keys answer') :
    answer = answer' := by
  obtain ⟨covered, hincreasing, hmem, rfl⟩ := h
  obtain ⟨covered', hincreasing', hmem', rfl⟩ := h'
  have hsame : covered = covered' :=
    hincreasing.eq_of_mem_iff order.strictTotal.strictWeak hincreasing' fun key =>
      (hmem key).trans (hmem' key).symm
  rw [hsame]

/-- A snapshot of keys without repetition answers for the set of these keys. -/
theorem isAnswer_of_sorted {s : Snapshot} {list : List Bytes} (hnodup : list.Nodup)
    (hless : s.less = order.less) (hkeys : s.keys = (KeyOrder.sort s.less list).toArray)
    (r : Range) : r.IsAnswer order {key | key ∈ list} (s.keysInRange r) := by
  have hincreasing := KeyOrder.sort_increasing order.strictTotal hnodup
  have hweak := order.strictTotal.strictWeak
  have hlist : s.keys.toList = KeyOrder.sort order.less list := by rw [hkeys, hless]
  refine ⟨(KeyOrder.sort order.less list).filter (r.covers order.less),
    hincreasing.filter _, fun key => ?_, ?_⟩
  · rw [List.mem_filter, KeyOrder.mem_sort]
    rfl
  · have hordered : Comparison.Ordered s.less s.keys.toList := by
      rw [hless, hlist]
      exact hincreasing.ordered hweak
    rw [Snapshot.keysInRange_eq (hless ▸ hweak) hordered, hlist, hless]

end Range

/-! ## Histories -/

namespace QueriedBucket

/-- **The history of a bucket**: it was made with some hash and some number of shards, and took some
steps, in which each name of a snapshot always stood for the same order. -/
structure History (V : Type) [Storable V] where
  orders : Bytes → KeyOrder
  hash : Bytes → Nat
  shards : Nat
  name : Bytes
  bucket : Bucket V
  created : Bucket.create name hash shards true = .ok bucket
  pool : WorkerPool (Product V)
  steps : List (Step V)
  last : QueriedBucket V
  run : (machine orders).run? { system := { bucket, pool } } steps = some last

namespace History

variable [Storable V] {h h' : History V} {name name' : Bytes} {range : Range} {made made' : Cached}
  {answer answer' : List Bytes} {id id' : RequestId}

/-- What the steps of a history showed. -/
def trace (h : History V) : List (Event V) :=
  (machine h.orders).trace { system := { bucket := h.bucket, pool := h.pool } } h.steps

/-- **The keys that were present when a request computed its snapshot**: each of them at the visit of
its shard. -/
def keysAt (h : History V) (id : RequestId) : Set Bytes :=
  {key | ∃ m, (seenBy id h.trace)[h.hash key % h.shards]? = some m ∧ m.contains key = true}

/-- A query of the snapshot of a name was answered off what a request computed. -/
def Answered (h : History V) (name : Bytes) (range : Range) (id : RequestId)
    (answer : List Bytes) : Prop :=
  ∃ made, .answered name range made answer ∈ h.trace ∧ .published id made ∈ h.trace

theorem kept (h : History V) : Kept h.orders h.hash h.shards h.trace h.last := by
  obtain ⟨map, hmap, hbucket⟩ := Bucket.eq_of_create h.created
  refine kept_of_run (.start ?_ ?_ rfl) h.run
  · rw [QueriedBucket.map, hbucket]
    exact .create hmap
  · rw [cache, hbucket]
    rfl

/-- They are the keys that its enumeration gathered. -/
theorem keysAt_eq (h : History V) (id : RequestId) :
    h.keysAt id = {key | key ∈ Enumeration.gathered (seenBy id h.trace)} :=
  Set.ext fun key => (Enumeration.mem_gathered_iff (h.kept.seen id) key).symm

/-- **An answer is the one over the keys that were present** when a request computed the snapshot
that it is read off. -/
structure FromKeys (h : History V) (name : Bytes) (range : Range) (id : RequestId)
    (answer : List Bytes) : Prop where
  increasing : Comparison.Increasing (h.orders name).less answer
  nodup : answer.Nodup
  /-- Each shard was visited once. -/
  visited : (seenBy id h.trace).length = h.shards
  selected : range.IsAnswer (h.orders name) (h.keysAt id) answer
  /-- When no key came or went between the visits, these are the keys of the bucket. -/
  steady : ∀ keys : Set Bytes,
    (∀ m ∈ seenBy id h.trace, ∀ key, m.contains key = true ↔ key ∈ keys) → h.keysAt id = keys

theorem Answered.fromKeys (hanswered : h.Answered name range id answer) :
    h.FromKeys name range id answer := by
  obtain ⟨made, hanswer, hmade⟩ := hanswered
  obtain ⟨hsourced, rfl⟩ := h.kept.answered name range made answer hanswer
  obtain ⟨hkeys, hlength, -, -⟩ := h.kept.published id made hmade
  have hselected :
      range.IsAnswer (h.orders name) (h.keysAt id) (made.snapshot.keysInRange range) := by
    rw [keysAt_eq]
    exact Range.isAnswer_of_sorted (Enumeration.nodup_gathered (h.kept.seen id)) hsourced.less
      hkeys range
  refine ⟨hselected.increasing, hselected.nodup, hlength, hselected, fun keys hsteady => ?_⟩
  refine Set.ext fun key => ⟨?_, fun hkey => ?_⟩
  · rintro ⟨m, hm, hpresent⟩
    exact (hsteady m (List.mem_of_getElem? hm) key).mp hpresent
  · have hlt : h.hash key % h.shards < (seenBy id h.trace).length := by
      rw [hlength]
      exact Nat.mod_lt _ h.kept.map.partitioned.pos
    have hseen := List.getElem?_eq_getElem hlt
    exact ⟨_, hseen, (hsteady _ (List.mem_of_getElem? hseen) key).mpr hkey⟩

/-- **Range answers depend on the keys alone.** Every answer is read off a snapshot that some request
computed. It increases strictly in the order of the snapshot's name and is the answer of the range
over the keys that were present when the snapshot was computed; and wherever, after whatever history,
with whatever hash and however many shards, a snapshot in this order was computed of these keys, the
range has this answer. -/
theorem answers_depend_on_keys (h : History V) :
    (∀ name range made answer, .answered name range made answer ∈ h.trace →
      ∃ id, .published id made ∈ h.trace) ∧
    ∀ name range id answer, h.Answered name range id answer → h.FromKeys name range id answer ∧
      ∀ (h' : History V) (name' : Bytes) (id' : RequestId) (answer' : List Bytes),
        h'.Answered name' range id' answer' → h'.orders name' = h.orders name →
          h'.keysAt id' = h.keysAt id → answer' = answer := by
  refine ⟨fun name range made answer hanswer => ?_, fun name range id answer hanswered => ?_⟩
  · exact (h.kept.answered name range made answer hanswer).1.published
  · refine ⟨hanswered.fromKeys, fun h' name' id' answer' hanswered' horder hkeys => ?_⟩
    have hselected := hanswered'.fromKeys.selected
    rw [horder, hkeys] at hselected
    exact hselected.unique hanswered.fromKeys.selected

/-- The keys `1`, `01` and `10`. -/
def spelled : List Bytes :=
  [[49], [48, 49], [49, 48]]

/-- The first two keys from `0` on. -/
def firstTwo : Range where
  first := [48]
  limit := 2

def store (key : Bytes) : Step Value :=
  .system (.put key (some .nothing))

/-- A query of the snapshot `s`, which makes it with the visits of a list and what falls between
them. -/
def computing (visits : List (Step Value)) : List (Step Value) :=
  [.query [115] 1000, .cache 0 (.look 0), .cache 0 (.join 0), .cache 0 (.acquire 0),
    .cache 0 (.review 0), .cache 0 (.begin 0)] ++ visits ++
  [.gather 0, .cache 0 (.publish 0), .cache 0 (.leave 0), .cache 0 (.drop 0), .answer 0 firstTwo]

/-- Two shards, picked by the length of a key. The key `+1` comes when its shard has been visited. -/
def late : History Value where
  orders _ := .numeric
  hash := List.length
  shards := 2
  name := []
  bucket := { name := [], map := { hash := List.length, shards := [[], []] } }
  created := rfl
  pool := { capacity := 1, workers := [.idle] }
  steps := spelled.map store ++ computing [.visit 0, store [43, 49], .visit 0]
  last := _
  run := rfl

/-- One shard, with the keys in the other order. The key `+1` has gone when it is visited. -/
def early : History Value where
  orders _ := .numeric
  hash _ := 0
  shards := 1
  name := []
  bucket := { name := [], map := { hash := fun _ => 0, shards := [[]] } }
  created := rfl
  pool := { capacity := 1, workers := [.idle] }
  steps := store [43, 49] :: spelled.reverse.map store ++
    .system (.remove [43, 49]) :: computing [.visit 0]
  last := _
  run := rfl

/-- Both have the same keys when they compute the snapshot, and so the same answer. -/
theorem early_late_alike : ∃ answer answer', late.Answered [115] firstTwo 0 answer ∧
    early.Answered [115] firstTwo 0 answer' ∧ early.keysAt 0 = late.keysAt 0 ∧
    late.FromKeys [115] firstTwo 0 answer ∧ answer = [[48, 49], [49]] ∧ answer' = answer := by
  have hgathered : Enumeration.gathered (seenBy 0 late.trace) = [[48, 49], [49, 48], [49]] := rfl
  have hperm : (Enumeration.gathered (seenBy 0 early.trace)).Perm [[48, 49], [49, 48], [49]] := by
    decide
  have hkeys : early.keysAt 0 = late.keysAt 0 := by
    rw [keysAt_eq, keysAt_eq, hgathered]
    exact Set.ext fun key => hperm.mem_iff
  have hlate : late.Answered [115] firstTwo 0 _ :=
    ⟨_, List.mem_of_getElem? (i := 16) rfl, List.mem_of_getElem? (i := 13) rfl⟩
  have hearly : early.Answered [115] firstTwo 0 _ :=
    ⟨_, List.mem_of_getElem? (i := 16) rfl, List.mem_of_getElem? (i := 13) rfl⟩
  obtain ⟨hfrom, halike⟩ := late.answers_depend_on_keys.2 _ _ _ _ hlate
  refine ⟨_, _, hlate, hearly, hkeys, hfrom, hfrom.selected.unique ?_,
    halike early _ _ _ hearly rfl hkeys⟩
  have hcovered : ∀ key : Bytes, key ∈ [[48, 49], [49], [49, 48]] →
      key ∈ [[48, 49], [49, 48], [49]] ∧ firstTwo.covers KeyOrder.numeric.less key = true := by
    decide
  have hback : ∀ key : Bytes, key ∈ [[48, 49], [49, 48], [49]] →
      key ∈ [[48, 49], [49], [49, 48]] := by
    decide
  refine ⟨[[48, 49], [49], [49, 48]], by decide, fun key => ?_, rfl⟩
  rw [keysAt_eq, hgathered]
  exact ⟨hcovered key, fun hkey => hback key hkey.1⟩

end History

end QueriedBucket

end Keyspace
