import Keyspace.Assoc
import Keyspace.Clock
import Keyspace.Failure
import Keyspace.KeyOrder
import Keyspace.Snapshot

/-!
# The snapshot cache

One snapshot per name, made anew when it has grown too old. A **request** for a name looks it up;
when there is none, or only one that expired, the request joins the lock of the name (`join?`),
acquires it when no other request owns it (`acquire?`), and looks again (`review?`): a snapshot that
is still fresh, or that is not the one seen before, is taken. Otherwise the keys are enumerated
(`begin?`, `enumerate?`), sorted and published. At last the lock is left for others to own, and then
no longer referred to (`leave?`, `drop?`). Each of these is one step; requests and invalidations
interleave between them.

`invalidate` drops the snapshot of a name and, unless a request refers to it, the lock of the name.
`SnapshotCache.start` and `SnapshotCache.finish` take a request that nobody disturbs through its
steps before and after the end of the enumeration. Such a request reads the clock at its first look,
at its second, and when it publishes.
-/

namespace Keyspace

/-- The names of requests. -/
abbrev RequestId := Nat

/-- A snapshot in the cache; `id` tells it from every other one. -/
structure Cached where
  id : Nat
  snapshot : Snapshot

/-- Where a request stands. `observed` is the snapshot that it saw first, `lock` the lock of its
name. -/
inductive RequestStage where
  | looking
  | missed (observed : Option Nat)
  | waiting (observed : Option Nat) (lock : Nat)
  | holding (observed : Option Nat) (lock : Nat)
  /-- Found no snapshot that it can take. -/
  | lacking (lock : Nat)
  | enumerating (lock : Nat)
  | enumerated (lock : Nat) (keys : List Bytes)
  | leaving (lock : Nat) (result : Outcome Cached)
  | dropping (lock : Nat) (result : Outcome Cached)
  | done (result : Outcome Cached)

namespace RequestStage

/-- The lock that a request refers to. -/
def lock? : RequestStage → Option Nat
  | waiting _ l => some l
  | holding _ l => some l
  | lacking l => some l
  | enumerating l => some l
  | enumerated l _ => some l
  | leaving l _ => some l
  | dropping l _ => some l
  | _ => none

/-- The lock that a request owns. -/
def owned? : RequestStage → Option Nat
  | holding _ l => some l
  | lacking l => some l
  | enumerating l => some l
  | enumerated l _ => some l
  | leaving l _ => some l
  | _ => none

end RequestStage

/-- **A request for the snapshot of a name**, with the comparison and the lifetime of a new one. -/
structure Request where
  name : Bytes
  less : Comparison
  timeToLive : Int64
  stage : RequestStage := .looking

/-- **The snapshot cache**, with the requests that are under way. -/
structure SnapshotCache where
  snapshots : Assoc Bytes Cached := []
  locks : Assoc Bytes Nat := []
  requests : Assoc RequestId Request := []
  nextLock : Nat := 0
  nextSnapshot : Nat := 0
  nextRequest : RequestId := 0

namespace SnapshotCache

/-- The number of names with a snapshot. -/
def size (c : SnapshotCache) : Nat :=
  c.snapshots.length

/-- The number of names with a lock. -/
def lockCount (c : SnapshotCache) : Nat :=
  c.locks.length

/-- Whether some request refers to a lock. -/
def isReferred (c : SnapshotCache) (lock : Nat) : Bool :=
  c.requests.any fun r => r.2.stage.lock? = some lock

/-- Whether some request owns a lock. -/
def isOwned (c : SnapshotCache) (lock : Nat) : Bool :=
  c.requests.any fun r => r.2.stage.owned? = some lock

/-- A request goes to another stage. -/
def move (c : SnapshotCache) (id : RequestId) (r : Request) (stage : RequestStage) :
    SnapshotCache :=
  { c with requests := c.requests.put id { r with stage } }

/-- A new request. -/
def request (c : SnapshotCache) (name : Bytes) (less : Comparison) (timeToLive : Int64) :
    SnapshotCache × RequestId :=
  ({ c with
      requests := c.requests.put c.nextRequest { name, less, timeToLive }
      nextRequest := c.nextRequest + 1 },
    c.nextRequest)

/-- The first look: a snapshot that has not expired is the result. -/
def look? (c : SnapshotCache) (id : RequestId) (now : Int64) : Option SnapshotCache :=
  match c.requests.find? id with
  | some r@{ stage := .looking, .. } =>
    match c.snapshots.find? r.name with
    | none => some (c.move id r (.missed none))
    | some seen =>
      if seen.snapshot.isExpired now then some (c.move id r (.missed (some seen.id)))
      else some (c.move id r (.done (.ok seen)))
  | _ => none

/-- The request refers to the lock of its name, which is made if there is none. -/
def join? (c : SnapshotCache) (id : RequestId) : Option SnapshotCache :=
  match c.requests.find? id with
  | some r@{ stage := .missed observed, .. } =>
    match c.locks.find? r.name with
    | some lock => some (c.move id r (.waiting observed lock))
    | none =>
      some { c.move id r (.waiting observed c.nextLock) with
        locks := c.locks.put r.name c.nextLock
        nextLock := c.nextLock + 1 }
  | _ => none

/-- The request owns its lock, which no other request owns. -/
def acquire? (c : SnapshotCache) (id : RequestId) : Option SnapshotCache :=
  match c.requests.find? id with
  | some r@{ stage := .waiting observed lock, .. } =>
    if c.isOwned lock then none else some (c.move id r (.holding observed lock))
  | _ => none

/-- The second look: a snapshot that is not the one seen first, or that has not expired, is the
result; otherwise the keys have to be enumerated. -/
def review? (c : SnapshotCache) (id : RequestId) (now : Int64) : Option SnapshotCache :=
  match c.requests.find? id with
  | some r@{ stage := .holding observed lock, .. } =>
    match c.snapshots.find? r.name with
    | none => some (c.move id r (.lacking lock))
    | some current =>
      if some current.id ≠ observed || !current.snapshot.isExpired now then
        some (c.move id r (.leaving lock (.ok current)))
      else some (c.move id r (.lacking lock))
  | _ => none

/-- The enumeration begins. -/
def begin? (c : SnapshotCache) (id : RequestId) : Option SnapshotCache :=
  match c.requests.find? id with
  | some r@{ stage := .lacking lock, .. } => some (c.move id r (.enumerating lock))
  | _ => none

/-- The enumeration ends, with the keys or with a failure. -/
def enumerate? (c : SnapshotCache) (id : RequestId) (keys : Outcome (List Bytes)) :
    Option SnapshotCache :=
  match c.requests.find? id with
  | some r@{ stage := .enumerating lock, .. } =>
    match keys with
    | .ok keys => some (c.move id r (.enumerated lock keys))
    | .error f => some (c.move id r (.leaving lock (.error f)))
  | _ => none

/-- The keys are sorted and published as the snapshot of the name, made now. -/
def publish? (c : SnapshotCache) (id : RequestId) (now : Int64) : Option SnapshotCache :=
  match c.requests.find? id with
  | some r@{ stage := .enumerated lock keys, .. } =>
    let made : Cached :=
      { id := c.nextSnapshot
        snapshot :=
          { name := r.name, keys := (KeyOrder.sort r.less keys).toArray, less := r.less,
            createdAt := now, timeToLive := r.timeToLive } }
    some { c.move id r (.leaving lock (.ok made)) with
      snapshots := c.snapshots.put r.name made
      nextSnapshot := c.nextSnapshot + 1 }
  | _ => none

/-- The request leaves its lock for others to own. -/
def leave? (c : SnapshotCache) (id : RequestId) : Option SnapshotCache :=
  match c.requests.find? id with
  | some r@{ stage := .leaving lock result, .. } => some (c.move id r (.dropping lock result))
  | _ => none

/-- The request no longer refers to its lock and is done. -/
def drop? (c : SnapshotCache) (id : RequestId) : Option SnapshotCache :=
  match c.requests.find? id with
  | some r@{ stage := .dropping _ result, .. } => some (c.move id r (.done result))
  | _ => none

/-- **The snapshot of a name is dropped**, and the lock of the name unless a request refers to it.
-/
def invalidate (c : SnapshotCache) (name : Bytes) : SnapshotCache :=
  { c with
    snapshots := c.snapshots.erase name
    locks :=
      match c.locks.find? name with
      | some lock => if c.isReferred lock then c.locks else c.locks.erase name
      | none => c.locks }

/-- The steps of the cache; the time is the one at which the step is taken. -/
inductive Step where
  | request (name : Bytes) (less : Comparison) (timeToLive : Int64)
  | look (id : RequestId)
  | join (id : RequestId)
  | acquire (id : RequestId)
  | review (id : RequestId)
  | begin (id : RequestId)
  | enumerate (id : RequestId) (keys : Outcome (List Bytes))
  | publish (id : RequestId)
  | leave (id : RequestId)
  | drop (id : RequestId)
  | invalidate (name : Bytes)

/-- The cache after one step; `none` for a step that is not possible. -/
def step? (c : SnapshotCache) (now : Int64) : Step → Option SnapshotCache
  | .request name less ttl => some (c.request name less ttl).1
  | .look id => c.look? id now
  | .join id => c.join? id
  | .acquire id => c.acquire? id
  | .review id => c.review? id now
  | .begin id => c.begin? id
  | .enumerate id keys => c.enumerate? id keys
  | .publish id => c.publish? id now
  | .leave id => c.leave? id
  | .drop id => c.drop? id
  | .invalidate name => some (c.invalidate name)

/-! ## Requests that nobody disturbs -/

/-- The next step of a request other than the end of its enumeration. -/
def advance? (c : SnapshotCache) (id : RequestId) (now : Int64) : Option SnapshotCache :=
  (c.look? id now).or <| (c.join? id).or <| (c.acquire? id).or <| (c.review? id now).or <|
    (c.begin? id).or <| (c.publish? id now).or <| (c.leave? id).or <| c.drop? id

/-- At most `bound` steps of a request. -/
def advance (c : SnapshotCache) (id : RequestId) (now : Int64) : Nat → SnapshotCache
  | 0 => c
  | bound + 1 =>
    match c.advance? id now with
    | none => c
    | some c => advance c id now bound

/-- A new request, taken as far as it goes without the keys, with the times of its looks. -/
def start (c : SnapshotCache) (name : Bytes) (less : Comparison) (timeToLive first second : Int64) :
    SnapshotCache × RequestId :=
  let (c, id) := c.request name less timeToLive
  ((c.advance id first 1).advance id second 5, id)

/-- Whether a request is enumerating the keys. -/
def isEnumerating (c : SnapshotCache) (id : RequestId) : Bool :=
  match c.requests.find? id with
  | some { stage := .enumerating _, .. } => true
  | _ => false

/-- The result of a request that is done. -/
def result? (c : SnapshotCache) (id : RequestId) : Option (Outcome Cached) :=
  match c.requests.find? id with
  | some { stage := .done result, .. } => some result
  | _ => none

/-- A request goes on after its enumeration, which gave the keys or a failure; what is published is
made at the given time. -/
def finish (c : SnapshotCache) (id : RequestId) (keys : Outcome (List Bytes)) (made : Int64) :
    SnapshotCache :=
  match c.enumerate? id keys with
  | some c => c.advance id made 3
  | none => c

/-- The cache without a request that is done. -/
def forget (c : SnapshotCache) (id : RequestId) : SnapshotCache :=
  { c with requests := c.requests.erase id }

/-- **The snapshot of a name**, from a request that nobody disturbs. Only a request that is still
waiting for another one gives none. -/
def getOrCompute (c : SnapshotCache) (keys : Outcome (List Bytes)) (name : Bytes)
    (less : Comparison) (timeToLive : Int64) (clock : Clock) :
    Option (Outcome Cached) × SnapshotCache :=
  let (c, id) := c.start name less timeToLive clock.now (clock.later 1).now
  let c := c.finish id keys (clock.later 2).now
  (c.result? id, c.forget id)

/-- How often a request reads the clock at most. -/
def readings : Nat := 3

end SnapshotCache

end Keyspace
