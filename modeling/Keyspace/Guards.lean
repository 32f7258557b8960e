import Keyspace.KeyLocks

/-!
# Guards

A **guard** owns at most one claim on a key's lock and releases it when it is unlocked, dropped, or
assigned another claim. Guards live in named slots; a slot that was never used holds an empty guard.
A move leaves the guard that it moves from empty. `GuardTable` also knows **waiters**, callers that
want a lock for a moment: `serve` lets each of them that can take its lock do so and release it.
-/

namespace Keyspace

/-- A guard: the claim that it owns, if any. -/
abbrev Guard := Option ClaimId

/-- **Guards in slots**, the locks that they own, and the waiters in the order of their arrival. -/
structure GuardTable where
  locks : KeyLocks := {}
  slots : Assoc Bytes Guard := []
  waiters : List (Bytes × ClaimId) := []
deriving Repr

namespace GuardTable

/-- The guard in a slot. -/
def guard (t : GuardTable) (slot : Bytes) : Guard :=
  (t.slots.find? slot).join

/-- Whether the guard in a slot owns a lock. -/
def owns (t : GuardTable) (slot : Bytes) : Bool :=
  (t.guard slot).isSome

/-- The locks after a guard released what it owns. -/
def released (locks : KeyLocks) (g : Guard) : KeyLocks :=
  match g with
  | none => locks
  | some c => (locks.release? c).getD locks

/-- The guard in a slot gives up its lock. -/
def unlock (t : GuardTable) (slot : Bytes) : GuardTable :=
  { t with locks := released t.locks (t.guard slot), slots := t.slots.put slot none }

/-- The guard in a slot is destroyed, and the slot holds an empty one. -/
def dropGuard (t : GuardTable) (slot : Bytes) : GuardTable :=
  { t with locks := released t.locks (t.guard slot), slots := t.slots.erase slot }

/-- A guard is assigned to a slot: what the slot held is released. -/
def assign (t : GuardTable) (slot : Bytes) (g : Guard) : GuardTable :=
  { t with locks := released t.locks (t.guard slot), slots := t.slots.put slot g }

/-- A key is locked and the guard assigned to a slot; `none` if somebody owns the lock. -/
def lock? (t : GuardTable) (key slot : Bytes) : Option GuardTable :=
  (t.locks.lock? key).map fun (locks, c) => { t with locks }.assign slot (some c)

/-- The slot of a guard that was moved away. -/
def emptied (t : GuardTable) (slot : Bytes) : GuardTable :=
  { t with slots := t.slots.put slot none }

/-- The guard of one slot is moved to another. Moved to its own slot, it stays as it is. -/
def move (t : GuardTable) (source target : Bytes) : GuardTable :=
  if source = target then t else (t.assign target (t.guard source)).emptied source

/-- The guard of a slot is moved to a new guard, and that one to a slot. -/
def moveAnew (t : GuardTable) (source target : Bytes) : GuardTable :=
  (t.emptied source).assign target (t.guard source)

/-- A waiter arrives. -/
def arrive (t : GuardTable) (waiter key : Bytes) : GuardTable :=
  let (locks, c) := t.locks.claim key
  { t with locks, waiters := t.waiters ++ [(waiter, c)] }

/-- Waiters that can take their lock do so and release it: the locks, the waiters that are served
and those that still wait, both in order. -/
def serveAll (locks : KeyLocks) :
    List (Bytes × ClaimId) → KeyLocks × List Bytes × List (Bytes × ClaimId)
  | [] => (locks, [], [])
  | (waiter, c) :: rest =>
    match (locks.acquire? c).bind fun locks => locks.release? c with
    | some locks =>
      let (locks, served, left) := serveAll locks rest
      (locks, waiter :: served, left)
    | none =>
      let (locks, served, left) := serveAll locks rest
      (locks, served, (waiter, c) :: left)

/-- The waiters that can take their lock are served. -/
def serve (t : GuardTable) : GuardTable × List Bytes :=
  let (locks, served, left) := serveAll t.locks t.waiters
  ({ t with locks, waiters := left }, served)

/-- A counter that is incremented `times` times, each time under the lock of a key; `none` if
somebody owns the lock. -/
def contend? (t : GuardTable) (key : Bytes) : Nat → Option (GuardTable × Nat)
  | 0 => some (t, 0)
  | times + 1 =>
    match contend? t key times with
    | none => none
    | some (t, counter) =>
      match t.locks.lock? key with
      | none => none
      | some (locks, c) => some ({ t with locks := released locks (some c) }, counter + 1)

end GuardTable

end Keyspace
