import Keyspace.Assoc
import Keyspace.Bytes

/-!
# Locks on keys

An exclusive lock per key, there only while somebody wants it. To lock a key is to make a **claim**
on it: the entry of the key is found or made and the claim is counted (`claim`), then the entry is
taken when nobody owns it (`acquire?`). To release is to give the entry free (`free?`) and to drop
the claim, and the entry with the last of them (`drop?`). Each of the four is one step; between them
any other claims may take theirs. A step that is not possible gives `none`: a claim at another
stage, an entry that is owned, or an entry that is no longer the one that the claim refers to.
-/

namespace Keyspace

/-- The names of claims. -/
abbrev ClaimId := Nat

/-- The lock of one key. `id` tells one entry of a key from a later one. -/
structure LockEntry where
  id : Nat
  references : Nat
  owner : Option ClaimId
deriving DecidableEq, Repr

/-- Where a claim stands. -/
inductive ClaimStage where
  | waiting
  | holding
  | releasing
deriving DecidableEq, Repr

/-- **A claim on the lock of a key**, with the entry that it refers to. -/
structure Claim where
  key : Bytes
  entry : Nat
  stage : ClaimStage
deriving DecidableEq, Repr

/-- **The locks of all keys** and the claims on them. -/
structure KeyLocks where
  entries : Assoc Bytes LockEntry := []
  claims : Assoc ClaimId Claim := []
  nextEntry : Nat := 0
  nextClaim : ClaimId := 0
deriving DecidableEq, Repr

namespace KeyLocks

/-- The number of keys that are locked or wanted. -/
def size (t : KeyLocks) : Nat :=
  t.entries.length

/-- The claim with a given name at a given stage, and the entry that it refers to. -/
def at? (t : KeyLocks) (c : ClaimId) (stage : ClaimStage) : Option (Claim × LockEntry) :=
  match t.claims.find? c with
  | none => none
  | some claim =>
    match t.entries.find? claim.key with
    | none => none
    | some entry =>
      if claim.stage = stage && entry.id = claim.entry then some (claim, entry) else none

/-- A new claim on a key: its entry is found or made, and counts one more reference. -/
def claim (t : KeyLocks) (key : Bytes) : KeyLocks × ClaimId :=
  let entry := (t.entries.find? key).getD ⟨t.nextEntry, 0, none⟩
  ({ entries := t.entries.put key { entry with references := entry.references + 1 }
     claims := t.claims.put t.nextClaim ⟨key, entry.id, .waiting⟩
     nextEntry := if t.entries.has key then t.nextEntry else t.nextEntry + 1
     nextClaim := t.nextClaim + 1 },
   t.nextClaim)

/-- A waiting claim takes its entry, which nobody owns. -/
def acquire? (t : KeyLocks) (c : ClaimId) : Option KeyLocks :=
  match t.at? c .waiting with
  | some (claim, entry) =>
    if entry.owner.isNone then
      some { t with
        entries := t.entries.put claim.key { entry with owner := some c }
        claims := t.claims.put c { claim with stage := .holding } }
    else none
  | none => none

/-- A claim that owns its entry gives it free. -/
def free? (t : KeyLocks) (c : ClaimId) : Option KeyLocks :=
  match t.at? c .holding with
  | some (claim, entry) =>
    some { t with
      entries := t.entries.put claim.key { entry with owner := none }
      claims := t.claims.put c { claim with stage := .releasing } }
  | none => none

/-- A claim that gave its entry free is dropped; the last one takes the entry with it. -/
def drop? (t : KeyLocks) (c : ClaimId) : Option KeyLocks :=
  match t.at? c .releasing with
  | some (claim, entry) =>
    some { t with
      entries :=
        if entry.references ≤ 1 then t.entries.erase claim.key
        else t.entries.put claim.key { entry with references := entry.references - 1 }
      claims := t.claims.erase c }
  | none => none

/-- A claim on a key that takes its entry at once; `none` if the entry is owned. -/
def lock? (t : KeyLocks) (key : Bytes) : Option (KeyLocks × ClaimId) :=
  let (t, c) := t.claim key
  (t.acquire? c).map fun t => (t, c)

/-- A claim that owns its entry gives it free and is dropped. -/
def release? (t : KeyLocks) (c : ClaimId) : Option KeyLocks :=
  (t.free? c).bind fun t => t.drop? c

/-- The steps that claims take. -/
inductive Step where
  | claim (key : Bytes)
  | acquire (c : ClaimId)
  | free (c : ClaimId)
  | drop (c : ClaimId)
deriving DecidableEq, Repr

/-- The locks after one step. -/
def step? (t : KeyLocks) : Step → Option KeyLocks
  | .claim key => some (t.claim key).1
  | .acquire c => t.acquire? c
  | .free c => t.free? c
  | .drop c => t.drop? c

end KeyLocks

end Keyspace
