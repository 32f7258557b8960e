import Keyspace.Regex.Pattern

/-!
# Searching a text

`Pattern.search` asks whether a pattern holds somewhere in a text. The places are tried from left to
right; at each place the ways to meet the pattern are tried in order and the first that succeeds
decides. Going on after a part is a function from the place reached to a `Verdict`, so that a part
that was met in one way can be met in another when what follows fails.

Three rules matter beyond the usual reading of patterns.

* **Empty rounds.** A loop, or an optional copy, is entered at most twice in a row at one place. The
  count belongs to the loop at its place in the unrolled pattern (`Site`), and a round that starts
  further on starts it again.
* **Look-ahead is a search of its own** that starts where it stands. Until a search has moved on
  from the start of the text, nothing stands in front of it: the place counts as a start of text.
* **What a look-ahead captured stays captured**, also when the path that looked ahead is given up.
-/

namespace Keyspace.Regex

/-- A position in the unrolled pattern: the choices of part on the way to it, last choice first. -/
abbrev Site := List Nat

/-- What each group covered last. -/
abbrev Groups := List (Nat × Bytes)

/-- What a group covered last. -/
def Groups.get? (groups : Groups) (number : Nat) : Option Bytes :=
  groups.lookup number

/-- The groups after one of them covered, or ceased to cover, a text. -/
def Groups.set (groups : Groups) (number : Nat) (covered : Option Bytes) : Groups :=
  match covered with
  | some text => (number, text) :: groups.filter fun g => g.1 ≠ number
  | none => groups.filter fun g => g.1 ≠ number

/-- How often in a row a loop was entered, and how much text was left then. -/
structure Entry where
  left : Nat
  count : Nat
deriving DecidableEq, Repr

/-- **A place that a search has reached.** -/
structure Spot where
  /-- The byte in front; none at a start of text. -/
  previous : Option UInt8
  rest : Bytes
  groups : Groups := []
  entries : List (Site × Entry) := []
deriving DecidableEq, Repr

/-- How an attempt ends, and what the groups hold then. -/
inductive Verdict where
  | found (groups : Groups)
  | failed (groups : Groups)
deriving DecidableEq, Repr

namespace Verdict

/-- The verdict of another attempt, made with the groups that the failed one left. -/
def orElse (v : Verdict) (other : Groups → Verdict) : Verdict :=
  match v with
  | found g => found g
  | failed g => other g

/-- Whether the attempt succeeded. -/
def holds : Verdict → Bool
  | found _ => true
  | failed _ => false

end Verdict

namespace Spot

/-- The spot after a text that starts here. -/
def skip (s : Spot) (text : Bytes) : Spot :=
  { s with previous := text.getLast?.or s.previous, rest := s.rest.drop text.length }

/-- Whether there is a word on one side only. -/
def atWordEdge (s : Spot) : Bool :=
  (s.previous.any ByteClass.isWord) != (s.rest.head?.any ByteClass.isWord)

/-- Whether a condition holds here. -/
def meets (s : Spot) : Anchor → Bool
  | .textStart => s.previous.isNone
  | .textEnd => s.rest.isEmpty
  | .wordEdge negated => s.atWordEdge != negated

/-- The spot inside the next round of the loop at `site`, unless two rounds in a row started here.
-/
def enter? (s : Spot) (site : Site) : Option Spot :=
  let fresh := { s with
    entries := (site, ⟨s.rest.length, 1⟩) :: s.entries.filter fun e => e.1 ≠ site }
  match s.entries.lookup site with
  | none => some fresh
  | some e =>
    if e.left ≠ s.rest.length then some fresh
    else if e.count < 2 then
      some { s with
        entries := (site, ⟨e.left, e.count + 1⟩) :: s.entries.filter fun e => e.1 ≠ site }
    else none

end Spot

/-- What follows a part: the verdict from the spot that the part reached. -/
abbrev Following := Spot → Verdict

/-- A part of a pattern at a site, as an attempt from a spot with what follows. -/
abbrev Attempt := Site → Spot → Following → Verdict

/-- One more round of a part, or none: which is tried first depends on whether it is reluctant. -/
def Attempt.onceMore (round : Spot → Verdict) (reluctant : Bool) (site : Site) (s : Spot)
    (leave : Following) : Verdict :=
  let enter (s : Spot) : Verdict :=
    match s.enter? site with
    | none => .failed s.groups
    | some inside => round inside
  if reluctant then (leave s).orElse fun g => enter { s with groups := g }
  else (enter s).orElse fun g => leave { s with groups := g }

/-- Rounds of the loop at `site`, at most `bound` of them. -/
def Attempt.rounds (body : Attempt) (reluctant : Bool) (site : Site) (leave : Following) :
    Nat → Spot → Verdict
  | 0, s => leave s
  | bound + 1, s =>
    Attempt.onceMore
      (fun inside => body (0 :: site) inside (rounds body reluctant site leave bound))
      reluctant site s leave

/-- `count` copies of a part, numbered from `index` on. -/
def Attempt.fixed (body : Attempt) (site : Site) : Nat → Nat → Spot → Following → Verdict
  | 0, _, s, k => k s
  | count + 1, index, s, k =>
    body (0 :: index :: site) s fun s => fixed body site count (index + 1) s k

/-- Up to `count` copies of a part, numbered from `index` on. -/
def Attempt.extra (body : Attempt) (reluctant : Bool) (site : Site) (leave : Following) :
    Nat → Nat → Spot → Verdict
  | 0, _, s => leave s
  | count + 1, index, s =>
    Attempt.onceMore
      (fun inside =>
        body (0 :: index :: site) inside (extra body reluctant site leave count (index + 1)))
      reluctant (index :: site) s leave

namespace Pattern

/-- Rounds of a loop that cannot be more: two at each place of the text that is left. -/
def roundBound (s : Spot) : Nat :=
  2 * (s.rest.length + 1) + 1

/-- **The attempt to meet a pattern.** `atStart` says that the search has not moved on from the
start of the text. -/
def attempt (atStart : Bool) : Pattern → Attempt
  | .empty, _, s, k => k s
  | .one set, _, s, k =>
    match s.rest with
    | [] => .failed s.groups
    | b :: rest =>
      if set.mem b then k { s with previous := some b, rest } else .failed s.groups
  | .seq p q, site, s, k =>
    attempt atStart p (0 :: site) s fun s => attempt atStart q (1 :: site) s k
  | .alt p q, site, s, k =>
    (attempt atStart p (0 :: site) s k).orElse fun g =>
      attempt atStart q (1 :: site) { s with groups := g } k
  | .group n p, site, s, k =>
    attempt atStart p (0 :: site) s fun reached =>
      let before := reached.groups.get? n
      let covered := s.rest.take (s.rest.length - reached.rest.length)
      (k { reached with groups := reached.groups.set n (some covered) }).orElse fun g =>
        .failed (g.set n before)
  | .backref n, _, s, k =>
    match s.groups.get? n with
    | none => .failed s.groups
    | some text => if text.startsText s.rest then k (s.skip text) else .failed s.groups
  | .anchor condition, _, s, k => if s.meets condition then k s else .failed s.groups
  | .ahead negated p, site, s, k =>
    let here : Spot :=
      { previous := if atStart then none else s.previous, rest := s.rest, groups := s.groups }
    match attempt atStart p (0 :: site) here fun reached => .found reached.groups with
    | .found g => if negated then .failed g else k { s with groups := g }
    | .failed _ => if negated then k s else .failed s.groups
  | .loop nonempty reluctant p, site, s, k =>
    let again (s : Spot) : Verdict :=
      Attempt.rounds (fun site s k => attempt atStart p site s k) reluctant site k (roundBound s) s
    if nonempty then attempt atStart p (0 :: site) s again else again s
  | .copies count more reluctant p, site, s, k =>
    Attempt.fixed (fun site s k => attempt atStart p site s k) site count 0 s fun s =>
      Attempt.extra (fun site s k => attempt atStart p site s k) reluctant site k more count s

/-- Whether the pattern holds at a place. -/
def holdsAt (p : Pattern) (atStart : Bool) (previous : Option UInt8) (rest : Bytes) : Bool :=
  (attempt atStart p [] { previous, rest } fun s => .found s.groups).holds

/-- Whether the pattern holds at a place after the start of a text. -/
def searchAfter (p : Pattern) : Bytes → Bool
  | [] => false
  | b :: rest => p.holdsAt false (some b) rest || searchAfter p rest

/-- **Whether the pattern holds somewhere in a text.** -/
def search (p : Pattern) (text : Bytes) : Bool :=
  p.holdsAt true none text || p.searchAfter text

end Pattern

end Keyspace.Regex
