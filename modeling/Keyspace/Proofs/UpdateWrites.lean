import Keyspace.Proofs.UpdateOwnership

/-!
# What runs write and what they see

Three steps change what a key has: a `put`, the store of an update, and a `remove` that found the
key. `replay` reads off a trace what the last of them left. In every state that a run from rest
reaches a key has exactly that (`value?_of_run`), and whatever a step shows of a key, its presence
or its value, is what the steps before it left (`sees_of_run`): no claim, no submission, no worker
and no late result of an abandoned task writes.
-/

namespace Keyspace

variable {V : Type}

/-- What a step leaves under a key, if it writes there: a value, or nothing. -/
def Event.write? (key : Bytes) : Event V → Option (Option V)
  | .put k v => if k = key then some (some v) else none
  | .act _ k (.stored v) => if k = key then some (some v) else none
  | .removed k true => if k = key then some none else none
  | _ => none

/-- The steps that write a key are its `put`s, the stores of its updates and its removals. -/
theorem Event.write?_eq_some {key : Bytes} {e : Event V} {v : Option V}
    (h : e.write? key = some v) :
    (∃ x, e = .put key x ∧ v = some x) ∨ (∃ id x, e = .act id key (.stored x) ∧ v = some x) ∨
      (e = .removed key true ∧ v = none) := by
  cases e with
  | put k x =>
    simp only [write?, Option.ite_none_right_eq_some, Option.some.injEq] at h
    obtain ⟨rfl, rfl⟩ := h
    exact .inl ⟨x, rfl, rfl⟩
  | act id k a =>
    cases a with
    | stored x =>
      simp only [write?, Option.ite_none_right_eq_some, Option.some.injEq] at h
      obtain ⟨rfl, rfl⟩ := h
      exact .inr (.inl ⟨id, x, rfl, rfl⟩)
    | _ => cases h
  | removed k found =>
    cases found with
    | true =>
      simp only [write?, Option.ite_none_right_eq_some, Option.some.injEq] at h
      obtain ⟨rfl, rfl⟩ := h
      exact .inr (.inr ⟨rfl, rfl⟩)
    | false => cases h
  | _ => cases h

/-- What a key has after a step that found a value there. -/
def Event.after (key : Bytes) (v : Option V) (e : Event V) : Option V :=
  (e.write? key).getD v

/-- **What a key has after a trace.** -/
def replay (key : Bytes) (v : Option V) (trace : List (Event V)) : Option V :=
  trace.foldl (Event.after key) v

theorem replay_append (key : Bytes) (v : Option V) (first rest : List (Event V)) :
    replay key v (first ++ rest) = replay key (replay key v first) rest :=
  List.foldl_append

theorem replay_snoc (key : Bytes) (v : Option V) (past : List (Event V)) (e : Event V) :
    replay key v (past ++ [e]) = e.after key (replay key v past) := by
  rw [replay_append]
  rfl

/-- **What a step shows of a key agrees with a value**: its check or its removal says whether there
is one, its read or its `get` says which. -/
def Event.Sees (key : Bytes) (v : Option V) : Event V → Prop
  | .act _ k (.checked present) => k = key → present = v.isSome
  | .act _ k (.read value) => k = key → value = v
  | .got k seen => k = key → seen = v
  | .removed k found => k = key → found = v.isSome
  | _ => True

namespace BucketSystem

variable {s s' t : BucketSystem V} {id : CallId} {c : UpdateCall V}

/-- In a sound system, a key is present exactly when it has a value. -/
theorem Sound.contains_eq (h : Sound s) (key : Bytes) :
    s.bucket.map.contains key = (s.value? key).isSome := by
  rw [ShardedMap.contains_eq, value?, ShardedMap.get?_eq]
  cases hentry : s.bucket.map.slot? key with
  | none => rfl
  | some v =>
    cases v with
    | none => exact absurd hentry (h.solid key)
    | some v => rfl

theorem Sound.value?_put (h : Sound s) (key j : Bytes) (v : V) :
    (s.withMap (s.bucket.map.put key (some v))).value? j =
      if j = key then some v else s.value? j := by
  simp only [value?, withMap, ShardedMap.get?_eq, h.map.slot?_put]
  split <;> rfl

theorem Sound.value?_remove (h : Sound s) (key j : Bytes) :
    (s.withMap (s.bucket.map.remove key).2).value? j =
      if j = key then none else s.value? j := by
  simp only [value?, withMap, ShardedMap.get?_eq, h.map.slot?_remove]
  split <;> rfl

/-- A bucket at rest is at rest with one more value. -/
theorem AtRest.withPut (h : AtRest s) (key : Bytes) (v : V) :
    AtRest (s.withMap (s.bucket.map.put key (some v))) where
  map := h.map.put key (some v)
  solid := solid_put h.map h.solid key v
  entries := h.entries
  claims := h.claims
  calls := h.calls

variable [Storable V]

/-- **A turn of a call writes its own key when it stores, and nothing otherwise.** -/
theorem Turn.value? {a : Act V} (h : Sound s) (turn : Turn s id c a s') (key : Bytes) :
    s'.value? key = (Event.act id c.key a).after key (s.value? key) := by
  cases turn with
  | store _ =>
    rw [value?_move, h.value?_put]
    simp only [Event.after, Event.write?, eq_comm (a := key)]
    split <;> rfl
  | _ => rfl

/-- **A step leaves under a key what it shows**, and what was there if it does not write it. -/
theorem Transition.value? {e : Event V} (h : Sound s) (htrans : Transition s e s') (key : Bytes) :
    s'.value? key = e.after key (s.value? key) := by
  cases htrans with
  | called c => rfl
  | turned _ turn => exact turn.value? h key
  | put k v =>
    rw [h.value?_put]
    simp only [Event.after, Event.write?, eq_comm (a := key)]
    split <;> rfl
  | rejected => rfl
  | got k => rfl
  | removed _ =>
    rw [h.value?_remove]
    simp only [Event.after, Event.write?, eq_comm (a := key)]
    split <;> rfl
  | notRemoved _ => rfl
  | worked _ _ => rfl

/-- **A step sees what its key has.** -/
theorem Transition.sees {e : Event V} (h : Sound s) (htrans : Transition s e s') (key : Bytes) :
    e.Sees key (s.value? key) := by
  cases htrans with
  | @turned id c a s' hc turn =>
    cases turn with
    | present _ found => exact fun hk => by rw [← hk, ← h.contains_eq, found]
    | absent _ missing => exact fun hk => by rw [← hk, ← h.contains_eq, missing]
    | read _ found => exact fun hk => by rw [← hk, found]
    | missing _ missing => exact fun hk => by rw [← hk, missing]
    | _ => trivial
  | got k => exact fun hk => by rw [← hk]
  | removed found => exact fun hk => by rw [← hk, ← h.contains_eq, found]
  | notRemoved missing => exact fun hk => by rw [← hk, ← h.contains_eq, missing]
  | _ => trivial

/-- **After a run a key has what the last write to it left.** -/
theorem value?_of_run (h : Sound s) {steps : List (Step V)} (hrun : s.run? steps = some t)
    (key : Bytes) : t.value? key = replay key (s.value? key) (s.trace steps) := by
  refine (h.run_induction (P := fun past u => u.value? key = replay key (s.value? key) past)
    rfl ?_ hrun).2
  intro past u e u' hu hvalue htrans
  rw [replay_snoc, htrans.value? hu, hvalue]

/-- **Every step of a run sees what the steps before it left.** -/
theorem sees_of_run (h : Sound s) {steps : List (Step V)} (hrun : s.run? steps = some t)
    (key : Bytes) {past rest : List (Event V)} {e : Event V}
    (hsplit : s.trace steps = past ++ e :: rest) :
    e.Sees key (replay key (s.value? key) past) := by
  have hall := h.run_induction
    (P := fun trace u => u.value? key = replay key (s.value? key) trace ∧
      ∀ past e rest, trace = past ++ e :: rest → e.Sees key (replay key (s.value? key) past))
    ⟨rfl, fun _ _ _ h => by simp at h⟩ ?_ hrun
  · exact hall.2.2 past e rest hsplit
  · intro trace u e u' hu hpast htrans
    obtain ⟨hvalue, hsees⟩ := hpast
    refine ⟨by rw [replay_snoc, htrans.value? hu, hvalue], ?_⟩
    intro past d rest heq
    rcases List.eq_nil_or_concat rest with rfl | ⟨rest, x, rfl⟩
    · -- the last step sees what the state before it has
      obtain ⟨rfl, hlast⟩ := List.append_inj' heq rfl
      cases hlast
      exact hvalue ▸ htrans.sees hu key
    · rw [List.concat_eq_append, ← List.cons_append, ← List.append_assoc] at heq
      exact hsees past d rest (List.append_inj' heq rfl).1

end BucketSystem

end Keyspace
