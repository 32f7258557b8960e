import Keyspace.Proofs.UpdateCourse

/-!
# The order of events

The position of an event in a trace is its time. A call is called once, before all of its acts, and
its acts come in the order of their kinds, each kind once (`Chronicle`). So the positions at which a
call started, stored and returned are well defined, and they lie in that order.
-/

namespace Keyspace

variable {V : Type}

/-- The kind of an act: acts of one call come in the order of their kinds. -/
def Act.kind : Act V → Nat
  | .checked _ => 0
  | .claimed => 1
  | .locked => 2
  | .read _ => 3
  | .submitted _ => 4
  | .evaluated _ => 5
  | .expired => 5
  | .stored _ => 6
  | .freed => 7
  | .returned _ => 8

variable {id : CallId} {c : UpdateCall V} {past : List (Event V)}

/-- **The order of the events of calls.** -/
structure Chronicle (past : List (Event V)) : Prop where
  calledOnce : ∀ (i j : Nat) (id : CallId) (c d : UpdateCall V),
    past[i]? = some (.called id c) → past[j]? = some (.called id d) → i = j
  calledFirst : ∀ (j : Nat) (id : CallId) (key : Bytes) (a : Act V),
    past[j]? = some (.act id key a) → ∃ (i : Nat) (c : UpdateCall V), i < j ∧
      past[i]? = some (.called id c)
  ordered : ∀ (i j : Nat) (id : CallId) (key key' : Bytes) (a b : Act V), i < j →
    past[i]? = some (.act id key a) → past[j]? = some (.act id key' b) → a.kind < b.kind

/-- An event of a longer trace is an old one or the new one. -/
theorem getElem?_snoc {e d : Event V} {i : Nat} (h : (past ++ [e])[i]? = some d) :
    past[i]? = some d ∨ (i = past.length ∧ d = e) := by
  rw [List.getElem?_append] at h
  split at h
  · exact .inl h
  · next hi =>
    refine .inr ?_
    have hlt := (List.getElem?_eq_some_iff.mp h).1
    have hi' : i = past.length := by
      simp only [List.length_singleton] at hlt
      omega
    subst hi'
    rw [Nat.sub_self, List.getElem?_cons_zero] at h
    cases h
    exact ⟨rfl, rfl⟩

theorem lt_length_of_getElem? {d : Event V} {i : Nat} (h : past[i]? = some d) : i < past.length :=
  (List.getElem?_eq_some_iff.mp h).1

/-- What stood in a trace stands there in a longer one. -/
theorem getElem?_snoc_of_some {d : Event V} {i : Nat} (h : past[i]? = some d) (e : Event V) :
    (past ++ [e])[i]? = some d := by
  rw [List.getElem?_append_left (lt_length_of_getElem? h), h]

/-- **A step adds an event in order.** -/
theorem Chronicle.snoc {e : Event V} (h : Chronicle past)
    (hcalled : ∀ id c, e = .called id c → ∀ d, .called id d ∉ past)
    (hact : ∀ id key a, e = .act id key a → (∃ c, .called id c ∈ past) ∧
      ∀ b ∈ actsOf id past, b.kind < a.kind) : Chronicle (past ++ [e]) where
  calledOnce i j id c d hi hj := by
    rcases getElem?_snoc hi with hi | ⟨rfl, heq⟩
    · rcases getElem?_snoc hj with hj | ⟨rfl, heq⟩
      · exact h.calledOnce i j id c d hi hj
      · exact absurd (List.mem_of_getElem? hi) (hcalled id d heq.symm c)
    · rcases getElem?_snoc hj with hj | ⟨rfl, _⟩
      · exact absurd (List.mem_of_getElem? hj) (hcalled id c heq.symm d)
      · rfl
  calledFirst j id key a hj := by
    rcases getElem?_snoc hj with hj | ⟨rfl, heq⟩
    · obtain ⟨i, c, hij, hi⟩ := h.calledFirst j id key a hj
      exact ⟨i, c, hij, getElem?_snoc_of_some hi e⟩
    · obtain ⟨⟨c, hc⟩, _⟩ := hact id key a heq.symm
      obtain ⟨i, hi⟩ := List.mem_iff_getElem?.mp hc
      exact ⟨i, c, lt_length_of_getElem? hi, getElem?_snoc_of_some hi e⟩
  ordered i j id key key' a b hij hi hj := by
    rcases getElem?_snoc hj with hj | ⟨rfl, heq⟩
    · rcases getElem?_snoc hi with hi | ⟨rfl, _⟩
      · exact h.ordered i j id key key' a b hij hi hj
      · exact absurd (lt_length_of_getElem? hj) (Nat.not_lt.mpr (Nat.le_of_lt hij))
    · rcases getElem?_snoc hi with hi | ⟨rfl, _⟩
      · exact (hact id key' b heq.symm).2 a (mem_actsOf.mpr ⟨key, List.mem_of_getElem? hi⟩)
      · exact absurd hij (Nat.lt_irrefl _)

/-- Two acts of one kind of one call are one event. -/
theorem Chronicle.act_unique (h : Chronicle past) {i j : Nat} {key key' : Bytes} {a b : Act V}
    (hi : past[i]? = some (.act id key a)) (hj : past[j]? = some (.act id key' b))
    (hkind : a.kind = b.kind) : i = j := by
  rcases Nat.lt_trichotomy i j with hij | hij | hij
  · exact absurd hkind (Nat.ne_of_lt (h.ordered i j id key key' a b hij hi hj))
  · exact hij
  · exact absurd hkind (Nat.ne_of_gt (h.ordered j i id key' key b a hij hj hi))

/-- An act of an earlier kind comes first. -/
theorem Chronicle.act_lt (h : Chronicle past) {i j : Nat} {key key' : Bytes} {a b : Act V}
    (hi : past[i]? = some (.act id key a)) (hj : past[j]? = some (.act id key' b))
    (hkind : a.kind < b.kind) : i < j := by
  rcases Nat.lt_trichotomy i j with hij | rfl | hij
  · exact hij
  · rw [hi] at hj
    cases hj
    exact absurd hkind (Nat.lt_irrefl _)
  · exact absurd (h.ordered j i id key' key b a hij hj hi) (Nat.not_lt.mpr (Nat.le_of_lt hkind))

/-- A call is called before it acts. -/
theorem Chronicle.called_lt (h : Chronicle past) {i j : Nat} {key : Bytes} {a : Act V}
    (hi : past[i]? = some (.called id c)) (hj : past[j]? = some (.act id key a)) : i < j := by
  obtain ⟨i', d, hlt, hi'⟩ := h.calledFirst j id key a hj
  rw [h.calledOnce i i' id c d hi hi']
  exact hlt

namespace BucketSystem

variable [Storable V] {s s' t : BucketSystem V}

/-- The acts that a call has shown are of earlier kinds than its next act. -/
theorem Shown.kind_lt {pool : WorkerPool (Product V)} {a b : Act V} {acts : List (Act V)}
    (h : Shown pool c acts) (turn : Turn s id c a s') (hb : b ∈ acts) : b.kind < a.kind := by
  have hverdict : ∀ {result : Outcome Unit} {verdict : List (Act V)}, Verdict c verdict result →
      ∀ b ∈ verdict, b.kind < 7 := by
    intro result verdict hv
    cases hv <;> simp [Act.kind]
  have hentering : ∀ b ∈ entering (V := V), b.kind < 3 := by simp [entering, Act.kind]
  unfold Shown at h
  cases turn with
  | present stage _ | absent stage _ =>
    simp only [stage] at h
    subst h
    cases hb
  | claim stage | lock stage _ =>
    simp only [stage] at h
    subst h
    revert hb b
    simp [Act.kind]
  | read stage _ | missing stage _ =>
    simp only [stage] at h
    subst h
    exact hentering b hb
  | accepted stage _ | refused stage _ =>
    simp only [stage] at h
    subst h
    revert hb b
    simp [entering, Act.kind]
  | gave stage _ | gaveNothing stage _ _ | failed stage _ | expired stage _ =>
    simp only [stage] at h
    obtain ⟨v, t, rfl, _⟩ := h
    revert hb b
    simp [entering, Act.kind]
  | store stage =>
    simp only [stage] at h
    obtain ⟨v, _, rfl⟩ := h
    revert hb b
    simp [entering, Act.kind]
  | free stage _ =>
    simp only [stage] at h
    obtain ⟨verdict, hv, rfl⟩ := h
    rcases List.mem_append.mp hb with hb | hb
    · exact Nat.lt_trans (hentering b hb) (show 3 < 7 by decide)
    · exact hverdict hv b hb
  | «return» stage _ =>
    simp only [stage] at h
    obtain ⟨verdict, hv, rfl⟩ := h
    rcases List.mem_append.mp hb with hb | hb
    · rcases List.mem_append.mp hb with hb | hb
      · exact Nat.lt_trans (hentering b hb) (show 3 < 8 by decide)
      · exact Nat.lt_trans (hverdict hv b hb) (show 7 < 8 by decide)
    · cases List.mem_singleton.mp hb
      exact (show 7 < 8 by decide)

/-- **The events of a run from rest are in order.** -/
theorem chronicle_of_run (h : AtRest s) {steps : List (Step V)} (hrun : s.run? steps = some t) :
    Chronicle (s.trace steps) := by
  refine h.run_induction (P := fun past _ => Chronicle past) ?_ ?_ hrun
  · exact ⟨fun _ _ _ _ _ hi => (by cases hi), fun _ _ _ _ hj => (by cases hj),
      fun _ _ _ _ _ _ _ _ hi => (by cases hi)⟩
  · intro past u e u' hu hrec hchron htrans
    refine hchron.snoc ?_ ?_
    · -- the name of a new call is fresh
      rintro id c rfl d hd
      cases htrans
      obtain ⟨c', hc'⟩ := hrec.known _ d hd
      rw [hu.held.fresh _ (Nat.le_refl _)] at hc'
      cases hc'
    · rintro id key a rfl
      cases htrans with
      | turned hc turn =>
        obtain ⟨start, hstart, _⟩ := hrec.started id _ hc
        exact ⟨⟨start, hstart⟩, fun b hb => (hrec.shown id _ hc).kind_lt turn hb⟩

end BucketSystem

end Keyspace
