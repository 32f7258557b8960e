import Keyspace.KeyOrder
import Keyspace.Snapshot

/-!
# Comparisons of keys

What sorting and searching ask of a comparison is that it is a **strict weak order**
(`Comparison.StrictWeak`). Keys that are in such an order have no key in front of one that comes
before it (`Comparison.Ordered`), and sorting brings any keys into the order.

The built-in orders are more than that: of two different keys one comes before the other
(`KeyOrder.strictTotal`). Keys without repetition then increase strictly when they are sorted
(`Comparison.Increasing`), and lists that increase strictly are equal when they have the same
members (`Increasing.eq_of_mem_iff`), so that a list of keys is determined by its set.
-/

namespace Keyspace

namespace Comparison

variable {less : Comparison} {keys : List Bytes} {a b c : Bytes}

/-- **A strict weak order**: two keys of which neither comes before the other are tied, and ties are
transitive. -/
structure StrictWeak (less : Comparison) : Prop where
  irrefl : ∀ a, less a a = false
  trans : ∀ a b c, less a b = true → less b c = true → less a c = true
  ties : ∀ a b c, less a b = false → less b a = false → less b c = false → less c b = false →
    less a c = false ∧ less c a = false

/-- **A strict total order**: of two different keys one comes before the other. -/
structure StrictTotal (less : Comparison) : Prop where
  irrefl : ∀ a, less a a = false
  trans : ∀ a b c, less a b = true → less b c = true → less a c = true
  connected : ∀ a b, a ≠ b → less a b = true ∨ less b a = true

theorem StrictWeak.asymm (h : StrictWeak less) (hab : less a b = true) : less b a = false := by
  refine Bool.eq_false_iff.mpr fun hba => ?_
  have hself := h.trans a b a hab hba
  rw [h.irrefl a] at hself
  cases hself

/-- What does not come before a key does not come before a later one that does not either. -/
theorem StrictWeak.not_trans (h : StrictWeak less) (hab : less a b = false)
    (hbc : less b c = false) : less a c = false := by
  refine Bool.eq_false_iff.mpr fun hac => ?_
  cases hba : less b a with
  | true => exact Bool.eq_false_iff.mp hbc (h.trans b a c hba hac)
  | false =>
    cases hcb : less c b with
    | true => exact Bool.eq_false_iff.mp hab (h.trans a c b hac hcb)
    | false => exact Bool.eq_false_iff.mp (h.ties a b c hab hba hbc hcb).1 hac

theorem StrictTotal.eq_of_tie (h : StrictTotal less) (hab : less a b = false)
    (hba : less b a = false) : a = b := by
  refine Decidable.byContradiction fun hne => ?_
  rcases h.connected a b hne with hless | hless
  · exact Bool.eq_false_iff.mp hab hless
  · exact Bool.eq_false_iff.mp hba hless

/-- In a total order keys are tied only with themselves. -/
theorem StrictTotal.strictWeak (h : StrictTotal less) : StrictWeak less where
  irrefl := h.irrefl
  trans := h.trans
  ties a b c hab hba hbc hcb := by
    obtain rfl := h.eq_of_tie hab hba
    exact ⟨hbc, hcb⟩

/-! ## Keys in order -/

/-- No key stands in front of one that comes before it. -/
def Ordered (less : Comparison) (keys : List Bytes) : Prop :=
  keys.Pairwise fun a b => less b a = false

/-- Every key comes before the ones that stand after it. -/
def Increasing (less : Comparison) (keys : List Bytes) : Prop :=
  keys.Pairwise fun a b => less a b = true

instance (less : Comparison) (keys : List Bytes) : Decidable (Increasing less keys) :=
  inferInstanceAs (Decidable (keys.Pairwise fun a b => less a b = true))

theorem Increasing.ordered (hless : StrictWeak less) (h : Increasing less keys) :
    Ordered less keys :=
  h.imp hless.asymm

theorem Increasing.nodup (hless : StrictWeak less) (h : Increasing less keys) : keys.Nodup := by
  refine h.imp fun {a b} hab => ?_
  rintro rfl
  rw [hless.irrefl a] at hab
  cases hab

/-- Ordered keys without repetition increase. -/
theorem Ordered.increasing (hless : StrictTotal less) (h : Ordered less keys)
    (hnodup : keys.Nodup) : Increasing less keys := by
  refine h.imp₂ (fun a b hba hne => ?_) hnodup
  rcases hless.connected a b hne with hab | hba'
  · exact hab
  · rw [hba] at hba'
    cases hba'

/-- **Strictly increasing keys are determined by their set.** -/
theorem Increasing.eq_of_mem_iff (hless : StrictWeak less) {keys' : List Bytes}
    (h : Increasing less keys) (h' : Increasing less keys') (hmem : ∀ k, k ∈ keys ↔ k ∈ keys') :
    keys = keys' := by
  have hperm : keys.Perm keys' :=
    (List.perm_ext_iff_of_nodup (h.nodup hless) (h'.nodup hless)).mpr hmem
  refine hperm.eq_of_pairwise (fun a b _ _ hab hba => ?_) h h'
  rw [hless.asymm hab] at hba
  cases hba

end Comparison

namespace KeyOrder

variable {less : Comparison} {keys : List Bytes}

/-- Sorting rearranges the keys. -/
theorem sort_perm (less : Comparison) (keys : List Bytes) : (sort less keys).Perm keys :=
  List.mergeSort_perm ..

theorem mem_sort {k : Bytes} : k ∈ sort less keys ↔ k ∈ keys :=
  (sort_perm less keys).mem_iff

/-- **Sorting brings the keys into order.** -/
theorem sort_ordered (h : Comparison.StrictWeak less) (keys : List Bytes) :
    Comparison.Ordered less (sort less keys) := by
  have htrans : ∀ a b c, (!less b a) = true → (!less c b) = true → (!less c a) = true := by
    intro a b c hba hcb
    rw [Bool.not_eq_true'] at hba hcb ⊢
    exact h.not_trans hcb hba
  have htotal : ∀ a b, (!less b a || !less a b) = true := by
    intro a b
    cases hab : less a b with
    | false => rw [Bool.not_false, Bool.or_true]
    | true => rw [h.asymm hab, Bool.not_false, Bool.true_or]
  refine (List.pairwise_mergeSort htrans htotal keys).imp fun hle => ?_
  rwa [Bool.not_eq_true'] at hle

/-- Sorted keys without repetition increase strictly. -/
theorem sort_increasing (h : Comparison.StrictTotal less) (hnodup : keys.Nodup) :
    Comparison.Increasing less (sort less keys) :=
  (sort_ordered h.strictWeak keys).increasing h ((sort_perm less keys).nodup_iff.mpr hnodup)

/-- In the numeric order, an integer comes before what is none and before greater integers, and the
rest is ordered as texts. -/
theorem less_numeric_iff {a b : Bytes} : numeric.less a b = true ↔
    (∃ m, integer? a = some m ∧ ∀ n, integer? b = some n → m < n) ∨
    integer? a = integer? b ∧ Bytes.less a b = true := by
  rw [less]
  split
  · next m n ha hb =>
    split
    · next heq => simp [ha, hb, heq]
    · next hne => simp [ha, hb, hne]
  · next m ha hb => simp [ha, hb]
  · next n ha hb => simp [ha, hb]
  · next ha hb => simp [ha, hb]

theorem numeric_strictTotal : Comparison.StrictTotal numeric.less where
  irrefl a := by
    refine Bool.eq_false_iff.mpr fun h => ?_
    rcases less_numeric_iff.mp h with ⟨m, ha, hlt⟩ | ⟨-, htext⟩
    · exact Int64.lt_irrefl (hlt m ha)
    · rw [Bytes.less_irrefl] at htext
      cases htext
  trans a b c hab hbc := by
    rw [less_numeric_iff] at hab hbc ⊢
    rcases hab with ⟨m, ha, hltb⟩ | ⟨heq, htext⟩
    · refine .inl ⟨m, ha, fun n hc => ?_⟩
      rcases hbc with ⟨k, hb, hltc⟩ | ⟨heq', -⟩
      · exact Int64.lt_trans (hltb k hb) (hltc n hc)
      · exact hltb n (heq'.trans hc)
    · rcases hbc with ⟨k, hb, hltc⟩ | ⟨heq', htext'⟩
      · exact .inl ⟨k, heq.trans hb, hltc⟩
      · exact .inr ⟨heq.trans heq', Bytes.less_trans htext htext'⟩
  connected a b hne := by
    have htexts : integer? a = integer? b → numeric.less a b = true ∨ numeric.less b a = true := by
      intro heq
      cases htext : Bytes.less a b with
      | true => exact .inl (less_numeric_iff.mpr (.inr ⟨heq, htext⟩))
      | false =>
        exact .inr (less_numeric_iff.mpr (.inr ⟨heq.symm, Bytes.less_of_ne hne htext⟩))
    rw [less_numeric_iff, less_numeric_iff] at htexts ⊢
    cases ha : integer? a with
    | none =>
      cases hb : integer? b with
      | none => rw [ha, hb] at htexts; exact htexts rfl
      | some n => simp
    | some m =>
      cases hb : integer? b with
      | none => simp
      | some n =>
        rcases Int.lt_trichotomy m.toInt n.toInt with hlt | heq | hgt
        · simp [Int64.lt_iff_toInt_lt, hlt]
        · obtain rfl := Int64.toInt_inj.mp heq
          rw [ha, hb] at htexts
          exact htexts rfl
        · simp [Int64.lt_iff_toInt_lt, hgt]

/-- **Each of the built-in orders is a strict total order.** -/
theorem strictTotal (order : KeyOrder) : Comparison.StrictTotal order.less := by
  cases order with
  | lexicalAscending =>
    refine ⟨Bytes.less_irrefl, fun a b c => Bytes.less_trans, fun a b hne => ?_⟩
    cases hab : Bytes.less a b with
    | true => exact .inl hab
    | false => exact .inr (Bytes.less_of_ne hne hab)
  | lexicalDescending =>
    refine ⟨Bytes.less_irrefl, fun a b c hab hbc => Bytes.less_trans hbc hab, fun a b hne => ?_⟩
    cases hab : Bytes.less a b with
    | true => exact .inr hab
    | false => exact .inl (Bytes.less_of_ne hne hab)
  | numeric => exact numeric_strictTotal

end KeyOrder

end Keyspace
