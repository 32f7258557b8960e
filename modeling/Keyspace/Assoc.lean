/-!
# Finite maps as lists of pairs

A finite map is a list of keys with their values, looked up from the front. Setting a key that is
present keeps its place; a new key goes to the end. Erasing removes every pair of the key.
-/

namespace Keyspace

/-- A finite map. -/
abbrev Assoc (κ ν : Type) := List (κ × ν)

namespace Assoc

variable {κ ν : Type} [DecidableEq κ]

/-- The value of a key. -/
def find? (m : Assoc κ ν) (k : κ) : Option ν :=
  match m with
  | [] => none
  | (j, v) :: rest => if j = k then some v else find? rest k

/-- Whether a key has a value. -/
def has (m : Assoc κ ν) (k : κ) : Bool :=
  (m.find? k).isSome

/-- The map in which a key has a given value. -/
def put (m : Assoc κ ν) (k : κ) (v : ν) : Assoc κ ν :=
  match m with
  | [] => [(k, v)]
  | (j, w) :: rest => if j = k then (k, v) :: rest else (j, w) :: put rest k v

/-- The map in which a key has no value. -/
def erase (m : Assoc κ ν) (k : κ) : Assoc κ ν :=
  match m with
  | [] => []
  | (j, w) :: rest => if j = k then erase rest k else (j, w) :: erase rest k

/-- The keys, in the order of the list. -/
def keys (m : Assoc κ ν) : List κ :=
  m.map Prod.fst

/-- A key that was set has its value; every other key keeps its own. -/
theorem find?_put (m : Assoc κ ν) (k j : κ) (v : ν) :
    (m.put k v).find? j = if j = k then some v else m.find? j := by
  induction m with
  | nil => by_cases h : k = j <;> simp [put, find?, h, eq_comm]
  | cons e rest ih =>
    obtain ⟨i, w⟩ := e
    by_cases hik : i = k
    · subst hik
      by_cases hij : i = j
      · simp [put, find?, hij]
      · simp [put, find?, hij, Ne.symm hij]
    · by_cases hij : i = j
      · subst hij
        simp [put, find?, hik]
      · simp [put, find?, hik, hij, ih]

/-- A key that was erased has no value; every other key keeps its own. -/
theorem find?_erase (m : Assoc κ ν) (k j : κ) :
    (m.erase k).find? j = if j = k then none else m.find? j := by
  induction m with
  | nil => simp [erase, find?]
  | cons e rest ih =>
    obtain ⟨i, w⟩ := e
    by_cases hik : i = k
    · subst hik
      by_cases hij : i = j
      · subst hij; simp [erase, ih]
      · simp [erase, find?, hij, ih]
    · by_cases hij : i = j
      · subst hij; simp [erase, find?, hik]
      · simp [erase, find?, hik, hij, ih]

/-- A map in which a look-up finds nothing for any key is empty. -/
theorem eq_nil_of_find?_eq_none {m : Assoc κ ν} (h : ∀ k, m.find? k = none) : m = [] := by
  cases m with
  | nil => rfl
  | cons e rest =>
    obtain ⟨i, w⟩ := e
    have hi := h i
    simp [find?] at hi

/-- The pair that a look-up finds is in the list. -/
theorem mem_of_find? {m : Assoc κ ν} {k : κ} {v : ν} (h : m.find? k = some v) : (k, v) ∈ m := by
  induction m with
  | nil => simp [find?] at h
  | cons e rest ih =>
    obtain ⟨i, w⟩ := e
    by_cases hik : i = k
    · subst hik
      simp only [find?, if_pos, Option.some.injEq] at h
      subst h
      exact List.mem_cons_self
    · simp only [find?, if_neg hik] at h
      exact List.mem_cons_of_mem _ (ih h)

/-- A look-up finds something exactly for the keys of the list. -/
theorem isSome_find?_iff (m : Assoc κ ν) (k : κ) : (m.find? k).isSome ↔ k ∈ m.keys := by
  induction m with
  | nil => simp [find?, keys]
  | cons e rest ih =>
    obtain ⟨i, w⟩ := e
    by_cases hik : i = k
    · simp [find?, keys, hik]
    · simp only [find?, if_neg hik, ih, keys, List.map_cons, List.mem_cons, Ne.symm hik, false_or]

/-- A pair of a map with distinct keys is what a look-up of its key finds. -/
theorem find?_of_mem {m : Assoc κ ν} {k : κ} {v : ν} (hd : m.keys.Nodup) (h : (k, v) ∈ m) :
    m.find? k = some v := by
  induction m with
  | nil => cases h
  | cons e rest ih =>
    obtain ⟨i, w⟩ := e
    obtain ⟨hi, hrest⟩ := List.nodup_cons.mp hd
    rcases List.mem_cons.mp h with heq | htail
    · cases heq
      simp [find?]
    · have hmem : k ∈ Assoc.keys rest := List.mem_map.mpr ⟨(k, v), htail, rfl⟩
      have hik : i ≠ k := fun hik => hi (hik ▸ hmem)
      simp only [find?, if_neg hik, ih hrest htail]

/-- Setting a key that is there keeps the keys; a new key goes to their end. -/
theorem keys_put (m : Assoc κ ν) (k : κ) (v : ν) :
    (m.put k v).keys = if k ∈ m.keys then m.keys else m.keys ++ [k] := by
  induction m with
  | nil => simp [put, keys]
  | cons e rest ih =>
    obtain ⟨i, w⟩ := e
    by_cases hik : i = k
    · simp [put, keys, hik]
    · simp only [keys] at ih
      by_cases hk : k ∈ rest.map Prod.fst <;> simp [put, keys, hik, Ne.symm hik, ih, hk]

/-- Erasing a key takes every occurrence of it out of the keys. -/
theorem keys_erase (m : Assoc κ ν) (k : κ) : (m.erase k).keys = m.keys.filter (· ≠ k) := by
  induction m with
  | nil => rfl
  | cons e rest ih =>
    obtain ⟨i, w⟩ := e
    simp only [keys] at ih
    by_cases hik : i = k <;> simp [erase, keys, hik, ih]

theorem nodup_keys_put {m : Assoc κ ν} (hd : m.keys.Nodup) (k : κ) (v : ν) :
    (m.put k v).keys.Nodup := by
  rw [keys_put]
  split
  · exact hd
  · next hk =>
    refine List.nodup_append.mpr ⟨hd, by simp, fun a ha b hb => ?_⟩
    rw [List.mem_singleton.mp hb]
    exact fun heq => hk (heq ▸ ha)

theorem nodup_keys_erase {m : Assoc κ ν} (hd : m.keys.Nodup) (k : κ) :
    (m.erase k).keys.Nodup := by
  rw [keys_erase]
  exact hd.filter _

/-- Erasing a key that is not there changes nothing. -/
theorem erase_of_not_mem {m : Assoc κ ν} {k : κ} (h : k ∉ m.keys) : m.erase k = m := by
  induction m with
  | nil => rfl
  | cons e rest ih =>
    obtain ⟨i, w⟩ := e
    have hik : i ≠ k := fun hik => h (hik ▸ List.mem_cons_self)
    have hrest : k ∉ Assoc.keys rest := fun hk => h (List.mem_cons_of_mem _ hk)
    simp only [erase, if_neg hik, ih hrest]

/-- A key that is set twice keeps what it was set to last. -/
@[simp]
theorem put_put_self (m : Assoc κ ν) (k : κ) (v w : ν) : (m.put k v).put k w = m.put k w := by
  induction m with
  | nil => simp only [put, if_true]
  | cons e rest ih =>
    obtain ⟨i, u⟩ := e
    by_cases hik : i = k
    · simp only [put, if_pos hik, if_true]
    · simp only [put, if_neg hik, ih]

/-- What a key was set to is erased with it. -/
@[simp]
theorem erase_put_self (m : Assoc κ ν) (k : κ) (v : ν) : (m.put k v).erase k = m.erase k := by
  induction m with
  | nil => simp only [put, erase, if_true]
  | cons e rest ih =>
    obtain ⟨i, u⟩ := e
    by_cases hik : i = k
    · simp only [put, erase, if_pos hik, if_true]
    · simp only [put, erase, if_neg hik, ih]

/-! ## Weights -/

/-- The sum of a weight over the pairs of a map. -/
def total (m : Assoc κ ν) (weight : κ × ν → Nat) : Nat :=
  match m with
  | [] => 0
  | p :: rest => weight p + total rest weight

/-- A new key adds its weight. -/
theorem total_put_new {m : Assoc κ ν} {k : κ} (h : m.find? k = none) (v : ν)
    (weight : κ × ν → Nat) : (m.put k v).total weight = m.total weight + weight (k, v) := by
  induction m with
  | nil => simp [put, total]
  | cons e rest ih =>
    obtain ⟨i, w⟩ := e
    by_cases hik : i = k
    · simp [find?, hik] at h
    · simp only [find?, if_neg hik] at h
      have hrest := ih h
      simp only [put, if_neg hik, total, hrest]
      omega

/-- A key that is set anew trades its old weight for the new one. -/
theorem total_put_old {m : Assoc κ ν} {k : κ} {w : ν} (h : m.find? k = some w) (v : ν)
    (weight : κ × ν → Nat) :
    (m.put k v).total weight + weight (k, w) = m.total weight + weight (k, v) := by
  induction m with
  | nil => simp [find?] at h
  | cons e rest ih =>
    obtain ⟨i, u⟩ := e
    by_cases hik : i = k
    · subst hik
      simp only [find?, if_pos, Option.some.injEq] at h
      subst h
      simp only [put, if_pos, total]
      omega
    · simp only [find?, if_neg hik] at h
      have hrest := ih h
      simp only [put, if_neg hik, total]
      omega

/-- Erasing a key takes its weight away, once when the keys are distinct. -/
theorem total_erase {m : Assoc κ ν} (hd : m.keys.Nodup) {k : κ} {w : ν} (h : m.find? k = some w)
    (weight : κ × ν → Nat) : (m.erase k).total weight + weight (k, w) = m.total weight := by
  induction m with
  | nil => simp [find?] at h
  | cons e rest ih =>
    obtain ⟨i, u⟩ := e
    obtain ⟨hi, hrest⟩ := List.nodup_cons.mp hd
    by_cases hik : i = k
    · subst hik
      simp only [find?, if_pos, Option.some.injEq] at h
      subst h
      have hsame : Assoc.erase rest i = rest := erase_of_not_mem hi
      simp only [erase, if_pos, hsame, total]
      omega
    · simp only [find?, if_neg hik] at h
      have htail := ih hrest h
      simp only [erase, if_neg hik, total]
      omega

omit [DecidableEq κ] in
/-- A total is zero when every pair weighs nothing. -/
theorem total_eq_zero {m : Assoc κ ν} {weight : κ × ν → Nat} (h : ∀ p ∈ m, weight p = 0) :
    m.total weight = 0 := by
  induction m with
  | nil => rfl
  | cons p rest ih =>
    rw [total, h p List.mem_cons_self, ih fun q hq => h q (List.mem_cons_of_mem _ hq)]

/-- The weight of a key is part of the total. -/
theorem weight_le_total {m : Assoc κ ν} {k : κ} {v : ν} (h : m.find? k = some v)
    (weight : κ × ν → Nat) : weight (k, v) ≤ m.total weight := by
  induction m with
  | nil => simp [find?] at h
  | cons e rest ih =>
    obtain ⟨i, u⟩ := e
    simp only [total]
    by_cases hik : i = k
    · subst hik
      simp only [find?, if_pos, Option.some.injEq] at h
      rw [h]
      omega
    · simp only [find?, if_neg hik] at h
      have hrest := ih h
      omega

end Assoc

end Keyspace
