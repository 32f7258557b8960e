import Keyspace.Proofs.KeyOrders

/-!
# Ranges of a snapshot

The two binary searches of a range find what they look for: where the keys are ordered, the keys
that come before a given one are an initial segment, and `partitionPoint` is its length
(`partitionPoint_spec`). So a range is the list of the keys that it covers, in the order of the
snapshot and as many of them as it asks for (`Snapshot.keysInRange_eq`).

Ranges can be **merged**: the first keys of several lists together are found among the first keys of
each of them (`truncate_merge`), because a key that stands late in its own list has as many keys
before it in the whole.
-/

namespace Keyspace

open Comparison

/-! ## Binary search -/

/-- The keys that are as `p` says are an initial segment. -/
def Initially (p : Bytes → Bool) (keys : Array Bytes) : Prop :=
  ∀ (i j : Nat) (k l : Bytes), i ≤ j → keys[i]? = some k → keys[j]? = some l → p l = true →
    p k = true

/-- **The search finds the end of an initial segment** in any part of the keys. -/
theorem partitionPoint_spec {p : Bytes → Bool} {keys : Array Bytes} (hp : Initially p keys)
    (first count : Nat) (hle : first + count ≤ keys.size) :
    first ≤ partitionPoint p keys first count ∧
      partitionPoint p keys first count ≤ first + count ∧
      ∀ i k, first ≤ i → i < first + count → keys[i]? = some k →
        (p k = true ↔ i < partitionPoint p keys first count) := by
  fun_induction partitionPoint p keys first count with
  | case1 first => exact ⟨Nat.le_refl _, Nat.le_refl _, fun i k hi hlt _ => by omega⟩
  | case2 first count hcount half hyes ih =>
    have hlt : first + half < keys.size := by omega
    have hmiddle := Array.getElem?_eq_getElem hlt
    rw [hmiddle, Option.any_some] at hyes
    obtain ⟨hlow, hhigh, hiff⟩ := ih (by omega)
    refine ⟨by omega, by omega, fun i k hi hlt hk => ?_⟩
    by_cases hafter : first + half + 1 ≤ i
    · exact hiff i k hafter (by omega) hk
    · exact iff_of_true (hp i (first + half) k _ (by omega) hk hmiddle hyes) (by omega)
  | case3 first count hcount half hno ih =>
    have hlt : first + half < keys.size := by omega
    have hmiddle := Array.getElem?_eq_getElem hlt
    rw [hmiddle, Option.any_some] at hno
    obtain ⟨hlow, hhigh, hiff⟩ := ih (by omega)
    refine ⟨by omega, by omega, fun i k hi hlt hk => ?_⟩
    by_cases hbefore : i < first + half
    · exact hiff i k hi hbefore hk
    · exact iff_of_false (fun hyes => hno (hp (first + half) i _ k (by omega) hmiddle hk hyes))
        (by omega)

/-- In all of the keys. -/
theorem lt_partitionPoint_iff {p : Bytes → Bool} {keys : Array Bytes} (hp : Initially p keys)
    {i : Nat} {k : Bytes} (hk : keys[i]? = some k) :
    i < partitionPoint p keys 0 keys.size ↔ p k = true := by
  have hlt : i < keys.size := (Array.getElem?_eq_some_iff.mp hk).1
  obtain ⟨-, -, hiff⟩ := partitionPoint_spec hp 0 keys.size (by omega)
  exact (hiff i k (Nat.zero_le i) (by omega) hk).symm

/-! ## What a range covers -/

namespace Range

/-- The keys that a range covers: none before its first one, and none after its last one. -/
def covers (r : Range) (less : Comparison) (k : Bytes) : Bool :=
  !less k r.first && r.last.all fun last => !less last k

/-- As many keys as a range asks for. -/
def truncate (r : Range) (keys : List Bytes) : List Bytes :=
  if r.limit = 0 then keys else keys.take r.limit.toNat

theorem truncate_sublist (r : Range) (keys : List Bytes) : (r.truncate keys).Sublist keys := by
  unfold truncate
  split
  · exact List.Sublist.refl keys
  · exact List.take_sublist ..

end Range

/-- Members that stand in one stretch of a list. -/
theorem filter_eq_drop_take {p : Bytes → Bool} {keys : List Bytes} {start stop : Nat}
    (hp : ∀ (i : Nat) (k : Bytes), keys[i]? = some k → (p k = true ↔ start ≤ i ∧ i < stop)) :
    keys.filter p = (keys.take stop).drop start := by
  have hafter : (keys.drop stop).filter p = [] := by
    refine List.filter_eq_nil_iff.mpr fun k hk hyes => ?_
    obtain ⟨i, hi⟩ := List.mem_iff_getElem?.mp hk
    rw [List.getElem?_drop] at hi
    have hstretch := (hp (stop + i) k hi).mp hyes
    omega
  have hbefore : ((keys.take stop).take start).filter p = [] := by
    refine List.filter_eq_nil_iff.mpr fun k hk hyes => ?_
    obtain ⟨i, hi⟩ := List.mem_iff_getElem?.mp hk
    simp only [List.getElem?_take] at hi
    split at hi
    · split at hi
      · have hstretch := (hp i k hi).mp hyes
        omega
      · cases hi
    · cases hi
  have hwithin : ((keys.take stop).drop start).filter p = (keys.take stop).drop start := by
    refine List.filter_eq_self.mpr fun k hk => ?_
    obtain ⟨i, hi⟩ := List.mem_iff_getElem?.mp hk
    simp only [List.getElem?_drop, List.getElem?_take] at hi
    split at hi
    · exact (hp (start + i) k hi).mpr ⟨by omega, by omega⟩
    · cases hi
  calc keys.filter p = (keys.take stop).filter p := by
        conv => lhs; rw [← List.take_append_drop stop keys]
        rw [List.filter_append, hafter, List.append_nil]
    _ = ((keys.take stop).drop start).filter p := by
        conv => lhs; rw [← List.take_append_drop start (keys.take stop)]
        rw [List.filter_append, hbefore, List.nil_append]
    _ = (keys.take stop).drop start := hwithin

section Ordered

variable {less : Comparison} {keys : Array Bytes}

/-- No later key comes before an earlier one, nor before itself. -/
theorem not_less_of_le (hless : StrictWeak less) (h : Ordered less keys.toList) {i j : Nat}
    (hij : i ≤ j) {k l : Bytes} (hk : keys[i]? = some k) (hl : keys[j]? = some l) :
    less l k = false := by
  rcases Nat.eq_or_lt_of_le hij with rfl | hlt
  · rw [hk] at hl
    cases hl
    exact hless.irrefl k
  · obtain ⟨hi, rfl⟩ := Array.getElem?_eq_some_iff.mp hk
    obtain ⟨hj, rfl⟩ := Array.getElem?_eq_some_iff.mp hl
    exact List.pairwise_iff_getElem.mp h i j hi hj hlt

/-- The keys that come before a given one stand first. -/
theorem initially_before (hless : StrictWeak less) (h : Ordered less keys.toList) (b : Bytes) :
    Initially (fun k => less k b) keys := by
  intro i j k l hij hk hl hlb
  refine Bool.not_eq_false _ ▸ fun hkb => ?_
  exact Bool.eq_false_iff.mp (hless.not_trans (not_less_of_le hless h hij hk hl) hkb) hlb

/-- So do those that a given one does not come before. -/
theorem initially_not_after (hless : StrictWeak less) (h : Ordered less keys.toList) (b : Bytes) :
    Initially (fun k => !less b k) keys := by
  intro i j k l hij hk hl hbl
  rw [Bool.not_eq_true'] at hbl ⊢
  exact hless.not_trans hbl (not_less_of_le hless h hij hk hl)

end Ordered

namespace Snapshot

variable {s : Snapshot}

/-- Where the keys of a range begin. -/
def rangeStart (s : Snapshot) (r : Range) : Nat :=
  partitionPoint (fun k => s.less k r.first) s.keys 0 s.keys.size

/-- Where they end. -/
def rangeStop (s : Snapshot) (r : Range) : Nat :=
  r.last.elim s.keys.size fun last => partitionPoint (fun k => !s.less last k) s.keys 0 s.keys.size

/-- A range of a snapshot is a stretch of its keys. -/
theorem keysInRange_stretch (s : Snapshot) (r : Range) :
    let start := s.rangeStart r
    let stop := s.rangeStop r
    s.keysInRange r = if stop ≤ start then [] else (s.keys.extract start
      (if 0 < r.limit && r.limit.toNat < stop - start then start + r.limit.toNat
        else stop)).toList := by
  obtain ⟨first, last, limit⟩ := r
  cases last with
  | none => rfl
  | some last => rfl

theorem rangeStop_le_size (hless : StrictWeak s.less) (h : Ordered s.less s.keys.toList)
    (r : Range) : s.rangeStop r ≤ s.keys.size := by
  rw [rangeStop]
  cases r.last with
  | none => exact Nat.le_refl _
  | some last =>
    obtain ⟨-, hle, -⟩ := partitionPoint_spec (initially_not_after hless h last) 0 s.keys.size
      (by omega)
    rw [Nat.zero_add] at hle
    exact hle

/-- The keys of the stretch are those that the range covers. -/
theorem covers_iff (hless : StrictWeak s.less) (h : Ordered s.less s.keys.toList) (r : Range)
    (i : Nat) (k : Bytes) (hk : s.keys.toList[i]? = some k) :
    r.covers s.less k = true ↔ s.rangeStart r ≤ i ∧ i < s.rangeStop r := by
  rw [Array.getElem?_toList] at hk
  have hfirst : (!s.less k r.first) = true ↔ s.rangeStart r ≤ i := by
    rw [Bool.not_eq_true', ← Bool.not_eq_true,
      ← lt_partitionPoint_iff (initially_before hless h r.first) hk, Nat.not_lt, rangeStart]
  have hlast : (r.last.all fun last => !s.less last k) = true ↔ i < s.rangeStop r := by
    rw [rangeStop]
    cases r.last with
    | none => exact iff_of_true rfl (Array.getElem?_eq_some_iff.mp hk).1
    | some last => exact (lt_partitionPoint_iff (initially_not_after hless h last) hk).symm
  rw [Range.covers, Bool.and_eq_true, hfirst, hlast]

/-- **A range of a snapshot** is the list of those of its keys that the range covers, as many as it
asks for. -/
theorem keysInRange_eq (hless : StrictWeak s.less) (h : Ordered s.less s.keys.toList) (r : Range) :
    s.keysInRange r = r.truncate (s.keys.toList.filter (r.covers s.less)) := by
  have hstop := rangeStop_le_size hless h r
  rw [filter_eq_drop_take (covers_iff hless h r), keysInRange_stretch]
  split
  · next hle =>
    rw [List.drop_eq_nil_of_le (by rw [List.length_take]; omega), Range.truncate, List.take_nil,
      ite_self]
  · next hlt =>
    rw [Array.toList_extract, List.extract_eq_take_drop, List.drop_take, Range.truncate]
    by_cases hzero : r.limit = 0
    · rw [if_pos hzero, if_neg (by simp [hzero])]
    · have hpositive : 0 < r.limit := UInt64.pos_iff_ne_zero.mpr hzero
      rw [if_neg hzero, List.take_take]
      congr 1
      split
      · next hmore =>
        simp only [hpositive, decide_true, Bool.true_and, decide_eq_true_eq] at hmore
        omega
      · next hfew =>
        simp only [hpositive, decide_true, Bool.true_and, decide_eq_true_eq] at hfew
        omega

/-- A limit that cuts a range short is an offset into the keys, so that it is the same number when
it is read with a sign. -/
theorem toInt_limit (hless : StrictWeak s.less) (h : Ordered s.less s.keys.toList) {r : Range}
    (hsize : s.keys.size ≤ Int64.maxValue.toInt)
    (hcuts : r.limit.toNat < s.rangeStop r - s.rangeStart r) :
    r.limit.toInt64.toInt = r.limit.toNat := by
  have hstop := rangeStop_le_size hless h r
  rw [Int64.toInt_maxValue] at hsize
  have hlt : r.limit.toNat < 2 ^ 63 := by omega
  have hbits : r.limit.toInt64.toInt = (r.limit.toNat : Int).bmod (2 ^ 64) :=
    BitVec.toInt_eq_toNat_bmod _
  rw [hbits]
  apply Int.bmod_eq_of_le <;> omega

/-- **A range is cut out of the keys.** For every strict weak order and all keys that it orders, a
range is the list of those keys that are not before its first one and not after its last one, in
the order of the snapshot and with every repetition, up to the limit, where zero stands for no
limit. The limit is used as an offset only where it is one. -/
theorem keysInRange_cut (hless : StrictWeak s.less) (h : Ordered s.less s.keys.toList)
    (first : Bytes) (last : Option Bytes) (limit : UInt64) :
    let r : Range := { first, last, limit }
    let covered := s.keys.toList.filter fun k =>
      !s.less k first && last.all fun last => !s.less last k
    s.keysInRange r = (if limit = 0 then covered else covered.take limit.toNat) ∧
      (s.keys.size ≤ Int64.maxValue.toInt → limit.toNat < s.rangeStop r - s.rangeStart r →
        limit.toInt64.toInt = limit.toNat) := by
  refine ⟨?_, fun hsize hcuts => toInt_limit hless h (r := ⟨first, last, limit⟩) hsize hcuts⟩
  rw [keysInRange_eq hless h, Range.truncate]
  rfl

/-- Keys in the order of their lengths, with ties and a repetition. -/
def measured : Snapshot where
  name := []
  keys := #[[9], [5], [5], [7, 7], [1, 2, 3]]
  less a b := a.length < b.length
  createdAt := 0
  timeToLive := 0

/-- Keys that are tied with an end of a range belong to it, and the greatest limit cuts nothing. -/
theorem measured_cut : StrictWeak measured.less ∧ Ordered measured.less measured.keys.toList ∧
    measured.keysInRange ⟨[0], some [4, 4], 18446744073709551615⟩ = [[9], [5], [5], [7, 7]] ∧
    measured.keysInRange ⟨[0], none, 2⟩ = [[9], [5]] ∧
    measured.keysInRange ⟨[0, 0], some [0], 1⟩ = [] := by
  have hless : StrictWeak measured.less := by
    refine ⟨fun a => ?_, fun a b c => ?_, fun a b c => ?_⟩ <;>
      simp only [measured, decide_eq_true_eq, decide_eq_false_iff_not] <;> omega
  have hordered : Ordered measured.less measured.keys.toList := by
    show List.Pairwise _ _
    decide
  refine ⟨hless, hordered, ?_, ?_, ?_⟩
  · rw [(keysInRange_cut hless hordered _ _ _).1]
    rfl
  · rw [(keysInRange_cut hless hordered _ _ _).1]
    rfl
  · rw [(keysInRange_cut hless hordered _ _ _).1]
    rfl

end Snapshot

/-! ## Merging ranges -/

section Merging

variable {less : Comparison}

/-- In increasing keys, the first `n` are those with fewer than `n` keys before them. -/
theorem mem_take_iff (hless : StrictWeak less) {keys : List Bytes} (h : Increasing less keys)
    {k : Bytes} (hk : k ∈ keys) (n : Nat) :
    k ∈ keys.take n ↔ keys.countP (fun a => less a k) < n := by
  induction keys generalizing n with
  | nil => cases hk
  | cons a rest ih =>
    obtain ⟨hfirst, hrest⟩ := List.pairwise_cons.mp h
    cases n with
    | zero => simp
    | succ n =>
      rw [List.take_succ_cons, List.mem_cons, List.countP_cons]
      rcases List.mem_cons.mp hk with rfl | hk
      · have hnone : rest.countP (fun b => less b k) = 0 :=
          List.countP_eq_zero.mpr fun b hb => Bool.eq_false_iff.mp (hless.asymm (hfirst b hb))
        simp [hnone, hless.irrefl]
      · have hak := hfirst k hk
        have hne : k ≠ a := by
          rintro rfl
          rw [hless.irrefl] at hak
          cases hak
        rw [ih hrest hk n]
        simp only [hne, false_or, hak, if_true]
        omega

/-- Of increasing keys, those of a kind to which the first `n` all belong have the same first `n`.
-/
theorem take_filter_of_take {keys : List Bytes} {p : Bytes → Bool} {n : Nat}
    (hp : ∀ k ∈ keys.take n, p k = true) : (keys.filter p).take n = keys.take n := by
  conv => lhs; rw [← List.take_append_drop n keys]
  rw [List.filter_append, List.filter_eq_self.mpr hp]
  by_cases hlong : n ≤ keys.length
  · rw [List.take_append_of_le_length (by rw [List.length_take]; omega), List.take_take,
      Nat.min_self]
  · rw [List.drop_eq_nil_of_le (by omega), List.filter_nil, List.append_nil, List.take_take,
      Nat.min_self]

theorem flatMap_take_sublist (parts : List (List Bytes)) (n : Nat) :
    (parts.flatMap fun part => part.take n).Sublist parts.flatten := by
  induction parts with
  | nil => exact List.Sublist.refl _
  | cons part rest ih =>
    rw [List.flatMap_cons, List.flatten_cons]
    exact (List.take_sublist n part).append ih

/-- **The first keys of several lists together are found among the first keys of each of them.** -/
theorem take_merge (hless : StrictTotal less) {parts : List (List Bytes)}
    (hparts : ∀ part ∈ parts, Increasing less part) (hnodup : parts.flatten.Nodup) (n : Nat) :
    (KeyOrder.sort less (parts.flatMap fun part => part.take n)).take n =
      (KeyOrder.sort less parts.flatten).take n := by
  have hweak := hless.strictWeak
  have hsub := flatMap_take_sublist parts n
  have hall := KeyOrder.sort_increasing hless hnodup
  have hsome := KeyOrder.sort_increasing hless (hnodup.sublist hsub)
  -- a key has no more keys before it in its own list than in the whole
  have hkept : ∀ k ∈ (KeyOrder.sort less parts.flatten).take n,
      k ∈ parts.flatMap fun part => part.take n := by
    intro k hk
    have hmem := List.mem_of_mem_take hk
    obtain ⟨part, hpart, hkpart⟩ := List.mem_flatten.mp (KeyOrder.mem_sort.mp hmem)
    refine List.mem_flatMap.mpr ⟨part, hpart, ?_⟩
    refine (mem_take_iff hweak (hparts part hpart) hkpart n).mpr ?_
    calc part.countP (fun a => less a k) ≤ parts.flatten.countP (fun a => less a k) :=
          (List.sublist_flatten_of_mem hpart).countP_le
      _ = (KeyOrder.sort less parts.flatten).countP (fun a => less a k) :=
          ((KeyOrder.sort_perm less _).countP_eq _).symm
      _ < n := (mem_take_iff hweak hall hmem n).mp hk
  have hfilter : KeyOrder.sort less (parts.flatMap fun part => part.take n) =
      (KeyOrder.sort less parts.flatten).filter
        fun k => decide (k ∈ parts.flatMap fun part => part.take n) := by
    refine hsome.eq_of_mem_iff hweak (hall.filter _) fun k => ?_
    rw [KeyOrder.mem_sort, List.mem_filter, KeyOrder.mem_sort, decide_eq_true_eq]
    exact ⟨fun hk => ⟨hsub.subset hk, hk⟩, And.right⟩
  rw [hfilter]
  exact take_filter_of_take fun k hk => decide_eq_true (hkept k hk)

/-- Ranges of several lists are merged into the range of all of them. -/
theorem Range.truncate_merge (hless : StrictTotal less) {parts : List (List Bytes)}
    (hparts : ∀ part ∈ parts, Increasing less part) (hnodup : parts.flatten.Nodup) (r : Range) :
    r.truncate (KeyOrder.sort less (parts.flatMap r.truncate)) =
      r.truncate (KeyOrder.sort less parts.flatten) := by
  by_cases hzero : r.limit = 0
  · have htruncate : r.truncate = id := funext fun keys => if_pos hzero
    rw [htruncate, List.flatMap_id]
  · have htruncate : r.truncate = fun keys => keys.take r.limit.toNat :=
      funext fun keys => if_neg hzero
    rw [htruncate]
    exact take_merge hless hparts hnodup r.limit.toNat

end Merging

end Keyspace
