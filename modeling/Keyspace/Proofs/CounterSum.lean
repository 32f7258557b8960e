import Keyspace.Proofs.CanonicalNumeral

/-!
# Counters count exactly

A counter that is updated gives the canonical text of the exact sum of what its text and the
increment denote, or it fails because one of the two is no integer of 64 bits or because the sum is
none (`Function.count_eq_ok_iff`, `Function.count_eq_error_iff`). The test for overflow and the
addition behind it are defined on all words (`Function.overflows?_eq`): the test subtracts the
increment from the bound on its own side.

Since every result is canonical, it depends on the sum alone, and one or more updates in a row end in
the same text whatever the order of their increments (`Function.countEach_eq_ok`).
-/

namespace Keyspace

/-- A text reads as an integer of 64 bits with sign. -/
structure Numeral.Reads (text : Bytes) (n : Int) : Prop where
  denotes : Denotes text n
  range : -2 ^ 63 ≤ n ∧ n ≤ 2 ^ 63 - 1

namespace Update

/-- The increment of an update: what its parameter `delta` reads as, or one without it. -/
def Adds (u : Update) (d : Int) : Prop :=
  match u.parameter? (Bytes.ascii "delta") with
  | some delta => Numeral.Reads delta d
  | none => d = 1

/-- **The sum that an update makes of a counter**, if it is an integer of 64 bits. -/
structure Sums (u : Update) (text : Bytes) (sum : Int) : Prop where
  parts : ∃ n d, Numeral.Reads text n ∧ u.Adds d ∧ sum = n + d
  range : -2 ^ 63 ≤ sum ∧ sum ≤ 2 ^ 63 - 1

/-- **Why a counter is not updated**: its text is looked at first, then the increment, then the sum.
-/
inductive Refuses (u : Update) (text : Bytes) : Failure → Prop where
  | text (illegible : ∀ n, ¬ Numeral.Reads text n) :
    Refuses u text (.notAnInteger (Bytes.ascii "counter value") text)
  | delta {n : Int} {delta : Bytes} (read : Numeral.Reads text n)
    (given : u.parameter? (Bytes.ascii "delta") = some delta)
    (illegible : ∀ d, ¬ Numeral.Reads delta d) :
    Refuses u text (.notAnInteger (Bytes.ascii "delta") delta)
  | sum {n d : Int} (read : Numeral.Reads text n) (adds : u.Adds d)
    (outside : ¬ (-2 ^ 63 ≤ n + d ∧ n + d ≤ 2 ^ 63 - 1)) :
    Refuses u text (.counterOverflow text d)

end Update

namespace Numeral

variable {text : Bytes} {n : Int}

theorem reads_iff : Reads text n ↔ ∃ w, int64? text = some w ∧ w.toInt = n := by
  constructor
  · rintro ⟨hdenotes, hrange⟩
    have hword := toInt_ofInt ((inInt64_iff n).mpr hrange)
    exact ⟨_, int64?_eq_some_iff.mpr (hword.symm ▸ hdenotes), hword⟩
  · rintro ⟨w, hw, rfl⟩
    exact ⟨int64?_eq_some_iff.mp hw, (inInt64_iff _).mp (inInt64_toInt w)⟩

theorem Reads.of_canonical {m : Int} (h : Reads text n) (hcanonical : Canonical text m) : n = m :=
  h.denotes.unique hcanonical.denotes

theorem Reads.unique {m : Int} (h : Reads text n) (h' : Reads text m) : n = m :=
  h.denotes.unique h'.denotes

end Numeral

namespace Update

variable {u : Update} {text : Bytes} {d sum : Int} {f g : Failure}

theorem Adds.increment_eq (h : u.Adds d) : u.increment = d := by
  unfold Adds at h
  unfold increment
  cases hdelta : u.parameter? (Bytes.ascii "delta") with
  | some delta =>
    simp only [hdelta] at h
    obtain ⟨w, hw, rfl⟩ := Numeral.reads_iff.mp h
    simp only [hw, Option.map_some, Option.getD_some]
  | none =>
    simp only [hdelta] at h
    exact h.symm

theorem Sums.unique {sum' : Int} (h : u.Sums text sum) (h' : u.Sums text sum') : sum = sum' := by
  obtain ⟨n, d, hreads, hadds, rfl⟩ := h.parts
  obtain ⟨n', d', hreads', hadds', rfl⟩ := h'.parts
  rw [hreads.unique hreads', ← hadds.increment_eq, ← hadds'.increment_eq]

/-- A counter that is not updated has no sum. -/
theorem Refuses.not_sums (h : u.Refuses text f) : ¬ u.Sums text sum := by
  rintro ⟨⟨n, d, hreads, hadds, rfl⟩, hrange⟩
  cases h with
  | text illegible => exact illegible n hreads
  | delta _ given illegible =>
    simp only [Adds, given] at hadds
    exact illegible d hadds
  | sum reads adds outside =>
    rw [hreads.unique reads, ← hadds.increment_eq, adds.increment_eq] at hrange
    exact outside hrange

/-- There is one reason, as the first that is found counts. -/
theorem Refuses.unique (h : u.Refuses text f) (h' : u.Refuses text g) : f = g := by
  cases h with
  | text illegible =>
    cases h' with
    | text _ => rfl
    | delta reads _ _ | sum reads _ _ => exact absurd reads (illegible _)
  | delta reads given illegible =>
    cases h' with
    | text illegible' => exact absurd reads (illegible' _)
    | delta _ given' _ =>
      rw [given] at given'
      cases given'
      rfl
    | sum _ adds _ =>
      simp only [Adds, given] at adds
      exact absurd adds (illegible _)
  | sum reads adds _ =>
    cases h' with
    | text illegible' => exact absurd reads (illegible' _)
    | delta _ given' illegible' =>
      simp only [Adds, given'] at adds
      exact absurd adds (illegible' _)
    | sum _ adds' _ => rw [← adds.increment_eq, adds'.increment_eq]

theorem Refuses.kind (h : u.Refuses text f) : f.kind = .invalidArgument := by
  cases h <;> rfl

end Update

namespace Function

variable {u : Update} {text out : Bytes} {f : Failure}

/-! ### The test for overflow -/

/-- Whether a sum comes to lie above all words, by arithmetic that is defined only where it is exact.
-/
def above? (current increment : Int64) : Option Bool :=
  if 0 < increment then
    (Signed.sub? Int64.maxValue increment).map fun room => decide (room < current)
  else some false

/-- Whether a sum comes to lie below all words, by the same arithmetic. -/
def below? (current increment : Int64) : Option Bool :=
  if increment < 0 then
    (Signed.sub? Int64.minValue increment).map fun room => decide (current < room)
  else some false

/-- The test for overflow: the second question is asked when the first one is denied. -/
def overflows? (current increment : Int64) : Option Bool := do
  if ← above? current increment then return true else below? current increment

theorem above?_eq (current increment : Int64) : above? current increment =
    some (decide (0 < increment) && decide (Int64.maxValue - increment < current)) := by
  have hhigh := increment.toInt_lt
  unfold above?
  split
  · next hpos =>
    have hpositive : 0 < increment.toInt := Int64.lt_iff_toInt_lt.mp hpos
    have hmax : Int64.maxValue.toInt = 2 ^ 63 - 1 := rfl
    rw [Signed.sub?_eq ((Numeral.inInt64_iff _).mpr (by omega)), Option.map_some, decide_eq_true hpos,
      Bool.true_and]
  · next hpos => rw [decide_eq_false hpos, Bool.false_and]

theorem below?_eq (current increment : Int64) : below? current increment =
    some (decide (increment < 0) && decide (current < Int64.minValue - increment)) := by
  have hlow := increment.le_toInt
  unfold below?
  split
  · next hneg =>
    have hnegative : increment.toInt < 0 := Int64.lt_iff_toInt_lt.mp hneg
    have hmin : Int64.minValue.toInt = -2 ^ 63 := rfl
    rw [Signed.sub?_eq ((Numeral.inInt64_iff _).mpr (by omega)), Option.map_some, decide_eq_true hneg,
      Bool.true_and]
  · next hneg => rw [decide_eq_false hneg, Bool.false_and]

/-- **No difference in the test overflows.** -/
theorem overflows?_eq (current increment : Int64) :
    overflows? current increment = some (overflows current increment) := by
  rw [overflows?, above?_eq, below?_eq, overflows]
  cases decide (0 < increment) && decide (Int64.maxValue - increment < current) <;> rfl

/-- **The test finds exactly the sums that are no words.** -/
theorem overflows_eq_false_iff (current increment : Int64) :
    overflows current increment = false ↔
      Numeral.inInt64 (current.toInt + increment.toInt) = true := by
  have hcurrent := (Numeral.inInt64_iff _).mp (Numeral.inInt64_toInt current)
  have hincrement := (Numeral.inInt64_iff _).mp (Numeral.inInt64_toInt increment)
  have hzero : (0 : Int64).toInt = 0 := rfl
  have hmax : Int64.maxValue.toInt = 2 ^ 63 - 1 := rfl
  have hmin : Int64.minValue.toInt = -2 ^ 63 := rfl
  have hroom : 0 < increment.toInt →
      (Int64.maxValue - increment).toInt = Int64.maxValue.toInt - increment.toInt := fun hpos =>
    Signed.sub?_eq_some_iff.mp (Signed.sub?_eq ((Numeral.inInt64_iff _).mpr (by omega)))
  have hfloor : increment.toInt < 0 →
      (Int64.minValue - increment).toInt = Int64.minValue.toInt - increment.toInt := fun hneg =>
    Signed.sub?_eq_some_iff.mp (Signed.sub?_eq ((Numeral.inInt64_iff _).mpr (by omega)))
  simp only [overflows, Bool.or_eq_false_iff, Bool.and_eq_false_iff, decide_eq_false_iff_not,
    Int64.lt_iff_toInt_lt, hzero, Numeral.inInt64_iff]
  omega

/-- **The addition behind the test does not overflow.** -/
theorem add?_of_not_overflows {current increment : Int64}
    (h : overflows current increment = false) :
    Signed.add? current increment = some (current + increment) :=
  Signed.add?_eq ((overflows_eq_false_iff current increment).mp h)

/-! ### One update -/

/-- What a text is read as, or why it is not. -/
theorem integer_cases (role text : Bytes) :
    (∃ w, integer role text = .ok w ∧ Numeral.Reads text w.toInt) ∨
      (integer role text = .error (.notAnInteger role text) ∧ ∀ n, ¬ Numeral.Reads text n) := by
  unfold integer
  cases hread : Numeral.int64? text with
  | some w => exact .inl ⟨w, rfl, Numeral.reads_iff.mpr ⟨w, hread, rfl⟩⟩
  | none =>
    refine .inr ⟨rfl, fun n hn => ?_⟩
    obtain ⟨w, hw, -⟩ := Numeral.reads_iff.mp hn
    rw [hread] at hw
    cases hw

/-- The increment of an update, as it is read. -/
def readIncrement (u : Update) : Outcome Int64 :=
  match u.parameter? (Bytes.ascii "delta") with
  | some delta => integer (Bytes.ascii "delta") delta
  | none => .ok 1

/-- The text is read first, then the increment; then the sum is tested and written. -/
theorem count_eq (u : Update) (text : Bytes) :
    count u text = (do
      let current ← integer (Bytes.ascii "counter value") text
      let increment ← readIncrement u
      if overflows current increment then .error (.counterOverflow text increment.toInt)
      else .ok (Bytes.ofInt (current + increment).toInt)) := by
  unfold count readIncrement
  cases u.parameter? (Bytes.ascii "delta") <;> rfl

theorem readIncrement_cases (u : Update) :
    (∃ d, readIncrement u = .ok d ∧ u.Adds d.toInt) ∨
      ∃ delta, u.parameter? (Bytes.ascii "delta") = some delta ∧
        readIncrement u = .error (.notAnInteger (Bytes.ascii "delta") delta) ∧
        ∀ d, ¬ Numeral.Reads delta d := by
  unfold readIncrement Update.Adds
  cases hparameter : u.parameter? (Bytes.ascii "delta") with
  | none => exact .inl ⟨1, rfl, rfl⟩
  | some delta =>
    rcases integer_cases (Bytes.ascii "delta") delta with ⟨d, hd, hreads⟩ | ⟨herror, hnone⟩
    · exact .inl ⟨d, hd, hreads⟩
    · exact .inr ⟨delta, rfl, herror, hnone⟩

/-- **What an update makes of a counter**: the canonical text of the sum, or a reason why not. -/
theorem count_cases (u : Update) (text : Bytes) :
    (∃ sum, u.Sums text sum ∧ count u text = .ok (Bytes.ofInt sum)) ∨
      ∃ f, u.Refuses text f ∧ count u text = .error f := by
  rw [count_eq]
  rcases integer_cases (Bytes.ascii "counter value") text with ⟨n, hn, hreads⟩ | ⟨herror, hnone⟩
  · rcases readIncrement_cases u with ⟨d, hd, hadds⟩ | ⟨delta, hgiven, herror, hnone⟩
    · simp only [hn, hd, bind, Except.bind]
      cases hover : overflows n d with
      | true =>
        refine .inr ⟨_, .sum hreads hadds fun hrange => ?_, rfl⟩
        have hin := (overflows_eq_false_iff n d).mpr ((Numeral.inInt64_iff _).mpr hrange)
        rw [hover] at hin
        cases hin
      | false =>
        have hrange := (overflows_eq_false_iff n d).mp hover
        refine .inl ⟨_, ⟨⟨_, _, hreads, hadds, rfl⟩, (Numeral.inInt64_iff _).mp hrange⟩, ?_⟩
        rw [toInt_add_of_not_overflows hover]
        rfl
    · simp only [hn, herror, bind, Except.bind]
      exact .inr ⟨_, .delta hreads hgiven hnone, rfl⟩
  · simp only [herror, bind, Except.bind]
    exact .inr ⟨_, .text hnone, rfl⟩

/-- **A counter is updated exactly when it has a sum**, and to the canonical text of it. -/
theorem count_eq_ok_iff :
    count u text = .ok out ↔ ∃ sum, u.Sums text sum ∧ Numeral.Canonical out sum := by
  rcases count_cases u text with ⟨sum, hsum, hcount⟩ | ⟨f, hrefuses, hcount⟩
  · rw [hcount, Except.ok.injEq]
    constructor
    · rintro rfl
      exact ⟨sum, hsum, Numeral.canonical_iff.mpr rfl⟩
    · rintro ⟨sum', hsum', hcanonical⟩
      rw [hsum.unique hsum', Numeral.canonical_iff.mp hcanonical]
  · rw [hcount]
    refine iff_of_false nofun ?_
    rintro ⟨sum, hsum, -⟩
    exact hrefuses.not_sums hsum

theorem count_eq_error_iff : count u text = .error f ↔ u.Refuses text f := by
  rcases count_cases u text with ⟨sum, hsum, hcount⟩ | ⟨g, hrefuses, hcount⟩
  · rw [hcount]
    exact iff_of_false nofun fun hrefuses => hrefuses.not_sums hsum
  · rw [hcount, Except.error.injEq]
    constructor
    · rintro rfl
      exact hrefuses
    · exact hrefuses.unique

theorem applyText_counter (text : Bytes) (u : Update) :
    Value.applyText text u .counter false = count u text := by
  rw [Value.applyText, Function.apply]
  cases count u text <;> rfl

/-! ### Updates in a row -/

/-- A counter after a list of updates; the first that fails ends them. -/
def countEach (text : Bytes) (updates : List Update) : Outcome Bytes :=
  updates.foldlM (fun text u => Value.applyText text u .counter false) text

/-- **One or more updates in a row add up**: they give the canonical text of what was there and all
increments. -/
theorem countEach_eq_ok {updates : List Update} (hsome : updates ≠ [])
    (h : countEach text updates = .ok out) :
    ∃ n, Numeral.Reads text n ∧ Numeral.Canonical out (n + (updates.map Update.increment).sum) := by
  induction updates generalizing text with
  | nil => exact absurd rfl hsome
  | cons u rest ih =>
    rw [countEach, List.foldlM_cons, Outcome.bind_eq_ok_iff] at h
    obtain ⟨next, hfirst, hrest⟩ := h
    rw [applyText_counter, count_eq_ok_iff] at hfirst
    obtain ⟨sum, ⟨⟨n, d, hreads, hadds, rfl⟩, -⟩, hcanonical⟩ := hfirst
    refine ⟨n, hreads, ?_⟩
    rw [List.map_cons, List.sum_cons, hadds.increment_eq, ← Int.add_assoc]
    cases rest with
    | nil =>
      cases hrest
      simpa using hcanonical
    | cons v rest =>
      -- what the first update wrote is what the others start from
      obtain ⟨m, hm, hout⟩ := ih (List.cons_ne_nil v rest) hrest
      rw [hm.of_canonical hcanonical] at hout
      exact hout

/-! ### The counter -/

/-- **A counter counts exactly.** -/
structure CountsExactly (text : Bytes) : Prop where
  /-- An update succeeds exactly when there is a sum, and then writes its canonical text. -/
  sums : ∀ u out, Value.applyText text u .counter false = .ok out ↔
    ∃ sum, u.Sums text sum ∧ Numeral.Canonical out sum
  succeeds : ∀ u, (∃ out, Value.applyText text u .counter false = .ok out) ↔ ∃ sum, u.Sums text sum
  /-- Otherwise it fails, as an invalid argument. -/
  refuses : ∀ u f, Value.applyText text u .counter false = .error f ↔ u.Refuses text f
  invalid : ∀ u f, Value.applyText text u .counter false = .error f → f.kind = .invalidArgument
  /-- The task of an update gives the same. -/
  evaluated : ∀ u isOpen, ((Value.text text).evaluate u .counter).finish? isOpen false =
    some ((Value.applyText text u .counter false).map fun t => .value (some (.text t)))
  /-- Nothing overflows on the way. -/
  defined : ∀ current increment, overflows? current increment = some (overflows current increment) ∧
    (overflows current increment = false →
      Signed.add? current increment = some (current + increment))
  /-- Updates whose increments have the same sum end in the same text. -/
  commutes : ∀ updates updates' out out', updates ≠ [] → updates' ≠ [] →
    countEach text updates = .ok out → countEach text updates' = .ok out' →
    (updates.map Update.increment).sum = (updates'.map Update.increment).sum → out = out'

theorem counts_exactly (text : Bytes) : CountsExactly text where
  sums u out := by rw [applyText_counter, count_eq_ok_iff]
  succeeds u := by
    rw [applyText_counter]
    constructor
    · rintro ⟨out, hout⟩
      obtain ⟨sum, hsum, -⟩ := count_eq_ok_iff.mp hout
      exact ⟨sum, hsum⟩
    · rintro ⟨sum, hsum⟩
      exact ⟨_, count_eq_ok_iff.mpr ⟨sum, hsum, Numeral.canonical_iff.mpr rfl⟩⟩
  refuses u f := by rw [applyText_counter, count_eq_error_iff]
  invalid u f h := by
    rw [applyText_counter, count_eq_error_iff] at h
    exact h.kind
  evaluated u isOpen := by
    rw [applyText_counter, Value.evaluate]
    cases hcount : count u text with
    | error f => simp [Work.finish?, Work.isFree, Function.apply, hcount, Except.map]
    | ok out => simp [Work.finish?, Work.isFree, Function.apply, hcount, Except.map]
  defined current increment := ⟨overflows?_eq current increment, add?_of_not_overflows⟩
  commutes updates updates' out out' hsome hsome' hout hout' hsum := by
    obtain ⟨n, hn, hcanonical⟩ := countEach_eq_ok hsome hout
    obtain ⟨n', hn', hcanonical'⟩ := countEach_eq_ok hsome' hout'
    rw [hn.unique hn', hsum, Numeral.canonical_iff] at hcanonical
    rw [hcanonical, Numeral.canonical_iff.mp hcanonical']

/-- An update of a counter by a number that is written so. -/
def countBy (delta : String) : Update where
  functionName := Bytes.ascii "counter"
  parameters := [(Bytes.ascii "delta", Bytes.ascii delta)]

/-- Two ways from a text that is not canonical to the least counter, which goes no further down. -/
theorem least_counter_reached :
    countEach (Bytes.ascii " +01") [countBy "-9223372036854775808", countBy "-1"] =
      .ok (Bytes.ascii "-9223372036854775808") ∧
    countEach (Bytes.ascii " +01") [countBy "-9223372036854775807", countBy " -1", countBy "-01"] =
      .ok (Bytes.ascii "-9223372036854775808") ∧
    ∃ f, Value.applyText (Bytes.ascii "-9223372036854775808") (countBy "-1") .counter false =
      .error f ∧ f.kind = .invalidArgument := by
  have hfirst : countEach (Bytes.ascii " +01") [countBy "-9223372036854775808", countBy "-1"] =
      .ok (Bytes.ascii "-9223372036854775808") := by decide +kernel
  have hrefused : Value.applyText (Bytes.ascii "-9223372036854775808") (countBy "-1") .counter false =
      .error (.counterOverflow (Bytes.ascii "-9223372036854775808") (-1)) := by decide +kernel
  obtain ⟨out, hsecond⟩ : ∃ out, countEach (Bytes.ascii " +01")
      [countBy "-9223372036854775807", countBy " -1", countBy "-01"] = .ok out :=
    ⟨Bytes.ascii "-9223372036854775808", by decide +kernel⟩
  have hsame := (counts_exactly (Bytes.ascii " +01")).commutes _ _ _ _ (by decide) (by decide)
    hfirst hsecond (by decide +kernel)
  exact ⟨hfirst, hsame ▸ hsecond, _, hrefused, (counts_exactly _).invalid _ _ hrefused⟩

end Function

end Keyspace
