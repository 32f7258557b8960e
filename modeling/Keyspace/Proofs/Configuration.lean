import Keyspace.Proofs.NumeralGrammar
import Keyspace.StoreConfig

/-!
# What the arguments of a configuration say

A configuration is faithful to its arguments (`StoreConfig.Faithful`) if every setting is positive
and is what the last argument for it denotes in decimal, or its default without one, and if an
argument that is not in order is refused.

That holds of every list of arguments but those that are accepted although one of them wraps
(`StoreConfig.faithful_iff`): a text is refused only for a sign at its very front, so a minus sign
behind white space is read and its integer is stored modulo `2 ^ 64`; and a time is stored as an
integer of 64 bits with sign without a look at its size.
-/

namespace Keyspace

/-- A text is split at the mark that no earlier one comes before. -/
theorem Bytes.splitAtFirst_eq_some_iff {mark : UInt8} {text before after : Bytes} :
    text.splitAtFirst mark = some (before, after) ↔
      text = before ++ mark :: after ∧ mark ∉ before := by
  induction text generalizing before with
  | nil => simp [splitAtFirst]
  | cons x xs ih =>
    by_cases hx : x = mark
    · subst hx
      rw [splitAtFirst, if_pos rfl]
      cases before with
      | nil => simp [eq_comm]
      | cons b rest =>
        refine ⟨nofun, ?_⟩
        rintro ⟨htext, hnot⟩
        exact absurd (List.mem_cons.mpr (.inl (List.cons.inj htext).1)) hnot
    · rw [splitAtFirst, if_neg hx, Option.map_eq_some_iff]
      cases before with
      | nil =>
        constructor
        · rintro ⟨parts, -, hparts⟩
          cases hparts
        · rintro ⟨htext, -⟩
          exact absurd (List.cons.inj htext).1 hx
      | cons b rest =>
        constructor
        · rintro ⟨parts, hparts, heq⟩
          cases heq
          obtain ⟨rfl, hnot⟩ := ih.mp hparts
          exact ⟨rfl, by simp [Ne.symm hx, hnot]⟩
        · rintro ⟨htext, hnot⟩
          obtain ⟨rfl, rfl⟩ := List.cons.inj htext
          exact ⟨_, ih.mpr ⟨rfl, fun hmem => hnot (List.mem_cons_of_mem _ hmem)⟩, rfl⟩

namespace StoreConfig

/-- **The settings of a store.** -/
inductive Setting where
  | workers
  | queue
  | shards
  | partitions
  | updateTimeout
  | snapshotTtl
deriving DecidableEq, Repr

namespace Setting

/-- The flag that sets a setting. -/
def flag : Setting → Bytes
  | workers => Bytes.ascii "--workers"
  | queue => Bytes.ascii "--queue"
  | shards => Bytes.ascii "--shards"
  | partitions => Bytes.ascii "--partitions"
  | updateTimeout => Bytes.ascii "--update-timeout-ms"
  | snapshotTtl => Bytes.ascii "--snapshot-ttl-ms"

/-- Whether a setting is a time. -/
def isTime : Setting → Bool
  | updateTimeout | snapshotTtl => true
  | workers | queue | shards | partitions => false

/-- The greatest integer that a setting can hold. -/
def most : Setting → Int
  | workers | queue | shards => 2 ^ 64 - 1
  | partitions => 2 ^ 31 - 1
  | updateTimeout | snapshotTtl => 2 ^ 63 - 1

/-- What a setting is in a configuration. -/
def value (c : StoreConfig) : Setting → Int
  | workers => c.workers.toNat
  | queue => c.queue.toNat
  | shards => c.shards.toNat
  | partitions => c.partitions.toInt
  | updateTimeout => c.updateTimeout.toInt
  | snapshotTtl => c.snapshotTtl.toInt

/-- The configuration in which a setting is a given word. -/
def put (c : StoreConfig) (n : UInt64) : Setting → StoreConfig
  | workers => { c with workers := n }
  | queue => { c with queue := n }
  | shards => { c with shards := n }
  | partitions => { c with partitions := Int32.ofNat n.toNat }
  | updateTimeout => { c with updateTimeout := n.toInt64 }
  | snapshotTtl => { c with snapshotTtl := n.toInt64 }

/-- The argument that gives a setting a text. -/
def argument (s : Setting) (text : Bytes) : Bytes :=
  s.flag ++ 61 :: text

/-- The last of the arguments for a setting gives it the text. -/
def Last (s : Setting) (arguments : List Bytes) (text : Bytes) : Prop :=
  ∃ before after, arguments = before ++ s.argument text :: after ∧ ∀ t, s.argument t ∉ after

/-- **A text that wraps**: it denotes a negative integer, or for a time one that a time cannot
hold. -/
def Wraps (s : Setting) (text : Bytes) : Prop :=
  ∃ n, Numeral.Denotes text n ∧ (n < 0 ∨ s.isTime = true ∧ s.most < n)

/-- The text is accepted for a setting, and read as the word. -/
structure Accepts (s : Setting) (text : Bytes) (w : UInt64) : Prop where
  read : positive s.flag text = .ok w
  fits : s = partitions → w ≤ 2147483647

end Setting

/-- **An argument that is not in order**: it does not begin with two dashes, it has no equals sign,
its flag is unknown, or its text denotes no positive integer that the setting can hold. -/
inductive Improper : Bytes → Prop where
  | dashes {argument} : ¬ Bytes.ascii "--" <+: argument → Improper argument
  | equals {argument} : 61 ∉ argument → Improper argument
  | flag {flag text} : 61 ∉ flag → (∀ s : Setting, flag ≠ s.flag) → Improper (flag ++ 61 :: text)
  | text {s : Setting} {text} : (∀ n, Numeral.Denotes text n → ¬ (0 < n ∧ n ≤ s.most)) →
      Improper (s.argument text)

/-- **The arguments are taken as they are meant.** -/
structure Faithful (arguments : List Bytes) : Prop where
  positive : ∀ c, parse arguments = .ok c → ∀ s : Setting, 1 ≤ s.value c
  meant : ∀ c, parse arguments = .ok c → ∀ s : Setting,
    (∀ text, s.argument text ∉ arguments) ∧ s.value c = s.value {} ∨
      ∃ text, s.Last arguments text ∧ Numeral.Denotes text (s.value c)
  refused : ∀ argument ∈ arguments, Improper argument →
    ∃ f, parse arguments = .error f ∧ f.kind = .invalidArgument

variable {c c' : StoreConfig} {s s' : Setting} {argument flag text text' : Bytes} {w : UInt64}
  {arguments : List Bytes} {f : Failure}

/-! ### One argument -/

theorem Setting.equals_notMem_flag (s : Setting) : 61 ∉ s.flag := by
  cases s <;> decide

theorem Setting.flag_injective : s.flag = s'.flag → s = s' := by
  cases s <;> cases s' <;> decide

theorem Setting.dashes_argument (s : Setting) (text : Bytes) :
    Bytes.ascii "--" <+: s.argument text := by
  have hflag : Bytes.ascii "--" <+: s.flag := by cases s <;> decide
  exact hflag.trans (List.prefix_append ..)

theorem split_eq_ok_iff : split argument = .ok (flag, text) ↔
    argument = flag ++ 61 :: text ∧ 61 ∉ flag ∧ Bytes.ascii "--" <+: argument := by
  rw [← and_assoc, ← Bytes.splitAtFirst_eq_some_iff, ← List.isPrefixOf_iff_prefix]
  change _ ↔ _ ∧ (Bytes.ascii "--").startsText argument = true
  unfold split
  split
  · next parts hparts =>
    split
    · next hdashes => simp [hparts, hdashes]
    · next hdashes => simp [hdashes]
  · next hnone => simp [hnone]

theorem Setting.argument_inj (h : s.argument text = s'.argument text') : s = s' ∧ text = text' := by
  have hsplit := Bytes.splitAtFirst_eq_some_iff.mpr ⟨h, s'.equals_notMem_flag⟩
  rw [argument, Bytes.splitAtFirst_eq_some_iff.mpr ⟨rfl, s.equals_notMem_flag⟩] at hsplit
  injection hsplit with hsplit
  injection hsplit with hflag htext
  exact ⟨flag_injective hflag, htext⟩

theorem set_flag (c : StoreConfig) (s : Setting) (text : Bytes) (w : UInt64) :
    c.set s.flag text w =
      if s = .partitions ∧ 2147483647 < w then .error (.tooManyPartitions text)
      else .ok (s.put c w) := by
  cases s with
  | partitions =>
    simp only [true_and]
    rfl
  | _ => rfl

theorem set_unknown (h : ∀ s : Setting, flag ≠ s.flag) :
    c.set flag text w = .error (.flagUnknown flag) := by
  unfold set
  exact (if_neg (h .workers)).trans <| (if_neg (h .queue)).trans <| (if_neg (h .shards)).trans <|
    (if_neg (h .partitions)).trans <| (if_neg (h .updateTimeout)).trans <| if_neg (h .snapshotTtl)

/-- **The arguments that are accepted**: a setting is given a text that is accepted for it. -/
theorem apply_eq_ok_iff : c.apply argument = .ok c' ↔
    ∃ (s : Setting) (text : Bytes) (w : UInt64),
      argument = s.argument text ∧ s.Accepts text w ∧ c' = s.put c w := by
  simp only [apply, Outcome.bind_eq_ok_iff, Prod.exists, split_eq_ok_iff]
  constructor
  · rintro ⟨flag, text, ⟨rfl, hequals, hdashes⟩, w, hread, hset⟩
    by_cases hflag : ∃ s : Setting, flag = s.flag
    · obtain ⟨s, rfl⟩ := hflag
      rw [set_flag] at hset
      split at hset
      · cases hset
      · next hfits =>
        cases hset
        exact ⟨s, text, w, rfl, ⟨hread, fun hs => UInt64.not_lt.mp (hfits ⟨hs, ·⟩)⟩, rfl⟩
    · rw [set_unknown (not_exists.mp hflag)] at hset
      cases hset
  · rintro ⟨s, text, w, rfl, haccepts, rfl⟩
    refine ⟨s.flag, text, ⟨rfl, s.equals_notMem_flag, s.dashes_argument text⟩, w,
      haccepts.read, ?_⟩
    rw [set_flag, if_neg]
    rintro ⟨hs, hlt⟩
    exact absurd hlt (UInt64.not_lt.mpr (haccepts.fits hs))

theorem kind_of_split (h : split argument = .error f) : f.kind = .invalidArgument := by
  unfold split at h
  split at h
  · split at h
    · cases h
    · cases h
      rfl
  · cases h
    rfl

theorem kind_of_positive (h : positive flag text = .error f) : f.kind = .invalidArgument := by
  unfold positive at h
  split at h
  · cases h
    rfl
  · split at h
    · cases h
      rfl
    · split at h
      · split at h
        · cases h
          rfl
        · cases h
      · cases h
        rfl

theorem kind_of_set (h : c.set flag text w = .error f) : f.kind = .invalidArgument := by
  by_cases hflag : ∃ s : Setting, flag = s.flag
  · obtain ⟨s, rfl⟩ := hflag
    rw [set_flag] at h
    split at h
    · cases h
      rfl
    · cases h
  · rw [set_unknown (not_exists.mp hflag)] at h
    cases h
    rfl

/-- **What is refused is refused as an invalid argument.** -/
theorem kind_of_apply (h : c.apply argument = .error f) : f.kind = .invalidArgument := by
  simp only [apply, Outcome.bind_eq_error_iff] at h
  obtain h | ⟨parts, -, h | ⟨w, -, h⟩⟩ := h
  · exact kind_of_split h
  · exact kind_of_positive h
  · exact kind_of_set h

/-- An accepted text is read as the word of the integer that it denotes. -/
theorem Setting.Accepts.denotes (h : s.Accepts text w) :
    ∃ n, Numeral.Denotes text n ∧ (w.toNat : Int) = n % 2 ^ 64 ∧ n.natAbs < 2 ^ 64 ∧ w ≠ 0 := by
  have hread := h.read
  unfold positive at hread
  split at hread
  · cases hread
  split at hread
  · cases hread
  split at hread
  · next hword =>
    split at hread
    · cases hread
    · next hzero =>
      cases hread
      obtain ⟨n, hn, hlt, hw⟩ := Numeral.word64?_eq_some_iff.mp hword
      exact ⟨n, hn, hw, hlt, hzero⟩
  · cases hread

/-- A setting that is not a time never becomes zero, whether its text wraps or not. -/
theorem Setting.Accepts.one_le (h : s.Accepts text w) (hs : s.isTime = false) (c : StoreConfig) :
    1 ≤ s.value (s.put c w) := by
  obtain ⟨-, -, -, -, hzero⟩ := h.denotes
  have hpos : w.toNat ≠ 0 := fun h0 => hzero (UInt64.toNat_inj.mp h0)
  cases s with
  | workers | queue | shards =>
    simp only [value, put]
    omega
  | partitions =>
    have hfits := UInt64.le_iff_toNat_le.mp (h.fits rfl)
    simp only [UInt64.reduceToNat] at hfits
    simp only [value, put]
    rw [Int32.toInt_ofNat_of_lt (by omega)]
    omega
  | updateTimeout | snapshotTtl => cases hs

/-- A word as an integer with sign. -/
theorem toInt_toInt64 (w : UInt64) : w.toInt64.toInt = (w.toNat : Int).bmod (2 ^ 64) := by
  rw [← Int64.toInt_toBitVec, UInt64.toBitVec_toInt64, BitVec.toInt_eq_toNat_bmod,
    UInt64.toNat_toBitVec]

/-- **A text that is accepted and does not wrap** denotes what the setting becomes, a positive
integer that the setting can hold. -/
theorem Setting.Accepts.value_put (h : s.Accepts text w) (hwraps : ¬ s.Wraps text)
    (c : StoreConfig) :
    Numeral.Denotes text (s.value (s.put c w)) ∧ 0 < s.value (s.put c w) ∧
      s.value (s.put c w) ≤ s.most := by
  obtain ⟨n, hn, hw, hlt, hzero⟩ := h.denotes
  have hpos : w.toNat ≠ 0 := fun h0 => hzero (UInt64.toNat_inj.mp h0)
  have hsign : 0 ≤ n := Int.not_lt.mp fun hneg => hwraps ⟨n, hn, .inl hneg⟩
  have hword : (w.toNat : Int) = n := by omega
  have hfits : s = .partitions → w.toNat ≤ 2147483647 := fun hs =>
    UInt64.le_iff_toNat_le.mp (h.fits hs)
  have htime : s.isTime = true → n ≤ s.most := fun hs =>
    Int.not_lt.mp fun hmost => hwraps ⟨n, hn, .inr ⟨hs, hmost⟩⟩
  have hvalue : s.value (s.put c w) = n ∧ n ≤ s.most := by
    cases s with
    | workers | queue | shards => exact ⟨hword, by simp only [most]; omega⟩
    | partitions =>
      have hfits := hfits rfl
      refine ⟨?_, by simp only [most]; omega⟩
      simp only [value, put]
      rw [Int32.toInt_ofNat_of_lt (by omega), hword]
    | updateTimeout | snapshotTtl =>
      have htime := htime rfl
      refine ⟨?_, htime⟩
      simp only [most, value, put] at htime ⊢
      rw [toInt_toInt64, hword, Int.bmod_eq_of_le]
      all_goals omega
  rw [hvalue.1]
  exact ⟨hn, by omega, hvalue.2⟩

/-- A text that is accepted although the argument is not in order wraps. -/
theorem Setting.Accepts.wraps (h : s.Accepts text w) (himproper : Improper (s.argument text)) :
    s.Wraps text := by
  generalize hargument : s.argument text = argument at himproper
  cases himproper with
  | dashes hdashes => exact absurd (hargument ▸ s.dashes_argument text) hdashes
  | equals hequals =>
    rw [← hargument, Setting.argument] at hequals
    exact absurd (List.mem_append_right _ List.mem_cons_self) hequals
  | @flag flag text' hequals hunknown =>
    have hsplit := Bytes.splitAtFirst_eq_some_iff.mpr ⟨hargument, hequals⟩
    rw [Setting.argument, Bytes.splitAtFirst_eq_some_iff.mpr ⟨rfl, s.equals_notMem_flag⟩] at hsplit
    injection hsplit with hsplit
    injection hsplit with hflag
    exact absurd hflag.symm (hunknown s)
  | @text s' text' hvalue =>
    obtain ⟨rfl, rfl⟩ := argument_inj hargument
    by_contra hwraps
    obtain ⟨hn, hbounds⟩ := h.value_put hwraps {}
    exact hvalue _ hn hbounds

/-! ### All arguments -/

theorem Setting.value_put_of_ne (h : s ≠ s') : s'.value (s.put c w) = s'.value c := by
  cases s <;> cases s' <;> first | rfl | exact absurd rfl h

theorem Setting.value_put_congr : s.value (s.put c w) = s.value (s.put c' w) := by
  cases s <;> rfl

theorem Setting.Last.mem (h : s.Last arguments text) : s.argument text ∈ arguments := by
  obtain ⟨before, after, rfl, -⟩ := h
  exact List.mem_append_right _ List.mem_cons_self

theorem Setting.one_le_default (s : Setting) : 1 ≤ s.value {} := by
  cases s <;> decide

/-- Arguments that are accepted together are accepted one by one. -/
theorem accepts_of_foldlM (h : arguments.foldlM apply c = .ok c') (hmem : argument ∈ arguments) :
    ∃ (s : Setting) (text : Bytes) (w : UInt64), argument = s.argument text ∧ s.Accepts text w := by
  induction arguments generalizing c with
  | nil => cases hmem
  | cons first rest ih =>
    rw [List.foldlM_cons, Outcome.bind_eq_ok_iff] at h
    obtain ⟨next, hfirst, hrest⟩ := h
    obtain ⟨s, text, w, rfl, haccepts, -⟩ := apply_eq_ok_iff.mp hfirst
    rcases List.mem_cons.mp hmem with rfl | hmem
    · exact ⟨s, text, w, rfl, haccepts⟩
    · exact ih hrest hmem

/-- **What accepted arguments make of a setting**: what the last argument for it says, and nothing
without one. -/
theorem value_of_foldlM (h : arguments.foldlM apply c = .ok c') (s : Setting) :
    (∀ text, s.argument text ∉ arguments) ∧ s.value c' = s.value c ∨
      ∃ text w, s.Last arguments text ∧ s.Accepts text w ∧ s.value c' = s.value (s.put c w) := by
  induction arguments generalizing c with
  | nil =>
    cases h
    exact .inl ⟨fun _ => List.not_mem_nil, rfl⟩
  | cons first rest ih =>
    rw [List.foldlM_cons, Outcome.bind_eq_ok_iff] at h
    obtain ⟨next, hfirst, hrest⟩ := h
    obtain ⟨s', text, w, rfl, haccepts, rfl⟩ := apply_eq_ok_iff.mp hfirst
    obtain ⟨hnone, hvalue⟩ | ⟨text', w', ⟨before, after, rfl, hnone⟩, haccepts', hvalue⟩ := ih hrest
    · by_cases hs : s' = s
      · subst hs
        exact .inr ⟨text, w, ⟨[], rest, rfl, hnone⟩, haccepts, hvalue⟩
      · refine .inl ⟨fun t hmem => ?_, hvalue.trans (Setting.value_put_of_ne hs)⟩
        rcases List.mem_cons.mp hmem with heq | hmem
        · exact hs (Setting.argument_inj heq).1.symm
        · exact hnone t hmem
    · exact .inr ⟨text', w', ⟨_ :: before, after, rfl, hnone⟩, haccepts',
        hvalue.trans Setting.value_put_congr⟩

/-- **In an accepted configuration all but the times are positive.** -/
theorem one_le_value_of_parse (h : parse arguments = .ok c) (hs : s.isTime = false) :
    1 ≤ s.value c := by
  rcases value_of_foldlM h s with ⟨-, hvalue⟩ | ⟨text, w, -, haccepts, hvalue⟩
  · rw [hvalue]
    exact s.one_le_default
  · rw [hvalue]
    exact haccepts.one_le hs _

theorem kind_of_foldlM (h : arguments.foldlM apply c = .error f) : f.kind = .invalidArgument := by
  induction arguments generalizing c with
  | nil => cases h
  | cons first rest ih =>
    rw [List.foldlM_cons, Outcome.bind_eq_error_iff] at h
    obtain hfirst | ⟨next, -, hrest⟩ := h
    · exact kind_of_apply hfirst
    · exact ih hrest

/-- Arguments that are refused are faithful to nothing. -/
theorem Faithful.of_refused (h : parse arguments = .error f) : Faithful arguments where
  positive c hc := by
    rw [h] at hc
    cases hc
  meant c hc := by
    rw [h] at hc
    cases hc
  refused _ _ _ := ⟨f, h, kind_of_foldlM h⟩

/-- **Arguments none of which wraps are taken as they are meant.** -/
theorem Faithful.of_accepted (h : parse arguments = .ok c)
    (hwraps : ∀ (s : Setting) (text : Bytes), s.argument text ∈ arguments → ¬ s.Wraps text) :
    Faithful arguments where
  positive c' hc' s := by
    rcases value_of_foldlM hc' s with ⟨-, hvalue⟩ | ⟨text, w, hlast, haccepts, hvalue⟩
    · rw [hvalue]
      exact s.one_le_default
    · rw [hvalue]
      exact (haccepts.value_put (hwraps s text hlast.mem) _).2.1
  meant c' hc' s := by
    rcases value_of_foldlM hc' s with hdefault | ⟨text, w, hlast, haccepts, hvalue⟩
    · exact .inl hdefault
    · rw [hvalue]
      exact .inr ⟨text, hlast, (haccepts.value_put (hwraps s text hlast.mem) _).1⟩
  refused argument hmem himproper := by
    obtain ⟨s, text, w, rfl, haccepts⟩ := accepts_of_foldlM h hmem
    exact absurd (haccepts.wraps himproper) (hwraps s text hmem)

/-- A text that wraps is no positive integer that the setting can hold. -/
theorem Setting.Wraps.improper (h : s.Wraps text) : Improper (s.argument text) := by
  obtain ⟨n, hn, hwraps⟩ := h
  refine .text fun m hm hbounds => ?_
  obtain rfl := hn.unique hm
  obtain hneg | ⟨-, hmost⟩ := hwraps
  · omega
  · omega

theorem not_faithful (h : parse arguments = .ok c) (hmem : s.argument text ∈ arguments)
    (hwraps : s.Wraps text) : ¬ Faithful arguments := by
  intro hfaithful
  obtain ⟨f, hf, -⟩ := hfaithful.refused _ hmem hwraps.improper
  rw [h] at hf
  cases hf

/-- **Which arguments are taken as they are meant**: those that are refused, and those none of
which wraps. -/
theorem faithful_iff (arguments : List Bytes) : Faithful arguments ↔
    (∃ f, parse arguments = .error f) ∨
      ∀ (s : Setting) (text : Bytes), s.argument text ∈ arguments → ¬ s.Wraps text := by
  cases hparse : parse arguments with
  | error f => exact ⟨fun _ => .inl ⟨f, rfl⟩, fun _ => .of_refused hparse⟩
  | ok c =>
    constructor
    · exact fun h => .inr fun s text hmem hwraps => not_faithful hparse hmem hwraps h
    · rintro (⟨f, hf⟩ | hwraps)
      · cases hf
      · exact .of_accepted hparse hwraps

/-- A minus sign behind a space is read, and the number of workers wraps; a time of `2 ^ 64 - 1`
becomes a time of minus one. -/
theorem wrapped_settings :
    parse [Bytes.ascii "--workers= -1"] = .ok { workers := 18446744073709551615 } ∧
      ¬ Faithful [Bytes.ascii "--workers= -1"] ∧
    parse [Bytes.ascii "--update-timeout-ms=18446744073709551615"] =
        .ok { updateTimeout := -1 } ∧
      ¬ Faithful [Bytes.ascii "--update-timeout-ms=18446744073709551615"] := by
  have hone : Numeral.AreDigits (Bytes.ascii "1") := ⟨by decide, List.all_eq_true.mp rfl⟩
  have hsign : Setting.workers.Wraps (Bytes.ascii " -1") :=
    ⟨-1, .blank (by decide) (.minus hone), .inl (by decide)⟩
  have htime : Setting.updateTimeout.Wraps (Bytes.ascii "18446744073709551615") :=
    ⟨18446744073709551615, .plain ⟨by decide, List.all_eq_true.mp rfl⟩, .inr ⟨rfl, by decide⟩⟩
  have hworkers :
      parse [Bytes.ascii "--workers= -1"] = .ok { workers := 18446744073709551615 } := by
    decide
  have htimeout : parse [Bytes.ascii "--update-timeout-ms=18446744073709551615"] =
      .ok { updateTimeout := -1 } := by
    decide
  exact ⟨hworkers, not_faithful hworkers List.mem_cons_self hsign,
    htimeout, not_faithful htimeout List.mem_cons_self htime⟩

end StoreConfig

end Keyspace
