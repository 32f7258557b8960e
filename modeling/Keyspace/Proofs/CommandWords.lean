import Keyspace.Command
import Keyspace.Proofs.ConditionMeaning
import Keyspace.Proofs.Configuration
import Keyspace.Proofs.CounterSum
import Keyspace.Proofs.KeyOrderLaws
import Keyspace.Snapshot

/-!
# What lines say

The language of the commands, apart from the way in which they are read. A line writes words
(`Bytes.Writes`), and words have the form of a command, or of none (`Command.Says`). What a command
carries are words again: a predicate says whether it holds of a text (`Predicate.Decides`), words of
the form `name=value` give values to names (`Command.Gives`), with which an update makes another text
(`Command.Updates`), and a range is asked for with an end, a limit and an order (`Command.Asks`).

Each of these is a relation, and its reader is proved to decide it: the tokens of a line are the words
that it writes (`tokens_eq_iff`), its command is what it says (`Command.ofLine_eq_iff`); ranges,
updates and predicates are read as they are meant (`Command.asks_iff`, `Command.updates_iff`,
`Predicate.decides_iff`).
-/

namespace Keyspace

namespace Bytes

/-! ## Words -/

/-- White space: tab, line feed, vertical tab, form feed, carriage return and space. -/
def Blank (b : UInt8) : Prop :=
  b ∈ ([9, 10, 11, 12, 13, 32] : Bytes)

/-- One or more bytes without white space. -/
structure IsWord (word : Bytes) : Prop where
  nonempty : word ≠ []
  solid : ∀ b ∈ word, ¬ Blank b

/-- **A line writes words**: any white space may stand in front of them and behind them, and some
has to stand between two of them. -/
inductive Writes : Bytes → List Bytes → Prop where
  | nothing : Writes [] []
  | blank {b : UInt8} {line : Bytes} {words : List Bytes} :
    Blank b → Writes line words → Writes (b :: line) words
  | last {word : Bytes} : IsWord word → Writes word [word]
  | word {word line : Bytes} {b : UInt8} {words : List Bytes} :
    IsWord word → Blank b → Writes line words → Writes (word ++ b :: line) (word :: words)

variable {b : UInt8} {word line : Bytes} {words : List Bytes}

theorem isBlank_iff : isBlank b = true ↔ Blank b := by
  simp only [isBlank, Blank, Bool.or_eq_true, Bool.and_eq_true, decide_eq_true_eq,
    List.mem_cons, List.not_mem_nil, or_false, UInt8.le_iff_toNat_le, ← UInt8.toNat_inj,
    UInt8.reduceToNat]
  omega

/-- A text without the mark is not split. -/
theorem splitAtFirst_eq_none_iff {mark : UInt8} {text : Bytes} :
    text.splitAtFirst mark = none ↔ mark ∉ text := by
  induction text with
  | nil => simp [splitAtFirst]
  | cons b rest ih =>
    by_cases hb : b = mark
    · simp [splitAtFirst, hb]
    · simp [splitAtFirst, hb, Ne.symm hb, ih]

end Bytes

section Tokens

open Bytes

variable {b : UInt8} {word line : Bytes} {words : List Bytes}

theorem wordRead_of_ne (h : word ≠ []) : wordRead word = [word.reverse] :=
  if_neg fun hempty => h (List.isEmpty_iff.mp hempty)

theorem tokensAfter_of_blank (hb : Blank b) (word line : Bytes) :
    tokensAfter word (b :: line) = wordRead word ++ tokens line := by
  rw [tokensAfter, if_pos (isBlank_iff.mpr hb), tokens]

theorem tokensAfter_of_solid (hb : ¬ Blank b) (word line : Bytes) :
    tokensAfter word (b :: line) = tokensAfter (b :: word) line := by
  rw [tokensAfter, if_neg fun hblank => hb (isBlank_iff.mp hblank)]

/-- The bytes of a word are gathered one by one. -/
theorem tokensAfter_append (hsolid : ∀ b ∈ word, ¬ Blank b) (front line : Bytes) :
    tokensAfter front (word ++ line) = tokensAfter (word.reverse ++ front) line := by
  induction word generalizing front with
  | nil => rfl
  | cons b rest ih =>
    obtain ⟨hb, hrest⟩ := List.forall_mem_cons.mp hsolid
    rw [List.cons_append, tokensAfter_of_solid hb, ih hrest, List.reverse_cons, List.append_assoc]
    rfl

/-- What is written has the words for its tokens. -/
theorem Bytes.Writes.tokens_eq (h : Writes line words) : tokens line = words := by
  induction h with
  | nothing => rfl
  | blank hb _ ih => rw [tokens, tokensAfter_of_blank hb, ih]; rfl
  | @last word hword =>
    have hgathered := tokensAfter_append hword.solid [] []
    rw [List.append_nil, List.append_nil, tokensAfter,
      wordRead_of_ne (mt List.reverse_eq_nil_iff.mp hword.nonempty), List.reverse_reverse]
      at hgathered
    exact hgathered
  | @word word line b words hword hb _ ih =>
    rw [tokens, tokensAfter_append hword.solid, List.append_nil, tokensAfter_of_blank hb,
      wordRead_of_ne (mt List.reverse_eq_nil_iff.mp hword.nonempty), List.reverse_reverse, ih]
    rfl

/-- A line writes its tokens, the first of which may have begun before it. -/
theorem writes_tokensAfter (hsolid : ∀ b ∈ word, ¬ Blank b) (line : Bytes) :
    Writes (word.reverse ++ line) (tokensAfter word line) := by
  have hword (hne : word ≠ []) : IsWord word.reverse :=
    ⟨mt List.reverse_eq_nil_iff.mp hne, fun b hb => hsolid b (List.mem_reverse.mp hb)⟩
  induction line generalizing word with
  | nil =>
    rw [tokensAfter, List.append_nil]
    by_cases hempty : word = []
    · rw [hempty]
      exact .nothing
    · rw [wordRead_of_ne hempty]
      exact .last (hword hempty)
  | cons b rest ih =>
    have hnext : Writes rest (tokensAfter [] rest) :=
      ih (fun _ hb => absurd hb List.not_mem_nil) fun hne => absurd rfl hne
    by_cases hb : Blank b
    · rw [tokensAfter_of_blank hb]
      by_cases hempty : word = []
      · rw [hempty]
        exact .blank hb hnext
      · rw [wordRead_of_ne hempty]
        exact .word (hword hempty) hb hnext
    · have hsolid' : ∀ c ∈ b :: word, ¬ Blank c := List.forall_mem_cons.mpr ⟨hb, hsolid⟩
      have hrest := ih hsolid' fun _ =>
        ⟨by simp, fun c hc => hsolid' c (List.mem_reverse.mp hc)⟩
      rw [List.reverse_cons, List.append_assoc] at hrest
      rw [tokensAfter_of_solid hb]
      exact hrest

/-- **The tokens of a line are the words that it writes.** -/
theorem tokens_eq_iff : tokens line = words ↔ Writes line words := by
  refine ⟨?_, Writes.tokens_eq⟩
  rintro rfl
  exact writes_tokensAfter (fun _ hb => absurd hb List.not_mem_nil) line

end Tokens

/-! ## Commands -/

namespace Command

/-- **The forms of commands**: a name, and so many words behind it. -/
inductive Form : List Bytes → Command → Prop where
  | blank : Form [] blank
  | quit (rest : List Bytes) : Form (Bytes.ascii "quit" :: rest) quit
  | put (key text : Bytes) : Form [Bytes.ascii "put", key, text] (put key text)
  | get (key : Bytes) : Form [Bytes.ascii "get", key] (get key)
  | conditionalGet (key predicate : Bytes) :
    Form [Bytes.ascii "cget", key, predicate] (conditionalGet key predicate)
  | remove (key : Bytes) : Form [Bytes.ascii "remove", key] (remove key)
  | update (key function : Bytes) (assignments : List Bytes) :
    Form (Bytes.ascii "update" :: key :: function :: assignments) (update key function assignments)
  /-- At most three words may follow the first key. -/
  | range (first : Bytes) {rest : List Bytes} (hrest : rest.length ≤ 3) :
    Form (Bytes.ascii "range" :: first :: rest) (range first rest[0]? rest[1]? rest[2]?)
  | keys : Form [Bytes.ascii "keys"] keys
  | flush : Form [Bytes.ascii "flush"] flush

/-- **What a line says**: the command that its words have the form of, if there is one. -/
def Says (line : Bytes) (c : Command) : Prop :=
  ∃ words, line.Writes words ∧ (Form words c ∨ c = unknown ∧ ∀ d, ¬ Form words d)

variable {words : List Bytes} {word line name value : Bytes} {c d : Command} {f : Failure}

theorem Form.ne_unknown (h : Form words c) : c ≠ unknown := by
  cases h <;> exact nofun

/-- Words of a form are read as the command. -/
theorem Form.ofTokens_eq (h : Form words c) : ofTokens words = c := by
  cases h with
  | @range first rest hrest =>
    match rest, hrest with
    | [], _ => rfl
    | [_], _ => rfl
    | [_, _], _ => rfl
    | [_, _, _], _ => rfl
    | _ :: _ :: _ :: _ :: _, hlong => exact absurd hlong (by simp)
  | _ => rfl

/-- What is read as a command has its form. -/
theorem form_ofTokens (words : List Bytes) :
    Form words (ofTokens words) ∨ ofTokens words = unknown := by
  fun_cases ofTokens words
  case case18 hempty _ _ _ _ _ _ _ => exact .inl (List.isEmpty_iff.mp hempty ▸ .keys)
  case case20 hempty _ _ _ _ _ _ _ _ => exact .inl (List.isEmpty_iff.mp hempty ▸ .flush)
  -- of the others, those that are not unknown are as many words as their form has
  all_goals first
    | exact .inr rfl
    | exact .inl (.range _ (by simp))
    | exact .inl (by constructor)

/-- **The command of a line is what it says.** -/
theorem ofLine_eq_iff : ofLine line = c ↔ Says line c := by
  constructor
  · rintro rfl
    refine ⟨tokens line, tokens_eq_iff.mp rfl, (form_ofTokens _).imp_right fun hunknown => ?_⟩
    refine ⟨hunknown, fun d hd => hd.ne_unknown ?_⟩
    rw [← hd.ofTokens_eq, hunknown]
  · rintro ⟨words, hwords, hform⟩
    rw [ofLine, hwords.tokens_eq]
    rcases hform with hform | ⟨rfl, hnone⟩
    · exact hform.ofTokens_eq
    · exact (form_ofTokens words).resolve_left (hnone _)

/-- A line says one thing. -/
theorem Says.unique (h : Says line c) (h' : Says line d) : c = d :=
  (ofLine_eq_iff.mpr h).symm.trans (ofLine_eq_iff.mpr h')

instance (line : Bytes) (c : Command) : Decidable (Says line c) :=
  decidable_of_iff _ ofLine_eq_iff

/-! ## Parameters -/

/-- **A word assigns a value to a name**: its first equals sign parts the two. -/
def Assigns (word name value : Bytes) : Prop :=
  word = name ++ 61 :: value ∧ 61 ∉ name

/-- **Words give a value to a name**: the last of them that assigns one. -/
def Gives (words : List Bytes) (name value : Bytes) : Prop :=
  ∃ before word after, words = before ++ word :: after ∧ Assigns word name value ∧
    ∀ later ∈ after, ∀ value', ¬ Assigns later name value'

theorem assigns_iff : Assigns word name value ↔ word.splitAtFirst 61 = some (name, value) :=
  Bytes.splitAtFirst_eq_some_iff.symm

/-- The last word counts before all others. -/
theorem gives_append_iff : Gives (words ++ [word]) name value ↔
    Assigns word name value ∨ (∀ value', ¬ Assigns word name value') ∧ Gives words name value := by
  constructor
  · rintro ⟨before, found, after, hwords, hassigns, hafter⟩
    rcases List.eq_nil_or_concat' after with rfl | ⟨front, last, rfl⟩
    · obtain ⟨-, hlast⟩ := List.append_inj' hwords rfl
      cases hlast
      exact .inl hassigns
    · rw [← List.cons_append, ← List.append_assoc] at hwords
      obtain ⟨hfront, hlast⟩ := List.append_inj' hwords rfl
      cases hlast
      exact .inr ⟨hafter _ (List.mem_append_right _ List.mem_cons_self), before, found, front,
        hfront, hassigns, fun later hlater => hafter later (List.mem_append_left _ hlater)⟩
  · rintro (hassigns | ⟨hnone, before, found, after, rfl, hassigns, hafter⟩)
    · exact ⟨words, word, [], rfl, hassigns, nofun⟩
    · refine ⟨before, found, after ++ [word], by simp, hassigns, fun later hlater => ?_⟩
      rcases List.mem_append.mp hlater with hlater | hlater
      · exact hafter later hlater
      · rw [List.mem_singleton.mp hlater]
        exact hnone

/-- Parameters are read word by word, and each word that assigns a value puts it in place of any
other. -/
theorem parameters_append (words : List Bytes) (word : Bytes) :
    parameters (words ++ [word]) = (parameters words).bind fun given =>
      match word.splitAtFirst 61 with
      | some (name, value) => .ok (given.put name value)
      | none => .error (.assignmentForm word) := by
  rw [parameters, List.foldlM_append, parameters]
  refine congrArg (Except.bind _) (funext fun given => ?_)
  rw [List.foldlM_cons]
  cases word.splitAtFirst 61 <;> rfl

/-- **Parameters are read exactly from words that all have an equals sign**, and their values are
those that the words give. -/
theorem parameters_cases (words : List Bytes) :
    (∃ given, parameters words = .ok given ∧ (∀ word ∈ words, 61 ∈ word) ∧
      ∀ name value, given.find? name = some value ↔ Gives words name value) ∨
    ∃ before word after, words = before ++ word :: after ∧ (∀ w ∈ before, 61 ∈ w) ∧ 61 ∉ word ∧
      parameters words = .error (.assignmentForm word) := by
  induction words using List.reverseRecOn with
  | nil =>
    refine .inl ⟨[], rfl, nofun, fun name value => ?_⟩
    constructor
    · exact nofun
    · rintro ⟨before, word, after, hwords, -⟩
      exact absurd hwords (by simp)
  | append_singleton words word ih =>
    rw [parameters_append]
    rcases ih with ⟨given, hgiven, hformed, hvalues⟩ | ⟨before, bad, after, rfl, hbefore, hbad, herror⟩
    · rw [hgiven]
      cases hsplit : word.splitAtFirst 61 with
      | none =>
        have hnot := Bytes.splitAtFirst_eq_none_iff.mp hsplit
        exact .inr ⟨words, word, [], rfl, hformed, hnot, rfl⟩
      | some parts =>
        obtain ⟨name, value⟩ := parts
        have hassigns : Assigns word name value := assigns_iff.mpr hsplit
        refine .inl ⟨given.put name value, rfl, ?_, fun other value' => ?_⟩
        · intro w hw
          rcases List.mem_append.mp hw with hw | hw
          · exact hformed w hw
          · rw [List.mem_singleton.mp hw, hassigns.1]
            exact List.mem_append_right _ List.mem_cons_self
        · rw [Assoc.find?_put, gives_append_iff, ← hvalues]
          simp only [assigns_iff, hsplit, Option.some.injEq, Prod.mk.injEq]
          by_cases hother : other = name
          · simp [hother]
          · simp [hother, Ne.symm hother]
    · rw [herror]
      exact .inr ⟨before, bad, after ++ [word], by simp, hbefore, hbad, rfl⟩

/-! ## Ranges -/

/-- **A word writes a limit**: there is a numeral at its front, and the limit is what that denotes,
modulo `2 ^ 64`. Nothing is asked of what follows the numeral. -/
def WritesLimit (word : Bytes) (limit : UInt64) : Prop :=
  ∃ numeral rest n, word = numeral ++ rest ∧ Numeral.Denotes numeral n ∧ Numeral.Stops rest ∧
    n.natAbs < 2 ^ 64 ∧ (limit.toNat : Int) = n % 2 ^ 64

/-- **What the words of a range ask for.** -/
structure Asks (first : Bytes) (last limit order : Option Bytes) (r : Range) (o : KeyOrder) :
    Prop where
  first : r.first = first
  /-- A dash leaves the end open like an absent word. -/
  last : ∀ key, r.last = some key ↔ last = some key ∧ key ≠ Bytes.ascii "-"
  /-- Without a limit all keys are taken. -/
  limit : limit = none ∧ r.limit = 0 ∨ ∃ word, limit = some word ∧ WritesLimit word r.limit
  order : order.getD (Bytes.ascii "lexical-asc") = o.name

theorem limit_eq_ok_iff {l : UInt64} : limit word = .ok l ↔ WritesLimit word l := by
  have hscan : limit word = .ok l ↔ ∃ rest, Numeral.word64? word = some (l, rest) := by
    rw [limit]
    cases hscan : Numeral.scan word with
    | none => simp [Numeral.word64?, hscan]
    | some p =>
      cases Numeral.word64? word with
      | none => simp
      | some w => simp [Prod.ext_iff]
  rw [hscan]
  constructor
  · rintro ⟨rest, hword⟩
    obtain ⟨numeral, n, h⟩ := Numeral.word64?_front_iff.mp hword
    exact ⟨numeral, rest, n, h⟩
  · rintro ⟨numeral, rest, n, h⟩
    exact ⟨rest, Numeral.word64?_front_iff.mpr ⟨numeral, n, h⟩⟩

theorem rangeEnd_eq_some_iff {key : Bytes} :
    rangeEnd word = some key ↔ word = key ∧ key ≠ Bytes.ascii "-" := by
  unfold rangeEnd
  split
  · next hdash =>
    refine iff_of_false nofun ?_
    rintro ⟨rfl, hne⟩
    exact hne hdash
  · next hne =>
    rw [Option.some.injEq]
    refine ⟨?_, And.left⟩
    rintro rfl
    exact ⟨rfl, hne⟩

/-- **A range is read from its words as they ask for it.** -/
theorem asks_iff {first : Bytes} {last limit order : Option Bytes} {r : Range} {o : KeyOrder} :
    Asks first last limit order r o ↔
      (limit.map Command.limit).getD (.ok 0) = .ok r.limit ∧
        KeyOrder.ofName? (order.getD (Bytes.ascii "lexical-asc")) = some o ∧
        r = { first, last := last.bind rangeEnd, limit := r.limit } := by
  have hlast : (∀ key, r.last = some key ↔ last = some key ∧ key ≠ Bytes.ascii "-") ↔
      r.last = last.bind rangeEnd := by
    rw [Option.ext_iff]
    refine forall_congr' fun key => ?_
    have hbind : last.bind rangeEnd = some key ↔ last = some key ∧ key ≠ Bytes.ascii "-" := by
      cases last <;> simp [rangeEnd_eq_some_iff]
    rw [hbind]
  have hlimit : (limit.map Command.limit).getD (.ok 0) = .ok r.limit ↔
      limit = none ∧ r.limit = 0 ∨ ∃ word, limit = some word ∧ WritesLimit word r.limit := by
    cases limit with
    | none => simp [eq_comm]
    | some word => simp [limit_eq_ok_iff]
  rw [hlimit, KeyOrder.ofName?_eq_some_iff]
  constructor
  · rintro ⟨rfl, hends, hlimits, horder⟩
    refine ⟨hlimits, horder, ?_⟩
    rw [← hlast.mp hends]
  · rintro ⟨hlimits, horder, hr⟩
    exact ⟨congrArg Range.first hr, hlast.mpr (congrArg Range.last hr), hlimits, horder⟩

/-! ## Updates -/

/-- What words add to a counter: what their `delta` reads as, or one without it. -/
inductive Increments (words : List Bytes) : Int → Prop where
  | given {delta : Bytes} {d : Int} :
    Gives words (Bytes.ascii "delta") delta → Numeral.Reads delta d → Increments words d
  | one : (∀ delta, ¬ Gives words (Bytes.ascii "delta") delta) → Increments words 1

/-- **What a function makes of a text** under the parameters that words give. -/
inductive Makes (words : List Bytes) (text : Bytes) : Function → Bytes → Prop where
  | replace {value : Bytes} :
    Gives words (Bytes.ascii "value") value → Makes words text .replace value
  | append {value : Bytes} :
    Gives words (Bytes.ascii "value") value → Makes words text .append (text ++ value)
  | counter {n d : Int} {out : Bytes} :
    Numeral.Reads text n → Increments words d → -2 ^ 63 ≤ n + d ∧ n + d ≤ 2 ^ 63 - 1 →
      Numeral.Canonical out (n + d) → Makes words text .counter out

end Command

/-- The name of a function. -/
def Function.name : Function → Bytes
  | replace => Bytes.ascii "replace"
  | append => Bytes.ascii "append"
  | counter => Bytes.ascii "counter"

theorem Function.ofName?_eq_some_iff {text : Bytes} {f : Function} :
    ofName? text = some f ↔ text = f.name :=
  lookup_eq_some_iff_of_named (by decide) fun f => by cases f <;> decide

namespace Command

/-- **What an update makes of a text**: it names its function, and all its words have to assign
something, whether the function asks for it or not. -/
structure Updates (function : Bytes) (words : List Bytes) (text out : Bytes) : Prop where
  formed : ∀ word ∈ words, 61 ∈ word
  made : ∃ f : Function, function = f.name ∧ Makes words text f out

section Given

variable {words : List Bytes} {given : Assoc Bytes Bytes} {functionName text out : Bytes}

/-- Parameters that were read have the values that the words give. -/
theorem parameter_eq_ok_iff
    (hgiven : ∀ name value, given.find? name = some value ↔ Gives words name value)
    {name value : Bytes} : Update.parameter { functionName, parameters := given } name = .ok value ↔
      Gives words name value := by
  rw [← hgiven, Update.parameter, Update.parameter?]
  cases given.find? name <;> simp

theorem adds_iff (hgiven : ∀ name value, given.find? name = some value ↔ Gives words name value)
    {d : Int} : Update.Adds { functionName, parameters := given } d ↔ Increments words d := by
  rw [Update.Adds, Update.parameter?]
  cases hdelta : given.find? (Bytes.ascii "delta") with
  | some delta =>
    have hgives := (hgiven _ _).mp hdelta
    refine ⟨.given hgives, ?_⟩
    rintro (⟨hgives', hreads⟩ | hnone)
    · rw [← hgiven, hdelta] at hgives'
      cases hgives'
      exact hreads
    · exact absurd hgives (hnone delta)
  | none =>
    have hnone : ∀ delta, ¬ Gives words (Bytes.ascii "delta") delta := by
      intro delta hgives
      rw [← hgiven, hdelta] at hgives
      cases hgives
    constructor
    · rintro rfl
      exact .one hnone
    · rintro (⟨hgives, -⟩ | -)
      · exact absurd hgives (hnone _)
      · rfl

/-- A function that finds the values that words give makes of a text what they make of it. -/
theorem makes_iff (hgiven : ∀ name value, given.find? name = some value ↔ Gives words name value)
    {f : Function} :
    Makes words text f out ↔ f.apply { functionName, parameters := given } text = .ok out := by
  cases f with
  | replace =>
    rw [Function.apply, parameter_eq_ok_iff hgiven]
    refine ⟨fun h => ?_, .replace⟩
    cases h with
    | replace hgives => exact hgives
  | append =>
    rw [Function.apply, Outcome.bind_eq_ok_iff]
    constructor
    · intro h
      cases h with
      | @append value hgives => exact ⟨value, (parameter_eq_ok_iff hgiven).mpr hgives, rfl⟩
    · rintro ⟨value, hvalue, hout⟩
      cases hout
      exact .append ((parameter_eq_ok_iff hgiven).mp hvalue)
  | counter =>
    rw [Function.apply, Function.count_eq_ok_iff]
    constructor
    · intro h
      cases h with
      | @counter n d _ hreads hd hrange hcanonical =>
        exact ⟨n + d, ⟨⟨n, d, hreads, (adds_iff hgiven).mpr hd, rfl⟩, hrange⟩, hcanonical⟩
    · rintro ⟨_, ⟨⟨n, d, hreads, hd, rfl⟩, hrange⟩, hcanonical⟩
      exact .counter hreads ((adds_iff hgiven).mp hd) hrange hcanonical

end Given

variable {function text out : Bytes}

/-- **A text is updated exactly as the words of the update say.** -/
theorem updates_iff : Updates function words text out ↔ ∃ f given,
    Function.ofName? function = some f ∧ parameters words = .ok given ∧
      f.apply { functionName := function, parameters := given } text = .ok out := by
  simp only [Function.ofName?_eq_some_iff]
  rcases parameters_cases words with
    ⟨given, hgiven, hformed, hvalues⟩ | ⟨before, word, after, rfl, -, hword, herror⟩
  · constructor
    · rintro ⟨-, f, hname, hmade⟩
      exact ⟨f, given, hname, hgiven, (makes_iff hvalues).mp hmade⟩
    · rintro ⟨f, given', hname, hgiven', happly⟩
      rw [hgiven] at hgiven'
      cases hgiven'
      exact ⟨hformed, f, hname, (makes_iff hvalues).mpr happly⟩
  · constructor
    · rintro ⟨hformed, -⟩
      exact absurd (hformed word (by simp)) hword
    · rintro ⟨f, given, -, hgiven, -⟩
      rw [herror] at hgiven
      cases hgiven

/-- An update makes one text at most. -/
theorem Updates.unique {out' : Bytes} (h : Updates function words text out)
    (h' : Updates function words text out') : out = out' := by
  obtain ⟨f, given, hf, hgiven, hout⟩ := updates_iff.mp h
  obtain ⟨g, given', hg, hgiven', hout'⟩ := updates_iff.mp h'
  rw [hf] at hg
  cases hg
  rw [hgiven] at hgiven'
  cases hgiven'
  rw [hout] at hout'
  cases hout'
  rfl

end Command

/-! ## Predicates -/

/-- The name of a condition. -/
def Condition.name : Condition → Bytes
  | equals => Bytes.ascii "equals"
  | beginsWith => Bytes.ascii "prefix"
  | contains => Bytes.ascii "contains"
  | pattern => Bytes.ascii "regex"

theorem Condition.ofName?_eq_some_iff {text : Bytes} {c : Condition} :
    ofName? text = some c ↔ text = c.name :=
  lookup_eq_some_iff_of_named (by decide) fun c => by cases c <;> decide

theorem Condition.colon_notMem_name (c : Condition) : 58 ∉ c.name := by
  cases c <;> decide

theorem Condition.name_ne_nil (c : Condition) : c.name ≠ [] := by
  cases c <;> decide

namespace Predicate

/-- **What a condition says of a text**, if it can be decided: all conditions can but a pattern that
is none. -/
inductive Means (expression text : Bytes) : Condition → Bool → Prop where
  | equals : Means expression text .equals (decide (text = expression))
  | beginsWith : Means expression text .beginsWith (decide (expression <+: text))
  | contains : Means expression text .contains (decide (expression <:+: text))
  | pattern {p : Regex.Pattern} :
    Regex.Pattern.ofBytes? expression = some p → Means expression text .pattern (p.search text)

/-- **A word says of a text whether it holds**: it names a condition, and behind the first colon
stands the expression. -/
def Decides (word text : Bytes) (holds : Bool) : Prop :=
  ∃ (c : Condition) (expression : Bytes), word = c.name ++ 58 :: expression ∧
    Means expression text c holds

variable {word text expression : Bytes} {c : Condition} {holds : Bool}

theorem means_iff : Means expression text c holds ↔ c.holds expression text = .ok holds := by
  constructor
  · intro h
    cases h with
    | equals => rfl
    | beginsWith => exact Condition.beginsWith_eq expression text
    | contains => exact Condition.contains_eq_occurs expression text
    | pattern hp => rw [Condition.holds, hp]
  · intro h
    cases c with
    | equals =>
      cases h
      exact .equals
    | beginsWith =>
      rw [Condition.beginsWith_eq] at h
      cases h
      exact .beginsWith
    | contains =>
      rw [Condition.contains_eq_occurs] at h
      cases h
      exact .contains
    | pattern =>
      rw [Condition.holds] at h
      split at h
      · cases h
      · next p hp =>
        cases h
        exact .pattern hp

/-- A predicate is what stands in front of the first colon, which is something, and behind it. -/
theorem parse_eq_ok_iff {p : Predicate} :
    parse word = .ok p ↔ word = p.type ++ 58 :: p.expression ∧ 58 ∉ p.type ∧ p.type ≠ [] := by
  rw [← and_assoc, ← Bytes.splitAtFirst_eq_some_iff, parse]
  obtain ⟨type, expression⟩ := p
  split
  · next hnone => simp [hnone]
  · next hsplit =>
    rw [hsplit]
    refine iff_of_false nofun ?_
    rintro ⟨hparts, hne⟩
    cases hparts
    exact hne rfl
  · next type' expression' hne hsplit =>
    rw [hsplit]
    constructor
    · intro h
      cases h
      exact ⟨rfl, hne⟩
    · rintro ⟨hparts, -⟩
      cases hparts
      rfl

/-- **A predicate is decided as its word says.** -/
theorem decides_iff : Decides word text holds ↔ ∃ p c, parse word = .ok p ∧
    Condition.ofName? p.type = some c ∧ c.holds p.expression text = .ok holds := by
  simp only [parse_eq_ok_iff, Condition.ofName?_eq_some_iff, ← means_iff]
  constructor
  · rintro ⟨c, expression, rfl, hmeans⟩
    exact ⟨⟨c.name, expression⟩, c, ⟨rfl, c.colon_notMem_name, c.name_ne_nil⟩, rfl, hmeans⟩
  · rintro ⟨⟨_, expression⟩, c, ⟨hword, -, -⟩, rfl, hmeans⟩
    exact ⟨c, expression, hword, hmeans⟩

/-- A predicate is not decided both ways. -/
theorem Decides.unique {holds' : Bool} (h : Decides word text holds)
    (h' : Decides word text holds') : holds = holds' := by
  obtain ⟨p, c, hp, hc, hholds⟩ := decides_iff.mp h
  obtain ⟨q, d, hq, hd, hholds'⟩ := decides_iff.mp h'
  rw [hp] at hq
  cases hq
  rw [hc] at hd
  cases hd
  rw [hholds] at hholds'
  cases hholds'
  rfl

end Predicate

end Keyspace
