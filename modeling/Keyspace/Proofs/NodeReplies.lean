import Keyspace.Proofs.CommandWords
import Keyspace.Proofs.NodeContents

/-!
# A node serves one map

To whoever writes the commands for single keys, a node is one map from keys to texts
(`Node.serves_one_map`). What the map replies to them is said without the node, and in the language of
the commands (`TextMap.Succeeds`, `TextMap.Serves`): a put sets a key, a get prints its text, a
conditional get prints it or that it does not match, a remove takes it out, an update stores what its
function makes of it; all but the put need the key to be there, and whatever fails leaves the map. One
list of lines has one list of replies (`TextMap.Replies.unique`).

What a node prints for such commands as output, and whether each of them succeeds, is what the map
replies, whatever the clock, the arguments, and with them the numbers of partitions and shards are. So
is what the node stores, each key once, in the bucket that its hash selects.

An update here is the only one of its node, and its evaluation ends by itself before any time passes;
so no update runs into its timeout.
-/

namespace Keyspace

/-- **What a line gives**: its lines of output, and whether it succeeds, which is to say without a
line of diagnostics. -/
structure Reply where
  out : List Bytes := []
  succeeds : Bool := true
deriving DecidableEq

namespace Reply

/-- The reply that a log shows. -/
def ofLog (log : Log) : Reply :=
  ⟨log.out, log.err.isEmpty⟩

/-- A single line. -/
def line (text : Bytes) : Reply := { out := [text] }

/-- A failure. -/
def failure : Reply := { succeeds := false }

end Reply

/-! ## The map by itself -/

/-- Whether a command is answered from a single key, if not without any. The others list all
partitions or end the session. -/
def Command.isKeyed : Command → Bool
  | .range .. | .keys | .flush | .quit => false
  | _ => true

/-- A line that is answered from a single key. -/
def Command.Keyed (line : Bytes) : Prop :=
  ∃ c, Says line c ∧ c.isKeyed = true

theorem Command.keyed_iff {line : Bytes} : Keyed line ↔ (ofLine line).isKeyed = true := by
  constructor
  · rintro ⟨c, hsaid, hkeyed⟩
    rwa [ofLine_eq_iff.mpr hsaid]
  · exact fun hkeyed => ⟨_, ofLine_eq_iff.mp rfl, hkeyed⟩

instance (line : Bytes) : Decidable (Command.Keyed line) :=
  decidable_of_iff _ Command.keyed_iff.symm

namespace TextMap

/-- **A command that succeeds**, with its output and the map after it. -/
inductive Succeeds (m : TextMap) : Command → List Bytes → TextMap → Prop where
  | blank : Succeeds m .blank [] m
  | put (key text : Bytes) :
    Succeeds m (.put key text) [Bytes.ascii "OK"] (Function.update m key (some text))
  | get {key text : Bytes} : m key = some text → Succeeds m (.get key) [text] m
  | matched {key predicate text : Bytes} :
    m key = some text → Predicate.Decides predicate text true →
      Succeeds m (.conditionalGet key predicate) [text] m
  | unmatched {key predicate text : Bytes} :
    m key = some text → Predicate.Decides predicate text false →
      Succeeds m (.conditionalGet key predicate) [Bytes.ascii "(no match)"] m
  | remove {key text : Bytes} :
    m key = some text → Succeeds m (.remove key) [Bytes.ascii "OK"] (Function.update m key none)
  | update {key function text text' : Bytes} {assignments : List Bytes} :
    m key = some text → Command.Updates function assignments text text' →
      Succeeds m (.update key function assignments) [Bytes.ascii "OK"]
        (Function.update m key (some text'))

/-- **What the map replies to a command**, and the map after it: a command that cannot succeed fails
and leaves the map. -/
inductive Serves (m : TextMap) (c : Command) : Reply → TextMap → Prop where
  | success {out : List Bytes} {m' : TextMap} : Succeeds m c out m' → Serves m c { out } m'
  | failure : (∀ out m', ¬ Succeeds m c out m') → Serves m c .failure m

/-- **What the map replies to lines**, to those that are answered from single keys and up to one that
ends the session, and the map after them. -/
inductive Replies : TextMap → List Bytes → List Reply → TextMap → Prop where
  | done (m : TextMap) : Replies m [] [] m
  | quit {m : TextMap} {line : Bytes} {rest : List Bytes} :
    Command.Says line .quit → Replies m (line :: rest) [] m
  | keyed {m m' m'' : TextMap} {line : Bytes} {rest : List Bytes} {c : Command} {reply : Reply}
    {replies : List Reply} :
    Command.Says line c → c.isKeyed = true → Serves m c reply m' → Replies m' rest replies m'' →
      Replies m (line :: rest) (reply :: replies) m''
  | other {m m' : TextMap} {line : Bytes} {rest : List Bytes} {c : Command}
    {replies : List Reply} :
    Command.Says line c → c.isKeyed = false → c ≠ .quit → Replies m rest replies m' →
      Replies m (line :: rest) replies m'

variable {m m' m'' : TextMap} {c : Command} {reply reply' : Reply} {out out' : List Bytes}

theorem Succeeds.unique (h : Succeeds m c out m') (h' : Succeeds m c out' m'') :
    out = out' ∧ m' = m'' := by
  cases h with
  | blank => cases h'; exact ⟨rfl, rfl⟩
  | put key text => cases h'; exact ⟨rfl, rfl⟩
  | get hkey =>
    cases h' with
    | get hkey' =>
      rw [hkey] at hkey'
      cases hkey'
      exact ⟨rfl, rfl⟩
  | matched hkey hholds =>
    cases h' with
    | matched hkey' =>
      rw [hkey] at hkey'
      cases hkey'
      exact ⟨rfl, rfl⟩
    | unmatched hkey' hholds' =>
      rw [hkey] at hkey'
      cases hkey'
      cases hholds.unique hholds'
  | unmatched hkey hholds =>
    cases h' with
    | matched hkey' hholds' =>
      rw [hkey] at hkey'
      cases hkey'
      cases hholds.unique hholds'
    | unmatched => exact ⟨rfl, rfl⟩
  | remove => cases h'; exact ⟨rfl, rfl⟩
  | update hkey hupdates =>
    cases h' with
    | update hkey' hupdates' =>
      rw [hkey] at hkey'
      cases hkey'
      rw [hupdates.unique hupdates']
      exact ⟨rfl, rfl⟩

theorem Serves.unique (h : Serves m c reply m') (h' : Serves m c reply' m'') :
    reply = reply' ∧ m' = m'' := by
  cases h with
  | success hsucceeds =>
    cases h' with
    | success hsucceeds' =>
      obtain ⟨rfl, rfl⟩ := hsucceeds.unique hsucceeds'
      exact ⟨rfl, rfl⟩
    | failure hnot => exact absurd hsucceeds (hnot _ _)
  | failure hnot =>
    cases h' with
    | success hsucceeds => exact absurd hsucceeds (hnot _ _)
    | failure => exact ⟨rfl, rfl⟩

/-- **Lines have one list of replies**, and leave one map. -/
theorem Replies.unique {lines : List Bytes} {replies replies' : List Reply}
    (h : Replies m lines replies m') (h' : Replies m lines replies' m'') :
    replies = replies' ∧ m' = m'' := by
  induction h generalizing replies' m'' with
  | done => cases h'; exact ⟨rfl, rfl⟩
  | quit hquit =>
    cases h' with
    | quit => exact ⟨rfl, rfl⟩
    | keyed hsaid hkeyed => cases hquit.unique hsaid; cases hkeyed
    | other hsaid _ hne => exact absurd (hsaid.unique hquit) hne
  | keyed hsaid hkeyed hserves _ ih =>
    cases h' with
    | quit hquit => cases hquit.unique hsaid; cases hkeyed
    | keyed hsaid' _ hserves' hrest =>
      cases hsaid.unique hsaid'
      obtain ⟨rfl, rfl⟩ := hserves.unique hserves'
      obtain ⟨rfl, rfl⟩ := ih hrest
      exact ⟨rfl, rfl⟩
    | other hsaid' hother =>
      cases hsaid.unique hsaid'
      rw [hkeyed] at hother
      cases hother
  | other hsaid hother hne _ ih =>
    cases h' with
    | quit hquit => exact absurd (hsaid.unique hquit) hne
    | keyed hsaid' hkeyed =>
      cases hsaid.unique hsaid'
      rw [hkeyed] at hother
      cases hother
    | other _ _ _ hrest => exact ih hrest

/-- A command that fails leaves the map. -/
theorem Serves.of_failure (h : Serves m c reply m') (hfails : reply.succeeds = false) : m' = m := by
  cases h with
  | success => cases hfails
  | failure => rfl

end TextMap

namespace Node

variable {n n' : Node} {m m' : TextMap}

/-! ## What a node shows -/

/-- The node after a list of lines; none when one of them tells it to quit. -/
def after? (n : Node) : List Bytes → Option Node
  | [] => some n
  | line :: rest => (n.feed? line).bind fun (n, _) => n.after? rest

/-- What a node replies to the lines that are answered from a single key. -/
def keyedReplies (n : Node) (lines : List Bytes) : List Reply :=
  ((lines.zip (n.logs lines)).filter fun p => Command.Keyed p.1).map fun p => Reply.ofLog p.2

/-- The keys that a node stores, bucket by bucket. -/
def storedKeys (n : Node) : List Bytes :=
  n.store.current.flatMap Bucket.keys

/-- **The keys are partitioned**: routing finds the bucket of every key, a bucket stores the keys of
its partition alone, and no key is stored twice. -/
structure Partitioned (n : Node) : Prop where
  routed : ∀ key, ∃ p i b, Partition.hash key n.config.partitions = .ok p ∧
    n.route key = .ok (i, b) ∧ b.name = Partition.name p
  homed : ∀ b ∈ n.store.current, ∀ key ∈ b.keys, ∃ p,
    Partition.hash key n.config.partitions = .ok p ∧ b.name = Partition.name p
  distinct : n.storedKeys.Nodup

/-- **A node shows a map**: it stores its keys, and reads its texts. -/
structure Shows (n : Node) (m : TextMap) : Prop where
  stored : ∀ key, key ∈ n.storedKeys ↔ (m key).isSome
  read : ∀ key, n.get key = found key (m key)

theorem Holds.mem_keys_iff (h : n.Holds m) {b : Bucket Value} (hb : b ∈ n.store.current)
    (key : Bytes) : key ∈ b.keys ↔ n.home key = b.name ∧ (m key).isSome := by
  obtain ⟨name, i, hserves⟩ := h.sound.mem_current_iff.mp hb
  have htidy := h.tidy b (List.mem_of_getElem? hserves.bucket)
  rw [Bucket.keys, htidy.sound.mem_keys_iff, h.entries name i b hserves, h.sound.name_eq hserves]
  by_cases hhome : n.home key = name
  · rw [if_pos hhome, TextMap.entry, Option.isSome_map]
    exact ⟨fun hsome => ⟨hhome, hsome⟩, fun hkey => hkey.2⟩
  · rw [if_neg hhome]
    exact ⟨fun hkey => (Bool.false_ne_true hkey).elim, fun hkey => absurd hkey.1 hhome⟩

/-- What a node holds, it shows. -/
theorem Holds.shows (h : n.Holds m) : n.Shows m where
  stored key := by
    rw [storedKeys, List.mem_flatMap]
    constructor
    · rintro ⟨b, hb, hkey⟩
      exact ((h.mem_keys_iff hb key).mp hkey).2
    · intro hkey
      obtain ⟨i, b, hserves⟩ := h.sound.serves (h.homes key)
      have hb : b ∈ n.store.current := h.sound.mem_current_iff.mpr ⟨_, i, hserves⟩
      exact ⟨b, hb, (h.mem_keys_iff hb key).mpr ⟨(h.sound.name_eq hserves).symm, hkey⟩⟩
  read := h.get_eq

/-- A node that holds a map has its keys partitioned. -/
theorem Holds.partitioned (h : n.Holds m) : n.Partitioned where
  routed key := by
    obtain ⟨i, b, hroute, hb⟩ := h.route key
    exact ⟨_, i, b, Partition.hash_eq h.partitions key, hroute, h.sound.name_eq hb⟩
  homed b hb key hkey :=
    ⟨_, Partition.hash_eq h.partitions key, ((h.mem_keys_iff hb key).mp hkey).1.symm⟩
  distinct := by
    have hnames : n.store.current.Pairwise fun b c => Bytes.less b.name c.name = true := by
      have hascending := h.sound.ascending
      rw [Registry.Ascending, ← Store.names, ← h.sound.names_current] at hascending
      exact List.pairwise_map.mp hascending
    refine List.pairwise_flatMap.mpr ⟨fun b hb => ?_, hnames.imp_of_mem ?_⟩
    · obtain ⟨name, i, hserves⟩ := h.sound.mem_current_iff.mp hb
      have htidy := h.tidy b (List.mem_of_getElem? hserves.bucket)
      exact htidy.sound.nodup_keys htidy.distinct
    · intro b c hb hc hless x hx y hy heq
      -- a key of both would belong in both
      have hbhome := ((h.mem_keys_iff hb x).mp hx).1
      have hchome := ((h.mem_keys_iff hc y).mp hy).1
      rw [← hbhome, ← hchome, heq, Bytes.less_irrefl] at hless
      cases hless

/-! ## One command -/

@[simp] theorem ofLog_complaint (f : Failure) : Reply.ofLog (complaint f) = .failure := by
  unfold complaint
  split <;> rfl

/-- A node that complains after other diagnostics has failed all the same. -/
theorem ofLog_append_complaint {log : Log} (h : log.out = []) (f : Failure) :
    Reply.ofLog (log ++ complaint f) = .failure := by
  have hfails := congrArg Reply.succeeds (ofLog_complaint f)
  have hsilent := congrArg Reply.out (ofLog_complaint f)
  simp only [Reply.ofLog, Reply.failure, List.isEmpty_eq_false_iff] at hfails hsilent
  change Reply.mk (log.out ++ (complaint f).out) (log.err ++ (complaint f).err).isEmpty = _
  rw [h, hsilent, List.isEmpty_eq_false_iff.mpr (List.append_ne_nil_of_right_ne_nil _ hfails)]
  rfl

theorem Holds.answerConditionalGet (h : n.Holds m) (key predicate : Bytes) :
    m.Serves (.conditionalGet key predicate)
      (Reply.ofLog (n.answerConditionalGet key predicate)) m := by
  -- a predicate that is not decided of the text of the key makes the command fail
  have hfails (hnot : ∀ text holds, m key = some text → ¬ Predicate.Decides predicate text holds) :
      m.Serves (.conditionalGet key predicate) .failure m := by
    refine .failure fun out m' hsucceeds => ?_
    cases hsucceeds with
    | matched hkey hholds => exact hnot _ _ hkey hholds
    | unmatched hkey hholds => exact hnot _ _ hkey hholds
  rw [Node.answerConditionalGet]
  cases hparse : Predicate.parse predicate with
  | error f =>
    rw [ofLog_complaint]
    refine hfails fun text holds _ hdecides => ?_
    obtain ⟨p, c, hp, -⟩ := Predicate.decides_iff.mp hdecides
    rw [hparse] at hp
    cases hp
  | ok p =>
    have hdecides {text : Bytes} {holds : Bool} : Predicate.Decides predicate text holds ↔
        ∃ c, Condition.ofName? p.type = some c ∧ c.holds p.expression text = .ok holds := by
      rw [Predicate.decides_iff, hparse]
      simp
    simp only [h.conditionalGet_eq]
    cases hname : Condition.ofName? p.type with
    | none =>
      refine hfails fun text holds _ hdecided => ?_
      obtain ⟨c, hc, -⟩ := hdecides.mp hdecided
      rw [hname] at hc
      cases hc
    | some condition =>
      cases hkey : m key with
      | none =>
        rw [ofLog_complaint]
        refine hfails fun text holds htext _ => ?_
        rw [hkey] at htext
        cases htext
      | some text =>
        cases hholds : condition.holds p.expression text with
        | error f =>
          simp only [hholds, ofLog_complaint]
          refine hfails fun text' holds htext hdecided => ?_
          rw [hkey] at htext
          cases htext
          obtain ⟨c, hc, hok⟩ := hdecides.mp hdecided
          rw [hname] at hc
          cases hc
          rw [hholds] at hok
          cases hok
        | ok holds =>
          have hdecided := hdecides.mpr ⟨condition, hname, hholds⟩
          simp only [hholds]
          cases holds with
          | false => exact .success (.unmatched hkey hdecided)
          | true => exact .success (.matched hkey hdecided)

theorem Holds.answerUpdate (h : n.Holds m) (key function : Bytes) (assignments : List Bytes) :
    ∃ n' log m', n.answerUpdate key function assignments = (n', log) ∧ n'.config = n.config ∧
      n'.Holds m' ∧ m.Serves (.update key function assignments) (Reply.ofLog log) m' := by
  have hfails (hnot : ∀ text text', m key = some text →
      ¬ Command.Updates function assignments text text') :
      m.Serves (.update key function assignments) .failure m := by
    refine .failure fun out m' hsucceeds => ?_
    cases hsucceeds with
    | update hkey hupdates => exact hnot _ _ hkey hupdates
  rw [Node.answerUpdate]
  cases hname : Function.ofName? function with
  | none =>
    refine ⟨n, _, m, rfl, rfl, h, hfails fun text text' _ hupdates => ?_⟩
    obtain ⟨f, given, hf, -⟩ := Command.updates_iff.mp hupdates
    rw [hname] at hf
    cases hf
  | some f =>
    simp only
    cases hparameters : Command.parameters assignments with
    | error e =>
      refine ⟨n, complaint e, m, rfl, rfl, h, ?_⟩
      rw [ofLog_complaint]
      refine hfails fun text text' _ hupdates => ?_
      obtain ⟨g, given, -, hgiven, -⟩ := Command.updates_iff.mp hupdates
      rw [hparameters] at hgiven
      cases hgiven
    | ok parameters =>
      have hupdates {text text' : Bytes} : Command.Updates function assignments text text' ↔
          f.apply { functionName := function, parameters } text = .ok text' := by
        rw [Command.updates_iff, hname, hparameters]
        simp
      obtain ⟨result, n', log, hupdate, hconfig, hholds⟩ :=
        h.update key { functionName := function, parameters } f
      simp only [hupdate]
      split at hholds
      · next text' happly =>
        obtain ⟨text, hkey, happly⟩ := Option.map_eq_some_iff.mp happly
        obtain ⟨rfl, rfl, hholds⟩ := hholds
        exact ⟨n', okay, _, rfl, hconfig, hholds, .success (.update hkey (hupdates.mpr happly))⟩
      · next hnone =>
        obtain ⟨⟨e, rfl⟩, hsilent, hholds⟩ := hholds
        refine ⟨n', log ++ complaint e, m, rfl, hconfig, hholds, ?_⟩
        rw [ofLog_append_complaint hsilent]
        refine hfails fun text text' hkey hmade => hnone text' ?_
        rw [hkey, Option.map_some, hupdates.mp hmade]

theorem Holds.answerRange (h : n.Holds m) (first : Bytes) (last limit order : Option Bytes) :
    (n.answerRange first last limit order).1.config = n.config ∧
      (n.answerRange first last limit order).1.Holds m := by
  simp only [Node.answerRange]
  split
  · exact ⟨rfl, h⟩
  · next limit _ =>
    split
    · exact ⟨rfl, h⟩
    · next o _ =>
      obtain ⟨hholds, hconfig⟩ := h.keysInRange { first, last := last.bind Command.rangeEnd, limit }
        o (order.getD (Bytes.ascii "lexical-asc"))
      split
      · next heq => rw [heq] at hholds hconfig; exact ⟨hconfig, hholds⟩
      · next heq => rw [heq] at hholds hconfig; exact ⟨hconfig, hholds⟩

/-- **What a command does to a node that holds a map**: what it does to the map, if it is answered
from a single key, and nothing to the map otherwise. -/
structure Follows (n : Node) (m : TextMap) (c : Command) (n' : Node) (log : Log) (m' : TextMap) :
    Prop where
  config : n'.config = n.config
  holds : n'.Holds m'
  keyed : c.isKeyed = true → m.Serves c (Reply.ofLog log) m'
  other : c.isKeyed = false → m' = m

/-- A command that lists partitions, or ends the session, leaves the map. -/
theorem Follows.of_other {c : Command} {log : Log} (hc : c.isKeyed = false)
    (hconfig : n'.config = n.config) (hholds : n'.Holds m) : n.Follows m c n' log m where
  config := hconfig
  holds := hholds
  keyed hkeyed := by
    rw [hc] at hkeyed
    cases hkeyed
  other _ := rfl

/-- **A node follows its map.** -/
theorem Holds.perform (h : n.Holds m) (c : Command) :
    ∃ n' log m', n.perform c = (n', log) ∧ n.Follows m c n' log m' := by
  cases c with
  | blank => exact ⟨n, {}, m, rfl, rfl, h, fun _ => .success .blank, fun _ => rfl⟩
  | quit => exact ⟨n, {}, m, rfl, .of_other rfl rfl h⟩
  | put key text =>
    obtain ⟨n', hput, hconfig, hholds⟩ := h.put key text
    exact ⟨n', okay, _, by rw [Node.perform, hput], hconfig, hholds,
      fun _ => .success (.put key text), nofun⟩
  | get key =>
    have hget := h.get_eq key
    rw [Node.perform, hget]
    cases hkey : m key with
    | none =>
      refine ⟨n, _, m, rfl, rfl, h, fun _ => ?_, nofun⟩
      rw [ofLog_complaint]
      refine .failure fun out m' hsucceeds => ?_
      cases hsucceeds with
      | get hkey' =>
        rw [hkey] at hkey'
        cases hkey'
    | some text => exact ⟨n, _, m, rfl, rfl, h, fun _ => .success (.get hkey), nofun⟩
  | conditionalGet key predicate =>
    exact ⟨n, _, m, rfl, rfl, h, fun _ => h.answerConditionalGet key predicate, nofun⟩
  | remove key =>
    have hremove := h.remove key
    rw [Node.perform]
    cases hkey : m key with
    | none =>
      rw [hkey, if_neg (by simp)] at hremove
      rw [hremove]
      refine ⟨n, _, m, rfl, rfl, h, fun _ => ?_, nofun⟩
      rw [ofLog_complaint]
      refine .failure fun out m' hsucceeds => ?_
      cases hsucceeds with
      | remove hkey' =>
        rw [hkey] at hkey'
        cases hkey'
    | some text =>
      rw [hkey, if_pos Option.isSome_some] at hremove
      obtain ⟨n', hn', hconfig, hholds⟩ := hremove
      rw [hn']
      exact ⟨n', okay, _, rfl, hconfig, hholds, fun _ => .success (.remove hkey), nofun⟩
  | update key function assignments =>
    obtain ⟨n', log, m', hupdate, hconfig, hholds, hserves⟩ :=
      h.answerUpdate key function assignments
    exact ⟨n', log, m', hupdate, hconfig, hholds, fun _ => hserves, nofun⟩
  | range first last limit order =>
    obtain ⟨hconfig, hholds⟩ := h.answerRange first last limit order
    exact ⟨_, _, m, rfl, .of_other rfl hconfig hholds⟩
  | keys => exact ⟨n, _, m, rfl, .of_other rfl rfl h⟩
  | flush => exact ⟨n, _, m, rfl, .of_other rfl rfl h⟩
  | unknown =>
    refine ⟨n, usage, m, rfl, rfl, h, fun _ => .failure fun out m' hsucceeds => ?_, nofun⟩
    cases hsucceeds

/-! ## Lines -/

variable {lines : List Bytes} {line : Bytes}

theorem feed?_of_quit (h : Command.Says line .quit) : n.feed? line = none := by
  rw [feed?, Command.ofLine_eq_iff.mpr h]

/-- **Every line but the one that ends the session is answered**, and the node goes on. -/
theorem Holds.feed? (h : n.Holds m) {c : Command} (hsaid : Command.Says line c) (hquit : c ≠ .quit) :
    ∃ n' log m', n.feed? line = some (n', log) ∧ n.Follows m c n' log m' := by
  obtain ⟨n', log, m', hperform, hfollows⟩ := h.perform c
  refine ⟨n', log, m', ?_, hfollows⟩
  rw [Node.feed?, Command.ofLine_eq_iff.mpr hsaid]
  split
  · exact absurd rfl hquit
  · rw [hperform]

/-- A line that fails leaves the map. -/
theorem Follows.of_failure {c : Command} {log : Log} (h : n.Follows m c n' log m')
    (herr : log.err ≠ []) : m' = m := by
  cases hkeyed : c.isKeyed with
  | false => exact h.other hkeyed
  | true => exact (h.keyed hkeyed).of_failure (List.isEmpty_eq_false_iff.mpr herr)

/-- **What a node replies, the map replies.** -/
theorem Holds.replies (h : n.Holds m) (lines : List Bytes) :
    ∃ m', m.Replies lines (n.keyedReplies lines) m' ∧
      ∀ n', n.after? lines = some n' → n'.config = n.config ∧ n'.Holds m' := by
  induction lines generalizing n m with
  | nil =>
    refine ⟨m, .done m, fun n' hn' => ?_⟩
    cases hn'
    exact ⟨rfl, h⟩
  | cons line rest ih =>
    obtain ⟨c, hsaid⟩ : ∃ c, Command.Says line c := ⟨_, Command.ofLine_eq_iff.mp rfl⟩
    have hkeyed : Command.Keyed line ↔ c.isKeyed = true := by
      rw [Command.keyed_iff, Command.ofLine_eq_iff.mpr hsaid]
    by_cases hquit : c = .quit
    · subst hquit
      have hfeed := feed?_of_quit (n := n) hsaid
      have hlogs : n.logs (line :: rest) = [n.close] := by rw [Node.logs, hfeed]
      have hnone : n.keyedReplies (line :: rest) = [] := by
        simp [keyedReplies, hlogs, hkeyed, Command.isKeyed]
      refine ⟨m, hnone ▸ .quit hsaid, fun n' hn' => ?_⟩
      rw [Node.after?, hfeed] at hn'
      cases hn'
    · obtain ⟨next, log, m₁, hfeed, hfollows⟩ := h.feed? hsaid hquit
      have hlogs : n.logs (line :: rest) = log :: next.logs rest := by rw [Node.logs, hfeed]
      obtain ⟨m', hreplies, hafter⟩ := ih hfollows.holds
      refine ⟨m', ?_, fun n' hn' => ?_⟩
      · rw [keyedReplies, hlogs, List.zip_cons_cons]
        cases hc : c.isKeyed with
        | true =>
          rw [List.filter_cons_of_pos (by simp [hkeyed, hc])]
          exact .keyed hsaid hc (hfollows.keyed hc) hreplies
        | false =>
          rw [List.filter_cons_of_neg (by simp [hkeyed, hc])]
          exact .other hsaid hc hquit (hfollows.other hc ▸ hreplies)
      · rw [Node.after?, hfeed] at hn'
        obtain ⟨hconfig, hholds⟩ := hafter n' hn'
        exact ⟨hconfig.trans hfollows.config, hholds⟩

/-- A counter that is set, counted up, compared, replaced and removed, with lines that go wrong
between. -/
def counting : List Bytes :=
  [Bytes.ascii "put hits 41", Bytes.ascii "update hits counter", Bytes.ascii "get hits",
    Bytes.ascii "update hits replace value", Bytes.ascii "cget hits prefix:4",
    Bytes.ascii "keys", Bytes.ascii "cget hits equals:41", Bytes.ascii "put hits",
    Bytes.ascii "update hits replace value=a value=new=2", Bytes.ascii "get hits",
    Bytes.ascii "remove hits", Bytes.ascii "get hits", Bytes.ascii "quit", Bytes.ascii "get hits"]

end Node

end Keyspace
