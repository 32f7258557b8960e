import Keyspace.Proofs.BucketCoherence
import Keyspace.Proofs.Dictionary

/-!
# A bucket is one dictionary

Whatever the hash of a bucket and the number of its shards are, a caller who makes request after
request sees one dictionary (`BucketSystem.refines_dictionary`).

The step is a request (`Serves.shows`), and the only one with an argument in it is the update. From
its start to its result it is the only call under way (`Single`), so all that is shown meanwhile are
its own acts; what it finds of its key is what was there when it began (`sees_within`), and what it
leaves is what its acts left (`replay_within`). Its course is then the answer of the dictionary
(`Course.serve`).
-/

namespace Keyspace

variable {V : Type}

/-! ## The events of one call -/

/-- An event shows the start or an act of a call on a key, or nothing. -/
def Event.Within (id : CallId) (key : Bytes) : Event V → Prop
  | .called j _ => j = id
  | .act j k _ => j = id ∧ k = key
  | .silent => True
  | _ => False

/-- What such events leave under a key is what the acts of the call leave there. -/
theorem replay_within {id : CallId} {key : Bytes} {trace : List (Event V)}
    (h : ∀ e ∈ trace, e.Within id key) (k : Bytes) (v : Option V) :
    replay k v trace = replay k v ((actsOf id trace).map (.act id key)) := by
  induction trace generalizing v with
  | nil => rfl
  | cons e rest ih =>
    have hrest := ih (fun e he => h e (List.mem_cons_of_mem _ he))
    have he := h e List.mem_cons_self
    cases e with
    | act j k' a =>
      obtain ⟨rfl, rfl⟩ := he
      have hact : (Event.act j k' a).actOf? j = some a := if_pos rfl
      rw [actsOf, List.filterMap_cons_some hact]
      exact hrest _
    | called j c => exact hrest v
    | silent => exact hrest v
    | _ => cases he

/-- Acts that do not store leave what is there. -/
theorem replay_of_no_store {acts : List (Act V)} (h : ∀ w, Act.stored w ∉ acts) (id : CallId)
    (key k : Bytes) (v : Option V) : replay k v (acts.map (.act id key)) = v := by
  induction acts with
  | nil => rfl
  | cons a rest ih =>
    have hrest := ih fun w hw => h w (List.mem_cons_of_mem _ hw)
    cases a with
    | stored w => exact absurd List.mem_cons_self (h w)
    | _ => exact hrest

/-- What a call leaves that stores a value as the last of its acts. -/
theorem replay_of_store {before later : List (Act V)} (hbefore : ∀ w, Act.stored w ∉ before)
    (hlater : ∀ w, Act.stored w ∉ later) (id : CallId) (key k : Bytes) (v : Option V)
    (w : V) :
    replay k v ((before ++ .stored w :: later).map (.act id key)) =
      if k = key then some w else v := by
  rw [List.map_append, replay_append, replay_of_no_store hbefore]
  change replay k ((Event.act id key (.stored w)).after k v) (later.map (.act id key)) = _
  rw [replay_of_no_store hlater, Event.after, Event.write?]
  by_cases hk : k = key
  · rw [if_pos hk.symm, if_pos hk]
    rfl
  · rw [if_neg (Ne.symm hk), if_neg hk]
    rfl

/-- **What a call makes of its value is what the dictionary makes of it**, when the call reads what
the dictionary has: either both fail alike, or the call stores the new value last. -/
theorem Verdict.updated [Storable V] {c : UpdateCall V} {acts : List (Act V)} {result : Outcome Unit}
    (h : Verdict c acts result) {d : Dictionary V}
    (hread : ∀ v later, acts = .read v :: later → d.find? c.key = v) :
    (∃ f, result = .error f ∧ (∀ w, Act.stored w ∉ acts) ∧
      d.updated c (.ofActs (entering ++ acts ++ [.freed, .returned result])) = .error f) ∨
    ∃ before w, result = .ok () ∧ acts = before ++ [.stored w] ∧ (∀ w, Act.stored w ∉ before) ∧
      d.updated c (.ofActs (entering ++ acts ++ [.freed, .returned result])) = .ok w := by
  cases h with
  | missing =>
    refine .inl ⟨_, rfl, by simp, ?_⟩
    simp only [Dictionary.updated, hread _ _ rfl]
  | refused v _ =>
    refine .inl ⟨_, rfl, by simp, ?_⟩
    simp only [Dictionary.updated, hread _ _ rfl]
    rfl
  | failed v evaluation =>
    refine .inl ⟨_, rfl, by simp, ?_⟩
    simp only [Dictionary.updated, hread _ _ rfl, evaluation]
    rfl
  | nothing v evaluation none =>
    refine .inl ⟨_, rfl, by simp, ?_⟩
    simp only [Dictionary.updated, hread _ _ rfl, evaluation, none]
    rfl
  | expired v =>
    refine .inl ⟨_, rfl, by simp, ?_⟩
    simp only [Dictionary.updated, hread _ _ rfl]
    rfl
  | @stored v w evaluation =>
    refine .inr ⟨[.read (some v), .submitted none, .evaluated (.ok (some w))], w, rfl, rfl,
      by simp, ?_⟩
    simp only [Dictionary.updated, hread _ _ rfl, evaluation]
    rfl

/-- **The course of a call that finds what the dictionary has is the answer of the dictionary**, and
what the call leaves is what the dictionary becomes. -/
theorem Course.serve [Storable V] {c : UpdateCall V} {acts : List (Act V)} {result : Outcome Unit}
    (h : Course c acts result) (id : CallId) {d : Dictionary V}
    (hsees : ∀ before a later, acts = before ++ a :: later → (∀ w, Act.stored w ∉ before) →
      (Event.act id c.key a).Sees c.key (d.find? c.key)) :
    (d.serve (.update c (.ofActs acts))).1 = .done result ∧
      ∀ key, replay key (d.find? key) (acts.map (.act id c.key)) =
        (d.serve (.update c (.ofActs acts))).2.find? key := by
  cases h with
  | absent =>
    have hfind : d.find? c.key = none :=
      Option.isNone_iff_eq_none.mp (by simpa using hsees [] _ [] rfl (by simp) rfl)
    have hupdated : d.updated c (.ofActs [(.checked false : Act V)]) =
        .error (.keyMissing c.key) := by
      simp only [Dictionary.updated, hfind]
    rw [Dictionary.serve_update_of_error hupdated]
    exact ⟨rfl, fun key => replay_of_no_store (by simp) id c.key key _⟩
  | @locked acts result verdict =>
    -- whatever the verdict is, it begins with the read
    have hread : ∀ v later, acts = .read v :: later → d.find? c.key = v := by
      rintro v later rfl
      exact (hsees entering (.read v) (later ++ [.freed, .returned result]) (by simp)
        (by simp [entering]) rfl).symm
    rcases verdict.updated hread with
      ⟨f, rfl, hstores, hupdated⟩ | ⟨before, w, rfl, rfl, hbefore, hupdated⟩
    · rw [Dictionary.serve_update_of_error hupdated]
      exact ⟨rfl, fun key => replay_of_no_store (by simp [entering, hstores]) id c.key key _⟩
    · rw [Dictionary.serve_update_of_ok hupdated]
      refine ⟨rfl, fun key => ?_⟩
      have hsplit : entering ++ (before ++ [.stored w]) ++ [.freed, .returned (.ok ())] =
          (entering ++ before) ++ .stored w :: [.freed, .returned (.ok ())] := by simp
      rw [Assoc.find?_put, hsplit]
      exact replay_of_store (by simp [entering, hbefore]) (by simp) id c.key key _ w

namespace BucketSystem

variable {s s' t : BucketSystem V} {id : CallId} {c : UpdateCall V} {hash : Bytes → Nat}
  {shards : Nat}

/-! ## What a system at rest shows -/

/-- Every call has its result. -/
def Quiet (s : BucketSystem V) : Prop :=
  ∀ id c, s.calls.find? id = some c → ∃ result, c.stage = .done result

/-- **A system shows a dictionary**: no call is under way, and the keys have the values of the
dictionary. -/
structure Shows (s : BucketSystem V) (d : Dictionary V) : Prop where
  quiet : s.Quiet
  distinct : d.keys.Nodup
  values : ∀ key, s.value? key = d.find? key

/-- The keys read as in the dictionary. -/
theorem Shows.get_eq {d : Dictionary V} (h : s.Shows d) (key : Bytes) :
    s.bucket.get key = d.value key := by
  have hvalue := h.values key
  rw [value?] at hvalue
  unfold Dictionary.value
  cases hfind : d.find? key with
  | none => exact Bucket.get_of_none (hvalue.trans hfind)
  | some v => exact Bucket.get_of_value (hvalue.trans hfind)

/-- The keys are listed in some order. -/
theorem Shows.perm_keys {d : Dictionary V} (h : s.Shows d)
    (hspread : s.bucket.map.Spread hash shards) : s.bucket.keys.Perm d.keys := by
  refine (List.perm_ext_iff_of_nodup (Bucket.nodup_keys hspread) h.distinct).mpr fun key => ?_
  rw [Bucket.mem_keys_iff hspread, Bucket.contains_iff hspread, ← Assoc.isSome_find?_iff,
    ← h.values key, value?, Option.isSome_iff_exists]

theorem Shows.put {d : Dictionary V} (h : s.Shows d) (hs : Sound s) (key : Bytes) (v : V) :
    Shows (s.withMap (s.bucket.map.put key (some v))) (d.put key v) where
  quiet := h.quiet
  distinct := Assoc.nodup_keys_put h.distinct key v
  values j := by rw [hs.value?_put, Assoc.find?_put, h.values]

theorem Shows.remove {d : Dictionary V} (h : s.Shows d) (hs : Sound s) (key : Bytes) :
    Shows (s.withMap (s.bucket.map.remove key).2) (d.erase key) where
  quiet := h.quiet
  distinct := Assoc.nodup_keys_erase h.distinct key
  values j := by rw [hs.value?_remove, Assoc.find?_erase, h.values]

/-- A new bucket shows the empty dictionary. -/
theorem shows_of_create {name : Bytes} {bucket : Bucket V}
    (h : Bucket.create name hash shards true = .ok bucket) (pool : WorkerPool (Product V)) :
    AtRest { bucket, pool } ∧ bucket.map.Spread hash shards ∧ Shows { bucket, pool } [] := by
  have hrest := AtRest.created pool h
  obtain ⟨map, hmap, rfl⟩ := Bucket.eq_of_create h
  obtain ⟨-, hnone⟩ := ShardedMap.Sound.create hmap
  refine ⟨hrest, .create hmap, ⟨fun id c hc => (by cases hc), List.nodup_nil, fun key => ?_⟩⟩
  rw [value?, ShardedMap.get?_eq, hnone key]
  rfl

/-! ## An update without others -/

/-- **A call is the only one under way.** -/
structure Single (id : CallId) (c : UpdateCall V) (s : BucketSystem V) : Prop where
  own : ∃ stage, s.calls.find? id = some { c with stage }
  others : ∀ j d, s.calls.find? j = some d → j ≠ id → ∃ result, d.stage = .done result

theorem Quiet.call (h : s.Quiet) (c : UpdateCall V) : Single s.nextCall c (s.call c).1 where
  own := ⟨.checking, by rw [find?_call, if_pos rfl]⟩
  others j d hd hj := by
    rw [find?_call, if_neg hj] at hd
    exact h j d hd

theorem Single.quiet (h : Single id c s) {result : Outcome Unit}
    (hresult : s.result? id = some result) : s.Quiet := by
  intro j d hd
  by_cases hj : j = id
  · subst hj
    obtain ⟨c', hc', hstage⟩ := result?_eq_some_iff.mp hresult
    rw [hd] at hc'
    cases hc'
    exact ⟨result, hstage⟩
  · exact h.others j d hd hj

variable [Storable V]

/-- What a step that no caller makes shows. -/
theorem Step.Internal.event {a : Step V} (h : a.Internal) (s : BucketSystem V) :
    s.event a = .silent ∨ ∃ j key act, s.event a = .act j key act := by
  cases a with
  | advance j | expire j =>
    simp only [BucketSystem.event]
    split
    · exact .inr ⟨_, _, _, rfl⟩
    · exact .inl rfl
  | pool step => exact .inl rfl
  | _ => cases h

/-- **While a call is the only one under way, it alone goes on.** -/
theorem Single.step (h : Single id c s) {a : Step V} (ha : a.Internal)
    (hstep : s.step? a = some s') :
    Single id c s' ∧ (s.event a).Within id c.key := by
  have htrans := transition_of_step? hstep
  have hshape := ha.event s
  generalize s.event a = e at htrans hshape
  cases htrans with
  | @turned j d act s' hd turn =>
    obtain ⟨stage, hcalls, -, hrank⟩ := turn.calls_eq
    -- a call that is done takes no turn
    have hj : j = id := by
      refine Decidable.byContradiction fun hj => ?_
      obtain ⟨result, hdone⟩ := h.others j d hd hj
      rw [hdone, UpdateStage.rank] at hrank
      exact Nat.not_lt_zero _ hrank
    subst hj
    obtain ⟨stage', hc⟩ := h.own
    rw [hd] at hc
    cases hc
    refine ⟨⟨⟨stage, ?_⟩, fun i d' hd' hi => ?_⟩, rfl, rfl⟩
    · rw [hcalls, Assoc.find?_put, if_pos rfl]
    · rw [turn.find?_other hi] at hd'
      exact h.others i d' hd' hi
  | rejected => exact ⟨h, trivial⟩
  | worked _ _ => exact ⟨⟨h.own, h.others⟩, trivial⟩
  | _ => rcases hshape with heq | ⟨_, _, _, heq⟩ <;> cases heq

theorem Single.run (h : Single id c s) {steps : List (Step V)} (hsteps : ∀ a ∈ steps, a.Internal)
    (hrun : s.run? steps = some t) :
    Single id c t ∧ ∀ e ∈ s.trace steps, e.Within id c.key := by
  induction steps generalizing s with
  | nil =>
    cases hrun
    exact ⟨h, fun e he => by cases he⟩
  | cons a rest ih =>
    obtain ⟨s', hstep, hrest, htrace⟩ := Machine.run?_cons_eq_some hrun
    obtain ⟨hnext, hevent⟩ := h.step (hsteps a List.mem_cons_self) hstep
    obtain ⟨hlast, hevents⟩ := ih hnext (fun b hb => hsteps b (List.mem_cons_of_mem _ hb)) hrest
    refine ⟨hlast, fun e he => ?_⟩
    rw [trace, htrace] at he
    rcases List.mem_cons.mp he with rfl | he
    · exact hevent
    · exact hevents e he

/-- **What a call without others shows of its key is what was there when it began**, until it
stores. -/
theorem sees_within (hs : Sound s) {steps : List (Step V)} (hrun : s.run? steps = some t)
    {key : Bytes} (hwithin : ∀ e ∈ s.trace steps, e.Within id key)
    {before later : List (Act V)} {a : Act V}
    (hacts : actsOf id (s.trace steps) = before ++ a :: later)
    (hstores : ∀ w, Act.stored w ∉ before) :
    (Event.act id key a).Sees key (s.value? key) := by
  obtain ⟨first, rest, htrace, hbefore, hrest⟩ := List.filterMap_eq_append_iff.mp hacts
  obtain ⟨quiet, e, last, rfl, hquiet, he, -⟩ := List.filterMap_eq_cons_iff.mp hrest
  have hpast : ∀ e ∈ first ++ quiet, e.Within id key := by
    intro e he
    refine hwithin e ?_
    rw [htrace, ← List.append_assoc]
    exact List.mem_append_left _ he
  have hevent : e = .act id key a := by
    have hmem : e ∈ s.trace steps := by simp [htrace]
    have hin := hwithin e hmem
    cases e with
    | act j k b =>
      obtain ⟨rfl, rfl⟩ := hin
      rw [Event.actOf?, if_pos rfl] at he
      cases he
      rfl
    | _ => cases he
  have hsplit : s.trace steps = (first ++ quiet) ++ e :: last := by rw [htrace, List.append_assoc]
  have hsees := sees_of_run hs hrun key hsplit
  -- up to there the call has shown its earlier acts, and none of them stored
  have hsame : actsOf id (first ++ quiet) = before := by
    rw [actsOf, List.filterMap_append, hbefore, List.filterMap_eq_nil_iff.mpr hquiet,
      List.append_nil]
  rw [replay_within hpast, hsame, replay_of_no_store hstores, hevent] at hsees
  exact hsees

/-- **The course of an update that runs without others**: it is what the call showed of itself, and
all that was shown while it ran. -/
theorem course_of_single {s₀ : BucketSystem V} {past steps : List (Step V)} {result : Outcome Unit}
    (h₀ : AtRest s₀) (hreach : s₀.run? past = some s) (hquiet : s.Quiet)
    (hrun : s.run? (.call c :: steps) = some t) (hsteps : ∀ a ∈ steps, a.Internal)
    (hresult : t.result? s.nextCall = some result) :
    Course c (actsOf s.nextCall (s.trace (.call c :: steps))) result ∧
      (∀ e ∈ s.trace (.call c :: steps), e.Within s.nextCall c.key) ∧ t.Quiet := by
  obtain ⟨u, hcall, hrest, htrace⟩ := Machine.run?_cons_eq_some hrun
  cases hcall
  obtain ⟨hsingle, hevents⟩ := (hquiet.call c).run hsteps hrest
  refine ⟨?_, fun e he => ?_, hsingle.quiet hresult⟩
  · obtain ⟨stage, hc⟩ := hsingle.own
    obtain ⟨c', hc', hstage⟩ := result?_eq_some_iff.mp hresult
    rw [hc] at hc'
    cases hc'
    obtain rfl : stage = .done result := hstage
    have hwhole : s₀.run? (past ++ .call c :: steps) = some t :=
      (Machine.run?_append_of_some hreach _).trans hrun
    have hshown := (recorded_of_run h₀ hwhole).shown _ _ hc
    -- the call is new: the run before it shows nothing of it
    have hbefore : actsOf s.nextCall (s₀.trace past) = [] :=
      (recorded_of_run h₀ hreach).actsOf_eq_nil
        ((h₀.sound.of_run hreach).held.fresh _ (Nat.le_refl _))
    rw [trace, Machine.trace_append hreach, actsOf, List.filterMap_append] at hshown
    rw [actsOf] at hbefore
    rw [hbefore, List.nil_append] at hshown
    exact Course.restage hshown c.stage
  · rw [trace, htrace] at he
    rcases List.mem_cons.mp he with rfl | he
    · rfl
    · exact hevents e he

/-! ## Requests -/

/-- The keys are selected as in the dictionary. -/
theorem Shows.conditionalGet_eq {d : Dictionary V} (h : s.Shows d) (key : Bytes) (p : Predicate)
    (c : Condition) : s.bucket.conditionalGet key p c = d.select key p c := by
  have hvalue := h.values key
  rw [value?] at hvalue
  unfold Dictionary.select
  cases hfind : d.find? key with
  | none => exact Bucket.conditionalGet_of_none (hvalue.trans hfind) p c
  | some v => exact Bucket.conditionalGet_of_value (hvalue.trans hfind) p c

/-- An update without others gives what the dictionary gives. -/
theorem Shows.update {s₀ : BucketSystem V} {past steps : List (Step V)} {result : Outcome Unit}
    {d : Dictionary V} (h : s.Shows d) (h₀ : AtRest s₀) (hreach : s₀.run? past = some s)
    (hrun : s.run? (.call c :: steps) = some t) (hsteps : ∀ a ∈ steps, a.Internal)
    (hresult : t.result? s.nextCall = some result) :
    let r := Dictionary.Request.update c (.ofActs (actsOf s.nextCall (s.trace (.call c :: steps))))
    (d.serve r).1 = .done result ∧ t.Shows (d.serve r).2 := by
  have hs : Sound s := h₀.sound.of_run hreach
  obtain ⟨hcourse, hwithin, hquiet⟩ := course_of_single h₀ hreach h.quiet hrun hsteps hresult
  obtain ⟨hanswer, hreplay⟩ := hcourse.serve s.nextCall (d := d) fun before a later hacts hstores =>
    h.values c.key ▸ sees_within hs hrun hwithin hacts hstores
  refine ⟨hanswer, hquiet, d.nodup_serve h.distinct _, fun key => ?_⟩
  rw [← hreplay key, value?_of_run hs hrun key, replay_within hwithin, h.values key]

/-- **A request to a system that shows a dictionary is answered as by the dictionary**, and the
system then shows what the dictionary becomes. -/
theorem Serves.shows {s₀ : BucketSystem V} {past : List (Step V)} {d : Dictionary V}
    {r : Dictionary.Request V} {a : Dictionary.Answer V} (hserves : Serves s r a t) (h : s.Shows d)
    (h₀ : AtRest s₀) (hreach : s₀.run? past = some s) (hspread : s.bucket.map.Spread hash shards) :
    a.Agrees (d.serve r).1 ∧ t.Shows (d.serve r).2 := by
  have hs : Sound s := h₀.sound.of_run hreach
  have hhas : ∀ key, d.has key = s.bucket.map.contains key := by
    intro key
    rw [hs.contains_eq, h.values key, Assoc.has]
  cases hserves with
  | @put key value _ step =>
    cases value with
    | none =>
      cases step
      exact ⟨rfl, h⟩
    | some v =>
      cases step
      exact ⟨rfl, h.put hs key v⟩
  | get key => exact ⟨congrArg Dictionary.Answer.value (h.get_eq key), h⟩
  | conditionalGet key p c =>
    exact ⟨congrArg Dictionary.Answer.selected (h.conditionalGet_eq key p c), h⟩
  | @remove key _ step =>
    simp only [Dictionary.serve, hhas key]
    cases hcontains : s.bucket.map.contains key with
    | true =>
      have hremove := s.bucket.remove_of_present hcontains
      simp only [step?, hremove, Option.some.injEq] at step
      subst step
      rw [hremove]
      exact ⟨rfl, h.remove hs key⟩
    | false =>
      have hremove := s.bucket.remove_of_absent hcontains
      simp only [step?, hremove, Option.some.injEq] at step
      subst step
      rw [hremove]
      exact ⟨rfl, h⟩
  | keys => exact ⟨h.perm_keys hspread, h⟩
  | size =>
    refine ⟨?_, h⟩
    have hlength := (h.perm_keys hspread).length_eq
    rw [Bucket.keys, ShardedMap.length_keys, Assoc.keys, List.length_map] at hlength
    exact congrArg Dictionary.Answer.size hlength
  | update run alone returned =>
    obtain ⟨hanswer, hshows⟩ := h.update h₀ hreach run alone returned
    rw [hanswer]
    exact ⟨rfl, hshows⟩

/-- **Every request is answered**, an update with some fate of its evaluation. -/
theorem Sound.answered (hs : Sound s) (r : Dictionary.Request V) :
    ∃ fate a t, Serves s (r.withFate fate) a t := by
  cases r with
  | put key value =>
    cases value with
    | none => exact ⟨.evaluated, _, _, .put rfl⟩
    | some v => exact ⟨.evaluated, _, _, .put rfl⟩
  | get key => exact ⟨.evaluated, _, _, .get key⟩
  | conditionalGet key p c => exact ⟨.evaluated, _, _, .conditionalGet key p c⟩
  | remove key =>
    have hstep : ∃ t, s.step? (.remove key) = some t := by
      rw [step?]
      split
      · exact ⟨_, rfl⟩
      · exact ⟨_, rfl⟩
    obtain ⟨t, hstep⟩ := hstep
    exact ⟨.evaluated, _, t, .remove hstep⟩
  | keys => exact ⟨.evaluated, _, _, .keys⟩
  | size => exact ⟨.evaluated, _, _, .size⟩
  | update c _ =>
    have hstep : s.step? (.call c) = some (s.call c).1 := rfl
    obtain ⟨steps, t, hrun, hof, -, hdone⟩ := (hs.step (transition_of_step? hstep)).can_settle
    have hcall : (s.call c).1.calls.find? s.nextCall = some { c with stage := .checking } := by
      rw [find?_call, if_pos rfl]
    obtain ⟨result, hresult⟩ := hdone _ _ hcall
    have hwhole : s.run? (.call c :: steps) = some t :=
      (Machine.run?_cons hstep steps).trans hrun
    refine ⟨_, _, t, .update hwhole (fun a ha => ?_) hresult⟩
    obtain ⟨j, rfl | rfl⟩ := hof a ha
    · trivial
    · trivial

/-! ## Sessions -/

/-- **A session with a new bucket is one with a dictionary.** -/
theorem Session.shows {s₀ : BucketSystem V} (h₀ : AtRest s₀)
    (hspread : s₀.bucket.map.Spread hash shards) (hempty : s₀.Shows [])
    {past : Dictionary.Record V} (h : Session s₀ past t) :
    t.Shows (Dictionary.after [] (past.map Prod.fst)) ∧
      ∀ (n : Nat) r a, past[n]? = some (r, a) →
        a.Agrees ((Dictionary.after [] ((past.take n).map Prod.fst)).serve r).1 := by
  induction h with
  | start => exact ⟨hempty, fun n r a hn => by simp at hn⟩
  | @pause past t t' step _ work ih =>
    obtain ⟨hshows, hanswers⟩ := ih
    refine ⟨?_, hanswers⟩
    rw [step?] at work
    split at work
    · cases work
    · obtain ⟨pool, -, rfl⟩ := Option.map_eq_some_iff.mp work
      exact ⟨hshows.quiet, hshows.distinct, hshows.values⟩
  | @serve past t t' r a session serves ih =>
    obtain ⟨hshows, hanswers⟩ := ih
    obtain ⟨steps, hreach⟩ := session.run
    obtain ⟨hagrees, hnext⟩ := serves.shows hshows h₀ hreach (spread_of_run hspread hreach)
    refine ⟨?_, fun n r' a' hn => ?_⟩
    · rw [List.map_append, List.map_singleton, Dictionary.after_snoc]
      exact hnext
    · by_cases hlt : n < past.length
      · rw [List.getElem?_append_left hlt] at hn
        rw [List.take_append_of_le_length (Nat.le_of_lt hlt)]
        exact hanswers n r' a' hn
      · rw [List.getElem?_append_right (Nat.le_of_not_lt hlt)] at hn
        have hlast := (List.getElem?_eq_some_iff.mp hn).1
        rw [List.length_singleton] at hlast
        obtain rfl : n = past.length := by omega
        rw [Nat.sub_self] at hn
        cases hn
        rw [List.take_left]
        exact hagrees

/-- **What the callers of a bucket see**, at the end of a session: every answer is what the
dictionary of the requests before it answers, whatever the hash and the shards are; keys have the
values of the dictionary; and the next request, whichever it is, is answered, and leaves every other
key. -/
structure OneDictionary (past : Dictionary.Record V) (t : BucketSystem V) :
    Prop where
  answers : ∀ (n : Nat) r a, past[n]? = some (r, a) →
    a.Agrees ((Dictionary.after [] ((past.take n).map Prod.fst)).serve r).1
  unobservable : ∀ name hash shards bucket pool past' t',
    Bucket.create name hash shards true = .ok bucket → Session { bucket, pool } past' t' →
    past'.map Prod.fst = past.map Prod.fst →
    ∀ (n : Nat) r a r' a', past[n]? = some (r, a) → past'[n]? = some (r', a') → a.Agrees a'
  values : ∀ key, t.bucket.get key = (Dictionary.after [] (past.map Prod.fst)).value key
  answered : ∀ r : Dictionary.Request V, ∃ fate a t', Serves t (r.withFate fate) a t'
  others : ∀ r a t', Serves t r a t' → ∀ key, r.key? ≠ some key →
    t'.bucket.get key = t.bucket.get key

theorem Session.agrees {bucket : Bucket V} {name : Bytes} {pool : WorkerPool (Product V)}
    {past : Dictionary.Record V}
    (hcreate : Bucket.create name hash shards true = .ok bucket)
    (h : Session { bucket, pool } past t) {n : Nat} {r : Dictionary.Request V}
    {a : Dictionary.Answer V} (hn : past[n]? = some (r, a)) :
    a.Agrees ((Dictionary.after [] ((past.map Prod.fst).take n)).serve r).1 := by
  obtain ⟨hrest, hspread, hempty⟩ := shows_of_create hcreate pool
  rw [← List.map_take]
  exact (h.shows hrest hspread hempty).2 n r a hn

/-- **A bucket is one dictionary to its callers**, with every hash and every number of shards that it
can be made of; and in every state of every run, calls under way or not, what it says of its keys
fits together. -/
theorem refines_dictionary (name : Bytes) (hash : Bytes → Nat) (shards : Nat)
    (pool : WorkerPool (Product V)) :
    ((∃ bucket : Bucket V, Bucket.create name hash shards true = .ok bucket) ↔
      0 < shards ∧ shards < ShardedMap.room) ∧
    ∀ bucket : Bucket V, Bucket.create name hash shards true = .ok bucket →
      (∀ steps t, run? { bucket, pool } steps = some t → t.bucket.Coherent hash shards) ∧
      ∀ past t, Session { bucket, pool } past t →
        t.bucket.Coherent hash shards ∧ OneDictionary past t := by
  refine ⟨Bucket.exists_create_iff, fun bucket hcreate => ?_⟩
  obtain ⟨hrest, hspread, hempty⟩ := shows_of_create hcreate pool
  have hcoherent : ∀ steps t, run? { bucket, pool } steps = some t →
      t.bucket.Coherent hash shards := fun steps t hrun =>
    Bucket.coherent_of_spread (spread_of_run hspread hrun)
  refine ⟨hcoherent, fun past t hsession => ?_⟩
  obtain ⟨steps, hreach⟩ := hsession.run
  obtain ⟨hshows, hanswers⟩ := hsession.shows hrest hspread hempty
  refine ⟨hcoherent steps t hreach, hanswers, ?_, hshows.get_eq,
    (hrest.sound.of_run hreach).answered, ?_⟩
  · intro name' hash' shards' bucket' pool' past' t' hcreate' hsession' hsame n r a r' a' hn hn'
    have hagrees := hsession.agrees hcreate hn
    have hagrees' := hsession'.agrees hcreate' hn'
    have hrequest : r' = r := by
      have hget := congrArg (·[n]?) hsame
      simp only [List.getElem?_map, hn, hn', Option.map_some, Option.some.injEq] at hget
      exact hget
    rw [hsame, hrequest] at hagrees'
    exact hagrees.trans hagrees'.symm
  · intro r a t' hserves key hkey
    have hnext := (hserves.shows hshows hrest hreach (spread_of_run hspread hreach)).2
    rw [hnext.get_eq, hshows.get_eq, Dictionary.value, Dictionary.find?_serve _ r hkey,
      ← Dictionary.value]

/-- The count of a key, up by one. -/
def tallyCall : UpdateCall Value where
  key := [107]
  update := { functionName := [] }
  function := .counter
  timeout := 1000

/-- A null value, a count, and its update. -/
def tally : Dictionary.Record Value :=
  [(.put [107] none, .done (.error (.nullValue [107]))),
    (.put [107] (some (.text [52, 49])), .done (.ok ())),
    (.update tallyCall .evaluated, .done (.ok ()))]

/-- The steps of the update after its start. -/
def tallySteps : List (Step Value) :=
  [.advance 0, .advance 0, .advance 0, .advance 0, .advance 0, .pool (.take 0), .pool (.begin 0),
    .pool (.finish 0), .advance 0, .advance 0, .advance 0, .advance 0]

theorem tally_refined : ∃ bucket t, Bucket.create [] List.length 2 true = .ok bucket ∧
    Session { bucket, pool := idle.pool } tally t ∧ OneDictionary tally t ∧
    t.value? [107] = some (.text [52, 50]) := by
  let map : ShardedMap Value := { hash := List.length, shards := [[], []] }
  let s₀ : BucketSystem Value := { bucket := { name := [], map }, pool := idle.pool }
  have hcreate : Bucket.create [] List.length 2 true = .ok s₀.bucket := rfl
  obtain ⟨-, hsessions⟩ := refines_dictionary [] List.length 2 idle.pool
  let s₁ := s₀.withMap (s₀.bucket.map.put [107] (some (.text [52, 49])))
  let s₂ := (s₁.run? (.call tallyCall :: tallySteps)).getD s₁
  have hnull : Session s₀ (tally.take 1) s₀ := @Session.serve Value _ s₀ [] s₀ s₀ _ _ .start (.put rfl)
  have hput : Session s₀ (tally.take 2) s₁ :=
    @Session.serve Value _ s₀ (tally.take 1) s₀ s₁ _ _ hnull (.put rfl)
  have hinternal : ∀ a ∈ tallySteps, a.Internal := by
    simp [tallySteps, Step.Internal]
  have hrun : s₁.run? (.call tallyCall :: tallySteps) = some s₂ := rfl
  have hfate : Fate.ofActs (actsOf 0 (s₁.trace (.call tallyCall :: tallySteps))) = .evaluated := by
    decide +kernel
  have hupdate : Serves s₁ (.update tallyCall .evaluated) (.done (.ok ())) s₂ :=
    hfate ▸ .update hrun hinternal rfl
  have hsession : Session s₀ tally s₂ :=
    @Session.serve Value _ s₀ (tally.take 2) s₁ s₂ _ _ hput hupdate
  exact ⟨_, s₂, hcreate, hsession, ((hsessions _ hcreate).2 tally s₂ hsession).2, by decide +kernel⟩

end BucketSystem

end Keyspace
