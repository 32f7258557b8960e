import Keyspace.Proofs.CounterText
import Keyspace.Proofs.UpdateCourse

/-!
# Updates of a key are serial

On a key that nobody puts and nobody removes, the updates that store compose: what the key has is
the initial value after each of them in turn, in the order in which they locked the key
(`updates_serialised`). The invariant (`Serial`) ties the three things that move together: the call
that is past its lock came last in that order, what it read is still there, and what is there is the
composition so far.

For counters the composition is a sum, so that the order does not matter.
-/

namespace Keyspace

variable {V : Type}

/-- What an update makes of a value; nothing if its evaluation fails or gives nothing. -/
def UpdateCall.makes? [Storable V] (c : UpdateCall V) (v : V) : Option V :=
  match c.evaluation v with
  | .ok p => p.value?
  | .error _ => none

/-- A counter that is updated stays a text, and reads as the sum. -/
theorem UpdateCall.makes?_counter [Storable V] {text : Bytes → V} (htext : Textual text)
    {c : UpdateCall V} (hf : c.function = .counter) {old : Bytes} {w : V}
    (h : c.makes? (text old) = some w) :
    ∃ new n m, w = text new ∧ Numeral.int64? old = some n ∧ Numeral.int64? new = some m ∧
      m.toInt = n.toInt + c.update.increment := by
  rw [UpdateCall.makes?, UpdateCall.evaluation, hf, htext old c.update .counter, Function.apply] at h
  cases hcount : Function.count c.update old with
  | error f =>
    rw [hcount] at h
    cases h
  | ok new =>
    rw [hcount] at h
    cases h
    obtain ⟨n, m, hn, hm, hsum⟩ := Function.count_eq_ok hcount
    exact ⟨new, n, m, rfl, hn, hm, hsum⟩

/-- The call that an event shows to lock a key. -/
def Event.locks? (key : Bytes) : Event V → Option CallId
  | .act id k .locked => if k = key then some id else none
  | _ => none

/-- **The calls on a key in the order in which they locked it.** -/
def lockOrder (key : Bytes) (trace : List (Event V)) : List CallId :=
  trace.filterMap (Event.locks? key)

/-- Whether an act stores a value. -/
def Act.isStore : Act V → Bool
  | .stored _ => true
  | _ => false

/-- A call whose result is known has stored exactly if it succeeded. -/
theorem Course.stores_iff [Storable V] {acts : List (Act V)} {result : Outcome Unit}
    (h : Course c acts result) : acts.any Act.isStore = true ↔ result = .ok () := by
  cases h with
  | absent => simp [Act.isStore]
  | locked verdict => cases verdict <;> simp [Act.isStore, entering]

/-- Whether a call has stored its value. -/
def stores (trace : List (Event V)) (id : CallId) : Bool :=
  (actsOf id trace).any Act.isStore

/-- **The calls on a key that stored, in the order in which they locked it.** -/
def serialOrder (key : Bytes) (trace : List (Event V)) : List CallId :=
  (lockOrder key trace).filter (stores trace)

theorem Event.locks?_eq_some {key : Bytes} {e : Event V} {id : CallId} (h : e.locks? key = some id) :
    e = .act id key .locked := by
  unfold Event.locks? at h
  split at h
  · simp only [Option.ite_none_right_eq_some, Option.some.injEq] at h
    obtain ⟨rfl, rfl⟩ := h
    rfl
  · cases h

theorem mem_lockOrder {key : Bytes} {trace : List (Event V)} {id : CallId} :
    id ∈ lockOrder key trace ↔ .act id key .locked ∈ trace := by
  rw [lockOrder, List.mem_filterMap]
  constructor
  · rintro ⟨e, he, hlocks⟩
    exact Event.locks?_eq_some hlocks ▸ he
  · intro hmem
    exact ⟨_, hmem, if_pos rfl⟩

theorem lockOrder_snoc (key : Bytes) (past : List (Event V)) (e : Event V) :
    lockOrder key (past ++ [e]) = lockOrder key past ++ (e.locks? key).toList := by
  simp only [lockOrder, List.filterMap_append, List.filterMap_cons, List.filterMap_nil]
  cases e.locks? key <;> rfl

theorem stores_snoc (past : List (Event V)) (e : Event V) (id : CallId) :
    stores (past ++ [e]) id = (stores past id || (e.actOf? id).any Act.isStore) := by
  rw [stores, actsOf_snoc, List.any_append]
  cases e.actOf? id <;> simp [stores]

/-- A step that neither locks the key nor stores leaves the order. -/
theorem serialOrder_snoc_of_other {key : Bytes} {past : List (Event V)} {e : Event V}
    (hlocks : e.locks? key = none)
    (hstores : ∀ id ∈ lockOrder key past, (e.actOf? id).any Act.isStore = false) :
    serialOrder key (past ++ [e]) = serialOrder key past := by
  rw [serialOrder, lockOrder_snoc, hlocks, Option.toList_none, List.append_nil]
  apply List.filter_congr
  intro id hid
  rw [stores_snoc, hstores id hid, Bool.or_false]

/-- A call that locks the key has not stored yet. -/
theorem serialOrder_snoc_locked {key : Bytes} {past : List (Event V)} {id : CallId}
    (hid : stores past id = false) :
    serialOrder key (past ++ [.act id key .locked]) = serialOrder key past := by
  have hsame : ∀ j, stores (past ++ [.act id key .locked]) j = stores past j := by
    intro j
    rw [stores_snoc, Event.actOf?]
    split <;> simp [Act.isStore]
  rw [serialOrder, lockOrder_snoc, Event.locks?, if_pos rfl, Option.toList_some,
    List.filter_append, serialOrder, show stores (past ++ [.act id key .locked]) = stores past from
      funext hsame]
  simp [hid]

/-- The call that came last in the order of the locks comes last when it stores. -/
theorem serialOrder_snoc_stored {key : Bytes} {past : List (Event V)} {id : CallId} {w : V}
    {before : List CallId} (horder : lockOrder key past = before ++ [id])
    (hnodup : (lockOrder key past).Nodup) (hid : stores past id = false) :
    serialOrder key (past ++ [.act id key (.stored w)]) = serialOrder key past ++ [id] := by
  have hstored : stores (past ++ [.act id key (.stored w)]) id = true := by
    rw [stores_snoc, Event.actOf?, if_pos rfl]
    simp [Act.isStore]
  have hothers : ∀ j ∈ before, stores (past ++ [.act id key (.stored w)]) j = stores past j := by
    intro j hj
    have hne : id ≠ j := by
      rintro rfl
      rw [horder] at hnodup
      exact (List.nodup_append.mp hnodup).2.2 id hj id (List.mem_singleton_self id) rfl
    rw [stores_snoc, Event.actOf?, if_neg hne]
    simp
  have hlocks : lockOrder key (past ++ [.act id key (.stored w)]) = before ++ [id] := by
    rw [lockOrder_snoc, horder]
    exact List.append_nil _
  rw [serialOrder, serialOrder, hlocks, horder, List.filter_append, List.filter_append,
    List.filter_congr hothers]
  simp [hstored, hid]

namespace BucketSystem

variable {s s' t : BucketSystem V} {id : CallId} {c : UpdateCall V}
  {past : List (Event V)} {key : Bytes} {v₀ : Option V}

/-- What the update of a call adds to a counter. -/
def increment (s : BucketSystem V) (id : CallId) : Int :=
  ((s.calls.find? id).map fun c => c.update.increment).getD 0

/-- What the updates of calls add to a counter altogether. -/
def increments (s : BucketSystem V) : List CallId → Int
  | [] => 0
  | id :: rest => s.increment id + increments s rest

/-- The sum does not depend on the order of the calls. -/
theorem increments_perm {ids ids' : List CallId} (h : ids.Perm ids') :
    s.increments ids = s.increments ids' := by
  induction h with
  | nil => rfl
  | cons id _ ih => rw [increments, increments, ih]
  | swap i j rest =>
    simp only [increments]
    omega
  | trans _ _ ih ih' => exact ih.trans ih'

variable [Storable V]

/-- What the update of a call makes of a value. -/
def applyCall (s : BucketSystem V) (v : V) (id : CallId) : Option V :=
  (s.calls.find? id).bind fun c => c.makes? v

/-- **The composition of updates**, from the first call to the last. -/
def applyAll (s : BucketSystem V) (ids : List CallId) (v : V) : Option V :=
  ids.foldlM s.applyCall v

theorem applyAll_congr {ids : List CallId}
    (h : ∀ id ∈ ids, ∀ v, s'.applyCall v id = s.applyCall v id) (v : V) :
    s'.applyAll ids v = s.applyAll ids v := by
  induction ids generalizing v with
  | nil => rfl
  | cons id rest ih =>
    simp only [applyAll, List.foldlM_cons, h id List.mem_cons_self] at ih ⊢
    cases s.applyCall v id with
    | none => rfl
    | some w => exact ih (fun id hid => h id (List.mem_cons_of_mem _ hid)) w

/-- **The updates of a key are serial so far.** -/
structure Serial (key : Bytes) (v₀ : Option V) (past : List (Event V)) (s : BucketSystem V) :
    Prop where
  distinct : (lockOrder key past).Nodup
  last : ∀ id c, s.calls.find? id = some c → c.key = key → c.stage.Locked →
    ∃ before, lockOrder key past = before ++ [id]
  carried : ∀ id c v, s.calls.find? id = some c → c.key = key → c.stage.Carries →
    .read (some v) ∈ actsOf id past → s.value? key = some v
  composed : ∀ v, v₀ = some v →
    ∃ w, s.applyAll (serialOrder key past) v = some w ∧ s.value? key = some w
  absent : v₀ = none → s.value? key = none ∧ serialOrder key past = []

/-- The calls that locked a key are known. -/
theorem Recorded.of_mem_lockOrder (h : Recorded past s) (hid : id ∈ lockOrder key past) :
    ∃ c, s.calls.find? id = some c ∧ c.key = key :=
  h.keyed id key .locked (mem_lockOrder.mp hid)

/-- A step leaves what the calls compose to that have stored so far. -/
theorem Recorded.applyAll_eq {e : Event V} (h : Recorded past s) (hs : Sound s)
    (htrans : Transition s e s') (key : Bytes) (v : V) :
    s'.applyAll (serialOrder key past) v = s.applyAll (serialOrder key past) v := by
  refine applyAll_congr (fun id hid v => ?_) v
  obtain ⟨c, hc, _⟩ := h.of_mem_lockOrder (List.mem_filter.mp hid).1
  obtain ⟨stage, hc'⟩ := htrans.find?_eq_some hs hc
  simp only [applyCall, hc, hc']
  rfl

/-- A step that does not write the key is no store of a call that locked it. -/
theorem Recorded.isStore_eq_false {e : Event V} (h : Recorded past s) (htrans : Transition s e s')
    (hid : id ∈ lockOrder key past) (hwrite : e.write? key = none) :
    (e.actOf? id).any Act.isStore = false := by
  obtain ⟨c, hc, hkey⟩ := h.of_mem_lockOrder hid
  cases htrans with
  | @turned j d a s' hd turn =>
    rw [Event.actOf?]
    split
    · next hj =>
      subst hj
      rw [hc] at hd
      cases hd
      cases a with
      | stored w =>
        rw [Event.write?, if_pos hkey] at hwrite
        cases hwrite
      | _ => rfl
    · rfl
  | _ => rfl

/-- A step that neither locks nor writes the key leaves the updates serial. -/
theorem Serial.passive {e : Event V} (h : Serial key v₀ past s) (hs : Sound s)
    (hrec : Recorded past s) (htrans : Transition s e s') (hlocks : e.locks? key = none)
    (hwrite : e.write? key = none) : Serial key v₀ (past ++ [e]) s' := by
  have hvalue : s'.value? key = s.value? key := by
    rw [htrans.value? hs, Event.after, hwrite, Option.getD_none]
  have horder : lockOrder key (past ++ [e]) = lockOrder key past := by
    rw [lockOrder_snoc, hlocks, Option.toList_none, List.append_nil]
  have hserial : serialOrder key (past ++ [e]) = serialOrder key past :=
    serialOrder_snoc_of_other hlocks fun id hid => hrec.isStore_eq_false htrans hid hwrite
  refine ⟨?_, ?_, ?_, ?_, ?_⟩
  · rw [horder]
    exact h.distinct
  · intro id d hd hkey hlocked
    rcases htrans.locked hd hlocked with rfl | ⟨c, hc, hckey, hbefore⟩
    · rw [hkey, Event.locks?, if_pos rfl] at hlocks
      cases hlocks
    · rw [horder]
      exact h.last id c hc (hckey.trans hkey) hbefore
  · intro id d v hd hkey hcarries hread
    rw [hvalue]
    obtain ⟨k, hmem⟩ := mem_actsOf.mp hread
    rcases htrans.carries hd hcarries with ⟨v', rfl, hseen⟩ | ⟨⟨c, hc, hckey, hbefore⟩, hother⟩
    · -- the call just read: it has shown no other value
      rcases List.mem_append.mp hmem with hold | hnew
      · exact absurd (mem_actsOf.mpr ⟨k, hold⟩) (hrec.not_mem_of_read htrans _)
      · cases List.mem_singleton.mp hnew
        exact hkey ▸ hseen
    · rcases List.mem_append.mp hmem with hold | hnew
      · exact h.carried id c v hc (hckey.trans hkey) hbefore (mem_actsOf.mpr ⟨k, hold⟩)
      · exact absurd (List.mem_singleton.mp hnew).symm (hother k _)
  · intro v hv
    rw [hserial, hvalue, hrec.applyAll_eq hs htrans]
    exact h.composed v hv
  · intro hv
    rw [hserial, hvalue]
    exact h.absent hv

/-- A call that locks the key comes last in the order. -/
theorem Serial.locked (h : Serial key v₀ past s) (hs : Sound s) (hrec : Recorded past s)
    (htrans : Transition s (.act id key .locked) s') :
    Serial key v₀ (past ++ [.act id key .locked]) s' := by
  have hs' : Sound s' := hs.step htrans
  obtain ⟨hacts, d, hd, hdkey, hlocked, hfree⟩ := hrec.of_locked htrans
  have hvalue : s'.value? key = s.value? key := htrans.value? hs key
  have hnew : id ∉ lockOrder key past := by
    intro hmem
    have hact := mem_actsOf.mpr ⟨key, mem_lockOrder.mp hmem⟩
    rw [hacts] at hact
    simp at hact
  have hstores : stores past id = false := by
    rw [stores, hacts]
    rfl
  have horder : lockOrder key (past ++ [.act id key .locked]) = lockOrder key past ++ [id] := by
    rw [lockOrder_snoc, Event.locks?, if_pos rfl, Option.toList_some]
  have hserial : serialOrder key (past ++ [.act id key .locked]) = serialOrder key past :=
    serialOrder_snoc_locked hstores
  refine ⟨?_, ?_, ?_, ?_, ?_⟩
  · rw [horder]
    refine List.nodup_append.mpr ⟨h.distinct, by simp, ?_⟩
    intro i hi j hj
    rw [List.mem_singleton.mp hj]
    exact fun heq => hnew (heq ▸ hi)
  · intro j c hc hkey hl
    have hj : j = id := hs'.alone hc hd (hkey.trans hdkey.symm) hl hlocked
    exact ⟨lockOrder key past, by rw [horder, hj]⟩
  · intro j c v hc hkey hcarries
    exact absurd hcarries (hs'.not_carries hd hlocked hfree hc (hkey.trans hdkey.symm))
  · intro v hv
    rw [hserial, hvalue, hrec.applyAll_eq hs htrans]
    exact h.composed v hv
  · intro hv
    rw [hserial, hvalue]
    exact h.absent hv

/-- A call that stores its value is composed with the updates before it. -/
theorem Serial.stored {w : V} (h : Serial key v₀ past s) (hs : Sound s)
    (hrec : Recorded past s) (htrans : Transition s (.act id key (.stored w)) s') :
    Serial key v₀ (past ++ [.act id key (.stored w)]) s' := by
  have hs' : Sound s' := hs.step htrans
  obtain ⟨c, v, hc, hkey, hcarries, heval, hacts⟩ := hrec.of_stored htrans
  obtain ⟨_, d, hd, hdkey, hlocked, hfree⟩ := htrans.stored
  have hvalue : s'.value? key = some w := by
    rw [htrans.value? hs, Event.after, Event.write?, if_pos rfl, Option.getD_some]
  have hread : s.value? key = some v := h.carried id c v hc hkey hcarries (by rw [hacts]; simp)
  obtain ⟨before, horder⟩ := h.last id c hc hkey hcarries.locked
  have hstores : stores past id = false := by
    rw [stores, hacts]
    rfl
  have hlocks : lockOrder key (past ++ [.act id key (.stored w)]) = lockOrder key past := by
    rw [lockOrder_snoc]
    exact List.append_nil _
  have hserial : serialOrder key (past ++ [.act id key (.stored w)]) =
      serialOrder key past ++ [id] :=
    serialOrder_snoc_stored horder h.distinct hstores
  refine ⟨?_, ?_, ?_, ?_, ?_⟩
  · rw [hlocks]
    exact h.distinct
  · intro j e he hekey hl
    have hj : j = id := hs'.alone he hd (hekey.trans hdkey.symm) hl hlocked
    exact ⟨before, by rw [hlocks, hj, horder]⟩
  · intro j e u he hekey hcar
    exact absurd hcar (hs'.not_carries hd hlocked hfree he (hekey.trans hdkey.symm))
  · intro v₁ hv
    obtain ⟨u, hu, huvalue⟩ := h.composed v₁ hv
    rw [hread] at huvalue
    cases huvalue
    obtain ⟨stage, hfound⟩ := htrans.find?_eq_some hs hc
    have hcall : s'.applyCall v id = some w := by
      have hsame : UpdateCall.evaluation { c with stage } v = c.evaluation v := rfl
      simp only [applyCall, hfound, Option.bind_some, UpdateCall.makes?, hsame, heval]
      rfl
    have hprefix := hrec.applyAll_eq hs htrans key v₁
    rw [hu] at hprefix
    simp only [applyAll] at hprefix
    refine ⟨w, ?_, hvalue⟩
    rw [hserial, applyAll, List.foldlM_append, hprefix]
    simp only [Option.bind_eq_bind, Option.bind_some, List.foldlM_cons, hcall, List.foldlM_nil]
    rfl
  · intro hv
    rw [(h.absent hv).1] at hread
    cases hread

/-- **A step keeps the updates of a key serial** unless it puts or removes the key. -/
theorem Serial.step {e : Event V} (h : Serial key v₀ past s) (hs : Sound s) (hrec : Recorded past s)
    (htrans : Transition s e s') (hput : ∀ v, e ≠ .put key v) (hremove : e ≠ .removed key true) :
    Serial key v₀ (past ++ [e]) s' := by
  cases hlocks : e.locks? key with
  | some id =>
    have heq := Event.locks?_eq_some hlocks
    subst heq
    exact h.locked hs hrec htrans
  | none =>
    cases hwrite : e.write? key with
    | none => exact h.passive hs hrec htrans hlocks hwrite
    | some v =>
      rcases Event.write?_eq_some hwrite with ⟨x, rfl, _⟩ | ⟨id, x, rfl, _⟩ | ⟨rfl, _⟩
      · exact absurd rfl (hput x)
      · exact h.stored hs hrec htrans
      · exact absurd rfl hremove

theorem AtRest.serial (h : AtRest s) (key : Bytes) : Serial key (s.value? key) [] s where
  distinct := List.nodup_nil
  last id c hc := by
    rw [h.calls] at hc
    cases hc
  carried id c v hc := by
    rw [h.calls] at hc
    cases hc
  composed v hv := ⟨v, rfl, hv⟩
  absent hv := ⟨hv, rfl⟩

/-- **The updates of a key that nobody puts and nobody removes are serial in every run.** -/
theorem serial_of_run (h : AtRest s) {steps : List (Step V)} (hrun : s.run? steps = some t)
    (hput : ∀ v, .put key v ∉ s.trace steps) (hremove : .removed key true ∉ s.trace steps) :
    Serial key (s.value? key) (s.trace steps) t := by
  refine h.run_induction
    (P := fun past u => (∀ v, .put key v ∉ past) → .removed key true ∉ past →
      Serial key (s.value? key) past u)
    (fun _ _ => h.serial key) ?_ hrun hput hremove
  intro past u e u' hu hrec hserial htrans hput hremove
  have hbefore : Serial key (s.value? key) past u := by
    refine hserial ?_ ?_
    · intro v hv
      exact hput v (List.mem_append_left _ hv)
    · intro hv
      exact hremove (List.mem_append_left _ hv)
  refine hbefore.step hu hrec htrans ?_ ?_
  · rintro v rfl
    exact hput v (List.mem_append_right _ (List.mem_singleton_self _))
  · rintro rfl
    exact hremove (List.mem_append_right _ (List.mem_singleton_self _))

/-! ## The composition -/

/-- **Updates of a counter add up.** -/
theorem applyAll_counter {text : Bytes → V} (htext : Textual text) {ids : List CallId}
    {old : Bytes} {n : Int64} {w : V} (hn : Numeral.int64? old = some n)
    (hcounter : ∀ id ∈ ids, ∀ c, s.calls.find? id = some c → c.function = .counter)
    (h : s.applyAll ids (text old) = some w) :
    ∃ new m, w = text new ∧ Numeral.int64? new = some m ∧
      m.toInt = n.toInt + s.increments ids := by
  induction ids generalizing old n with
  | nil =>
    cases h
    exact ⟨old, n, rfl, hn, by simp [increments]⟩
  | cons id rest ih =>
    simp only [applyAll, List.foldlM_cons] at h ih
    obtain ⟨u, hu, hrest⟩ := Option.bind_eq_some_iff.mp h
    obtain ⟨c, hc, happly⟩ := Option.bind_eq_some_iff.mp hu
    obtain ⟨new, n', k, rfl, hn', hk, hsum⟩ :=
      UpdateCall.makes?_counter htext (hcounter id List.mem_cons_self c hc) happly
    rw [hn] at hn'
    cases hn'
    obtain ⟨last, m, hw, hm, hsum'⟩ :=
      ih hk (fun j hj => hcounter j (List.mem_cons_of_mem _ hj)) hrest
    refine ⟨last, m, hw, hm, ?_⟩
    have hincrement : s.increment id = c.update.increment := by
      rw [increment, hc, Option.map_some, Option.getD_some]
    rw [increments, hincrement, hsum', hsum]
    omega

/-- A call that has stored locked its key before. -/
theorem Shown.locked_of_store {pool : WorkerPool (Product V)} {acts : List (Act V)}
    (h : Shown pool c acts) (hstore : acts.any Act.isStore = true) : .locked ∈ acts := by
  unfold Shown at h
  cases hstage : c.stage with
  | checking | claiming | locking _ =>
    simp only [hstage] at h
    subst h
    cases hstore
  | reading _ | submitting _ _ =>
    simp only [hstage] at h
    simp [h, entering]
  | awaiting _ task =>
    simp only [hstage] at h
    obtain ⟨v, t, hacts, _⟩ := h
    simp [hacts, entering]
  | storing _ _ | freeing _ _ | dropping _ _ =>
    simp only [hstage] at h
    obtain ⟨_, _, hacts⟩ := h
    simp [hacts, entering]
  | done result =>
    simp only [hstage] at h
    cases h with
    | absent => cases hstore
    | locked _ => simp [entering]

/-- **What it means that the updates of a key are serial**, for a run from `s` to `t`: a call that has
a result stored if it succeeded, and only then; those that stored did so one after the other, each
on what the one before it left, in the order in which they locked the key; and counters, where the
values have texts, are the sum of their increments, in whatever order they are summed. -/
structure Serialised (key : Bytes) (s : BucketSystem V) (trace : List (Event V)) (t : BucketSystem V) :
    Prop where
  ordered : (lockOrder key trace).Nodup
  succeeded : ∀ id result, t.result? id = some result → (stores trace id = true ↔ result = .ok ())
  members : ∀ id, id ∈ serialOrder key trace ↔
    (∃ c, t.calls.find? id = some c ∧ c.key = key) ∧ stores trace id = true
  absent : s.value? key = none → t.value? key = none ∧ serialOrder key trace = []
  composed : ∀ v, s.value? key = some v →
    ∃ w, t.applyAll (serialOrder key trace) v = some w ∧ t.value? key = some w
  summed : ∀ text : Bytes → V, Textual text → ∀ old n, s.value? key = some (text old) →
    Numeral.int64? old = some n →
    (∀ id ∈ serialOrder key trace, ∀ c, t.calls.find? id = some c → c.function = .counter) →
    ∃ new m, t.value? key = some (text new) ∧ Numeral.int64? new = some m ∧
      ∀ ids : List CallId, ids.Nodup → (∀ id, id ∈ ids ↔ id ∈ serialOrder key trace) →
        m.toInt = n.toInt + t.increments ids

/-- **Concurrent updates of a key are serialised and none is lost**, in every run from a bucket at
rest that neither puts nor removes the key, whatever else it does. -/
theorem updates_serialised (h : AtRest s) {steps : List (Step V)} (hrun : s.run? steps = some t)
    (hput : ∀ v, .put key v ∉ s.trace steps) (hremove : .removed key true ∉ s.trace steps) :
    Serialised key s (s.trace steps) t := by
  have hserial := serial_of_run h hrun hput hremove
  have hrec := recorded_of_run h hrun
  refine ⟨hserial.distinct, fun id result hresult => ?_, fun id => ?_, hserial.absent,
    hserial.composed, fun text htext old n hold hn hcounter => ?_⟩
  · obtain ⟨c, hc, hstage⟩ := result?_eq_some_iff.mp hresult
    have hshown := hrec.shown id c hc
    simp only [Shown, hstage] at hshown
    exact Course.stores_iff hshown
  · constructor
    · intro hid
      obtain ⟨hlock, hstores⟩ := List.mem_filter.mp hid
      exact ⟨hrec.of_mem_lockOrder hlock, hstores⟩
    · rintro ⟨⟨c, hc, hkey⟩, hstores⟩
      obtain ⟨k, hact⟩ := mem_actsOf.mp ((hrec.shown id c hc).locked_of_store hstores)
      obtain ⟨d, hd, hdkey⟩ := hrec.keyed id k .locked hact
      rw [hc] at hd
      cases hd
      rw [hkey] at hdkey
      exact List.mem_filter.mpr ⟨mem_lockOrder.mpr (hdkey ▸ hact), hstores⟩
  · obtain ⟨w, hw, hvalue⟩ := hserial.composed _ hold
    obtain ⟨new, m, rfl, hm, hsum⟩ := applyAll_counter htext hn hcounter hw
    refine ⟨new, m, hvalue, hm, ?_⟩
    intro ids hnodup hids
    have hperm : ids.Perm (serialOrder key (s.trace steps)) :=
      (List.perm_ext_iff_of_nodup hnodup (hserial.distinct.filter _)).mpr hids
    rw [hsum, increments_perm hperm]

/-- A bucket with a counter that reads one. -/
def counting : BucketSystem Value :=
  idle.withMap (idle.bucket.map.put [107] (some (.text [49])))

theorem atRest_counting : AtRest counting :=
  atRest_idle.withPut [107] (.text [49])

/-- The update of the counter by one. -/
def countCall : UpdateCall Value where
  key := [107]
  update := { functionName := [] }
  function := .counter
  timeout := 1000

/-- Two updates of the counter side by side; the second call locks the key first. -/
def countSteps : List (Step Value) :=
  [.call countCall, .call countCall, .advance 0, .advance 1, .advance 0, .advance 1, .advance 1,
    .advance 1, .advance 1, .pool (.take 0), .pool (.begin 0), .pool (.finish 0), .advance 1,
    .advance 1, .advance 1, .advance 0, .advance 0, .advance 0, .pool (.take 0), .pool (.begin 0),
    .pool (.finish 0), .advance 0, .advance 0, .advance 1, .advance 0, .advance 0]

/-- Both count. -/
theorem counting_serialised : ∃ t, counting.run? countSteps = some t ∧
    t.value? [107] = some (.text [51]) ∧ lockOrder [107] (counting.trace countSteps) = [1, 0] ∧
    Serialised [107] counting (counting.trace countSteps) t := by
  have hrun : (counting.run? countSteps).any (fun t => t.value? [107] = some (.text [51])) = true := by
    decide +kernel
  obtain ⟨t, ht, hvalue⟩ := (Option.any_eq_true _ _).mp hrun
  refine ⟨t, ht, of_decide_eq_true hvalue, by decide +kernel, ?_⟩
  refine updates_serialised atRest_counting ht (fun v hv => ?_) fun hv => ?_
  · have hputs : (counting.trace countSteps).any (fun | .put _ _ => true | _ => false) = false := by
      decide +kernel
    exact absurd (List.any_eq_true.mpr ⟨_, hv, rfl⟩) (by rw [hputs]; decide)
  · have hremoves : (counting.trace countSteps).any (fun | .removed _ _ => true | _ => false) =
        false := by
      decide +kernel
    exact absurd (List.any_eq_true.mpr ⟨_, hv, rfl⟩) (by rw [hremoves]; decide)

end BucketSystem

end Keyspace
