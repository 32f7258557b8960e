import Keyspace.Proofs.UpdateProgress
import Keyspace.Proofs.UpdateWrites

/-!
# The course of an update

From its start to its result a call shows one of seven courses (`Course`): the key was absent at the
check; or the call claimed and locked its key, came to a verdict (`Verdict`), and gave the lock and
the claim back whatever the verdict was. One verdict out of six stores a value, and that one alone
is a success. `Recorded` says what a call has shown at each stage; every step keeps it, so that the
trace of a call that is done is the course that belongs to its result.
-/

namespace Keyspace

variable {V : Type}

/-- What the evaluation of an update gives on a value. -/
def UpdateCall.evaluation [Storable V] (c : UpdateCall V) (v : V) : Outcome (Product V) :=
  (Storable.evaluate v c.update c.function).outcome

/-- The act that an event shows of a call. -/
def Event.actOf? (id : CallId) : Event V → Option (Act V)
  | .act j _ a => if j = id then some a else none
  | _ => none

/-- The acts of a call in a trace, in order. -/
def actsOf (id : CallId) (trace : List (Event V)) : List (Act V) :=
  trace.filterMap (Event.actOf? id)

theorem mem_actsOf {id : CallId} {trace : List (Event V)} {a : Act V} :
    a ∈ actsOf id trace ↔ ∃ key, .act id key a ∈ trace := by
  rw [actsOf, List.mem_filterMap]
  constructor
  · rintro ⟨e, he, hact⟩
    cases e with
    | act j key b =>
      simp only [Event.actOf?, Option.ite_none_right_eq_some, Option.some.injEq] at hact
      obtain ⟨rfl, rfl⟩ := hact
      exact ⟨key, he⟩
    | _ => cases hact
  · rintro ⟨key, hmem⟩
    exact ⟨_, hmem, if_pos rfl⟩

theorem actsOf_snoc (id : CallId) (past : List (Event V)) (e : Event V) :
    actsOf id (past ++ [e]) = actsOf id past ++ (e.actOf? id).toList := by
  simp only [actsOf, List.filterMap_append, List.filterMap_cons, List.filterMap_nil]
  cases e.actOf? id <;> rfl

/-- An event that is not an act of a call adds nothing to what the call has shown. -/
theorem actsOf_snoc_of_none {id : CallId} {e : Event V} (h : e.actOf? id = none)
    (past : List (Event V)) : actsOf id (past ++ [e]) = actsOf id past := by
  rw [actsOf_snoc, h, Option.toList_none, List.append_nil]

/-- **What a call comes to under its lock**, and the result that it has then. -/
inductive Verdict [Storable V] (c : UpdateCall V) : List (Act V) → Outcome Unit → Prop
  | missing : Verdict c [.read none] (.error (.keyMissing c.key))
  | refused (v : V) {f : Failure} (pool : f = .poolStopped ∨ f = .poolFull) :
    Verdict c [.read (some v), .submitted (some f)] (.error (.updateUnscheduled f.message))
  | failed (v : V) {f : Failure} (evaluation : c.evaluation v = .error f) :
    Verdict c [.read (some v), .submitted none, .evaluated (.error f)]
      (.error (.updateFailed f.message))
  | nothing (v : V) {p : Product V} (evaluation : c.evaluation v = .ok p)
    (none : p.value? = none) :
    Verdict c [.read (some v), .submitted .none, .evaluated (.ok .none)] (.error .updateExpired)
  | expired (v : V) :
    Verdict c [.read (some v), .submitted none, .expired] (.error .updateExpired)
  | stored (v : V) {w : V} (evaluation : c.evaluation v = .ok (.value (some w))) :
    Verdict c [.read (some v), .submitted none, .evaluated (.ok (some w)), .stored w] (.ok ())

/-- The acts by which a call comes to its lock. -/
def entering : List (Act V) :=
  [.checked true, .claimed, .locked]

/-- **The courses of a call**, and the result at the end of each. -/
inductive Course [Storable V] (c : UpdateCall V) : List (Act V) → Outcome Unit → Prop
  | absent : Course c [.checked false] (.error (.keyMissing c.key))
  | locked {acts : List (Act V)} {result : Outcome Unit} (verdict : Verdict c acts result) :
    Course c (entering ++ acts ++ [.freed, .returned result]) result

/-- **What a result says of the acts before it**: a success that a value was stored; a failure that
none was, and its code which act went wrong. -/
def Reports (acts : List (Act V)) : Outcome Unit → Prop
  | .ok () => ∃ v w, Act.read (some v) ∈ acts ∧ Act.submitted none ∈ acts ∧
      Act.evaluated (.ok (some w)) ∈ acts ∧ Act.stored w ∈ acts
  | .error f => (∀ w, Act.stored w ∉ acts) ∧
      match f.code? with
      | some .notFound => Act.checked false ∈ acts ∨ Act.read none ∈ acts
      | some .internalError => ∃ g, Act.submitted (some g) ∈ acts
      | some .updateCancelled => Act.expired ∈ acts ∨ Act.evaluated (.ok none) ∈ acts ∨
          ∃ g, Act.evaluated (.error g) ∈ acts
      | none => False

theorem Course.reports [Storable V] {c : UpdateCall V} {acts : List (Act V)} {result : Outcome Unit}
    (h : Course c acts result) : Reports acts result := by
  cases h with
  | absent => exact ⟨by simp, .inl (by simp)⟩
  | locked verdict =>
    cases verdict with
    | missing => exact ⟨by simp [entering], .inr (by simp)⟩
    | @refused v f _ => exact ⟨by simp [entering], f, by simp⟩
    | @failed v f _ => exact ⟨by simp [entering], .inr (.inr ⟨f, by simp⟩)⟩
    | nothing v _ _ => exact ⟨by simp [entering], .inr (.inl (by simp))⟩
    | expired v => exact ⟨by simp [entering], .inl (by simp)⟩
    | @stored v w _ => exact ⟨v, w, by simp, by simp, by simp, by simp⟩

/-- A verdict does not depend on the stage at which the call stands. -/
theorem Verdict.restage [Storable V] {c : UpdateCall V} {acts : List (Act V)} {result : Outcome Unit}
    (h : Verdict c acts result) (stage : UpdateStage V) : Verdict { c with stage } acts result := by
  cases h with
  | missing => exact .missing (c := { c with stage })
  | refused v pool => exact .refused v pool
  | failed v evaluation => exact .failed v evaluation
  | nothing v evaluation none => exact .nothing v evaluation none
  | expired v => exact .expired v
  | stored v evaluation => exact .stored v evaluation

theorem Course.restage [Storable V] {c : UpdateCall V} {acts : List (Act V)} {result : Outcome Unit}
    (h : Course c acts result) (stage : UpdateStage V) : Course { c with stage } acts result := by
  cases h with
  | absent => exact .absent (c := { c with stage })
  | locked verdict => exact .locked (verdict.restage stage)

namespace BucketSystem

variable [Storable V] {s s' t : BucketSystem V} {id : CallId} {c : UpdateCall V}
  {past : List (Event V)}

/-- **What a call has shown when it stands at its stage.** A call that awaits a task submitted the
evaluation of the value that it read. -/
def Shown (pool : WorkerPool (Product V)) (c : UpdateCall V) (acts : List (Act V)) : Prop :=
  match c.stage with
  | .checking => acts = []
  | .claiming => acts = [.checked true]
  | .locking _ => acts = [.checked true, .claimed]
  | .reading _ => acts = entering
  | .submitting _ v => acts = entering ++ [.read (some v)]
  | .awaiting _ task => ∃ v t, acts = entering ++ [.read (some v), .submitted none] ∧
      pool.tasks[task]? = some t ∧ t.work = Storable.evaluate v c.update c.function
  | .storing _ w => ∃ v, c.evaluation v = .ok (.value (some w)) ∧
      acts = entering ++ [.read (some v), .submitted none, .evaluated (.ok (some w))]
  | .freeing _ result => ∃ verdict, Verdict c verdict result ∧ acts = entering ++ verdict
  | .dropping _ result => ∃ verdict, Verdict c verdict result ∧
      acts = entering ++ verdict ++ [.freed]
  | .done result => Course c acts result

/-- **The trace records the calls**: which call each is, and what it has shown. -/
structure Recorded (past : List (Event V)) (s : BucketSystem V) : Prop where
  shown : ∀ id c, s.calls.find? id = some c → Shown s.pool c (actsOf id past)
  started : ∀ id c, s.calls.find? id = some c →
    ∃ start, .called id start ∈ past ∧ c = { start with stage := c.stage }
  known : ∀ id start, .called id start ∈ past → ∃ c, s.calls.find? id = some c
  keyed : ∀ id key a, .act id key a ∈ past → ∃ c, s.calls.find? id = some c ∧ c.key = key

/-- A call that nobody started yet has shown nothing. -/
theorem Recorded.actsOf_eq_nil (h : Recorded past s) (hnone : s.calls.find? id = none) :
    actsOf id past = [] := by
  apply List.filterMap_eq_nil_iff.mpr
  intro e he
  cases e with
  | act j key a =>
    apply if_neg
    intro hj
    obtain ⟨c, hc, _⟩ := h.keyed j key a he
    rw [hj, hnone] at hc
    cases hc
  | _ => rfl

/-- What a call has shown it has shown as long as the pool keeps the task that it awaits. -/
theorem Shown.keeps {pool pool' : WorkerPool (Product V)} {acts : List (Act V)} (h : Shown pool c acts)
    (hkeeps : ∀ task, c.stage.task? = some task → ∃ t, pool.tasks[task]? = some t ∧ t.Faithful ∧
      pool.Keeps pool' task) : Shown pool' c acts := by
  unfold Shown at h ⊢
  cases hstage : c.stage with
  | awaiting claim task =>
    simp only [hstage] at h ⊢
    obtain ⟨v, t, hacts, ht, hwork⟩ := h
    obtain ⟨t₀, ht₀, hfaithful, hk⟩ := hkeeps task (by rw [hstage]; rfl)
    rw [ht] at ht₀
    cases ht₀
    obtain ⟨t', ht', hwork', _⟩ := hk t ht hfaithful
    exact ⟨v, t', hacts, ht', hwork'.trans hwork⟩
  | _ => simpa only [hstage] using h

/-- What the await of a call finds is what the evaluation of the value that it read gives. -/
theorem Shown.awaited {acts : List (Act V)} (h : Sound s) (hc : s.calls.find? id = some c)
    (hshown : Shown s.pool c acts) {claim : ClaimId} {task : TaskId}
    (hstage : c.stage = .awaiting claim task) {o : Outcome (Product V)} {pool : WorkerPool (Product V)}
    (hawait : s.pool.await task = (o.map some, pool)) :
    ∃ v, acts = entering ++ [.read (some v), .submitted none] ∧ c.evaluation v = o := by
  simp only [Shown, hstage] at hshown
  obtain ⟨v, t, hacts, ht, hwork⟩ := hshown
  obtain ⟨t₀, ht₀, hfaithful⟩ := h.handled.faithful id c task hc (by rw [hstage]; rfl)
  rw [ht] at ht₀
  cases ht₀
  refine ⟨v, hacts, ?_⟩
  rw [UpdateCall.evaluation, ← hwork]
  rcases WorkerPool.await_of_faithful ht hfaithful with hunfinished | ⟨_, hfinished⟩
  · rw [hunfinished] at hawait
    cases o <;> cases hawait
  · rw [hfinished] at hawait
    have hmap : t.work.outcome.map some = o.map some := congrArg Prod.fst hawait
    generalize t.work.outcome = found at hmap
    cases found <;> cases o <;> cases hmap <;> rfl

/-- **A turn adds its act to what the call has shown.** -/
theorem Shown.turn {a : Act V} {acts : List (Act V)} (h : Sound s) (hc : s.calls.find? id = some c)
    (hshown : Shown s.pool c acts) (turn : Turn s id c a s') :
    ∃ stage, s'.calls = s.calls.put id { c with stage } ∧
      Shown s'.pool { c with stage } (acts ++ [a]) := by
  cases turn with
  | present stage _ | claim stage | lock stage _ | read stage _ =>
    simp only [Shown, stage] at hshown
    subst hshown
    exact ⟨_, rfl, rfl⟩
  | absent stage _ =>
    simp only [Shown, stage] at hshown
    subst hshown
    exact ⟨_, rfl, Course.absent⟩
  | missing stage _ =>
    simp only [Shown, stage] at hshown
    subst hshown
    exact ⟨_, rfl, _, Verdict.missing, rfl⟩
  | @accepted claim v pool task stage accepted =>
    simp only [Shown, stage] at hshown
    subst hshown
    obtain ⟨rfl, htasks⟩ := WorkerPool.submit_eq_ok accepted
    refine ⟨_, rfl, v, { work := Storable.evaluate v c.update c.function }, rfl, ?_, rfl⟩
    rw [move_pool, htasks, List.getElem?_concat_length]
  | @refused claim v f stage refused =>
    simp only [Shown, stage] at hshown
    subst hshown
    have hpool : f = .poolStopped ∨ f = .poolFull := by
      rcases WorkerPool.submit_eq_error refused with ⟨_, hf⟩ | ⟨_, _, hf⟩
      · exact .inl hf
      · exact .inr hf
    exact ⟨_, rfl, _, Verdict.refused v hpool, rfl⟩
  | @gave claim task w pool stage result =>
    obtain ⟨v, rfl, heval⟩ := hshown.awaited h hc stage (o := .ok (.value (some w))) result
    exact ⟨_, rfl, v, heval, rfl⟩
  | @gaveNothing claim task p pool stage result nothing =>
    obtain ⟨v, rfl, heval⟩ := hshown.awaited h hc stage (o := .ok p) result
    exact ⟨_, rfl, _, Verdict.nothing v heval nothing, rfl⟩
  | @failed claim task f pool stage result =>
    obtain ⟨v, rfl, heval⟩ := hshown.awaited h hc stage (o := .error f) result
    exact ⟨_, rfl, _, Verdict.failed v heval, rfl⟩
  | expired stage _ =>
    simp only [Shown, stage] at hshown
    obtain ⟨v, t, rfl, _, _⟩ := hshown
    exact ⟨_, rfl, _, Verdict.expired v, rfl⟩
  | store stage =>
    simp only [Shown, stage] at hshown
    obtain ⟨v, heval, rfl⟩ := hshown
    exact ⟨_, rfl, _, Verdict.stored v heval, rfl⟩
  | free stage _ =>
    simp only [Shown, stage] at hshown
    obtain ⟨verdict, hverdict, rfl⟩ := hshown
    exact ⟨_, rfl, verdict, hverdict.restage _, rfl⟩
  | «return» stage _ =>
    simp only [Shown, stage] at hshown
    obtain ⟨verdict, hverdict, rfl⟩ := hshown
    refine ⟨_, rfl, ?_⟩
    rw [List.append_assoc]
    exact (Course.locked hverdict).restage (.done _)

/-- A call that reads has not read before. -/
theorem Recorded.not_mem_of_read {key : Bytes} {r : Option V} (h : Recorded past s)
    (htrans : Transition s (.act id key (.read r)) s') (r' : Option V) :
    .read r' ∉ actsOf id past := by
  cases htrans with
  | @turned _ c _ _ hc turn =>
    have hshown := h.shown id c hc
    cases turn with
    | read stage _ | missing stage _ =>
      simp only [Shown, stage] at hshown
      rw [hshown]
      simp [entering]

/-- A call that locks its key has shown nothing but that it wants to, and carries nothing then. -/
theorem Recorded.of_locked {key : Bytes} (h : Recorded past s)
    (htrans : Transition s (.act id key .locked) s') :
    actsOf id past = [.checked true, .claimed] ∧
      ∃ d, s'.calls.find? id = some d ∧ d.key = key ∧ d.stage.Locked ∧ ¬ d.stage.Carries := by
  cases htrans with
  | @turned _ c _ _ hc turn =>
    have hshown := h.shown id c hc
    cases turn with
    | @lock claim locks stage acquired =>
      simp only [Shown, stage] at hshown
      refine ⟨hshown, _, (find?_move ..).trans (if_pos rfl), rfl, ?_⟩
      exact ⟨⟨claim, rfl⟩, fun hcarries => hcarries⟩

/-- A call that stores has shown which value it read, and what its evaluation made of it. -/
theorem Recorded.of_stored {key : Bytes} {w : V} (h : Recorded past s)
    (htrans : Transition s (.act id key (.stored w)) s') :
    ∃ c v, s.calls.find? id = some c ∧ c.key = key ∧ c.stage.Carries ∧
      c.evaluation v = .ok (.value (some w)) ∧
      actsOf id past = entering ++ [.read (some v), .submitted none, .evaluated (.ok (some w))] := by
  cases htrans with
  | @turned _ c _ _ hc turn =>
    have hshown := h.shown id c hc
    cases turn with
    | @store claim _ stage =>
      simp only [Shown, stage] at hshown
      obtain ⟨v, heval, hacts⟩ := hshown
      exact ⟨c, v, hc, rfl, by rw [stage]; trivial, heval, hacts⟩

/-- After a step every call has shown what it had shown, and its act if it took one. -/
theorem Recorded.shown_of_step {e : Event V} {d : UpdateCall V} (h : Recorded past s) (hs : Sound s)
    (htrans : Transition s e s') (hd : s'.calls.find? id = some d) :
    Shown s'.pool d (actsOf id (past ++ [e])) := by
  cases htrans with
  | called c =>
    rw [actsOf_snoc_of_none rfl]
    rw [find?_call] at hd
    split at hd
    · next hid =>
      cases hd
      exact h.actsOf_eq_nil (hid ▸ hs.held.fresh _ (Nat.le_refl _))
    · exact h.shown id d hd
  | @turned j c a s' hc turn =>
    by_cases hid : id = j
    · subst hid
      obtain ⟨stage, hcalls, hshown⟩ := (h.shown id c hc).turn hs hc turn
      rw [hcalls, Assoc.find?_put, if_pos rfl] at hd
      cases hd
      rw [actsOf_snoc, Event.actOf?, if_pos rfl, Option.toList_some]
      exact hshown
    · have hother : Event.actOf? id (.act j c.key a) = none := if_neg (Ne.symm hid)
      rw [turn.find?_other hid] at hd
      rw [actsOf_snoc_of_none hother]
      apply (h.shown id d hd).keeps
      intro task htask
      obtain ⟨t, ht, hfaithful⟩ := hs.handled.faithful id d task hd htask
      exact ⟨t, ht, hfaithful, hs.handled.keeps_turn hc turn hid hd htask⟩
  | worked hres hstep =>
    rw [actsOf_snoc_of_none rfl]
    apply (h.shown id d hd).keeps
    intro task htask
    obtain ⟨t, ht, hfaithful⟩ := hs.handled.faithful id d task hd htask
    exact ⟨t, ht, hfaithful, keeps_of_unreserved hres hstep hd htask⟩
  | _ =>
    rw [actsOf_snoc_of_none rfl]
    exact h.shown id d hd

/-- **Every step is recorded.** -/
theorem Recorded.step {e : Event V} (h : Recorded past s) (hs : Sound s)
    (htrans : Transition s e s') : Recorded (past ++ [e]) s' where
  shown id d hd := h.shown_of_step hs htrans hd
  started id d hd := by
    rcases htrans.of_find? hd with ⟨c, stage, hc, rfl⟩ | ⟨c, rfl, rfl⟩
    · obtain ⟨start, hstart, heq⟩ := h.started id c hc
      refine ⟨start, List.mem_append_left _ hstart, ?_⟩
      rw [heq]
    · exact ⟨c, List.mem_append_right _ (List.mem_singleton_self _), rfl⟩
  known id start hmem := by
    rcases List.mem_append.mp hmem with hold | hnew
    · obtain ⟨c, hc⟩ := h.known id start hold
      obtain ⟨stage, hfound⟩ := htrans.find?_eq_some hs hc
      exact ⟨_, hfound⟩
    · have heq := List.mem_singleton.mp hnew
      subst heq
      cases htrans
      exact ⟨_, (find?_call ..).trans (if_pos rfl)⟩
  keyed id key a hmem := by
    rcases List.mem_append.mp hmem with hold | hnew
    · obtain ⟨c, hc, hkey⟩ := h.keyed id key a hold
      obtain ⟨stage, hfound⟩ := htrans.find?_eq_some hs hc
      exact ⟨_, hfound, hkey⟩
    · have heq := List.mem_singleton.mp hnew
      subst heq
      have htrans' := htrans
      cases htrans with
      | turned hc turn =>
        obtain ⟨stage, hfound⟩ := htrans'.find?_eq_some hs hc
        exact ⟨_, hfound, rfl⟩

/-- A system at rest has nothing to record. -/
theorem AtRest.recorded (h : AtRest s) : Recorded [] s where
  shown id c hc := by
    rw [h.calls] at hc
    cases hc
  started id c hc := by
    rw [h.calls] at hc
    cases hc
  known id start hmem := by cases hmem
  keyed id key a hmem := by cases hmem

/-- **The trace of a run from rest records its calls.** -/
theorem recorded_of_run (h : AtRest s) {steps : List (Step V)} (hrun : s.run? steps = some t) :
    Recorded (s.trace steps) t := by
  refine (h.sound.run_induction (P := Recorded) h.recorded ?_ hrun).2
  intro past u e u' hu hrec htrans
  exact hrec.step hu htrans

/-- **Induction over the runs from rest**, whose traces record their calls. -/
theorem AtRest.run_induction (h : AtRest s) {P : List (Event V) → BucketSystem V → Prop}
    (start : P [] s)
    (step : ∀ past u e u', Sound u → Recorded past u → P past u → Transition u e u' →
      P (past ++ [e]) u')
    {steps : List (Step V)} (hrun : s.run? steps = some t) : P (s.trace steps) t := by
  have hall := h.sound.run_induction (P := fun past u => Recorded past u ∧ P past u)
    ⟨h.recorded, start⟩ ?_ hrun
  · exact hall.2.2
  · intro past u e u' hu hpast htrans
    obtain ⟨hrec, hP⟩ := hpast
    exact ⟨hrec.step hu htrans, step past u e u' hu hrec hP htrans⟩

/-! ## All or nothing -/

/-- **What it means that updates are all or nothing**, for a run from `s` to `t`: a call that has a
result took a course that ends with it; keys have what was stored under them, and nothing else
touches them; the entry of a lock counts the calls that still have a claim, and goes with the last
of them; and every call can come to its result by the steps of calls alone. -/
structure AllOrNothing (s : BucketSystem V) (trace : List (Event V)) (t : BucketSystem V) : Prop where
  course : ∀ id result, t.result? id = some result → ∃ c, .called id c ∈ trace ∧
    (∀ key a, .act id key a ∈ trace → key = c.key) ∧
    Course c (actsOf id trace) result ∧ Reports (actsOf id trace) result
  written : ∀ key, t.value? key = replay key (s.value? key) trace
  seen : ∀ key past e rest, trace = past ++ e :: rest →
    e.Sees key (replay key (s.value? key) past)
  counted : ∀ key e, t.bucket.locks.entries.find? key = some e →
    e.references = t.calls.total (claimant key)
  unlocked : ∀ key, (∀ id c, t.calls.find? id = some c → c.key = key → c.stage.claim? = none) →
    t.bucket.locks.entries.find? key = none
  emptied : (∀ id c, t.calls.find? id = some c → ∃ result, t.result? id = some result) →
    t.bucket.locks.size = 0
  returns : ∃ rest u, t.run? rest = some u ∧ (∀ a ∈ rest, ∃ id, Step.Of id a) ∧
    ∀ id c, t.calls.find? id = some c → ∃ result, u.result? id = some result

/-- **An update is all or nothing**, on every path: in every run from a bucket at rest, with any pool
and any other steps in between. -/
theorem update_all_or_nothing (h : AtRest s) {steps : List (Step V)} (hrun : s.run? steps = some t) :
    AllOrNothing s (s.trace steps) t where
  course id result hresult := by
    obtain ⟨c, hc, hstage⟩ := result?_eq_some_iff.mp hresult
    have hrec := recorded_of_run h hrun
    obtain ⟨start, hstart, heq⟩ := hrec.started id c hc
    have hshown := hrec.shown id c hc
    simp only [Shown, hstage] at hshown
    have hcourse : Course start (actsOf id (s.trace steps)) result := by
      have hback := hshown.restage start.stage
      rw [heq] at hback
      exact hback
    refine ⟨start, hstart, ?_, hcourse, hcourse.reports⟩
    intro key a hact
    obtain ⟨d, hd, hkey⟩ := hrec.keyed id key a hact
    rw [hc] at hd
    cases hd
    rw [← hkey, heq]
  written := value?_of_run h.sound hrun
  seen key _ _ _ hsplit := sees_of_run h.sound hrun key hsplit
  counted key e he := by
    have ht := h.sound.of_run hrun
    rw [ht.held.sound.counted key e he, ht.held.counted key]
  unlocked _ hnone := (h.sound.of_run hrun).entry_eq_none hnone
  emptied hdone := by
    have ht := h.sound.of_run hrun
    apply List.length_eq_zero_iff.mpr
    apply Assoc.eq_nil_of_find?_eq_none
    intro key
    apply ht.entry_eq_none
    intro id c hc _
    obtain ⟨result, hresult⟩ := hdone id c hc
    obtain ⟨d, hd, hstage⟩ := result?_eq_some_iff.mp hresult
    rw [hc] at hd
    cases hd
    rw [hstage]
    rfl
  returns := by
    obtain ⟨rest, u, hrest, hof, _, hdone⟩ := (h.sound.of_run hrun).can_settle
    exact ⟨rest, u, hrest, hof, hdone⟩

/-- A run in which the update of a gated value goes all its way. -/
def gatedSteps : List (Step Value) :=
  [.put [107] (some (.gated [103] [110])), .call gatedCall, .advance 0, .advance 0, .advance 0,
    .advance 0, .advance 0, .pool (.take 0), .pool (.begin 0), .pool (.openGate (.named [103])),
    .pool (.finish 0), .advance 0, .advance 0, .advance 0, .advance 0]

/-- The gated update succeeds, stores its text and leaves no lock behind. -/
theorem gated_all_or_nothing : ∃ t, idle.run? gatedSteps = some t ∧ t.result? 0 = some (.ok ()) ∧
    t.value? [107] = some (.text [110]) ∧ t.bucket.locks.size = 0 ∧
    AllOrNothing idle (idle.trace gatedSteps) t := by
  refine ⟨_, rfl, rfl, rfl, rfl, ?_⟩
  exact update_all_or_nothing atRest_idle rfl

end BucketSystem

end Keyspace
