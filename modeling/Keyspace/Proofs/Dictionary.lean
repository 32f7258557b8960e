import Keyspace.Proofs.UpdateCourse

/-!
# Dictionaries

The plain finite map that a bucket stands for, from keys to values that are there: a `Dictionary`
knows of no shards, no null values, no locks and no pool. `Dictionary.serve` says what it answers to
a request and what it becomes; whatever is answered with a failure leaves it as it is.

An update alone asks for more than the dictionary has, since its evaluation runs in a pool. What
became of the evaluation there is its `Fate`, which is part of the request, so that the answer is a
function of the dictionary and the request. A caller who makes requests of a bucket, one after the
other, is a `BucketSystem.Session`.
-/

namespace Keyspace

variable {V : Type}

/-- **What becomes of an evaluation in the pool**: it is refused, it is not finished in time, or it
is carried out. -/
inductive Fate where
  | refused (f : Failure)
  | expired
  | evaluated
deriving DecidableEq

/-- The fate of its evaluation that an act of a call shows, unless the evaluation is carried out. -/
def Act.fate? : Act V → Option Fate
  | .submitted (some f) => some (.refused f)
  | .expired => some .expired
  | _ => none

/-- **The fate that the acts of a call show.** -/
def Fate.ofActs (acts : List (Act V)) : Fate :=
  (acts.findSome? Act.fate?).getD .evaluated

/-- **A finite map from keys to values.** -/
abbrev Dictionary (V : Type) := Assoc Bytes V

namespace Dictionary

/-- **What a caller asks of a bucket.** -/
inductive Request (V : Type) where
  | put (key : Bytes) (value : Option V)
  | get (key : Bytes)
  | conditionalGet (key : Bytes) (p : Predicate) (c : Condition)
  | remove (key : Bytes)
  | keys
  | size
  | update (c : UpdateCall V) (fate : Fate)

namespace Request

/-- The key that a request is about. -/
def key? : Request V → Option Bytes
  | put key _ | get key | conditionalGet key _ _ | remove key => some key
  | keys | size => none
  | update c _ => some c.key

/-- The request with another fate of its evaluation, if it has one. -/
def withFate (r : Request V) (fate : Fate) : Request V :=
  match r with
  | update c _ => update c fate
  | r => r

end Request

/-- **What a caller is answered.** -/
inductive Answer (V : Type) where
  | done (result : Outcome Unit)
  | value (result : Outcome V)
  | selected (result : Outcome (Option V))
  | keys (keys : List Bytes)
  | size (n : Nat)

/-- What was asked, and what was answered, in order. -/
abbrev Record (V : Type) := List (Request V × Answer V)

/-- **Two answers agree**: they are the same, up to the order of keys. -/
def Answer.Agrees : Answer V → Answer V → Prop
  | keys ks, keys ls => ks.Perm ls
  | a, b => a = b

namespace Answer

variable {a b c : Answer V}

theorem Agrees.refl (a : Answer V) : a.Agrees a := by
  cases a with
  | keys ks => exact List.Perm.refl ks
  | _ => rfl

theorem Agrees.symm (h : a.Agrees b) : b.Agrees a := by
  cases a with
  | keys ks =>
    cases b with
    | keys ls => exact List.Perm.symm h
    | _ => cases h
  | _ =>
    cases h
    exact .refl _

theorem Agrees.trans (h : a.Agrees b) (h' : b.Agrees c) : a.Agrees c := by
  cases a with
  | keys ks =>
    cases b with
    | keys ls =>
      cases c with
      | keys ms => exact List.Perm.trans h h'
      | _ => cases h'
    | _ => cases h
  | _ =>
    cases h
    exact h'

end Answer

/-- The value of a key. -/
def value (d : Dictionary V) (key : Bytes) : Outcome V :=
  match d.find? key with
  | some v => .ok v
  | none => .error (.keyMissing key)

variable [Storable V] {d : Dictionary V}

/-- The value of a key if it satisfies a predicate. -/
def select (d : Dictionary V) (key : Bytes) (p : Predicate) (c : Condition) :
    Outcome (Option V) :=
  match d.find? key with
  | none => .error (.keyMissing key)
  | some v =>
    match Storable.satisfies v p c with
    | .ok holds => .ok (if holds then some v else none)
    | .error f => .error (.predicateUndecided key f.message)

/-- The value that an update makes of the value of its key. -/
def updated (d : Dictionary V) (c : UpdateCall V) (fate : Fate) : Outcome V :=
  match d.find? c.key with
  | none => .error (.keyMissing c.key)
  | some v =>
    match fate with
    | .refused f => .error (.updateUnscheduled f.message)
    | .expired => .error .updateExpired
    | .evaluated =>
      match c.evaluation v with
      | .error f => .error (.updateFailed f.message)
      | .ok p =>
        match p.value? with
        | some w => .ok w
        | none => .error .updateExpired

/-- **A request to the dictionary.** -/
def serve (d : Dictionary V) : Request V → Answer V × Dictionary V
  | .put key none => (.done (.error (.nullValue key)), d)
  | .put key (some v) => (.done (.ok ()), d.put key v)
  | .get key => (.value (d.value key), d)
  | .conditionalGet key p c => (.selected (d.select key p c), d)
  | .remove key =>
    if d.has key then (.done (.ok ()), d.erase key) else (.done (.error (.keyMissing key)), d)
  | .keys => (.keys d.keys, d)
  | .size => (.size d.length, d)
  | .update c fate =>
    match d.updated c fate with
    | .ok w => (.done (.ok ()), d.put c.key w)
    | .error f => (.done (.error f), d)

/-- The dictionary after a list of requests. -/
def after (d : Dictionary V) (requests : List (Request V)) : Dictionary V :=
  requests.foldl (fun d r => (d.serve r).2) d

theorem after_snoc (d : Dictionary V) (requests : List (Request V)) (r : Request V) :
    d.after (requests ++ [r]) = ((d.after requests).serve r).2 := by
  rw [after, List.foldl_append]
  rfl

theorem serve_update_of_ok {c : UpdateCall V} {fate : Fate} {w : V}
    (h : d.updated c fate = .ok w) :
    d.serve (.update c fate) = (.done (.ok ()), d.put c.key w) := by
  simp only [serve, h]

theorem serve_update_of_error {c : UpdateCall V} {fate : Fate} {f : Failure}
    (h : d.updated c fate = .error f) : d.serve (.update c fate) = (.done (.error f), d) := by
  simp only [serve, h]

/-- No request brings a key into the dictionary twice. -/
theorem nodup_serve (h : d.keys.Nodup) (r : Request V) : (d.serve r).2.keys.Nodup := by
  cases r with
  | put key v =>
    cases v with
    | none => exact h
    | some v => exact Assoc.nodup_keys_put h key v
  | remove key =>
    simp only [serve]
    split
    · exact Assoc.nodup_keys_erase h key
    · exact h
  | update c fate =>
    simp only [serve]
    split
    · next w _ => exact Assoc.nodup_keys_put h c.key w
    · exact h
  | _ => exact h

/-- **A request about one key leaves the others.** -/
theorem find?_serve (d : Dictionary V) (r : Request V) {key : Bytes}
    (hkey : r.key? ≠ some key) :
    (d.serve r).2.find? key = d.find? key := by
  have hne : ∀ {k : Bytes}, r.key? = some k → key ≠ k := by
    rintro k hk rfl
    exact hkey hk
  cases r with
  | put k v =>
    cases v with
    | none => rfl
    | some v => exact (Assoc.find?_put ..).trans (if_neg (hne rfl))
  | remove k =>
    simp only [serve]
    split
    · exact (Assoc.find?_erase ..).trans (if_neg (hne rfl))
    · rfl
  | update c fate =>
    simp only [serve]
    split
    · exact (Assoc.find?_put ..).trans (if_neg (hne rfl))
    · rfl
  | _ => rfl

end Dictionary

/-! ## What callers do -/

namespace BucketSystem

/-- A step that no caller makes: a call goes on or is given up, or the pool works. -/
def Step.Internal : Step V → Prop
  | .advance _ | .expire _ | .pool _ => True
  | _ => False

/-- **A request to a bucket, and its answer.** The caller of an update waits until it has its
result, while only the call and the pool take steps. -/
inductive Serves [Storable V] (s : BucketSystem V) :
    Dictionary.Request V → Dictionary.Answer V → BucketSystem V → Prop
  | put {key : Bytes} {value : Option V} {s' : BucketSystem V}
    (step : s.step? (.put key value) = some s') :
    Serves s (.put key value) (.done ((s.bucket.put key value).map fun _ => ())) s'
  | get (key : Bytes) : Serves s (.get key) (.value (s.bucket.get key)) s
  | conditionalGet (key : Bytes) (p : Predicate) (c : Condition) :
    Serves s (.conditionalGet key p c) (.selected (s.bucket.conditionalGet key p c)) s
  | remove {key : Bytes} {s' : BucketSystem V} (step : s.step? (.remove key) = some s') :
    Serves s (.remove key) (.done ((s.bucket.remove key).map fun _ => ())) s'
  | keys : Serves s .keys (.keys s.bucket.keys) s
  | size : Serves s .size (.size s.bucket.size) s
  | update {c : UpdateCall V} {steps : List (Step V)} {result : Outcome Unit} {t : BucketSystem V}
    (run : s.run? (.call c :: steps) = some t) (alone : ∀ a ∈ steps, a.Internal)
    (returned : t.result? s.nextCall = some result) :
    Serves s (.update c (.ofActs (actsOf s.nextCall (s.trace (.call c :: steps))))) (.done result) t

/-- **A caller's requests, one after the other, and their answers.** The pool may work in between.
-/
inductive Session [Storable V] (s : BucketSystem V) : Dictionary.Record V → BucketSystem V → Prop
  | start : Session s [] s
  | pause {past : Dictionary.Record V} {t t' : BucketSystem V} {step : WorkerPool.Step (Product V)}
    (session : Session s past t) (work : t.step? (.pool step) = some t') : Session s past t'
  | serve {past : Dictionary.Record V} {t t' : BucketSystem V} {r : Dictionary.Request V}
    {a : Dictionary.Answer V}
    (session : Session s past t) (serves : Serves t r a t') : Session s (past ++ [(r, a)]) t'

variable [Storable V] {s s' t : BucketSystem V}

/-- Requests are served by steps. -/
theorem Serves.run {r : Dictionary.Request V} {a : Dictionary.Answer V} (h : Serves s r a s') :
    ∃ steps, s.run? steps = some s' := by
  have hstep : ∀ {a : Step V}, s.step? a = some s' → s.run? [a] = some s' := by
    intro a ha
    exact Machine.run?_singleton ha
  cases h with
  | put step => exact ⟨_, hstep step⟩
  | remove step => exact ⟨_, hstep step⟩
  | update run _ _ => exact ⟨_, run⟩
  | _ => exact ⟨[], rfl⟩

/-- **A session is a run.** -/
theorem Session.run {past : Dictionary.Record V} (h : Session s past t) :
    ∃ steps, s.run? steps = some t := by
  induction h with
  | start => exact ⟨[], rfl⟩
  | @pause _ _ _ step _ work ih =>
    obtain ⟨steps, hrun⟩ := ih
    refine ⟨steps ++ [.pool step], ?_⟩
    exact (Machine.run?_append_of_some hrun _).trans (Machine.run?_singleton work)
  | serve _ serves ih =>
    obtain ⟨steps, hrun⟩ := ih
    obtain ⟨more, hmore⟩ := serves.run
    refine ⟨steps ++ more, ?_⟩
    exact (Machine.run?_append_of_some hrun more).trans hmore

end BucketSystem

end Keyspace
