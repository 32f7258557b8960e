import Keyspace.Store

/-!
# A flush, one access after the other

`Store.flush` says what comes of a flush. Here it is run: the loops over the buckets, over the keys of
a bucket and over those that were chosen are a program that reads the store anew at every access and
fails when the storage layer does (`FlushM.flushStore`). The storage layer may answer by what it was
given before.

What the program does is a fixed course of events that is cut off before the first delivery that is
refused (`FlushM.walk`), and the store that it leaves is the one that it found. Both are shown for
each part of the program at once (`FlushM.Performs`).
-/

namespace Keyspace

variable {V : Type}

/-- **What a flush does.** -/
inductive FlushEvent (V : Type) where
  /-- The condition is asked about a key. -/
  | asked (bucket key : Bytes)
  /-- The flush of a bucket is called. -/
  | called (bucket : Bytes) (keys : List Bytes)
  /-- The storage layer takes an entry. -/
  | delivered (d : Delivery V)
deriving DecidableEq, Repr

namespace FlushEvent

/-- The bucket and the key that the condition is asked about. -/
def asked? : FlushEvent V → Option (Bytes × Bytes)
  | asked bucket key => some (bucket, key)
  | _ => none

/-- The bucket whose flush is called, and the keys. -/
def called? : FlushEvent V → Option (Bytes × List Bytes)
  | called bucket keys => some (bucket, keys)
  | _ => none

/-- The entry that is taken. -/
def delivery? : FlushEvent V → Option (Delivery V)
  | delivered d => some d
  | _ => none

end FlushEvent

/-- What the storage layer answers to a delivery, after those that it has taken: a failure, or
nothing. -/
abbrev StorageLayer (V : Type) := List (Delivery V) → Delivery V → Option Failure

/-- **A flush under way**: the store, and what was done so far. -/
structure Flushing (V : Type) where
  store : Store V
  trace : List (FlushEvent V) := []

/-- The entries that were taken so far. -/
def Flushing.delivered (w : Flushing V) : List (Delivery V) :=
  w.trace.filterMap FlushEvent.delivery?

/-- The programs of a flush. -/
abbrev FlushM (V : Type) := ExceptT Failure (StateM (Flushing V))

namespace FlushM

variable {α β : Type}

/-! ### The program -/

/-- An event is added to what was done. -/
def record (e : FlushEvent V) : FlushM V Unit :=
  modify fun w => { w with trace := w.trace ++ [e] }

/-- The bucket of an instance, as it is now. -/
def bucket? (i : Instance) : FlushM V (Option (Bucket V)) := do
  return (← get).store.buckets[i]?

/-- An entry is handed to the storage layer, which takes it or fails. -/
def hand (layer : StorageLayer V) (d : Delivery V) : FlushM V Unit := do
  match layer (← get).delivered d with
  | some f => throw f
  | none => record (.delivered d)

/-- The value of a key is handed over, if there is one now. -/
def handKey (layer : StorageLayer V) (i : Instance) (key : Bytes) : FlushM V Unit := do
  match ← bucket? i with
  | none => pure ()
  | some b =>
    match b.map.get? key with
    | none => pure ()
    | some value => hand layer { bucket := b.name, key, value }

/-- **The flush of a bucket** with a list of keys. -/
def flushKeys (layer : Option (StorageLayer V)) (i : Instance) (keys : List Bytes) :
    FlushM V Unit := do
  match ← bucket? i with
  | none => pure ()
  | some b =>
    record (.called b.name keys)
    match layer with
    | none => pure ()
    | some layer => keys.forM (handKey layer i)

/-- A condition is asked about a key, which is chosen if it holds. -/
def ask (condition : FlushCondition) (bucket : Bytes) (chosen : List Bytes) (key : Bytes) :
    FlushM V (List Bytes) := do
  record (.asked bucket key)
  pure (if condition bucket key then chosen ++ [key] else chosen)

/-- **The keys of a bucket that a condition selects are flushed**, all in one call. -/
def flushSelected (layer : Option (StorageLayer V)) (condition : FlushCondition) (i : Instance) :
    FlushM V Unit := do
  match ← bucket? i with
  | none => pure ()
  | some b =>
    let chosen ← b.keys.foldlM (ask condition b.name) []
    if chosen.isEmpty then pure () else flushKeys layer i chosen

/-- **The buckets in the registry are flushed in turn.** -/
def flushStore (layer : Option (StorageLayer V)) (condition : FlushCondition) :
    FlushM V Unit := do
  (← get).store.registered.forM (flushSelected layer condition)

/-- What a program gives, and what it leaves. -/
def perform (p : FlushM V α) (w : Flushing V) : Outcome α × Flushing V :=
  p.run.run w

/-! ### Courses of events -/

/-- What the storage layer fails with at an event, if it does. -/
def refusal? (layer : Option (StorageLayer V)) (past : List (FlushEvent V)) :
    FlushEvent V → Option Failure
  | .delivered d => layer.bind fun layer => layer (past.filterMap FlushEvent.delivery?) d
  | _ => none

/-- **The events of a course happen one after the other**, until a delivery is refused. -/
def walk (layer : Option (StorageLayer V)) (past : List (FlushEvent V)) :
    List (FlushEvent V) → Outcome Unit × List (FlushEvent V)
  | [] => (.ok (), past)
  | e :: rest =>
    match refusal? layer past e with
    | some f => (.error f, past)
    | none => walk layer (past ++ [e]) rest

theorem walk_append (layer : Option (StorageLayer V)) (past first rest : List (FlushEvent V)) :
    walk layer past (first ++ rest) =
      match walk layer past first with
      | (.ok (), past) => walk layer past rest
      | (.error f, past) => (.error f, past) := by
  induction first generalizing past with
  | nil => rfl
  | cons e first ih =>
    rw [List.cons_append, walk, walk]
    cases refusal? layer past e with
    | none => exact ih _
    | some f => rfl

/-- A course that comes to its end has happened as a whole, and no delivery of it was refused. -/
theorem walk_ok {layer : Option (StorageLayer V)} {past course trace : List (FlushEvent V)}
    (h : walk layer past course = (.ok (), trace)) :
    trace = past ++ course ∧ ∀ first e rest, course = first ++ e :: rest →
      refusal? layer (past ++ first) e = none := by
  induction course generalizing past with
  | nil =>
    cases h
    exact ⟨(List.append_nil _).symm, fun first e rest heq => by simp at heq⟩
  | cons a course ih =>
    rw [walk] at h
    cases hrefusal : refusal? layer past a with
    | some f => simp [hrefusal] at h
    | none =>
      simp only [hrefusal] at h
      obtain ⟨htrace, hnone⟩ := ih h
      refine ⟨by rw [htrace, List.append_assoc, List.singleton_append], fun first e rest heq => ?_⟩
      cases first with
      | nil =>
        cases heq
        rwa [List.append_nil]
      | cons b first =>
        cases heq
        simpa using hnone first e rest rfl

/-- A course that does not come to its end has happened up to the delivery that was refused. -/
theorem walk_error {layer : Option (StorageLayer V)} {past course trace : List (FlushEvent V)}
    {f : Failure}
    (h : walk layer past course = (.error f, trace)) :
    ∃ first d rest, course = first ++ .delivered d :: rest ∧ trace = past ++ first ∧
      refusal? layer trace (.delivered d) = some f := by
  induction course generalizing past with
  | nil => cases h
  | cons a course ih =>
    rw [walk] at h
    cases hrefusal : refusal? layer past a with
    | some g =>
      simp only [hrefusal, Prod.mk.injEq, Except.error.injEq] at h
      obtain ⟨rfl, rfl⟩ := h
      cases a with
      | delivered d => exact ⟨[], d, course, rfl, (List.append_nil _).symm, hrefusal⟩
      | asked bucket key => cases hrefusal
      | called bucket keys => cases hrefusal
    | none =>
      simp only [hrefusal] at h
      obtain ⟨first, d, rest, hcourse, htrace, hrefused⟩ := ih h
      exact ⟨a :: first, d, rest, by rw [hcourse]; rfl, by simp [htrace], hrefused⟩

/-! ### What the program performs -/

/-- **A program performs a course of events on a store**: it does what the course says, as far as the
storage layer lets it, gives its result at the end, and leaves the store as it is. -/
def Performs (s : Store V) (layer : Option (StorageLayer V)) (p : FlushM V α)
    (course : List (FlushEvent V)) (a : α) : Prop :=
  ∀ past, perform p ⟨s, past⟩ =
    ((walk layer past course).1.map fun _ => a, ⟨s, (walk layer past course).2⟩)

variable {s : Store V} {layer : Option (StorageLayer V)} {i : Instance} {b : Bucket V}

theorem perform_bind (p : FlushM V α) (q : α → FlushM V β) (w : Flushing V) :
    perform (p >>= q) w =
      match perform p w with
      | (.ok a, w) => perform (q a) w
      | (.error f, w) => (.error f, w) := by
  simp only [perform, ExceptT.run_bind, StateT.run_bind]
  generalize p.run.run w = r
  obtain ⟨result, w⟩ := r
  cases result <;> rfl

theorem Performs.pure (a : α) : Performs s layer (pure a) [] a :=
  fun _ => rfl

theorem Performs.bind {p : FlushM V α} {q : α → FlushM V β} {first rest : List (FlushEvent V)}
    {a : α} {c : β}
    (hp : Performs s layer p first a) (hq : Performs s layer (q a) rest c) :
    Performs s layer (p >>= q) (first ++ rest) c := by
  intro past
  rw [perform_bind, hp past, walk_append]
  generalize walk layer past first = walked
  obtain ⟨result, past⟩ := walked
  cases result with
  | error f => rfl
  | ok _ => exact hq past

/-- What reads the store first does what it does with the store as it is. -/
theorem Performs.get {q : Flushing V → FlushM V β} {course : List (FlushEvent V)} {c : β}
    (hq : ∀ past, Performs s layer (q ⟨s, past⟩) course c) :
    Performs s layer (MonadState.get >>= q) course c :=
  fun past => hq past past

theorem Performs.forM {l : List α} {f : α → FlushM V Unit} {course : α → List (FlushEvent V)}
    (h : ∀ a ∈ l, Performs s layer (f a) (course a) ()) :
    Performs s layer (l.forM f) (l.flatMap course) () := by
  induction l with
  | nil => exact .pure ()
  | cons a l ih =>
    rw [List.flatMap_cons]
    exact (h a List.mem_cons_self).bind (ih fun c hc => h c (List.mem_cons_of_mem _ hc))

theorem performs_asked (bucket key : Bytes) :
    Performs s layer (record (.asked bucket key)) [.asked bucket key] () :=
  fun _ => rfl

theorem performs_called (bucket : Bytes) (keys : List Bytes) :
    Performs s layer (record (.called bucket keys)) [.called bucket keys] () :=
  fun _ => rfl

theorem performs_bucket? (i : Instance) : Performs s layer (bucket? i) [] s.buckets[i]? :=
  fun _ => rfl

/-- What looks a bucket up first goes on with what it finds. -/
theorem Performs.lookUp {q : Option (Bucket V) → FlushM V β} {course : List (FlushEvent V)}
    {c : β} (i : Instance)
    (hq : Performs s layer (q s.buckets[i]?) course c) :
    Performs s layer (bucket? i >>= q) course c := by
  have h := (performs_bucket? i).bind hq
  exact h

/-- What records an event first shows it first. -/
theorem Performs.recorded {q : Unit → FlushM V β} {e : FlushEvent V} {rest : List (FlushEvent V)}
    {c : β}
    (he : Performs s layer (record e) [e] ()) (hq : Performs s layer (q ()) rest c) :
    Performs s layer (record e >>= q) (e :: rest) c := by
  have h := he.bind hq
  exact h

theorem performs_hand {l : StorageLayer V} (hlayer : layer = some l) (d : Delivery V) :
    Performs s layer (hand l d) [.delivered d] () := by
  intro past
  have hrefusal : refusal? layer past (.delivered d) =
      l (past.filterMap FlushEvent.delivery?) d := by rw [hlayer]; rfl
  simp only [walk, hrefusal]
  unfold hand
  rw [perform_bind]
  change perform (match l (past.filterMap FlushEvent.delivery?) d with
    | some f => throw f
    | none => record (.delivered d)) ⟨s, past⟩ = _
  cases l (past.filterMap FlushEvent.delivery?) d <;> rfl

end FlushM

/-! ### The courses -/

/-- The entries of a bucket are handed over, if there is a storage layer. -/
def Bucket.handing (b : Bucket V) (layer : Option (StorageLayer V)) (keys : List Bytes) :
    List (FlushEvent V) :=
  match layer with
  | none => []
  | some _ => (b.deliveries keys).map .delivered

/-- **The course of the flush of a bucket.** -/
def Bucket.flushCourse (b : Bucket V) (layer : Option (StorageLayer V)) (keys : List Bytes) :
    List (FlushEvent V) :=
  .called b.name keys :: b.handing layer keys

/-- The keys are looked up one by one. -/
theorem Bucket.deliveries_eq_flatMap (b : Bucket V) (keys : List Bytes) :
    b.deliveries keys = keys.flatMap fun key => b.deliveries [key] := by
  induction keys with
  | nil => rfl
  | cons key keys ih =>
    rw [List.flatMap_cons, ← ih]
    exact List.filterMap_append (l := [key])

/-- The keys of a bucket that a condition selects. -/
def Bucket.selected (b : Bucket V) (condition : FlushCondition) : List Bytes :=
  b.keys.filter (condition b.name)

/-- **The course of a bucket in the flush of a store**: all keys are asked about before the flush of
the bucket is called, and it is not called for nothing. -/
def Bucket.selectionCourse (b : Bucket V) (layer : Option (StorageLayer V))
    (condition : FlushCondition) :
    List (FlushEvent V) :=
  b.keys.map (.asked b.name) ++
    if (b.selected condition).isEmpty then [] else b.flushCourse layer (b.selected condition)

/-- **The course of the flush of a store.** -/
def Store.flushCourse (s : Store V) (layer : Option (StorageLayer V)) (condition : FlushCondition) :
    List (FlushEvent V) :=
  s.current.flatMap fun b => b.selectionCourse layer condition

namespace FlushM

variable {s : Store V} {layer : Option (StorageLayer V)} {i : Instance} {b : Bucket V}

theorem performs_handKey {l : StorageLayer V} (hlayer : layer = some l) (hb : s.buckets[i]? = some b)
    (key : Bytes) : Performs s layer (handKey l i key) ((b.deliveries [key]).map .delivered) () := by
  unfold handKey Bucket.deliveries
  refine .lookUp i ?_
  rw [hb]
  cases hvalue : b.map.get? key with
  | none => simpa [hvalue] using .pure ()
  | some value => simpa [hvalue] using performs_hand hlayer _

/-- **The flush of a bucket performs its course.** -/
theorem performs_flushKeys (hb : s.buckets[i]? = some b) (keys : List Bytes) :
    Performs s layer (flushKeys layer i keys) (b.flushCourse layer keys) () := by
  unfold flushKeys Bucket.flushCourse
  refine .lookUp i ?_
  rw [hb]
  refine (performs_called b.name keys).recorded ?_
  cases layer with
  | none => exact .pure ()
  | some l =>
    change Performs s (some l) (keys.forM (handKey l i)) ((b.deliveries keys).map .delivered) ()
    rw [b.deliveries_eq_flatMap, List.map_flatMap]
    exact .forM fun key _ => performs_handKey rfl hb key

/-- The keys are asked about in turn, and those for which the condition holds are chosen. -/
theorem performs_asking (condition : FlushCondition) (bucket : Bytes) (chosen keys : List Bytes) :
    Performs s layer (keys.foldlM (ask condition bucket) chosen) (keys.map (.asked bucket))
      (chosen ++ keys.filter (condition bucket)) := by
  induction keys generalizing chosen with
  | nil => simpa using .pure chosen
  | cons key keys ih =>
    have hask : Performs s layer (ask condition bucket chosen key) [.asked bucket key]
        (if condition bucket key then chosen ++ [key] else chosen) :=
      (performs_asked bucket key).recorded (.pure _)
    have hchosen : chosen ++ (key :: keys).filter (condition bucket) =
        (if condition bucket key then chosen ++ [key] else chosen) ++
          keys.filter (condition bucket) := by
      rw [List.filter_cons]
      split <;> simp
    rw [List.foldlM_cons, hchosen]
    exact hask.bind (ih _)

/-- The keys of a bucket that are selected are flushed. -/
theorem performs_flushSelected (condition : FlushCondition) (hb : s.buckets[i]? = some b) :
    Performs s layer (flushSelected layer condition i) (b.selectionCourse layer condition) () := by
  unfold flushSelected Bucket.selectionCourse
  refine .lookUp i ?_
  rw [hb]
  refine (performs_asking condition b.name [] b.keys).bind ?_
  rw [List.nil_append]
  change Performs s layer (if (b.selected condition).isEmpty then pure ()
    else flushKeys layer i (b.selected condition)) _ ()
  split
  · exact .pure ()
  · exact performs_flushKeys hb _

/-- **The flush of a store performs its course.** -/
theorem performs_flushStore (condition : FlushCondition) :
    Performs s layer (flushStore layer condition) (s.flushCourse layer condition) () := by
  have hcourse : s.flushCourse layer condition = s.registered.flatMap fun i =>
      ((s.buckets[i]?).map fun b => b.selectionCourse layer condition).getD [] := by
    rw [Store.flushCourse, Store.current]
    induction s.registered with
    | nil => rfl
    | cons i rest ih =>
      cases hb : s.buckets[i]? with
      | none => simp [hb, ih]
      | some b => simp [hb, ih]
  unfold flushStore
  rw [hcourse]
  refine .get fun past => .forM fun i _ => ?_
  cases hb : s.buckets[i]? with
  | none =>
    unfold flushSelected
    refine .lookUp i ?_
    rw [hb]
    exact .pure ()
  | some b => exact performs_flushSelected condition hb

end FlushM

end Keyspace
