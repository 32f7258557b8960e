import Keyspace.Proofs.FlushRun
import Keyspace.Proofs.StoreContents
import Mathlib.Data.List.Nodup

/-!
# A flush hands over what its condition selects, and changes nothing

In every state of a store, the entries that a flush hands over are those that are present and
selected, each of them once, in the order of the names of the buckets and of the keys of each bucket
(`Store.Selects`). The condition is asked once about each key that is present, and a bucket from which
nothing is chosen is not flushed. A failure of the storage layer ends the flush: what was handed over
are the entries before the one that it refused (`FlushM.Ends`).

The storage layer may answer by what it was given before; where it does not, the run of a flush is
what `Store.flush` says (`Store.flush_eq`).
-/

namespace Keyspace

variable {V : Type}

/-! ## How a program of a flush ends -/

namespace Flushing

/-- The keys that the condition was asked about so far. -/
def asked (w : Flushing V) : List (Bytes × Bytes) :=
  w.trace.filterMap FlushEvent.asked?

/-- The flushes of buckets that were called so far. -/
def called (w : Flushing V) : List (Bytes × List Bytes) :=
  w.trace.filterMap FlushEvent.called?

end Flushing

namespace FlushM

variable {s : Store V} {layer : StorageLayer V} {p : FlushM V Unit} {course : List (FlushEvent V)}

/-- What a program gives and leaves when it is started on a store. -/
def start (p : FlushM V Unit) (s : Store V) : Outcome Unit × Flushing V :=
  perform p { store := s }

/-- **A program hands over a list of entries** and leaves the store as it was. It comes to its end
unless the storage layer refuses one of them; then those before it were handed over, and the failure
is that of the storage layer. -/
structure Ends (s : Store V) (layer : StorageLayer V) (entries : List (Delivery V))
    (r : Outcome Unit × Flushing V) : Prop where
  frame : r.2.store = s
  delivered : r.1 = .ok () → r.2.delivered = entries
  refused : ∀ f, r.1 = .error f → ∃ d rest, entries = r.2.delivered ++ d :: rest ∧
    layer r.2.delivered d = some f
  completes : r.1 = .ok () ↔ ∀ first d rest, entries = first ++ d :: rest → layer first d = none

/-- A list of entries that is cut before a delivery comes from the course that is cut there. -/
theorem exists_course_of_entries {course : List (FlushEvent V)} {first rest : List (Delivery V)}
    {d : Delivery V}
    (h : course.filterMap FlushEvent.delivery? = first ++ d :: rest) :
    ∃ before after, course = before ++ .delivered d :: after ∧
      before.filterMap FlushEvent.delivery? = first := by
  obtain ⟨before, after, rfl, hfirst, hlast⟩ := List.filterMap_eq_append_iff.mp h
  obtain ⟨plain, e, after, rfl, hplain, he, -⟩ := List.filterMap_eq_cons_iff.mp hlast
  refine ⟨before ++ plain, after, ?_, ?_⟩
  · cases e with
    | delivered => cases he; simp
    | asked => cases he
    | called => cases he
  · rw [List.filterMap_append, hfirst, List.filterMap_eq_nil_iff.mpr hplain, List.append_nil]

/-- What performs a course comes to its end, with all of it done and no delivery refused, or is cut
off before a delivery that is. -/
theorem Performs.ok_or_error (h : Performs s (some layer) p course ()) :
    (start p s = (.ok (), ⟨s, course⟩) ∧ ∀ first d rest,
        course = first ++ .delivered d :: rest →
        layer (first.filterMap FlushEvent.delivery?) d = none) ∨
      ∃ f first d rest, start p s = (.error f, ⟨s, first⟩) ∧
        course = first ++ .delivered d :: rest ∧
        layer (first.filterMap FlushEvent.delivery?) d = some f := by
  have hperform : start p s = _ := h []
  cases hwalk : walk (some layer) [] course with
  | mk result trace =>
    rw [hwalk] at hperform
    cases result with
    | ok =>
      obtain ⟨htrace, hnone⟩ := walk_ok hwalk
      rw [List.nil_append] at htrace
      subst htrace
      exact .inl ⟨hperform, fun first d rest hcourse => hnone first (.delivered d) rest hcourse⟩
    | error f =>
      obtain ⟨first, d, rest, hcourse, htrace, hrefused⟩ := walk_error hwalk
      rw [List.nil_append] at htrace
      subst htrace
      exact .inr ⟨f, trace, d, rest, hperform, hcourse, hrefused⟩

/-- **What performs a course hands over its entries.** -/
theorem Performs.ends (h : Performs s (some layer) p course ()) :
    Ends s layer (course.filterMap FlushEvent.delivery?) (start p s) := by
  obtain ⟨hperform, hnone⟩ | ⟨f, first, d, rest, hperform, hcourse, hrefused⟩ := h.ok_or_error
  · rw [hperform]
    refine ⟨rfl, fun _ => rfl, fun f hf => (by cases hf), ?_⟩
    refine iff_of_true rfl fun first d rest hentries => ?_
    obtain ⟨before, after, hcourse, rfl⟩ := exists_course_of_entries hentries
    exact hnone before d after hcourse
  · have hentries : course.filterMap FlushEvent.delivery? =
        first.filterMap FlushEvent.delivery? ++ d :: rest.filterMap FlushEvent.delivery? := by
      rw [hcourse]
      exact List.filterMap_append
    rw [hperform]
    refine ⟨rfl, fun hok => (by cases hok), fun g hg => ?_, ?_⟩
    · cases hg
      exact ⟨d, _, hentries, hrefused⟩
    · refine iff_of_false (fun hok => by cases hok) fun hnone => ?_
      rw [hnone _ d _ hentries] at hrefused
      cases hrefused

/-- A program that comes to its end did all of its course, and one that does not did some of it. -/
theorem Performs.trace (h : Performs s (some layer) p course ()) :
    (start p s).2.trace <+: course ∧
      ((start p s).1 = .ok () → (start p s).2.trace = course) := by
  obtain ⟨hperform, -⟩ | ⟨f, first, d, rest, hperform, hcourse, -⟩ := h.ok_or_error
  · rw [hperform]
    exact ⟨List.prefix_refl _, fun _ => rfl⟩
  · rw [hperform, hcourse]
    exact ⟨List.prefix_append _ _, fun hok => by cases hok⟩

end FlushM

/-! ## The entries of a bucket -/

namespace Bucket

variable {b : Bucket V} {hash : Bytes → Nat} {shards : Nat} {keys : List Bytes} {d : Delivery V}

theorem mem_deliveries_iff :
    d ∈ b.deliveries keys ↔ d.bucket = b.name ∧ d.key ∈ keys ∧ b.map.get? d.key = some d.value := by
  obtain ⟨bucket, key, value⟩ := d
  simp only [deliveries, List.mem_filterMap, Option.map_eq_some_iff, Delivery.mk.injEq]
  constructor
  · rintro ⟨k, hk, v, hv, rfl, rfl, rfl⟩
    exact ⟨rfl, hk, hv⟩
  · rintro ⟨rfl, hk, hv⟩
    exact ⟨key, hk, value, hv, rfl, rfl, rfl⟩

/-- **Keys that are absent are skipped**, and the others keep their order. -/
theorem key_deliveries (h : b.map.Spread hash shards) (keys : List Bytes) :
    (b.deliveries keys).map Delivery.key = keys.filter b.map.contains := by
  induction keys with
  | nil => rfl
  | cons key keys ih =>
    rw [List.filter_cons, ← ih, deliveries, List.filterMap_cons]
    cases hvalue : b.map.get? key with
    | none =>
      have habsent : ¬ b.map.contains key = true := by simp [contains_iff h, hvalue]
      rw [if_neg habsent]
      rfl
    | some value =>
      have hpresent : b.map.contains key = true := (contains_iff h key).mpr ⟨value, hvalue⟩
      rw [if_pos hpresent]
      rfl

/-- All keys that are listed have a value. -/
theorem key_deliveries_selected (h : b.map.Spread hash shards) (condition : FlushCondition) :
    (b.deliveries (b.selected condition)).map Delivery.key = b.selected condition := by
  rw [key_deliveries h, List.filter_eq_self]
  intro key hkey
  have hlisted : key ∈ b.keys := (List.mem_filter.mp hkey).1
  rwa [← mem_keys_iff h]

theorem nodup_deliveries_selected (h : b.map.Spread hash shards) (condition : FlushCondition) :
    (b.deliveries (b.selected condition)).Nodup := by
  refine List.Nodup.of_map Delivery.key ?_
  rw [key_deliveries_selected h]
  exact (nodup_keys h).filter _

end Bucket

/-! ## The entries of a store -/

namespace Store

variable {s : Store V} {condition : FlushCondition} {d : Delivery V}

/-- The keys that are present, with the names of their buckets. -/
def present (s : Store V) : List (Bytes × Bytes) :=
  s.current.flatMap fun b => b.keys.map fun key => (b.name, key)

/-- The buckets from which a condition selects something, with what it selects. -/
def selections (s : Store V) (condition : FlushCondition) : List (Bytes × List Bytes) :=
  s.current.filterMap fun b =>
    if (b.selected condition).isEmpty then none else some (b.name, b.selected condition)

/-- **The entries that a condition selects**, in the order in which they are flushed. -/
def selected (s : Store V) (condition : FlushCondition) : List (Delivery V) :=
  s.current.flatMap fun b => b.deliveries (b.selected condition)

/-- **A list has the keys that are present, each of them once.** -/
structure Lists (s : Store V) (keys : List (Bytes × Bytes)) : Prop where
  mem_iff : ∀ name key, (name, key) ∈ keys ↔
    ∃ i b, s.Serves name i b ∧ b.map.contains key = true
  nodup : keys.Nodup

/-- **A list has the entries that are present and selected**, each of them once and with its value,
in ascending order of the buckets and in the order of the keys of each bucket. -/
structure Selects (s : Store V) (condition : FlushCondition) (entries : List (Delivery V)) : Prop where
  mem_iff : ∀ d, d ∈ entries ↔ ∃ i b, s.Serves d.bucket i b ∧ b.get d.key = .ok d.value ∧
    condition d.bucket d.key = true
  nodup : entries.Nodup
  ascending : entries.Pairwise fun d e => d.bucket = e.bucket ∨ Bytes.less d.bucket e.bucket = true
  inOrder : ∀ name i b, s.Serves name i b →
    (entries.filter fun d => d.bucket = name).map Delivery.key = b.keys.filter (condition name)

/-- The current buckets ascend in their names. -/
theorem Sound.ascending_current (h : s.Sound) :
    s.current.Pairwise fun b c => Bytes.less b.name c.name = true := by
  have hnames : (s.current.map Bucket.name).Pairwise fun m n => Bytes.less m n = true := by
    rw [h.names_current]
    exact h.ascending
  exact List.pairwise_map.mp hnames

theorem ne_of_less {m n : Bytes} (h : Bytes.less m n = true) : m ≠ n := by
  rintro rfl
  rw [Bytes.less_irrefl] at h
  cases h

theorem Filled.spread_of_serves (h : s.Filled) {name : Bytes} {i : Instance} {b : Bucket V}
    (hb : s.Serves name i b) : b.map.Spread s.hash s.shards :=
  h.spread b (List.mem_of_getElem? hb.bucket)

theorem Filled.spread_of_mem (h : s.Filled) {b : Bucket V} (hb : b ∈ s.current) :
    b.map.Spread s.hash s.shards := by
  obtain ⟨name, i, hserves⟩ := h.sound.mem_current_iff.mp hb
  exact h.spread_of_serves hserves

theorem Filled.lists (h : s.Filled) : s.Lists s.present where
  mem_iff name key := by
    simp only [present, List.mem_flatMap, List.mem_map, Prod.mk.injEq]
    constructor
    · rintro ⟨b, hb, k, hk, rfl, rfl⟩
      obtain ⟨name, i, hserves⟩ := h.sound.mem_current_iff.mp hb
      rw [h.sound.name_eq hserves]
      exact ⟨i, b, hserves, (Bucket.mem_keys_iff (h.spread_of_mem hb) k).mp hk⟩
    · rintro ⟨i, b, hserves, hkey⟩
      have hb := h.sound.mem_current_iff.mpr ⟨name, i, hserves⟩
      exact ⟨b, hb, key, (Bucket.mem_keys_iff (h.spread_of_mem hb) key).mpr hkey,
        h.sound.name_eq hserves, rfl⟩
  nodup := by
    refine List.pairwise_flatMap.mpr ⟨fun b hb => ?_, ?_⟩
    · have hkeys := Bucket.nodup_keys (h.spread_of_mem hb)
      exact hkeys.map fun k k' heq => (Prod.mk.inj heq).2
    · refine h.sound.ascending_current.imp fun hless x hx y hy heq => ?_
      obtain ⟨k, -, rfl⟩ := List.mem_map.mp hx
      obtain ⟨k', -, rfl⟩ := List.mem_map.mp hy
      exact ne_of_less hless (Prod.mk.inj heq).1

theorem Filled.selects (h : s.Filled) (condition : FlushCondition) :
    s.Selects condition (s.selected condition) where
  mem_iff d := by
    simp only [selected, List.mem_flatMap, Bucket.mem_deliveries_iff, Bucket.selected,
      List.mem_filter, Bucket.get_eq_ok_iff]
    constructor
    · rintro ⟨b, hb, hname, ⟨-, hcondition⟩, hvalue⟩
      obtain ⟨name, i, hserves⟩ := h.sound.mem_current_iff.mp hb
      have hsame : d.bucket = name := hname.trans (h.sound.name_eq hserves)
      exact ⟨i, b, hsame ▸ hserves, hvalue, hname ▸ hcondition⟩
    · rintro ⟨i, b, hserves, hvalue, hcondition⟩
      have hb := h.sound.mem_current_iff.mpr ⟨_, i, hserves⟩
      have hname := h.sound.name_eq hserves
      have hspread := h.spread_of_mem hb
      have hpresent := (Bucket.contains_iff hspread d.key).mpr ⟨_, hvalue⟩
      exact ⟨b, hb, hname.symm, ⟨(Bucket.mem_keys_iff hspread _).mpr hpresent,
        hname.symm ▸ hcondition⟩, hvalue⟩
  nodup := by
    refine List.pairwise_flatMap.mpr ⟨fun b hb => ?_, ?_⟩
    · exact Bucket.nodup_deliveries_selected (h.spread_of_mem hb) condition
    · refine h.sound.ascending_current.imp fun hless d hd e he heq => ?_
      rw [heq] at hd
      exact ne_of_less hless ((Bucket.mem_deliveries_iff.mp hd).1.symm.trans
        (Bucket.mem_deliveries_iff.mp he).1)
  ascending := by
    refine List.pairwise_flatMap.mpr ⟨fun b _ => ?_, ?_⟩
    · refine List.pairwise_of_forall_mem_list fun d hd e he => .inl ?_
      exact (Bucket.mem_deliveries_iff.mp hd).1.trans (Bucket.mem_deliveries_iff.mp he).1.symm
    · refine h.sound.ascending_current.imp fun hless d hd e he => .inr ?_
      rw [(Bucket.mem_deliveries_iff.mp hd).1, (Bucket.mem_deliveries_iff.mp he).1]
      exact hless
  inOrder name i b hserves := by
    have hb := h.sound.mem_current_iff.mpr ⟨name, i, hserves⟩
    have hname := h.sound.name_eq hserves
    obtain ⟨before, after, hcurrent⟩ := List.append_of_mem hb
    have hascending := h.sound.ascending_current
    rw [hcurrent, List.pairwise_append, List.pairwise_cons] at hascending
    obtain ⟨-, ⟨hafter, -⟩, hbefore⟩ := hascending
    have hother : ∀ c : Bucket V, c.name ≠ name →
        (c.deliveries (c.selected condition)).filter (fun d => d.bucket = name) = [] := by
      intro c hc
      refine List.filter_eq_nil_iff.mpr fun d hd => ?_
      rw [(Bucket.mem_deliveries_iff.mp hd).1]
      simpa using hc
    have hown : (b.deliveries (b.selected condition)).filter (fun d => d.bucket = name) =
        b.deliveries (b.selected condition) := by
      refine List.filter_eq_self.mpr fun d hd => ?_
      rw [(Bucket.mem_deliveries_iff.mp hd).1]
      simpa using hname
    have hnil : ∀ cs : List (Bucket V), (∀ c ∈ cs, c.name ≠ name) → (cs.flatMap fun c =>
        c.deliveries (c.selected condition)).filter (fun d => d.bucket = name) = [] := by
      intro cs hcs
      rw [List.filter_flatMap]
      exact List.flatMap_eq_nil_iff.mpr fun c hc => hother c (hcs c hc)
    rw [selected, hcurrent, List.flatMap_append, List.flatMap_cons, List.filter_append,
      List.filter_append, hown, hnil, hnil, List.nil_append, List.append_nil,
      Bucket.key_deliveries_selected (h.spread_of_mem hb), Bucket.selected, hname]
    · exact fun c hc => hname ▸ (ne_of_less (hafter c hc)).symm
    · exact fun c hc => hname ▸ ne_of_less (hbefore c hc b List.mem_cons_self)

end Store

/-! ## What the course of a flush holds -/

namespace Bucket

variable {b : Bucket V} {layer : Option (StorageLayer V)} {condition : FlushCondition} {α : Type}

/-- Only deliveries are handed over. -/
theorem filterMap_handing {f : FlushEvent V → Option α} (h : ∀ d, f (.delivered d) = none)
    (b : Bucket V) (layer : Option (StorageLayer V)) (keys : List Bytes) :
    (b.handing layer keys).filterMap f = [] := by
  cases layer with
  | none => rfl
  | some l =>
    rw [handing, List.filterMap_map]
    exact List.filterMap_eq_nil_iff.mpr fun d _ => h d

/-- What is read off the events of a bucket that are not questions. -/
theorem filterMap_selectionCourse {f : FlushEvent V → Option α}
    (h : ∀ key, f (.asked b.name key) = none) :
    (b.selectionCourse layer condition).filterMap f =
      if (b.selected condition).isEmpty then []
      else (b.flushCourse layer (b.selected condition)).filterMap f := by
  have hasked : (b.keys.map (FlushEvent.asked b.name)).filterMap f = [] := by
    rw [List.filterMap_map]
    exact List.filterMap_eq_nil_iff.mpr fun key _ => h key
  rw [selectionCourse, List.filterMap_append, hasked, List.nil_append]
  split <;> rfl

theorem asked_selectionCourse : (b.selectionCourse layer condition).filterMap FlushEvent.asked? =
    b.keys.map fun key => (b.name, key) := by
  have hrest : (if (b.selected condition).isEmpty then []
      else b.flushCourse layer (b.selected condition)).filterMap FlushEvent.asked? = [] := by
    split
    · rfl
    · exact filterMap_handing (fun _ => rfl) b layer _
  rw [selectionCourse, List.filterMap_append, hrest, List.append_nil, List.filterMap_map]
  exact congrFun List.filterMap_eq_map _

theorem called_selectionCourse : (b.selectionCourse layer condition).filterMap FlushEvent.called? =
    if (b.selected condition).isEmpty then [] else [(b.name, b.selected condition)] := by
  have hcalled : (b.flushCourse layer (b.selected condition)).filterMap FlushEvent.called? =
      (b.name, b.selected condition) :: (b.handing layer (b.selected condition)).filterMap
        FlushEvent.called? := rfl
  rw [filterMap_selectionCourse fun _ => rfl, hcalled, filterMap_handing fun _ => rfl]

theorem delivered_flushCourse (b : Bucket V) (l : StorageLayer V) (keys : List Bytes) :
    (b.flushCourse (some l) keys).filterMap FlushEvent.delivery? = b.deliveries keys := by
  change ((b.deliveries keys).map FlushEvent.delivered).filterMap FlushEvent.delivery? = _
  rw [List.filterMap_map]
  exact List.filterMap_some

theorem delivered_selectionCourse (b : Bucket V) (l : StorageLayer V) (condition : FlushCondition) :
    (b.selectionCourse (some l) condition).filterMap FlushEvent.delivery? =
      b.deliveries (b.selected condition) := by
  rw [filterMap_selectionCourse fun _ => rfl, delivered_flushCourse]
  split
  · next hempty =>
    rw [List.isEmpty_iff.mp hempty]
    rfl
  · rfl

end Bucket

namespace Store

variable {s : Store V} {layer : Option (StorageLayer V)} {condition : FlushCondition}

theorem asked_flushCourse (s : Store V) (layer : Option (StorageLayer V))
    (condition : FlushCondition) :
    (s.flushCourse layer condition).filterMap FlushEvent.asked? = s.present := by
  simp only [flushCourse, List.filterMap_flatMap, Bucket.asked_selectionCourse, present]

theorem called_flushCourse (s : Store V) (layer : Option (StorageLayer V))
    (condition : FlushCondition) :
    (s.flushCourse layer condition).filterMap FlushEvent.called? = s.selections condition := by
  simp only [flushCourse, List.filterMap_flatMap, Bucket.called_selectionCourse, selections]
  induction s.current with
  | nil => rfl
  | cons b rest ih =>
    rw [List.flatMap_cons, List.filterMap_cons, ih]
    by_cases hempty : (b.selected condition).isEmpty = true
    · rw [if_pos hempty, if_pos hempty]
      rfl
    · rw [if_neg hempty, if_neg hempty]
      rfl

theorem delivered_flushCourse (s : Store V) (l : StorageLayer V) (condition : FlushCondition) :
    (s.flushCourse (some l) condition).filterMap FlushEvent.delivery? = s.selected condition := by
  simp only [flushCourse, List.filterMap_flatMap, Bucket.delivered_selectionCourse, selected]

end Store

/-! ## The run and its outcome -/

/-- How a flush that is reported ended. -/
def FlushReport.outcome (r : FlushReport V) : Outcome Unit :=
  match r.failure with
  | none => .ok ()
  | some f => .error f

/-- A flush under way ends as a report says. -/
structure FlushReport.Tells (report : FlushReport V) (r : Outcome Unit × Flushing V) : Prop where
  outcome : r.1 = report.outcome
  delivered : r.2.delivered = report.delivered

/-- A storage layer that answers to each delivery the same at all times. -/
def FlushHook.layer (hook : FlushHook V) : StorageLayer V :=
  fun _ d => hook d

namespace FlushM

/-- Events that are no deliveries happen. -/
theorem walk_of_plain {layer : Option (StorageLayer V)} {course : List (FlushEvent V)}
    (h : course.filterMap FlushEvent.delivery? = []) (past : List (FlushEvent V)) :
    walk layer past course = (.ok (), past ++ course) := by
  induction course generalizing past with
  | nil => rw [walk, List.append_nil]
  | cons e rest ih =>
    cases e with
    | delivered d => simp [FlushEvent.delivery?] at h
    | asked bucket key =>
      rw [walk]
      exact (ih h _).trans (by rw [List.append_assoc, List.singleton_append])
    | called bucket keys =>
      rw [walk]
      exact (ih h _).trans (by rw [List.append_assoc, List.singleton_append])

/-- Deliveries happen as they are reported. -/
theorem walk_report (hook : FlushHook V) (past : List (FlushEvent V)) (entries : List (Delivery V)) :
    walk (some hook.layer) past (entries.map .delivered) =
      ((Delivery.report hook entries).outcome,
        past ++ (Delivery.report hook entries).delivered.map .delivered) := by
  induction entries generalizing past with
  | nil => simp [walk, Delivery.report, FlushReport.outcome]
  | cons d rest ih =>
    have hrefusal : refusal? (some hook.layer) past (.delivered d) = hook d := rfl
    rw [List.map_cons, walk, hrefusal, Delivery.report]
    cases hook d with
    | some f => simp [FlushReport.outcome]
    | none =>
      simp only [ih, List.map_cons, List.append_assoc, List.singleton_append]
      rfl

/-- **A course is reported**: what was asked and delivered of it before it was cut off, and how it
ended. -/
def Reported (layer : Option (StorageLayer V)) (course : List (FlushEvent V))
    (asked : List (Bytes × Bytes)) (report : FlushReport V) : Prop :=
  ∀ past, ∃ trace, walk layer past course = (report.outcome, past ++ trace) ∧
    trace.filterMap FlushEvent.asked? = asked ∧
    trace.filterMap FlushEvent.delivery? = report.delivered

section Reported

variable {s : Store V} {p : FlushM V Unit} {layer : Option (StorageLayer V)}
  {course rest : List (FlushEvent V)} {asked later : List (Bytes × Bytes)}
  {report last : FlushReport V}

theorem Reported.of_plain (h : course.filterMap FlushEvent.delivery? = []) :
    Reported layer course (course.filterMap FlushEvent.asked?) {} :=
  fun past => ⟨course, walk_of_plain h past, rfl, h⟩

/-- What performs a course ends as the course is reported. -/
theorem Reported.tells (h : Reported layer course asked report)
    (hp : Performs s layer p course ()) :
    report.Tells (start p s) ∧ asked = (start p s).2.asked := by
  obtain ⟨trace, hwalk, hasked, hdelivered⟩ := h []
  have hperform : start p s = _ := hp []
  rw [hwalk] at hperform
  rw [hperform]
  refine ⟨⟨?_, hdelivered⟩, hasked.symm⟩
  change Except.map _ report.outcome = report.outcome
  cases report.outcome <;> rfl

/-- After a failure nothing happens. -/
theorem Reported.of_failure (h : Reported layer course asked report) {f : Failure}
    (hf : report.failure = some f) : Reported layer (course ++ rest) asked report := by
  intro past
  obtain ⟨trace, hwalk, hasked, hdelivered⟩ := h past
  refine ⟨trace, ?_, hasked, hdelivered⟩
  rw [FlushReport.outcome, hf] at hwalk ⊢
  rw [walk_append, hwalk]

theorem Reported.append (h : Reported layer course asked report) (hok : report.failure = none)
    (hrest : Reported layer rest later last) :
    Reported layer (course ++ rest) (asked ++ later)
      { last with delivered := report.delivered ++ last.delivered } := by
  intro past
  obtain ⟨trace, hwalk, hasked, hdelivered⟩ := h past
  obtain ⟨trace', hwalk', hasked', hdelivered'⟩ := hrest (past ++ trace)
  rw [FlushReport.outcome, hok] at hwalk
  refine ⟨trace ++ trace', ?_, ?_, ?_⟩
  · rw [walk_append, hwalk]
    exact hwalk'.trans (by rw [List.append_assoc]; rfl)
  · rw [List.filterMap_append, hasked, hasked']
  · rw [List.filterMap_append, hdelivered, hdelivered']

end Reported

/-- **The flush of a bucket is reported** by what the bucket says of it. -/
theorem reported_flushCourse (b : Bucket V) (hook : Option (FlushHook V)) (keys : List Bytes) :
    Reported (hook.map FlushHook.layer) (b.flushCourse (hook.map FlushHook.layer) keys) []
      (b.flush hook keys) := by
  cases hook with
  | none => exact fun past => ⟨[.called b.name keys], rfl, rfl, rfl⟩
  | some hook =>
    intro past
    refine ⟨.called b.name keys :: (b.flush (some hook) keys).delivered.map .delivered, ?_, ?_, ?_⟩
    · refine (walk_report hook (past ++ [.called b.name keys]) (b.deliveries keys)).trans ?_
      rw [List.append_assoc]
      rfl
    · rw [List.filterMap_cons, List.filterMap_map]
      exact List.filterMap_eq_nil_iff.mpr fun d _ => rfl
    · rw [List.filterMap_cons, List.filterMap_map]
      exact List.filterMap_some

end FlushM

/-- The keys that are asked about are those of the bucket, and those are chosen that the condition
selects. -/
theorem Selection.ofKeys_eq (condition : FlushCondition) (bucket : Bytes) (keys : List Bytes) :
    Selection.ofKeys condition bucket keys = ⟨keys, keys.filter (condition bucket)⟩ := by
  have hfold : ∀ s : Selection, keys.foldl (fun s key =>
      { asked := s.asked ++ [key]
        chosen := if condition bucket key then s.chosen ++ [key] else s.chosen }) s =
      ⟨s.asked ++ keys, s.chosen ++ keys.filter (condition bucket)⟩ := by
    induction keys with
    | nil => simp
    | cons key keys ih =>
      intro s
      rw [List.foldl_cons, ih, List.filter_cons]
      split <;> simp
  exact hfold {}

namespace FlushM

theorem reported_selectionCourse (b : Bucket V) (hook : Option (FlushHook V))
    (condition : FlushCondition) :
    Reported (hook.map FlushHook.layer) (b.selectionCourse (hook.map FlushHook.layer) condition)
      ((b.flushSelected hook condition).1.asked.map fun key => (b.name, key))
      (b.flushSelected hook condition).2 := by
  have hplain : (b.keys.map (FlushEvent.asked (V := V) b.name)).filterMap FlushEvent.delivery? =
      [] := by
    rw [List.filterMap_map]
    exact List.filterMap_eq_nil_iff.mpr fun key _ => rfl
  have hkeys : (b.keys.map (FlushEvent.asked (V := V) b.name)).filterMap FlushEvent.asked? =
      b.keys.map fun key => (b.name, key) := by
    rw [List.filterMap_map]
    exact congrFun List.filterMap_eq_map _
  have hasked : Reported (hook.map FlushHook.layer) (b.keys.map (.asked b.name))
      (b.keys.map fun key => (b.name, key)) {} := hkeys ▸ .of_plain hplain
  rw [Bucket.flushSelected, Selection.ofKeys_eq, Bucket.selectionCourse, Bucket.selected]
  by_cases hempty : (b.keys.filter (condition b.name)).isEmpty = true
  · simpa only [hempty, if_true, List.append_nil] using hasked
  · simpa only [hempty, Bool.false_eq_true, if_false, List.append_nil, List.nil_append] using
      hasked.append rfl (reported_flushCourse b hook (b.keys.filter (condition b.name)))

/-- The buckets of a list are reported as they are flushed. -/
theorem reported_flushEach (hook : Option (FlushHook V)) (condition : FlushCondition)
    (buckets : List (Bucket V)) :
    Reported (hook.map FlushHook.layer)
      (buckets.flatMap fun b => b.selectionCourse (hook.map FlushHook.layer) condition)
      ((Store.flushEach hook condition buckets).1.flatMap fun p => p.2.map fun key => (p.1, key))
      (Store.flushEach hook condition buckets).2 := by
  induction buckets with
  | nil => exact fun past => ⟨[], by simp [walk, Store.flushEach, FlushReport.outcome], rfl, rfl⟩
  | cons b rest ih =>
    have hfirst := reported_selectionCourse b hook condition
    rw [List.flatMap_cons, Store.flushEach]
    cases hfailure : (b.flushSelected hook condition).2.failure with
    | some f => simpa [hfailure] using hfirst.of_failure hfailure
    | none => simpa [hfailure] using hfirst.append hfailure ih

end FlushM

namespace Store

variable {s : Store V} {condition : FlushCondition} {layer : StorageLayer V}

/-- **The flush of a store is exact.** -/
structure FlushesExactly (s : Store V) (condition : FlushCondition) (layer : StorageLayer V)
    (r : Outcome Unit × Flushing V) : Prop where
  /-- The entries that are handed over are those that are selected, up to one that is refused, and
  the store stays as it is. -/
  ends : FlushM.Ends s layer (s.selected condition) r
  selects : s.Selects condition (s.selected condition)
  /-- The condition is asked about the keys that are present. -/
  asked : r.2.asked <+: s.present ∧ (r.1 = .ok () → r.2.asked = s.present)
  lists : s.Lists s.present
  /-- A bucket is flushed with what is selected of it, and not for nothing. -/
  called : r.2.called <+: s.selections condition ∧ (r.1 = .ok () → r.2.called = s.selections condition)
  needed : ∀ name keys, (name, keys) ∈ r.2.called → keys ≠ []

/-- **The flush of a bucket with a list of keys is exact.** -/
structure HandsOver (s : Store V) (b : Bucket V) (layer : StorageLayer V) (keys : List Bytes)
    (r : Outcome Unit × Flushing V) : Prop where
  ends : FlushM.Ends s layer (b.deliveries keys) r
  /-- The entries are those of the keys that are present, in the order of the list. -/
  inOrder : (b.deliveries keys).map Delivery.key = keys.filter b.map.contains
  values : ∀ d ∈ b.deliveries keys, d.bucket = b.name ∧ b.get d.key = .ok d.value

/-- **Flushes of a store are exact**, and those whose storage layer does not depend on what it was
given end as they are said to end. -/
structure FlushExact (s : Store V) : Prop where
  store : ∀ condition layer, s.FlushesExactly condition layer
    (FlushM.start (FlushM.flushStore (some layer) condition) s)
  bucket : ∀ i b layer keys, s.buckets[i]? = some b → s.HandsOver b layer keys
    (FlushM.start (FlushM.flushKeys (some layer) i keys) s)
  frame : ∀ condition layer, (FlushM.start (FlushM.flushStore layer condition) s).2.store = s
  storeTold : ∀ condition hook,
    (s.flush hook condition).2.Tells
      (FlushM.start (FlushM.flushStore (hook.map FlushHook.layer) condition) s) ∧
    (s.flush hook condition).1.flatMap (fun p => p.2.map fun key => (p.1, key)) =
      (FlushM.start (FlushM.flushStore (hook.map FlushHook.layer) condition) s).2.asked
  bucketTold : ∀ (i : Instance) (b : Bucket V) hook keys, s.buckets[i]? = some b →
    (b.flush hook keys).Tells
      (FlushM.start (FlushM.flushKeys (hook.map FlushHook.layer) i keys) s)

theorem selections_nonempty {name : Bytes} {keys : List Bytes}
    (h : (name, keys) ∈ s.selections condition) : keys ≠ [] := by
  obtain ⟨b, -, hb⟩ := List.mem_filterMap.mp h
  split at hb
  · cases hb
  · next hnonempty =>
    cases hb
    exact fun hnil => hnonempty (List.isEmpty_iff.mpr hnil)

theorem flushStore_exact (h : s.Filled) (condition : FlushCondition) (layer : StorageLayer V) :
    s.FlushesExactly condition layer
      (FlushM.start (FlushM.flushStore (some layer) condition) s) := by
  have hperforms : FlushM.Performs s (some layer) _ _ () := FlushM.performs_flushStore condition
  obtain ⟨hpart, hwhole⟩ := hperforms.trace
  have hasked := asked_flushCourse s (some layer) condition
  have hcalled := called_flushCourse s (some layer) condition
  have hpart' := hcalled ▸ hpart.filterMap FlushEvent.called?
  refine ⟨delivered_flushCourse s layer condition ▸ hperforms.ends, h.selects condition,
    ⟨hasked ▸ hpart.filterMap FlushEvent.asked?, fun hok => ?_⟩, h.lists,
    ⟨hpart', fun hok => ?_⟩, fun name keys hmem => selections_nonempty (hpart'.subset hmem)⟩
  · rw [Flushing.asked, hwhole hok, hasked]
  · rw [Flushing.called, hwhole hok, hcalled]

theorem flushKeys_exact (h : s.Filled) {i : Instance} {b : Bucket V} (hb : s.buckets[i]? = some b)
    (layer : StorageLayer V) (keys : List Bytes) :
    s.HandsOver b layer keys (FlushM.start (FlushM.flushKeys (some layer) i keys) s) := by
  have hperforms : FlushM.Performs s (some layer) _ _ () := FlushM.performs_flushKeys hb keys
  refine ⟨b.delivered_flushCourse layer keys ▸ hperforms.ends,
    Bucket.key_deliveries (h.spread b (List.mem_of_getElem? hb)) keys, fun d hd => ?_⟩
  obtain ⟨hname, -, hvalue⟩ := Bucket.mem_deliveries_iff.mp hd
  exact ⟨hname, Bucket.get_eq_ok_iff.mpr hvalue⟩

/-- **In every state whose buckets are filled, flushes are exact.** -/
theorem flush_exact (h : s.Filled) : s.FlushExact where
  store := flushStore_exact h
  bucket i b layer keys hb := flushKeys_exact h hb layer keys
  frame condition layer :=
    congrArg (fun r => r.2.store) (FlushM.performs_flushStore (s := s) condition [])
  storeTold condition hook := by
    have hperforms : FlushM.Performs s (hook.map FlushHook.layer) _ _ () :=
      FlushM.performs_flushStore condition
    exact (FlushM.reported_flushEach hook condition s.current).tells hperforms
  bucketTold i b hook keys hb :=
    ((FlushM.reported_flushCourse b hook keys).tells (FlushM.performs_flushKeys hb keys)).1

/-- A new bucket in which texts are put. -/
def stocked (name : Bytes) (entries : List (Bytes × Bytes)) : Bucket Value where
  name := name
  map := entries.foldl (fun m p => m.put p.1 (some (.text p.2))) ⟨List.length, [[], []]⟩

/-- A store with two buckets, of which the one that was made later has the name that comes first. -/
def shop (first last : List (Bytes × Bytes)) : Store Value where
  hash := List.length
  shards := 2
  workers := 1
  pool := { capacity := 1, workers := [.idle] }
  registry := [([97], some 1), ([98], some 0)]
  buckets := [stocked [98] last, stocked [97] first]

theorem changed_stocked {s : Store Value} {i : Instance} {name : Bytes}
    (hbucket : s.buckets[i]? = some (stocked name [])) (entries : List (Bytes × Bytes)) :
    s.Changed { s with buckets := s.buckets.set i (stocked name entries) } := by
  have hrun : ∀ m : ShardedMap Value, BucketSystem.run? ⟨⟨name, m, {}, none⟩, s.pool, [], 0⟩
      (entries.map fun p => .put p.1 (some (.text p.2))) =
      some ⟨⟨name, entries.foldl (fun m p => m.put p.1 (some (.text p.2))) m, {}, none⟩, s.pool, [],
        0⟩ := by
    induction entries with
    | nil => exact fun m => rfl
    | cons p entries ih => exact fun m => ih (m.put p.1 (some (.text p.2)))
  exact Changed.used hbucket (hrun _) none s.pool

theorem filled_shop (first last : List (Bytes × Bytes)) : (shop first last).Filled := by
  have hcreate : create List.length 1 1 2 =
      .ok ({ shop [] [] with registry := [], buckets := [] }, .say (Bytes.ascii
        "Store started with " ++ Bytes.ofNat 1 ++ Bytes.ascii " update workers")) := rfl
  have hmade : Reaches { shop [] [] with registry := [], buckets := [] } (shop [] []) :=
    .tail (.single (.call (.getOrCreate [98]) (.inl (by decide))))
      (.call (.getOrCreate [97]) (.inl (by decide)))
  have hlast : (shop [] []).Changed (shop [] last) := changed_stocked (i := 0) rfl last
  have hfirst : (shop [] last).Changed (shop first last) := changed_stocked (i := 1) rfl first
  exact filled_of_reaches hcreate ((hmade.tail hlast).tail hfirst)

/-- One entry in the bucket that was made first, and three in the other. -/
def wares : Store Value :=
  shop [([1], [10]), ([2], [20]), ([3, 3], [30])] [([1], [10])]

/-- A storage layer that takes one entry and then fails. -/
def takesOne : StorageLayer Value :=
  fun before _ => if before.isEmpty then none else some .poolStopped

/-- A flush that leaves out a key and fails at its second entry. -/
theorem wares_flushed :
    let r := FlushM.start (FlushM.flushStore (some takesOne) fun _ key => key ≠ [2]) wares
    r.1 = .error .poolStopped ∧ r.2.store = wares ∧
      r.2.delivered = [⟨[97], [3, 3], .text [30]⟩] ∧
      r.2.called = [([97], [[3, 3], [1]])] ∧
      ∃ d rest, wares.selected (fun _ key => key ≠ [2]) = r.2.delivered ++ d :: rest := by
  intro r
  have hflush : wares.FlushExact := flush_exact (filled_shop ..)
  have hexact := hflush.store (fun _ key => key ≠ [2]) takesOne
  have hfailed : r.1 = .error .poolStopped := rfl
  obtain ⟨d, rest, hentries, -⟩ := hexact.ends.refused _ hfailed
  exact ⟨hfailed, hexact.ends.frame, rfl, rfl, d, rest, hentries⟩

end Store

end Keyspace
