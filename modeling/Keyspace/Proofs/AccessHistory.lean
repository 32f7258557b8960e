import Keyspace.Proofs.UpdateChronicle
import Keyspace.Proofs.UpdateSerial

/-!
# Histories of accesses

The accesses to one key form a history: each has a time at which it starts, a time at which it
returns, and what it does and shows. The history is linearizable when the accesses can be put in one
order that agrees with the times and in which each of them does what it did (`Linearizable`).

An update is serial with other updates, but a `put` or a `remove` takes no lock and may fall between
its read and its store. As long as every store fits what it replaces, the history is linearizable, in
the order in which the accesses take effect (`linearizable_of_fits`). Without a `remove`, stores fit
exactly if none of them overwrites a `put` that fell between its read and itself (`fits_iff`). And
when the value that overwrites a `put` is observed, with no other update near, then no order explains
the history (`LostPut.not_linearizable`).
-/

namespace Keyspace

variable {V : Type}

/-- **What an access to a key did and showed.** An update that failed did nothing. -/
inductive Access V where
  | put (value : V)
  | get (seen : Option V)
  | remove (found : Bool)
  | update (call : UpdateCall V) (stored : V)
  | failed (call : UpdateCall V) (failure : Failure)

open Classical in
/-- What a key has after an access, if the access can do and show what it did on a key that has the
value: `get` and `remove` show what is there, and an update stores what it makes of what is there. -/
noncomputable def Access.next? [Storable V] : Access V → Option V → Option (Option V)
  | .put x, _ => some (some x)
  | .get seen, v => if seen = v then some v else none
  | .remove found, v => if found = v.isSome then some none else none
  | .update c w, v => if v.bind c.makes? = some w then some (some w) else none
  | .failed _ _, v => some v

/-- **An access of a history**, with the times at which it starts and returns. -/
structure Operation V where
  start : Nat
  finish : Nat
  access : Access V

/-- **The accesses of a trace to a key**, each with the time at which it takes effect. A `put`, a
`get` and a `remove` are one event; an update lasts from its call to its return, and takes effect
when it stores; one that fails has no effect. -/
inductive Effect (key : Bytes) (events : List (Event V)) : Nat → Operation V → Prop
  | put {n : Nat} {v : V} (event : events[n]? = some (.put key v)) :
    Effect key events n ⟨n, n, .put v⟩
  | get {n : Nat} {seen : Option V} (event : events[n]? = some (.got key seen)) :
    Effect key events n ⟨n, n, .get seen⟩
  | remove {n : Nat} {found : Bool} (event : events[n]? = some (.removed key found)) :
    Effect key events n ⟨n, n, .remove found⟩
  | update {m n l : Nat} {id : CallId} {c : UpdateCall V} {w : V}
    (called : events[m]? = some (.called id c)) (onKey : c.key = key)
    (stored : events[n]? = some (.act id key (.stored w)))
    (returned : events[l]? = some (.act id key (.returned (.ok ())))) :
    Effect key events n ⟨m, l, .update c w⟩
  | failed {m l : Nat} {id : CallId} {c : UpdateCall V} {f : Failure}
    (called : events[m]? = some (.called id c)) (onKey : c.key = key)
    (returned : events[l]? = some (.act id key (.returned (.error f)))) :
    Effect key events l ⟨m, l, .failed c f⟩
  | absent {m l : Nat} {id : CallId} {c : UpdateCall V}
    (called : events[m]? = some (.called id c)) (onKey : c.key = key)
    (checked : events[l]? = some (.act id key (.checked false))) :
    Effect key events l ⟨m, l, .failed c (.keyMissing key)⟩

/-- What a key has after accesses one by one, if each can do what it did. -/
noncomputable def sequential [Storable V] (order : List (Operation V)) (v : Option V) :
    Option (Option V) :=
  order.foldlM (fun v o => o.access.next? v) v

/-- **The history of a key is linearizable**: there is an order of its accesses in which none comes
before one that had returned when it started, and in which one by one they do what they did and end
with the final value. -/
def Linearizable [Storable V] (key : Bytes) (initial : Option V) (events : List (Event V))
    (final : Option V) : Prop :=
  ∃ order : List (Operation V), order.Nodup ∧ (∀ o, o ∈ order ↔ ∃ n, Effect key events n o) ∧
    order.Pairwise (fun a b => ¬ b.finish < a.start) ∧ sequential order initial = some final

/-- **Every store fits**: an update stores what it makes of the value that it replaces. -/
def Fits [Storable V] (key : Bytes) (initial : Option V) (events : List (Event V)) : Prop :=
  ∀ (n m : Nat) (id : CallId) (w : V) (c : UpdateCall V), events[m]? = some (.called id c) →
    events[n]? = some (.act id key (.stored w)) →
      (replay key initial (events.take n)).bind c.makes? = some w

/-- **A `put` is overwritten**: the call stores `w` at `n` over the value `x` that was put at `p`,
after the call had read at `r`, and `w` is not what its update makes of `x`. -/
structure Overwritten [Storable V] (key : Bytes) (events : List (Event V)) (r p n : Nat) (id : CallId)
    (c : UpdateCall V) (x w : V) : Prop where
  called : .called id c ∈ events
  read : ∃ v, events[r]? = some (.act id key (.read v))
  put : events[p]? = some (.put key x)
  stored : events[n]? = some (.act id key (.stored w))
  order : r < p ∧ p < n
  last : ∀ (i : Nat) (e : Event V), p < i → i < n → events[i]? = some e → e.write? key = none
  unfit : c.makes? x ≠ some w

/-- **An update loses a `put`**: it overwrites the `put` by another value, which is then observed, by a
`get` at `g` or, if `g` is the end of the history, as the final value. No other update is near: each
had returned before the `put` or started after the `get`. -/
structure LostPut [Storable V] (key : Bytes) (events : List (Event V)) (r p n g : Nat) (id : CallId)
    (c : UpdateCall V) (x w : V) : Prop extends Overwritten key events r p n id c x w where
  changed : x ≠ w
  observed : n < g ∧ (g = events.length ∨ events[g]? = some (.got key (some w)))
  quiet : ∀ (i : Nat) (e : Event V), n < i → i < g → events[i]? = some e → e.write? key = none
  alone : ∀ (m k l : Nat) (j : CallId) (d : UpdateCall V) (v : V), j ≠ id →
    events[m]? = some (.called j d) → events[k]? = some (.act j key (.stored v)) →
    events[l]? = some (.act j key (.returned (.ok ()))) → l < p ∨ g < m

variable {id : CallId} {c : UpdateCall V} {events : List (Event V)} {key : Bytes} {n n' : Nat}
  {o o' : Operation V} {v₀ : Option V}

/-! ## The effects of a history -/

/-- An access takes effect after it starts and before it returns. -/
theorem Effect.bounds (h : Effect key events n o) (hc : Chronicle events) :
    o.start ≤ n ∧ n ≤ o.finish := by
  cases h with
  | put _ | get _ | remove _ => exact ⟨Nat.le_refl _, Nat.le_refl _⟩
  | update called _ stored returned =>
    exact ⟨Nat.le_of_lt (hc.called_lt called stored),
      Nat.le_of_lt (hc.act_lt stored returned (show 6 < 8 by decide))⟩
  | failed called _ returned =>
    exact ⟨Nat.le_of_lt (hc.called_lt called returned), Nat.le_refl _⟩
  | absent called _ checked => exact ⟨Nat.le_of_lt (hc.called_lt called checked), Nat.le_refl _⟩

/-- An access takes effect within the trace. -/
theorem Effect.lt_length (h : Effect key events n o) : n < events.length := by
  cases h with
  | put event | get event | remove event => exact lt_length_of_getElem? event
  | update _ _ event _ | failed _ _ event | absent _ _ event => exact lt_length_of_getElem? event

/-- Two calls under one name are one event. -/
theorem Chronicle.called_unique (hc : Chronicle events) {m m' : Nat} {c d : UpdateCall V}
    (h : events[m]? = some (.called id c)) (h' : events[m']? = some (.called id d)) :
    m = m' ∧ c = d := by
  have heq := hc.calledOnce m m' id c d h h'
  subst heq
  rw [h] at h'
  cases h'
  exact ⟨rfl, rfl⟩

/-- At one time one access takes effect. -/
theorem Effect.functional (h : Effect key events n o) (h' : Effect key events n o')
    (hc : Chronicle events) : o = o' := by
  cases h with
  | put event | get event | remove event =>
    cases h' with
    | put event' | get event' | remove event' | update _ _ event' _ | failed _ _ event'
    | absent _ _ event' => cases event.symm.trans event' <;> rfl
  | update called _ event returned =>
    cases h' with
    | update called' _ event' returned' =>
      cases event.symm.trans event'
      obtain ⟨rfl, rfl⟩ := hc.called_unique called called'
      cases hc.act_unique returned returned' rfl
      rfl
    | put event' | get event' | remove event' | failed _ _ event' | absent _ _ event' =>
      cases event.symm.trans event'
  | failed called _ event =>
    cases h' with
    | failed called' _ event' =>
      cases event.symm.trans event'
      obtain ⟨rfl, rfl⟩ := hc.called_unique called called'
      rfl
    | put event' | get event' | remove event' | update _ _ event' _ | absent _ _ event' =>
      cases event.symm.trans event'
  | absent called _ event =>
    cases h' with
    | absent called' _ event' =>
      cases event.symm.trans event'
      obtain ⟨rfl, rfl⟩ := hc.called_unique called called'
      rfl
    | put event' | get event' | remove event' | update _ _ event' _ | failed _ _ event' =>
      cases event.symm.trans event'

/-- An access takes effect once. -/
theorem Effect.injective (h : Effect key events n o) (h' : Effect key events n' o)
    (hc : Chronicle events) : n = n' := by
  cases h with
  | put _ | get _ | remove _ =>
    cases h'
    rfl
  | update called _ stored _ =>
    cases h' with
    | update called' _ stored' _ =>
      rw [called] at called'
      cases called'
      exact hc.act_unique stored stored' rfl
  | failed _ _ _ | absent _ _ _ => cases h' <;> rfl

/-! ## Order of effects -/

/-- One more event after a trace. -/
theorem replay_take_succ {e : Event V} (hn : events[n]? = some e) :
    replay key v₀ (events.take (n + 1)) = e.after key (replay key v₀ (events.take n)) := by
  rw [List.take_add_one, hn, Option.toList_some, replay_snoc]

/-- What a key has does not change where nothing writes it. -/
theorem replay_take_of_quiet {i : Nat} (hin : i ≤ n) (hn : n ≤ events.length)
    (hquiet : ∀ (j : Nat) (e : Event V), i ≤ j → j < n → events[j]? = some e →
      e.write? key = none) :
    replay key v₀ (events.take n) = replay key v₀ (events.take i) := by
  induction n with
  | zero => rw [Nat.le_zero.mp hin]
  | succ n ih =>
    rcases Nat.lt_or_eq_of_le hin with hlt | rfl
    · have hi : i ≤ n := Nat.le_of_lt_succ hlt
      have he := List.getElem?_eq_getElem hn
      rw [replay_take_succ he, Event.after, hquiet n _ hi (Nat.lt_succ_self n) he, Option.getD_none]
      exact ih hi (Nat.le_of_succ_le hn) fun j e hij hj => hquiet j e hij (Nat.lt_succ_of_lt hj)
    · rfl

/-- What a key has is what the last write to it left. -/
theorem replay_take_of_last {p : Nat} {e : Event V} {v : Option V} (hpn : p < n)
    (hn : n ≤ events.length) (he : events[p]? = some e) (hwrite : e.write? key = some v)
    (hlast : ∀ (j : Nat) (d : Event V), p < j → j < n → events[j]? = some d → d.write? key = none) :
    replay key v₀ (events.take n) = v := by
  rw [replay_take_of_quiet hpn hn fun j d hj hjn hd => hlast j d hj hjn hd, replay_take_succ he,
    Event.after, hwrite, Option.getD_some]

/-- An event with which no access takes effect writes nothing. -/
theorem write?_eq_none_of_no_effect {e : Event V} (hn : events[n]? = some e)
    (hstored : ∀ (id : CallId) (w : V), events[n]? = some (.act id key (.stored w)) →
      ∃ o, Effect key events n o)
    (hnone : ¬ ∃ o, Effect key events n o) : e.write? key = none := by
  cases hwrite : e.write? key with
  | none => rfl
  | some v =>
    rcases Event.write?_eq_some hwrite with ⟨x, rfl, _⟩ | ⟨id, x, rfl, _⟩ | ⟨rfl, _⟩
    · exact absurd ⟨_, .put hn⟩ hnone
    · exact absurd (hstored id x hn) hnone
    · exact absurd ⟨_, .remove hn⟩ hnone

/-- Between two times there is no write to a key, or a last one. -/
theorem last_write (key : Bytes) (events : List (Event V)) (r n : Nat) :
    (∀ (i : Nat) (e : Event V), r < i → i < n → events[i]? = some e → e.write? key = none) ∨
      ∃ (p : Nat) (e : Event V), r < p ∧ p < n ∧ events[p]? = some e ∧ e.write? key ≠ none ∧
        ∀ (i : Nat) (d : Event V), p < i → i < n → events[i]? = some d → d.write? key = none := by
  induction n with
  | zero => exact .inl fun i _ _ hi => absurd hi (Nat.not_lt_zero i)
  | succ n ih =>
    by_cases hn : r < n ∧ ∃ e, events[n]? = some e ∧ e.write? key ≠ none
    · obtain ⟨hr, e, he, hw⟩ := hn
      refine .inr ⟨n, e, hr, Nat.lt_succ_self n, he, hw, ?_⟩
      intro i d hi hi'
      exact absurd hi' (Nat.not_lt.mpr hi)
    · have hnone : ∀ e, r < n → events[n]? = some e → e.write? key = none := by
        intro e hr he
        refine Classical.byContradiction fun hw => hn ⟨hr, e, he, hw⟩
      rcases ih with hquiet | ⟨p, e, hr, hp, he, hw, hlast⟩
      · refine .inl ?_
        intro i e hri hi he
        rcases Nat.lt_succ_iff_lt_or_eq.mp hi with hi | rfl
        · exact hquiet i e hri hi he
        · exact hnone e hri he
      · refine .inr ⟨p, e, hr, Nat.lt_succ_of_lt hp, he, hw, ?_⟩
        intro i d hpi hi hd
        rcases Nat.lt_succ_iff_lt_or_eq.mp hi with hi | rfl
        · exact hlast i d hpi hi hd
        · exact hnone d (Nat.lt_trans hr hp) hd

variable [Storable V]

/-- **An access does what it did when it takes effect**, if stores fit. -/
theorem Effect.next?_eq (h : Effect key events n o)
    (hsees : ∀ (n : Nat) (e : Event V), events[n]? = some e →
      e.Sees key (replay key v₀ (events.take n)))
    (hfits : Fits key v₀ events) :
    o.access.next? (replay key v₀ (events.take n)) =
      some (replay key v₀ (events.take (n + 1))) := by
  cases h with
  | put event =>
    rw [replay_take_succ event, Event.after, Event.write?, if_pos rfl]
    rfl
  | get event =>
    have hseen := hsees n _ event rfl
    rw [replay_take_succ event]
    simp only [Access.next?, if_pos hseen]
    rfl
  | @remove n found event =>
    have hfound : found = (replay key v₀ (events.take n)).isSome := hsees n _ event rfl
    rw [replay_take_succ event]
    simp only [Access.next?, if_pos hfound]
    cases found with
    | true => simp [Event.after, Event.write?]
    | false =>
      have hnone : replay key v₀ (events.take n) = none := by simpa using hfound.symm
      simp [Event.after, Event.write?, hnone]
  | update called _ stored _ =>
    rw [replay_take_succ stored, Event.after, Event.write?, if_pos rfl]
    simp only [Access.next?, if_pos (hfits _ _ _ _ _ called stored)]
    rfl
  | failed _ _ returned =>
    rw [replay_take_succ returned]
    rfl
  | absent _ _ checked =>
    rw [replay_take_succ checked]
    rfl

/-- **The accesses that take effect before a time**, in an order that explains what they did. -/
structure Explained (key : Bytes) (v₀ : Option V) (events : List (Event V)) (n : Nat)
    (order : List (Operation V)) : Prop where
  distinct : order.Nodup
  members : ∀ o, o ∈ order ↔ ∃ i, i < n ∧ Effect key events i o
  timely : order.Pairwise (fun a b => ¬ b.finish < a.start)
  effective : sequential order v₀ = some (replay key v₀ (events.take n))

theorem Explained.nil : Explained key v₀ events 0 [] where
  distinct := List.nodup_nil
  members o := by
    constructor
    · intro h
      cases h
    · rintro ⟨i, hi, _⟩
      exact absurd hi (Nat.not_lt_zero i)
  timely := .nil
  effective := rfl

/-- The access that takes effect next comes last. -/
theorem Explained.snoc {order : List (Operation V)} (h : Explained key v₀ events n order)
    (hc : Chronicle events) (ho : Effect key events n o)
    (hnext : o.access.next? (replay key v₀ (events.take n)) =
      some (replay key v₀ (events.take (n + 1)))) :
    Explained key v₀ events (n + 1) (order ++ [o]) where
  distinct := by
    refine List.nodup_append.mpr ⟨h.distinct, by simp, ?_⟩
    intro a ha b hb heq
    obtain ⟨i, hi, hai⟩ := (h.members a).mp ha
    rw [List.mem_singleton.mp hb] at heq
    subst heq
    exact absurd (hai.injective ho hc) (Nat.ne_of_lt hi)
  members p := by
    rw [List.mem_append, h.members, List.mem_singleton]
    constructor
    · rintro (⟨i, hi, hp⟩ | rfl)
      · exact ⟨i, Nat.lt_succ_of_lt hi, hp⟩
      · exact ⟨n, Nat.lt_succ_self n, ho⟩
    · rintro ⟨i, hi, hp⟩
      rcases Nat.lt_succ_iff_lt_or_eq.mp hi with hi | rfl
      · exact .inl ⟨i, hi, hp⟩
      · exact .inr (hp.functional ho hc)
  timely := by
    refine List.pairwise_append.mpr ⟨h.timely, List.pairwise_singleton _ _, ?_⟩
    intro a ha b hb
    obtain ⟨i, hi, hai⟩ := (h.members a).mp ha
    rw [List.mem_singleton.mp hb]
    have hstart := (hai.bounds hc).1
    have hfinish := (ho.bounds hc).2
    omega
  effective := by
    have hfold := h.effective
    simp only [sequential] at hfold ⊢
    rw [List.foldlM_append, hfold]
    simp only [Option.bind_eq_bind, Option.bind_some, List.foldlM_cons, hnext, List.foldlM_nil]
    rfl

/-- Where no access takes effect, the order stays. -/
theorem Explained.skip {order : List (Operation V)} (h : Explained key v₀ events n order)
    (hnone : ¬ ∃ o, Effect key events n o)
    (hsame : replay key v₀ (events.take (n + 1)) = replay key v₀ (events.take n)) :
    Explained key v₀ events (n + 1) order where
  distinct := h.distinct
  members p := by
    rw [h.members]
    constructor
    · rintro ⟨i, hi, hp⟩
      exact ⟨i, Nat.lt_succ_of_lt hi, hp⟩
    · rintro ⟨i, hi, hp⟩
      rcases Nat.lt_succ_iff_lt_or_eq.mp hi with hi | rfl
      · exact ⟨i, hi, hp⟩
      · exact absurd ⟨p, hp⟩ hnone
  timely := h.timely
  effective := by rw [h.effective, hsame]

/-- **A history whose stores fit is linearizable**, in the order of the effects. -/
theorem linearizable_of_fits (hc : Chronicle events)
    (hsees : ∀ (n : Nat) (e : Event V), events[n]? = some e →
      e.Sees key (replay key v₀ (events.take n)))
    (hstored : ∀ (n : Nat) (id : CallId) (w : V),
      events[n]? = some (.act id key (.stored w)) → ∃ o, Effect key events n o)
    (hfits : Fits key v₀ events) : Linearizable key v₀ events (replay key v₀ events) := by
  have hpart : ∀ n, n ≤ events.length → ∃ order, Explained key v₀ events n order := by
    intro n
    induction n with
    | zero =>
      intro _
      exact ⟨[], .nil⟩
    | succ n ih =>
      intro hlt
      obtain ⟨order, horder⟩ := ih (Nat.le_of_succ_le hlt)
      by_cases heffect : ∃ o, Effect key events n o
      · obtain ⟨o, ho⟩ := heffect
        exact ⟨order ++ [o], horder.snoc hc ho (ho.next?_eq hsees hfits)⟩
      · have hn := List.getElem?_eq_getElem hlt
        refine ⟨order, horder.skip heffect ?_⟩
        rw [replay_take_succ hn, Event.after,
          write?_eq_none_of_no_effect hn (hstored n) heffect, Option.getD_none]
  obtain ⟨order, horder⟩ := hpart events.length (Nat.le_refl _)
  refine ⟨order, horder.distinct, ?_, horder.timely, ?_⟩
  · intro o
    rw [horder.members]
    constructor
    · rintro ⟨i, _, ho⟩
      exact ⟨i, ho⟩
    · rintro ⟨i, ho⟩
      exact ⟨i, ho.lt_length, ho⟩
  · rw [horder.effective, List.take_length]

/-! ## Lost puts -/

variable {r p g : Nat} {x w : V}

/-- Any access between the lost `put` and the observation leaves the value that was put, if it can do
what it did at all. -/
theorem LostPut.kept (h : LostPut key events r p n g id c x w) (hc : Chronicle events)
    (ho : Effect key events n' o) (hne : n' ≠ p) (hafter : ¬ o.finish < p)
    (hbefore : ¬ g < o.start) {v : Option V} (hnext : o.access.next? (some x) = some v) :
    v = some x := by
  -- a write is the store itself, or falls outside
  have hwrite : ∀ {e : Event V}, events[n']? = some e → ¬ n' < p → ¬ g < n' →
      e.write? key ≠ none → n' = n ∨ n' = g := by
    intro e he hp hg hw
    by_cases hn : n' = n
    · exact .inl hn
    · by_cases hng : n' = g
      · exact .inr hng
      · rcases Nat.lt_or_gt_of_ne hn with hlt | hgt
        · exact absurd (h.last n' e (by omega) hlt he) hw
        · exact absurd (h.quiet n' e hgt (by omega) he) hw
  have hobserved : ∀ {e : Event V}, events[n']? = some e → n' = g → e.write? key = none := by
    intro e he hg
    rcases h.observed.2 with hend | hget
    · rw [hg, hend, List.getElem?_eq_none (Nat.le_refl _)] at he
      cases he
    · rw [hg, hget] at he
      cases he
      rfl
  cases ho with
  | put event =>
    have hw : (Event.put key ‹V›).write? key ≠ none := by simp [Event.write?]
    rcases hwrite event hafter hbefore hw with rfl | hg
    · rw [h.stored] at event
      cases event
    · exact absurd (hobserved event hg) hw
  | @remove _ found event =>
    cases found with
    | true =>
      have hw : (Event.removed key true : Event V).write? key ≠ none := by simp [Event.write?]
      rcases hwrite event hafter hbefore hw with rfl | hg
      · rw [h.stored] at event
        cases event
      · exact absurd (hobserved event hg) hw
    | false => cases hnext
  | get event =>
    simp only [Access.next?, Option.ite_none_right_eq_some, Option.some.injEq] at hnext
    exact hnext.2.symm
  | failed _ _ _ | absent _ _ _ =>
    cases hnext
    rfl
  | @update m _ l j d u called _ stored returned =>
    by_cases hj : j = id
    · subst hj
      obtain ⟨m', hm'⟩ := List.mem_iff_getElem?.mp h.called
      obtain ⟨_, rfl⟩ := hc.called_unique called hm'
      cases hc.act_unique stored h.stored rfl
      rw [h.stored] at stored
      cases stored
      simp only [Access.next?, Option.bind_some, if_neg h.unfit, reduceCtorEq] at hnext
    · rcases h.alone m n' l j d u hj called stored returned with hl | hm
      · exact absurd hl hafter
      · exact absurd hm hbefore

/-- Accesses that leave a value one by one leave it altogether. -/
theorem sequential_kept {order : List (Operation V)} {v : Option V}
    (h : ∀ o ∈ order, ∀ u, o.access.next? (some x) = some u → u = some x)
    (hfold : sequential order (some x) = some v) : v = some x := by
  induction order with
  | nil =>
    cases hfold
    rfl
  | cons o rest ih =>
    simp only [sequential, List.foldlM_cons] at hfold ih
    obtain ⟨u, hu, hrest⟩ := Option.bind_eq_some_iff.mp hfold
    rw [h o List.mem_cons_self u hu] at hrest
    exact ih (fun o ho => h o (List.mem_cons_of_mem _ ho)) hrest

/-- A lost `put` that nobody reads is lost in the final value. -/
theorem LostPut.final_eq (h : LostPut key events r p n g id c x w) (hend : g = events.length) :
    replay key v₀ events = some w := by
  have hlt := lt_length_of_getElem? h.stored
  rw [← List.take_length (l := events)]
  refine replay_take_of_last hlt (Nat.le_refl _) h.stored (if_pos rfl) ?_
  intro j d hj hjn hd
  exact h.quiet j d hj (hend ▸ hjn) hd

/-- **A history in which an update loses a `put` is not linearizable.** -/
theorem LostPut.not_linearizable (h : LostPut key events r p n g id c x w) (hc : Chronicle events) :
    ¬ Linearizable key v₀ events (replay key v₀ events) := by
  rintro ⟨order, hnodup, hmem, hpair, hfold⟩
  have hput : Effect key events p ⟨p, p, .put x⟩ := .put h.put
  obtain ⟨early, late, rfl⟩ := List.append_of_mem ((hmem _).mpr ⟨p, hput⟩)
  obtain ⟨_, hlate, hcross⟩ := List.pairwise_append.mp hpair
  obtain ⟨hpfirst, hlate⟩ := List.pairwise_cons.mp hlate
  obtain ⟨_, hnodup', _⟩ := List.nodup_append.mp hnodup
  have hnotin := (List.nodup_cons.mp hnodup').1
  have heffect : ∀ o ∈ late, ∃ i, Effect key events i o := by
    intro o ho
    exact (hmem o).mp (List.mem_append_right _ (List.mem_cons_of_mem _ ho))
  -- what comes after the put, and not after the observation, keeps the value that was put
  have hkept : ∀ o ∈ late, ¬ g < o.start → ∀ u, o.access.next? (some x) = some u → u = some x := by
    intro o ho hbefore u hu
    obtain ⟨i, hi⟩ := heffect o ho
    refine h.kept hc hi ?_ (hpfirst o ho) hbefore hu
    rintro rfl
    exact hnotin (hi.functional hput hc ▸ ho)
  have hfold' : sequential late (some x) = some (replay key v₀ events) := by
    simp only [sequential] at hfold ⊢
    rw [List.foldlM_append] at hfold
    obtain ⟨u, _, hrest⟩ := Option.bind_eq_some_iff.mp hfold
    exact hrest
  rcases h.observed.2 with hend | hget
  · have hfinal : replay key v₀ events = some x := by
      refine sequential_kept (fun o ho => hkept o ho ?_) hfold'
      obtain ⟨i, hi⟩ := heffect o ho
      have hstart := (hi.bounds hc).1
      have hlt := hi.lt_length
      omega
    rw [h.final_eq hend] at hfinal
    exact h.changed (Option.some.inj hfinal).symm
  · have hseen : Effect key events g ⟨g, g, .get (some w)⟩ := .get hget
    have hgin : (⟨g, g, .get (some w)⟩ : Operation V) ∈ late := by
      have horder := h.order
      have hlater := h.observed.1
      rcases List.mem_append.mp ((hmem _).mpr ⟨g, hseen⟩) with hearly | hrest
      · have hno := hcross _ hearly _ List.mem_cons_self
        simp only at hno
        omega
      · rcases List.mem_cons.mp hrest with heq | hin
        · cases heq
        · exact hin
    obtain ⟨between, rest, rfl⟩ := List.append_of_mem hgin
    obtain ⟨_, _, hbefore⟩ := List.pairwise_append.mp hlate
    simp only [sequential] at hfold'
    rw [List.foldlM_append] at hfold'
    obtain ⟨u, hu, hrest⟩ := Option.bind_eq_some_iff.mp hfold'
    have hux : u = some x := by
      refine sequential_kept (fun o ho => hkept o (List.mem_append_left _ ho) ?_) hu
      have hno := hbefore o ho _ List.mem_cons_self
      simpa only using hno
    subst hux
    rw [List.foldlM_cons] at hrest
    obtain ⟨u, hget', _⟩ := Option.bind_eq_some_iff.mp hrest
    simp only [Access.next?, Option.ite_none_right_eq_some, Option.some.injEq] at hget'
    exact h.changed hget'.1.symm

/-! ## Overwritten puts -/

/-- **What every store comes from**: a read of its call before it, whose value it makes its own of,
with no store of another call under the key in between. -/
def Sourced (key : Bytes) (events : List (Event V)) : Prop :=
  ∀ (n : Nat) (id : CallId) (w : V), events[n]? = some (.act id key (.stored w)) →
    ∃ (r : Nat) (v : V) (c : UpdateCall V), r < n ∧
      events[r]? = some (.act id key (.read (some v))) ∧ .called id c ∈ events ∧
      c.makes? v = some w ∧
      ∀ (i : Nat) (j : CallId) (u : V), r < i → i < n →
        events[i]? ≠ some (.act j key (.stored u))

/-- A new store that comes from a read, and old ones that did, all come from reads. -/
theorem Sourced.snoc {e : Event V} (h : Sourced key events)
    (hnew : ∀ id w, e = .act id key (.stored w) → ∃ (r : Nat) (v : V) (c : UpdateCall V),
      events[r]? = some (.act id key (.read (some v))) ∧ .called id c ∈ events ∧ c.makes? v = some w ∧
      ∀ (i : Nat) (j : CallId) (u : V), r < i → events[i]? ≠ some (.act j key (.stored u))) :
    Sourced key (events ++ [e]) := by
  intro n id w hn
  rcases getElem?_snoc hn with hold | ⟨rfl, heq⟩
  · obtain ⟨r, v, c, hrn, hread, hcalled, hmakes, halone⟩ := h n id w hold
    have hlt := lt_length_of_getElem? hold
    refine ⟨r, v, c, hrn, getElem?_snoc_of_some hread e, List.mem_append_left _ hcalled, hmakes, ?_⟩
    intro i j u hri hin hi
    rw [List.getElem?_append_left (Nat.lt_trans hin hlt)] at hi
    exact halone i j u hri hin hi
  · obtain ⟨r, v, c, hread, hcalled, hmakes, halone⟩ := hnew id w heq.symm
    refine ⟨r, v, c, lt_length_of_getElem? hread, getElem?_snoc_of_some hread e,
      List.mem_append_left _ hcalled, hmakes, ?_⟩
    intro i j u hri hin hi
    rw [List.getElem?_append_left hin] at hi
    exact halone i j u hri hi

/-- **Stores fit exactly if no `put` is overwritten**, where nothing is removed. -/
theorem fits_iff (hc : Chronicle events)
    (hsees : ∀ (n : Nat) (e : Event V), events[n]? = some e →
      e.Sees key (replay key v₀ (events.take n)))
    (hsourced : Sourced key events) (hremove : .removed key true ∉ events) :
    Fits key v₀ events ↔ ∀ r p n id c x w, ¬ Overwritten key events r p n id c x w := by
  constructor
  · intro hfits r p n id c x w h
    obtain ⟨m, hm⟩ := List.mem_iff_getElem?.mp h.called
    have hfit := hfits n m id w c hm h.stored
    have hn : n ≤ events.length := Nat.le_of_lt (lt_length_of_getElem? h.stored)
    rw [replay_take_of_last h.order.2 hn h.put (if_pos rfl) h.last, Option.bind_some] at hfit
    exact h.unfit hfit
  · intro hnone n m id w c hm hstored
    obtain ⟨r, v, d, hrn, hread, hd, hmakes, halone⟩ := hsourced n id w hstored
    obtain ⟨m', hm'⟩ := List.mem_iff_getElem?.mp hd
    obtain ⟨_, rfl⟩ := hc.called_unique hm hm'
    have hn : n ≤ events.length := Nat.le_of_lt (lt_length_of_getElem? hstored)
    rcases last_write key events r n with hquiet | ⟨p, e, hrp, hpn, he, hw, hlast⟩
    · -- the value that was read is still there
      have hseen : some v = replay key v₀ (events.take r) := hsees r _ hread rfl
      rw [replay_take_of_quiet hrn hn fun j e hj hjn he => hquiet j e hj hjn he,
        replay_take_succ hread]
      show (replay key v₀ (events.take r)).bind c.makes? = some w
      rw [← hseen, Option.bind_some, hmakes]
    · obtain ⟨u, hu⟩ := Option.ne_none_iff_exists'.mp hw
      rcases Event.write?_eq_some hu with ⟨x, rfl, rfl⟩ | ⟨j, x, rfl, _⟩ | ⟨rfl, _⟩
      · -- a put wrote last: the store fits it, or overwrites it
        rw [replay_take_of_last hpn hn he hu hlast, Option.bind_some]
        refine Classical.byContradiction fun hunfit => hnone r p n id c x w ?_
        exact ⟨hd, ⟨_, hread⟩, he, hstored, ⟨hrp, hpn⟩, hlast, hunfit⟩
      · exact absurd he (halone p j x hrp hpn)
      · exact absurd (List.mem_of_getElem? he) hremove

end Keyspace
