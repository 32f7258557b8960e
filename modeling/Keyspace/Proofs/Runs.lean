/-!
# Runs of a machine

A machine is a step function that may refuse a step, and what each step shows of itself. A run is a
list of steps; its trace is the list of what they show. What every step keeps of the trace so far
and the state, a run keeps (`Machine.run_induction`).
-/

namespace Keyspace

/-- **A machine**: the state after a step, unless the step is not possible, and what the step shows.
-/
structure Machine (State Step Event : Type) where
  step? : State → Step → Option State
  event : State → Step → Event

namespace Machine

variable {State Step Event : Type} (m : Machine State Step Event)

/-- The state after a list of steps; `none` if one of them is not possible. -/
def run? (s : State) : List Step → Option State
  | [] => some s
  | a :: rest => (m.step? s a).bind fun s => run? s rest

/-- **The trace of a run**: what its steps show, in order. -/
def trace (s : State) : List Step → List Event
  | [] => []
  | a :: rest =>
    m.event s a ::
      match m.step? s a with
      | some s => trace s rest
      | none => []

/-- **The states that a run passes through**, its first and its last one included. -/
def Through (s : State) (steps : List Step) (t : State) : Prop :=
  ∃ first, first <+: steps ∧ m.run? s first = some t

variable {m} {s t u : State} {a : Step} {steps : List Step} {past : List Event}

/-- A run after its first step. -/
theorem run?_cons (h : m.step? s a = some u) (steps : List Step) :
    m.run? s (a :: steps) = m.run? u steps := by
  rw [run?, h, Option.bind_some]

theorem trace_cons (h : m.step? s a = some u) (steps : List Step) :
    m.trace s (a :: steps) = m.event s a :: m.trace u steps := by
  simp only [trace, h]

theorem run?_cons_eq_some (h : m.run? s (a :: steps) = some t) :
    ∃ s', m.step? s a = some s' ∧ m.run? s' steps = some t ∧
      m.trace s (a :: steps) = m.event s a :: m.trace s' steps := by
  obtain ⟨s', hstep, hrest⟩ := Option.bind_eq_some_iff.mp h
  exact ⟨s', hstep, hrest, trace_cons hstep steps⟩

/-- A single step is a run. -/
theorem run?_singleton (h : m.step? s a = some t) : m.run? s [a] = some t := by
  rw [run?_cons h, run?]

theorem run?_append (s : State) (first rest : List Step) :
    m.run? s (first ++ rest) = (m.run? s first).bind fun s => m.run? s rest := by
  induction first generalizing s with
  | nil => rfl
  | cons a first ih => simp only [List.cons_append, run?, Option.bind_assoc, ih]

/-- A run that goes on. -/
theorem run?_append_of_some (h : m.run? s steps = some t) (rest : List Step) :
    m.run? s (steps ++ rest) = m.run? t rest := by
  rw [run?_append, h, Option.bind_some]

theorem trace_append (h : m.run? s steps = some t) (rest : List Step) :
    m.trace s (steps ++ rest) = m.trace s steps ++ m.trace t rest := by
  induction steps generalizing s with
  | nil =>
    cases h
    rfl
  | cons a steps ih =>
    obtain ⟨s', hstep, hrun, htrace⟩ := run?_cons_eq_some h
    rw [htrace, List.cons_append, List.cons_append, ← ih hrun]
    exact trace_cons hstep _

/-- What a step of a run shows is in its trace. -/
theorem event_mem_trace (h : m.run? s steps = some u) (a : Step) (rest : List Step) :
    m.event u a ∈ m.trace s (steps ++ a :: rest) := by
  rw [trace_append h, trace]
  exact List.mem_append_right _ List.mem_cons_self

/-- A trace that is cut at an event is that of a run which is cut at the step that shows it. -/
theorem exists_step_of_trace {before after : List Event} {e : Event} (hrun : m.run? s steps = some t)
    (htrace : m.trace s steps = before ++ e :: after) :
    ∃ first a rest u v, steps = first ++ a :: rest ∧ m.run? s first = some u ∧
      m.trace s first = before ∧ m.step? u a = some v ∧ m.event u a = e ∧ m.run? v rest = some t ∧
      m.trace v rest = after := by
  induction steps generalizing s before with
  | nil => cases before <;> cases htrace
  | cons a steps ih =>
    obtain ⟨s', hstep, hrest, hcons⟩ := run?_cons_eq_some hrun
    rw [hcons] at htrace
    cases before with
    | nil =>
      cases htrace
      exact ⟨[], a, steps, s, s', rfl, rfl, rfl, hstep, rfl, hrest, rfl⟩
    | cons b before =>
      obtain ⟨rfl, htail⟩ := List.cons.inj htrace
      obtain ⟨first, c, rest, u, v, rfl, hfirst, hbefore, hc, he, hlast, hafter⟩ := ih hrest htail
      refine ⟨a :: first, c, rest, u, v, rfl, ?_, ?_, hc, he, hlast, hafter⟩
      · rw [run?_cons hstep, hfirst]
      · rw [trace_cons hstep, hbefore]

/-- What a trace holds, a step of the run showed. -/
theorem exists_step_of_mem_trace {e : Event} (hrun : m.run? s steps = some t)
    (he : e ∈ m.trace s steps) :
    ∃ first a rest u v, steps = first ++ a :: rest ∧ m.run? s first = some u ∧
      m.step? u a = some v ∧ m.event u a = e := by
  obtain ⟨before, after, hsplit⟩ := List.append_of_mem he
  obtain ⟨first, a, rest, u, v, hsteps, hfirst, -, hstep, hevent, -⟩ :=
    exists_step_of_trace hrun hsplit
  exact ⟨first, a, rest, u, v, hsteps, hfirst, hstep, hevent⟩

/-- A run from the middle of a trace. -/
theorem run_induction_from {P : List Event → State → Prop}
    (step : ∀ past s a s', P past s → m.step? s a = some s' → P (past ++ [m.event s a]) s')
    (h : P past s) (hrun : m.run? s steps = some t) : P (past ++ m.trace s steps) t := by
  induction steps generalizing past s with
  | nil =>
    cases hrun
    simpa only [trace, List.append_nil] using h
  | cons a rest ih =>
    obtain ⟨s', hstep, hrest, htrace⟩ := run?_cons_eq_some hrun
    have hnext := ih (step past s a s' h hstep) hrest
    rw [htrace]
    simpa only [List.append_assoc, List.singleton_append] using hnext

/-- **Induction over runs**: what every step keeps of the trace so far and the state, a run keeps.
-/
theorem run_induction {P : List Event → State → Prop}
    (step : ∀ past s a s', P past s → m.step? s a = some s' → P (past ++ [m.event s a]) s')
    (h : P [] s) (hrun : m.run? s steps = some t) : P (m.trace s steps) t :=
  run_induction_from step h hrun

end Machine

end Keyspace
