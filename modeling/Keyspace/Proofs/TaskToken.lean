import Keyspace.Proofs.TaskLife

/-!
# A token that concerns nobody any more

To set the token of a task changes that token and nothing else (`WorkerPool.cancel_eq`), and nothing
at all when it is set (`WorkerPool.cancel_of_cancelled`). A task that has ended, or whose body runs
and ignores the token, is deaf to it (`Task.Deaf`): whatever step a pool takes, it takes the same step
with the token set, shows the same and leaves the same pool, but for the token
(`WorkerPool.step?_cancel`).
-/

namespace Keyspace

/-- **A task that is deaf to its token**: its body runs and ignores the token, or it has ended. -/
def Task.Deaf {α : Type} (t : Task α) : Prop :=
  (t.state = .running ∧ t.work.polls = false) ∨ ∃ o, t.state = .finished o

/-- A task that keeps the outcome of its body is deaf to its token. -/
theorem Task.Own.deaf {α : Type} {t : Task α} (h : t.Own) : t.Deaf := by
  rcases h.begun with hrunning | hfinished
  · exact .inl hrunning
  · exact .inr ⟨_, hfinished⟩

namespace WorkerPool

variable {α : Type} {p p' : WorkerPool α} {id : TaskId} {t t' : Task α} {e : Event}

/-- Changes that commute on a task commute on a pool. -/
theorem change_comm (p : WorkerPool α) (i j : TaskId) {f g : Task α → Task α}
    (h : ∀ t, f (g t) = g (f t)) : (p.change i f).change j g = (p.change j g).change i f := by
  have htasks : (p.tasks.modify i f).modify j g = (p.tasks.modify j g).modify i f := by
    refine List.ext_getElem? fun k => ?_
    simp only [List.getElem?_modify]
    cases p.tasks[k]? with
    | none => rfl
    | some t => by_cases hi : i = k <;> by_cases hj : j = k <;> simp [hi, hj, h]
  simp only [change, htasks]

/-- A cancellation sets the token of its task. -/
theorem cancel_eq (ht : p.tasks[id]? = some t) :
    p.cancel id = { p with tasks := p.tasks.set id { t with cancelled := true } } := by
  have : Inhabited (Task α) := ⟨t⟩
  rw [cancel, change, List.modify_eq_set, ht]
  rfl

/-- A token that is set is not changed by a cancellation. -/
theorem cancel_of_cancelled (ht : p.tasks[id]? = some t) (h : t.cancelled = true) :
    p.cancel id = p := by
  have hset : { t with cancelled := true } = t := by rw [← h]
  have hself : p.tasks.set id t = p.tasks := by
    obtain ⟨hlt, rfl⟩ := List.getElem?_eq_some_iff.mp ht
    exact List.set_getElem_self hlt
  rw [cancel_eq ht, hset, hself]

theorem cancel_setState (p : WorkerPool α) (id j : TaskId) (state : TaskState α) :
    (p.cancel id).setState j state = (p.setState j state).cancel id :=
  change_comm p id j fun _ => rfl

theorem submit_cancel (hid : id < p.tasks.length) (work : Work α) :
    (p.cancel id).submit work = (p.submit work).map fun r => (r.1.cancel id, r.2) := by
  have htasks : (p.tasks.modify id fun t => { t with cancelled := true }) ++ [({ work } : Task α)] =
      (p.tasks ++ [({ work } : Task α)]).modify id fun t => { t with cancelled := true } := by
    refine List.ext_getElem? fun k => ?_
    by_cases hk : k < p.tasks.length
    · rw [List.getElem?_append_left (by rw [List.length_modify]; exact hk), List.getElem?_modify,
        List.getElem?_modify, List.getElem?_append_left hk]
    · have hle := Nat.le_of_not_lt hk
      have hne : id ≠ k := Nat.ne_of_lt (Nat.lt_of_lt_of_le hid hle)
      have hlength : (p.tasks.modify id fun t => { t with cancelled := true }).length =
          p.tasks.length := List.length_modify ..
      rw [List.getElem?_modify_ne _ _ hne, List.getElem?_append_right (hlength.symm ▸ hle),
        List.getElem?_append_right hle, hlength]
  unfold submit cancel change
  simp only [List.length_modify, htasks]
  split
  · rfl
  · split <;> rfl

theorem take?_cancel (p : WorkerPool α) (id : TaskId) (worker : Nat) :
    (p.cancel id).take? worker = (p.take? worker).map (·.cancel id) := by
  have hworkers : (p.cancel id).workers = p.workers := rfl
  have hqueue : (p.cancel id).queue = p.queue := rfl
  unfold take?
  rw [hworkers, hqueue]
  cases p.queue with
  | nil => simp
  | cons j rest =>
    cases p.workers[worker]? with
    | none => simp
    | some w =>
      cases w with
      | idle =>
        exact congrArg some (cancel_setState
          { p with queue := rest, workers := p.workers.set worker (.busy j) } id j .claimed)
      | busy _ | gone => rfl

theorem leave?_cancel (p : WorkerPool α) (id : TaskId) (worker : Nat) :
    (p.cancel id).leave? worker = (p.leave? worker).map (·.cancel id) := by
  have hworkers : (p.cancel id).workers = p.workers := rfl
  have hqueue : (p.cancel id).queue = p.queue := rfl
  have hstopping : (p.cancel id).stopping = p.stopping := rfl
  unfold leave?
  rw [hworkers, hqueue, hstopping]
  cases p.queue with
  | cons j rest => simp
  | nil =>
    cases p.workers[worker]? with
    | none => simp
    | some w =>
      cases w with
      | idle => cases p.stopping <;> rfl
      | busy _ | gone => rfl

theorem begin?_cancel (ht : p.tasks[id]? = some t) (hdeaf : t.Deaf) (worker : Nat) :
    (p.cancel id).begin? worker = (p.begin? worker).map (·.cancel id) := by
  have hworkers : (p.cancel id).workers = p.workers := rfl
  have htasks : ∀ j, (p.cancel id).tasks[j]? = _ := fun j => p.getElem?_change id j _
  unfold begin?
  rw [hworkers]
  cases p.workers[worker]? with
  | none => rfl
  | some w =>
    cases w with
    | idle | gone => rfl
    | busy j =>
      simp only [htasks]
      by_cases hj : id = j
      · subst hj
        rw [if_pos rfl, ht]
        obtain ⟨work, cancelled, state, taken⟩ := t
        obtain ⟨hstate, -⟩ | ⟨o, hstate⟩ := hdeaf <;> cases hstate <;> rfl
      · rw [if_neg hj]
        cases p.tasks[j]? with
        | none => rfl
        | some t =>
          obtain ⟨work, cancelled, state, taken⟩ := t
          cases state with
          | queued | running | finished o => rfl
          | claimed =>
            cases cancelled with
            | true =>
              exact congrArg some
                (cancel_setState { p with workers := p.workers.set worker .idle } id j _)
            | false =>
              exact congrArg some (cancel_setState { p with begun := p.begun ++ [j] } id j _)

theorem finish?_cancel (ht : p.tasks[id]? = some t) (hdeaf : t.Deaf) (worker : Nat) :
    (p.cancel id).finish? worker = (p.finish? worker).map (·.cancel id) := by
  have hworkers : (p.cancel id).workers = p.workers := rfl
  have hopen : (p.cancel id).isOpen = p.isOpen := rfl
  have htasks : ∀ j, (p.cancel id).tasks[j]? = _ := fun j => p.getElem?_change id j _
  unfold finish?
  rw [hworkers, hopen]
  cases p.workers[worker]? with
  | none => rfl
  | some w =>
    cases w with
    | idle | gone => rfl
    | busy j =>
      simp only [htasks]
      by_cases hj : id = j
      · subst hj
        rw [if_pos rfl, ht]
        obtain ⟨work, cancelled, state, taken⟩ := t
        obtain ⟨hstate, hpolls⟩ | ⟨o, hstate⟩ := hdeaf
        · cases hstate
          simp only [Option.map_some, Work.finish?_ignoring hpolls _ cancelled,
            Work.finish?_ignoring hpolls _ true, Option.map_map]
          congr 1
          funext outcome
          exact cancel_setState { p with workers := p.workers.set worker .idle } id id _
        · cases hstate
          rfl
      · rw [if_neg hj]
        cases p.tasks[j]? with
        | none => rfl
        | some t =>
          obtain ⟨work, cancelled, state, taken⟩ := t
          cases state with
          | queued | claimed | finished o => rfl
          | running =>
            simp only [Option.map_map]
            congr 1
            funext outcome
            exact cancel_setState { p with workers := p.workers.set worker .idle } id j _

theorem await_cancel (p : WorkerPool α) (id j : TaskId) :
    (p.cancel id).await j = ((p.await j).1, (p.await j).2.cancel id) := by
  have hcomm : (p.cancel id).change j (fun t => { t with taken := true }) =
      (p.change j fun t => { t with taken := true }).cancel id :=
    change_comm p id j fun _ => rfl
  have htask : (p.tasks[j]? = none ∧ (p.cancel id).tasks[j]? = none) ∨
      ∃ t cancelled, p.tasks[j]? = some t ∧ (p.cancel id).tasks[j]? = some { t with cancelled } := by
    rw [cancel, getElem?_change]
    cases p.tasks[j]? with
    | none => exact .inl ⟨rfl, by split <;> rfl⟩
    | some t =>
      right
      split
      · exact ⟨t, true, rfl, rfl⟩
      · exact ⟨t, t.cancelled, rfl, rfl⟩
  obtain ⟨hp, hc⟩ | ⟨⟨work, before, state, taken⟩, cancelled, hp, hc⟩ := htask
  · simp only [await, hp, hc]
  · simp only [await, hp, hc]
    cases taken with
    | true => rfl
    | false =>
      cases state with
      | queued | claimed | running => rfl
      | finished o => exact congrArg (Prod.mk _) hcomm

/-- **A step of a pool does not depend on a token that concerns nobody.** -/
theorem step?_cancel (ht : p.tasks[id]? = some t) (hdeaf : t.Deaf) (a : Step α) :
    (p.cancel id).step? a = (p.step? a).map (·.cancel id) := by
  have hid : id < p.tasks.length := (List.getElem?_eq_some_iff.mp ht).1
  cases a with
  | submit work =>
    simp only [step?, submit_cancel hid]
    cases p.submit work <;> rfl
  | cancel j => exact congrArg some (change_comm p id j fun _ => rfl)
  | await j =>
    simp only [step?, await_cancel, Option.map_some]
  | openGate g => rfl
  | stop => rfl
  | «return» stopper =>
    have hstoppers : (p.cancel id).stoppers = p.stoppers := rfl
    have hworkers : (p.cancel id).workers = p.workers := rfl
    simp only [step?, return?, hstoppers, hworkers]
    cases p.stoppers[stopper]? with
    | none => rfl
    | some s =>
      simp only
      split <;> rfl
  | take worker => exact p.take?_cancel id worker
  | begin worker => exact begin?_cancel ht hdeaf worker
  | finish worker => exact finish?_cancel ht hdeaf worker
  | leave worker => exact p.leave?_cancel id worker

/-- A worker begins a task that is claimed. -/
theorem claimed_of_begin? {worker : Nat} (h : p.begin? worker = some p')
    (hholds : p.taskOf? worker = some id) (ht : p.tasks[id]? = some t) : t.state = .claimed := by
  obtain ⟨j, t₀, hj, htask, hclaimed, -⟩ := eq_of_begin? h
  rw [taskOf?_of_holds hj] at hholds
  cases hholds
  obtain rfl := Option.some.inj (htask.symm.trans ht)
  exact hclaimed

/-- Nor does what it shows. -/
theorem event_cancel (ht : p.tasks[id]? = some t) (hdeaf : t.Deaf) {a : Step α}
    (h : p.step? a = some p') : (p.cancel id).event a = p.event a := by
  have hid : id < p.tasks.length := (List.getElem?_eq_some_iff.mp ht).1
  cases a with
  | submit work =>
    simp only [event, submit_cancel hid]
    cases p.submit work <;> rfl
  | begin worker =>
    have htaskOf : (p.cancel id).taskOf? worker = p.taskOf? worker := rfl
    simp only [event, htaskOf]
    cases hholds : p.taskOf? worker with
    | none => rfl
    | some j =>
      have hne : id ≠ j := by
        rintro rfl
        have hclaimed := claimed_of_begin? h hholds ht
        obtain ⟨hstate, -⟩ | ⟨o, hstate⟩ := hdeaf
        · rw [hclaimed] at hstate; cases hstate
        · rw [hclaimed] at hstate; cases hstate
      have hset : (p.cancel id).isCancelled j = p.isCancelled j := by
        rw [isCancelled, isCancelled, cancel, getElem?_change, if_neg hne]
      simp only [hset]
  | cancel _ | await _ | openGate _ | stop | «return» _ | take _ | finish _ | leave _ => rfl

end WorkerPool

end Keyspace
