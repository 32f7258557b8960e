import Keyspace.Proofs.PoolTasks

/-!
# The life of a task

What a pool does to one of its tasks, whatever else it does, is one of four moves (`WorkerPool.Moved`):
a worker takes it, begins it, passes over it because its token is set, or finishes it with what its
body gives. A task that is cancelled before it begins is **doomed** (`Task.Doomed`): no move begins it,
and it ends as cancelled and in no other way. A task whose body runs and ignores the token is its
**own** (`Task.Own`): it ends with the outcome of its body, and keeps it.
-/

namespace Keyspace

/-- **A task that will not begin**: it was cancelled before, and it has not ended otherwise. -/
structure Task.Doomed {α : Type} (t : Task α) : Prop where
  cancelled : t.cancelled = true
  unbegun : t.state = .queued ∨ t.state = .claimed ∨ t.state = .finished (.error .taskCancelled)

/-- A doomed task ends as cancelled, if it ends. -/
theorem Task.Doomed.outcome_eq {α : Type} {t : Task α} {o : Outcome α} (h : t.Doomed)
    (ho : t.state = .finished o) : o = .error .taskCancelled := by
  rcases h.unbegun with hstate | hstate | hstate
  · rw [ho] at hstate; cases hstate
  · rw [ho] at hstate; cases hstate
  · rw [ho] at hstate; exact TaskState.finished.inj hstate

/-- **A task that will keep the outcome of its body**: it has ended with it, or its body runs and
ignores the token. -/
structure Task.Own {α : Type} (t : Task α) : Prop where
  begun : (t.state = .running ∧ t.work.polls = false) ∨ t.state = .finished t.work.outcome

/-- A body that ignores its token gives the same whether it is set. -/
theorem Work.finish?_ignoring {α : Type} {w : Work α} (hpolls : w.polls = false)
    (isOpen : Gate → Bool) (cancelled : Bool) :
    w.finish? isOpen cancelled = w.finish? isOpen false := by
  rw [Work.finish?, Work.finish?, hpolls]
  rfl

/-- A body that ignores its token gives its own outcome. -/
theorem Work.finish?_of_ignoring {α : Type} {w : Work α} {isOpen : Gate → Bool} {cancelled : Bool}
    {o : Outcome α} (hpolls : w.polls = false) (h : w.finish? isOpen cancelled = some o) :
    o = w.outcome := by
  rw [Work.finish?_ignoring hpolls] at h
  exact Work.finish?_eq_some h

namespace WorkerPool

variable {α : Type} {p p' : WorkerPool α} {id : TaskId} {t t' : Task α} {e : Event}

/-- The task has this outcome. -/
def Ended (p : WorkerPool α) (id : TaskId) (o : Outcome α) : Prop :=
  ∃ t, p.tasks[id]? = some t ∧ t.state = .finished o

/-! ## The moves of a task -/

/-- An event takes, begins, passes over or finishes a task. -/
def Event.concerns (id : TaskId) : Event → Bool
  | .taken j | .began j | .skipped j | .finished j => j = id
  | _ => false

/-- **What a step of a pool does to a task**, unless it uses its handle. -/
inductive Moved (id : TaskId) : Event → Task α → Task α → Prop
  | apart {e : Event} {t : Task α} (apart : e.concerns id = false) : Moved id e t t
  | taken {t : Task α} (queued : t.state = .queued) :
    Moved id (.taken id) t { t with state := .claimed }
  | began {t : Task α} (claimed : t.state = .claimed) (wanted : t.cancelled = false) :
    Moved id (.began id) t { t with state := .running }
  | skipped {t : Task α} (claimed : t.state = .claimed) (cancelled : t.cancelled = true) :
    Moved id (.skipped id) t { t with state := .finished (.error .taskCancelled) }
  | finished {t : Task α} {isOpen : Gate → Bool} {o : Outcome α} (running : t.state = .running)
    (gave : t.work.finish? isOpen t.cancelled = some o) :
    Moved id (.finished id) t { t with state := .finished o }

/-- A step of a pool that cancels a task or awaits it. -/
def Step.uses (id : TaskId) : Step α → Bool
  | .cancel j | .await j => j = id
  | _ => false

/-- The task of a change of state has the move of it, and every other task has none. -/
theorem moved_of_setState {q : WorkerPool α} {j : TaskId} {state : TaskState α}
    (ht : p.tasks[id]? = some t) (hq : q.tasks = p.tasks) (hother : j ≠ id → e.concerns id = false)
    (hown : j = id → Moved id e t { t with state }) :
    ∃ t', (q.setState j state).tasks[id]? = some t' ∧ Moved id e t t' := by
  rw [setState, getElem?_change, hq, ht]
  by_cases hj : j = id
  · exact ⟨_, if_pos hj, hown hj⟩
  · exact ⟨t, if_neg hj, .apart (hother hj)⟩

/-- A step that leaves the tasks alone moves none. -/
theorem moved_of_tasks_eq (ht : p.tasks[id]? = some t) (hq : p'.tasks = p.tasks)
    (he : e.concerns id = false) : ∃ t', p'.tasks[id]? = some t' ∧ Moved id e t t' :=
  ⟨t, by rw [hq, ht], .apart he⟩

theorem moved_of_take? {worker : Nat} (h : p.take? worker = some p')
    (hqueued : ∀ j ∈ p.queue, p.place? j = some .queued) (ht : p.tasks[id]? = some t) :
    ∃ t', p'.tasks[id]? = some t' ∧ Moved id (p.event (.take worker)) t t' := by
  obtain ⟨j, rest, hidle, hfront, rfl⟩ := eq_of_take? h
  simp only [event, hfront]
  refine moved_of_setState ht rfl (fun hj => by simpa [Event.concerns] using hj) ?_
  rintro rfl
  have hplace := hqueued j (by rw [hfront]; exact List.mem_cons_self)
  refine .taken ?_
  cases hstate : t.state with
  | queued => rfl
  | claimed | running | finished o => simp [place?, ht, hstate, TaskState.place] at hplace

theorem moved_of_begin? {worker : Nat} (h : p.begin? worker = some p')
    (ht : p.tasks[id]? = some t) :
    ∃ t', p'.tasks[id]? = some t' ∧ Moved id (p.event (.begin worker)) t t' := by
  obtain ⟨j, t₀, hholds, htask, hclaimed, hcase⟩ := eq_of_begin? h
  have hsame : j = id → t₀ = t := by
    rintro rfl
    exact Option.some.inj (htask.symm.trans ht)
  simp only [event, taskOf?_of_holds hholds, isCancelled_of_task htask]
  obtain ⟨hset, rfl⟩ | ⟨hset, rfl⟩ := hcase
  · rw [if_pos hset]
    refine moved_of_setState ht rfl (fun hj => by simpa [Event.concerns] using hj) ?_
    rintro rfl
    obtain rfl := hsame rfl
    exact .skipped hclaimed hset
  · rw [if_neg (Bool.eq_false_iff.mp hset)]
    refine moved_of_setState ht rfl (fun hj => by simpa [Event.concerns] using hj) ?_
    rintro rfl
    obtain rfl := hsame rfl
    exact .began hclaimed hset

theorem moved_of_finish? {worker : Nat} (h : p.finish? worker = some p')
    (ht : p.tasks[id]? = some t) :
    ∃ t', p'.tasks[id]? = some t' ∧ Moved id (p.event (.finish worker)) t t' := by
  obtain ⟨j, t₀, outcome, hholds, htask, hrunning, hgave, rfl⟩ := eq_of_finish? h
  simp only [event, taskOf?_of_holds hholds]
  refine moved_of_setState ht rfl (fun hj => by simpa [Event.concerns] using hj) ?_
  rintro rfl
  obtain rfl := Option.some.inj (htask.symm.trans ht)
  exact .finished hrunning hgave

/-- An await of another task leaves the task alone. -/
theorem getElem?_await_of_ne {j : TaskId} (hj : j ≠ id) :
    (p.await j).2.tasks[id]? = p.tasks[id]? := by
  unfold await
  split
  · rfl
  · next t _ =>
    split
    · rfl
    · split
      · rw [getElem?_change, if_neg hj]
      · rfl

/-- **Every step of a pool that does not use the handle of a task moves it** as it shows. -/
theorem moved_of_step? {a : Step α} (h : p.step? a = some p')
    (hqueued : ∀ j ∈ p.queue, p.place? j = some .queued) (hother : a.uses id = false)
    (ht : p.tasks[id]? = some t) : ∃ t', p'.tasks[id]? = some t' ∧ Moved id (p.event a) t t' := by
  cases a with
  | submit work =>
    cases hsubmit : p.submit work with
    | error f =>
      simp only [step?, hsubmit, Option.some.injEq] at h
      simp only [event, hsubmit]
      exact moved_of_tasks_eq ht (by rw [h]) rfl
    | ok r =>
      simp only [step?, hsubmit, Option.some.injEq] at h
      simp only [event, hsubmit]
      refine ⟨t, ?_, .apart rfl⟩
      rw [← h, (submit_eq_ok hsubmit).2,
        List.getElem?_append_left (List.getElem?_eq_some_iff.mp ht).1, ht]
  | cancel j =>
    cases h
    have hj : j ≠ id := by simpa [Step.uses] using hother
    exact ⟨t, by rw [cancel, getElem?_change, if_neg hj, ht], .apart rfl⟩
  | await j =>
    cases h
    have hj : j ≠ id := by simpa [Step.uses] using hother
    exact ⟨t, by rw [getElem?_await_of_ne hj, ht], .apart rfl⟩
  | openGate g =>
    cases h
    exact moved_of_tasks_eq ht rfl rfl
  | stop =>
    cases h
    exact moved_of_tasks_eq ht rfl rfl
  | «return» stopper =>
    obtain ⟨s, -, -, -, rfl⟩ := eq_of_return? h
    exact moved_of_tasks_eq ht rfl rfl
  | take worker => exact moved_of_take? h hqueued ht
  | begin worker => exact moved_of_begin? h ht
  | finish worker => exact moved_of_finish? h ht
  | leave worker =>
    obtain ⟨-, -, -, rfl⟩ := eq_of_leave? h
    exact moved_of_tasks_eq ht rfl rfl

/-! ## What the moves keep -/

/-- The moves of a task leave its body, its token and its result alone. -/
theorem Moved.same (h : Moved id e t t') :
    t'.work = t.work ∧ t'.cancelled = t.cancelled ∧ t'.taken = t.taken := by
  cases h <;> exact ⟨rfl, rfl, rfl⟩

/-- **A doomed task stays doomed**, and does not begin. -/
theorem Moved.doomed (h : Moved id e t t') (hdoomed : t.Doomed) :
    t'.Doomed ∧ e ≠ .began id := by
  cases h with
  | apart apart =>
    refine ⟨hdoomed, ?_⟩
    rintro rfl
    simp [Event.concerns] at apart
  | taken _ => exact ⟨⟨hdoomed.cancelled, .inr (.inl rfl)⟩, Event.noConfusion⟩
  | began _ wanted => exact absurd (wanted.symm.trans hdoomed.cancelled) Bool.noConfusion
  | skipped _ _ => exact ⟨⟨hdoomed.cancelled, .inr (.inr rfl)⟩, Event.noConfusion⟩
  | finished running _ =>
    rcases hdoomed.unbegun with h | h | h
    · rw [running] at h; cases h
    · rw [running] at h; cases h
    · rw [running] at h; cases h

/-- **A task that its token does not concern stays so.** -/
theorem Moved.own (h : Moved id e t t') (hown : t.Own) : t'.Own := by
  cases h with
  | apart _ => exact hown
  | taken queued =>
    rcases hown.begun with ⟨hrunning, -⟩ | hfinished
    · rw [queued] at hrunning; cases hrunning
    · rw [queued] at hfinished; cases hfinished
  | began claimed _ =>
    rcases hown.begun with ⟨hrunning, -⟩ | hfinished
    · rw [claimed] at hrunning; cases hrunning
    · rw [claimed] at hfinished; cases hfinished
  | skipped claimed _ =>
    rcases hown.begun with ⟨hrunning, -⟩ | hfinished
    · rw [claimed] at hrunning; cases hrunning
    · rw [claimed] at hfinished; cases hfinished
  | finished running gave =>
    rcases hown.begun with ⟨-, hpolls⟩ | hfinished
    · exact ⟨.inr (congrArg TaskState.finished (Work.finish?_of_ignoring hpolls gave))⟩
    · rw [running] at hfinished; cases hfinished

/-- **A finished task keeps its outcome.** -/
theorem Moved.finished_eq (h : Moved id e t t') {o : Outcome α} (ho : t.state = .finished o) :
    t'.state = .finished o ∧ e.concerns id = false := by
  cases h with
  | apart apart => exact ⟨ho, apart⟩
  | taken queued => rw [queued] at ho; cases ho
  | began claimed _ => rw [claimed] at ho; cases ho
  | skipped claimed _ => rw [claimed] at ho; cases ho
  | finished running _ => rw [running] at ho; cases ho

end WorkerPool

end Keyspace
