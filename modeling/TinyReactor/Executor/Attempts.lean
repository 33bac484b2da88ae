import TinyReactor.Executor.Moves

/-!
# One attempt at a time

A step of the system moves one task, so a property of tasks that the steps of a task preserve holds
of all tasks of a run. The first such property is that a task is always in one hand: either one of
its attempts has not left it to a retry, or one of its retry timers has not yet handed it to a new
attempt.
-/

namespace TinyReactor.Executor

open Transition Wire

/-! ## From tasks to systems -/

/-- A step of one task, whatever executor it belongs to and whatever the shared counter holds. -/
def TaskStep (record : TaskRun) (taskAction : TaskAction) (moved : TaskRun) : Prop :=
  ∃ executor before after, record.step executor before taskAction = some (moved, after)

/-- A condition on the steps of tasks, as a condition on the steps of the system. -/
def OnTasks (ok : TaskRun → TaskAction → Prop) (system : System) : Action → Prop
  | .act index taskAction => ∀ record, system.runs[index]? = some record → ok record taskAction
  | _ => True

variable {system next : System} {action : Action} {index : ℕ} {record moved : TaskRun}

theorem step_act {taskAction : TaskAction} (h : step system (.act index taskAction) = some next) :
    ∃ record moved, system.runs[index]? = some record ∧ TaskStep record taskAction moved ∧
      next.runs = system.runs.set index moved := by
  unfold step at h
  split at h
  · cases h
  · simp only [Option.bind_eq_some_iff, Option.map_eq_some_iff] at h
    obtain ⟨record, hrecord, executor, -, ⟨moved, after⟩, hstep, rfl⟩ := h
    exact ⟨record, moved, hrecord, ⟨executor, _, after, hstep⟩, rfl⟩

/-- An existing task stays as it is, or the action is one of its own. -/
theorem step_task (h : step system action = some next) (hrecord : system.runs[index]? = some record) :
    next.runs[index]? = some record ∨
      ∃ taskAction moved, action = .act index taskAction ∧ TaskStep record taskAction moved ∧
        next.runs[index]? = some moved := by
  cases action with
  | act other taskAction =>
    obtain ⟨acting, moved, hacting, hmoved, hruns⟩ := step_act h
    by_cases hother : other = index
    · subst hother
      obtain rfl : acting = record := by simpa [hacting] using hrecord
      refine .inr ⟨taskAction, moved, rfl, hmoved, ?_⟩
      rw [hruns, List.getElem?_set_self (lt_length_of_getElem? hacting)]
    · left
      rw [hruns, List.getElem?_set_ne hother, hrecord]
  | construct =>
    unfold step at h
    split at h <;> cases h
    exact .inl hrecord
  | registerFunction executor name =>
    unfold step at h
    split at h <;> cases h
    exact .inl hrecord
  | executeTask executor task =>
    unfold step at h
    split at h
    · cases h
    · simp only at h
      split at h <;> cases h
      left
      rw [List.getElem?_append_left (lt_length_of_getElem? hrecord), hrecord]

/-- A task that a step adds has one queued attempt and nothing else. -/
theorem step_new (h : step system action = some next) (hnone : system.runs[index]? = none)
    (hmoved : next.runs[index]? = some moved) : ∃ executor task, moved = { executor := executor, task := task } := by
  cases action with
  | act other taskAction =>
    obtain ⟨acting, moved', hacting, -, hruns⟩ := step_act h
    rw [hruns, List.getElem?_eq_some_iff] at hmoved
    rw [List.getElem?_eq_none_iff] at hnone
    obtain ⟨hlt, -⟩ := hmoved
    rw [List.length_set] at hlt
    omega
  | construct =>
    unfold step at h
    split at h <;> cases h
    simp [hnone] at hmoved
  | registerFunction executor name =>
    unfold step at h
    split at h <;> cases h
    simp [hnone] at hmoved
  | executeTask executor task =>
    unfold step at h
    split at h
    · cases h
    · simp only at h
      split at h <;> cases h
      rw [List.getElem?_append_right (List.getElem?_eq_none_iff.mp hnone)] at hmoved
      exact ⟨executor, task, List.mem_singleton.mp (List.mem_of_getElem? hmoved)⟩

theorem getElem?_executeTask {executor : ℕ} {task : Task}
    (h : step system (.executeTask executor task) = some next) :
    next.runs[system.runs.length]? = some { executor := executor, task := task } := by
  unfold step at h
  split at h
  · cases h
  · simp only at h
    split at h
    · cases h
      simp
    · cases h

section Rules

variable {ok : TaskRun → TaskAction → Prop} {I : TaskRun → Prop}
  (hstep : ∀ record taskAction moved, I record → ok record taskAction → TaskStep record taskAction moved →
    I moved)

include hstep

/-- What the steps of a task preserve holds of it from the moment it holds. -/
theorem task_invariant {actions : List Action} {final : System} (hok : Meets step (OnTasks ok) system actions)
    (hrun : run step system actions = some final) (hrecord : system.runs[index]? = some record)
    (hI : I record) : ∃ moved, final.runs[index]? = some moved ∧ I moved := by
  refine hok.invariant (I := fun visited ↦ ∃ moved, visited.runs[index]? = some moved ∧ I moved) ?_
    ⟨record, hrecord, hI⟩ hrun
  intro state action next hstate hmeets hnext
  obtain ⟨current, hcurrent, hIcurrent⟩ := hstate
  rcases step_task hnext hcurrent with hsame | ⟨taskAction, moved, rfl, htask, hmoved⟩
  · exact ⟨current, hsame, hIcurrent⟩
  · exact ⟨moved, hmoved, hstep current taskAction moved hIcurrent (hmeets current hcurrent) htask⟩

/-- What a new task has and the steps of a task preserve holds of all tasks after a step of the system. -/
theorem tasks_of_step (hnew : ∀ executor task, I { executor := executor, task := task })
    (hmeets : OnTasks ok system action) (hnext : step system action = some next)
    (hsystem : ∀ (index : ℕ) record, system.runs[index]? = some record → I record) (index : ℕ) (moved : TaskRun)
    (hmoved : next.runs[index]? = some moved) : I moved := by
  cases hcurrent : system.runs[index]? with
  | none =>
    obtain ⟨executor, task, rfl⟩ := step_new hnext hcurrent hmoved
    exact hnew executor task
  | some current =>
    have hIcurrent := hsystem index current hcurrent
    rcases step_task hnext hcurrent with hsame | ⟨taskAction, moved', rfl, htask, hmoved'⟩
    · obtain rfl : current = moved := Option.some.inj (hsame.symm.trans hmoved)
      exact hIcurrent
    · obtain rfl : moved' = moved := Option.some.inj (hmoved'.symm.trans hmoved)
      exact hstep current taskAction moved' hIcurrent (hmeets current hcurrent) htask

/-- The same at the end of a run. -/
theorem tasks_invariant (hnew : ∀ executor task, I { executor := executor, task := task })
    {actions : List Action} (hok : Meets step (OnTasks ok) {} actions)
    (hrun : run step {} actions = some system) (hrecord : system.runs[index]? = some record) : I record := by
  refine hok.invariant (I := fun visited ↦ ∀ index record, visited.runs[index]? = some record → I record) ?_
    (by simp) hrun index record hrecord
  intro state action next hstate hmeets hnext
  exact tasks_of_step hstep hnew hmeets hnext hstate

end Rules

/-! ## The hand that holds the task -/

/-- `SUCCESS`, `FAILED` or `TIMEOUT`. -/
def IsTerminal (state : TaskState) : Prop := state = .success ∨ state = .failed ∨ state = .timeout

/-- The attempt has not left its task to a retry timer. -/
def AttemptPc.holdsTask : AttemptPc → Bool
  | .returned none => false
  | _ => true

/-- The retry timer has not yet handed its task to a new attempt. -/
def RetryTimer.pending (timer : RetryTimer) : Bool := timer.status != .done

/-- Exactly one attempt or retry timer holds the task. -/
def TaskRun.InOneHand (record : TaskRun) : Prop :=
  record.attempts.countP AttemptPc.holdsTask + record.retryTimers.countP RetryTimer.pending = 1

/-- The report after which an attempt makes no other. -/
def AttemptPc.reported? : AttemptPc → Option Report
  | .cancelTimer _ reported => some reported
  | .returned reported => reported
  | _ => none

theorem AttemptPc.holdsTask_of_reported {pc : AttemptPc} {report : Report}
    (h : pc.reported? = some report) : pc.holdsTask = true := by
  cases pc with
  | returned reported =>
    cases reported with
    | none => cases h
    | some reported => rfl
  | cancelTimer timer reported => rfl
  | _ => cases h

namespace TaskRun

variable {executor : TaskExecutor} {before after : ℤ} {attempt timer : ℕ} {nowMs : UInt64} {outcome : Outcome}
  {pc : AttemptPc}

/-- A step of an attempt moves that attempt only, and leaves the retry timers alone unless it arms
one, which is the step that gives the task away. -/
theorem attemptStep_hand (h : record.attemptStep executor before attempt nowMs outcome pc = some (moved, after)) :
    pc.holdsTask = true ∧ ∃ pc', moved.attempts = record.attempts.set attempt pc' ∧
      ((pc'.holdsTask = true ∧ moved.retryTimers = record.retryTimers) ∨
        (pc' = .returned none ∧
          moved.retryTimers = record.retryTimers ++ [{ delaySeconds := retryDelay record.task }])) := by
  cases attemptMove_of_step h with
  | armRetryTimer timer => exact ⟨rfl, _, rfl, .inr ⟨rfl, rfl⟩⟩
  | _ => exact ⟨rfl, _, rfl, .inl ⟨rfl, rfl⟩⟩

theorem attemptStep_inOneHand (hpc : record.attempts[attempt]? = some pc)
    (h : record.attemptStep executor before attempt nowMs outcome pc = some (moved, after))
    (hone : record.InOneHand) : moved.InOneHand := by
  obtain ⟨hholds, pc', hattempts, hcases⟩ := attemptStep_hand h
  have hset := countP_set_of_getElem? AttemptPc.holdsTask hpc pc'
  have hpos := toNat_le_countP AttemptPc.holdsTask hpc
  rw [hholds, Bool.toNat_true] at hset hpos
  unfold InOneHand at hone ⊢
  rw [hattempts, hset]
  rcases hcases with ⟨hkeeps, hretry⟩ | ⟨rfl, hretry⟩
  · rw [hretry, hkeeps, Bool.toNat_true]
    omega
  · have hgives : (AttemptPc.returned none).holdsTask.toNat = 0 := rfl
    have htakes : (RetryTimer.pending { delaySeconds := retryDelay record.task }).toNat = 1 := rfl
    rw [hretry, countP_append_singleton, hgives, htakes]
    omega

theorem timerStep_hand {status : TimerStatus} (h : record.timerStep timer nowMs status = some moved) :
    moved.attempts = record.attempts ∧ moved.retryTimers = record.retryTimers := by
  cases status with
  | fired => cases h
  | cancelled => cases h
  | _ =>
    cases h
    exact ⟨rfl, rfl⟩

/-- How the number of retry timers with some status moves when one of them moves. -/
theorem countP_setRetry {entry : RetryTimer} (p : RetryStatus → Bool)
    (hentry : record.retryTimers[timer]? = some entry) (status : RetryStatus) :
    (record.setRetry timer status).retryTimers.countP (fun timer ↦ p timer.status) + (p entry.status).toNat =
      record.retryTimers.countP (fun timer ↦ p timer.status) + (p status).toNat := by
  have hpos := toNat_le_countP (fun timer : RetryTimer ↦ p timer.status) hentry
  have hset := countP_set_of_getElem? (fun timer ↦ p timer.status) hentry { entry with status := status }
  rw [setRetry, List.modify_eq_set_getElem?, hentry, Option.map_eq_map, Option.map_some, Option.getD_some, hset]
  exact Nat.sub_add_cancel (Nat.le_trans hpos (Nat.le_add_right _ _))

/-- A step of a retry timer keeps the task with the timer, or it is the call of `execute_task`. -/
theorem retryStep_hand {status : RetryStatus} (h : record.retryStep before timer status = some (moved, after)) :
    status ≠ .done ∧ ∃ status', moved.retryTimers = (record.setRetry timer status').retryTimers ∧
      ((status' ≠ .done ∧ moved.attempts = record.attempts) ∨
        (status' = .done ∧ moved.attempts = record.attempts ++ [.queued])) := by
  cases status with
  | done => cases h
  | execute =>
    cases h
    exact ⟨by decide, .done, rfl, .inr ⟨rfl, rfl⟩⟩
  | _ =>
    cases h
    exact ⟨by decide, _, rfl, .inl ⟨by decide, rfl⟩⟩

theorem retryStep_inOneHand {entry : RetryTimer} (hentry : record.retryTimers[timer]? = some entry)
    (h : record.retryStep before timer entry.status = some (moved, after)) (hone : record.InOneHand) :
    moved.InOneHand := by
  obtain ⟨hstatus, status', hretry, hcases⟩ := retryStep_hand h
  have hcount := countP_setRetry (· != .done) hentry status'
  rw [bne_iff_ne.mpr hstatus, Bool.toNat_true] at hcount
  unfold InOneHand RetryTimer.pending at hone ⊢
  rw [hretry]
  rcases hcases with ⟨hkeeps, hattempts⟩ | ⟨rfl, hattempts⟩
  · rw [bne_iff_ne.mpr hkeeps, Bool.toNat_true] at hcount
    rw [hattempts]
    omega
  · have htakes : AttemptPc.queued.holdsTask.toNat = 1 := rfl
    have hgives : (RetryStatus.done != .done).toNat = 0 := rfl
    rw [hattempts, countP_append_singleton, htakes]
    omega

end TaskRun

theorem inOneHand_of_taskStep {taskAction : TaskAction} (h : TaskStep record taskAction moved)
    (hone : record.InOneHand) : moved.InOneHand := by
  obtain ⟨executor, before, after, h⟩ := h
  cases TaskRun.taskMove_of_step h with
  | attempt index nowMs outcome pc hpc hstep =>
    exact TaskRun.attemptStep_inOneHand hpc hstep hone
  | timer index nowMs entry hentry htimer =>
    obtain ⟨hattempts, hretry⟩ := TaskRun.timerStep_hand htimer
    unfold TaskRun.InOneHand
    rw [hattempts, hretry]
    exact hone
  | retry index entry hentry hstep =>
    exact TaskRun.retryStep_inOneHand hentry hstep hone

theorem onTasks_true (system : System) (action : Action) : OnTasks (fun _ _ ↦ True) system action := by
  cases action with
  | act => exact fun _ _ ↦ trivial
  | _ => trivial

theorem inOneHand_of_run {actions : List Action} (hrun : run step {} actions = some system)
    (hrecord : system.runs[index]? = some record) : record.InOneHand := by
  have hok : Meets step (OnTasks fun _ _ ↦ True) {} actions :=
    Meets.of_forall_mem fun action _ state ↦ onTasks_true state action
  refine tasks_invariant ?_ (fun _ _ ↦ rfl) hok hrun hrecord
  intro record taskAction moved hone _ hstep
  exact inOneHand_of_taskStep hstep hone

/-! ## Execution timers -/

namespace TaskRun

variable {executor : TaskExecutor} {before after : ℤ} {attempt timer : ℕ} {nowMs : UInt64} {outcome : Outcome}
  {pc : AttemptPc}

theorem timerStep_timers {status : TimerStatus} (h : record.timerStep timer nowMs status = some moved) :
    status ≠ .fired ∧ ∃ status', status' ≠ .waiting ∧ moved.execTimers = (record.setTimer timer status').execTimers := by
  cases status with
  | fired => cases h
  | cancelled => cases h
  | _ =>
    cases h
    exact ⟨by decide, _, by decide, rfl⟩

theorem retryStep_timers {status : RetryStatus} (h : record.retryStep before timer status = some (moved, after)) :
    moved.execTimers = record.execTimers := by
  cases status with
  | done => cases h
  | _ =>
    cases h
    rfl

/-- The timers after a step of an attempt: as before, one armed, or one cancelled. -/
theorem attemptStep_timers (h : record.attemptStep executor before attempt nowMs outcome pc = some (moved, after)) :
    moved.execTimers = record.execTimers ∨
      (∃ nowMs remaining, pc = .armTimer nowMs remaining ∧
        moved.execTimers = record.execTimers ++ [{ remaining := remaining }]) ∨
      ∃ timer reported, pc = .cancelTimer timer reported ∧ moved.execTimers = (record.cancel timer).execTimers := by
  cases attemptMove_of_step h with
  | armTimer nowMs remaining => exact .inr (.inl ⟨_, _, rfl, rfl⟩)
  | cancelTimer timer reported => exact .inr (.inr ⟨_, _, rfl, rfl⟩)
  | _ => exact .inl rfl

end TaskRun

/-- An execution timer that has fired stays as it is, and one that is no longer waiting never waits
again. -/
theorem execTimers_forward {taskAction : TaskAction} {place : ℕ} {entry : ExecTimer}
    (h : TaskStep record taskAction moved) (hentry : record.execTimers[place]? = some entry) :
    ∃ entry', moved.execTimers[place]? = some entry' ∧
      (entry' = entry ∨ (entry.status ≠ .fired ∧ entry'.status ≠ .waiting)) := by
  obtain ⟨executor, before, after, h⟩ := h
  cases TaskRun.taskMove_of_step h with
  | attempt index nowMs outcome pc hpc hstep =>
    rcases TaskRun.attemptStep_timers hstep with hsame | ⟨_, remaining, -, harmed⟩ | ⟨timer, _, -, hcancel⟩
    · exact ⟨entry, by rw [hsame, hentry], .inl rfl⟩
    · refine ⟨entry, ?_, .inl rfl⟩
      rw [harmed, List.getElem?_append_left (lt_length_of_getElem? hentry), hentry]
    · refine ⟨_, by rw [hcancel, TaskRun.cancel, getElem?_modify_of_getElem? hentry], ?_⟩
      by_cases hplace : timer = place
      · rw [if_pos hplace]
        by_cases hwaiting : entry.status = .waiting
        · rw [if_pos hwaiting, hwaiting]
          exact .inr ⟨by decide, nofun⟩
        · exact .inl (if_neg hwaiting)
      · exact .inl (if_neg hplace)
  | timer index nowMs expiring hexpiring htimer =>
    obtain ⟨hfired, status, hwaiting, htimers⟩ := TaskRun.timerStep_timers htimer
    refine ⟨_, by rw [htimers, TaskRun.setTimer, getElem?_modify_of_getElem? hentry], ?_⟩
    by_cases hplace : index = place
    · subst hplace
      obtain rfl : expiring = entry := Option.some.inj (hexpiring.symm.trans hentry)
      rw [if_pos rfl]
      exact .inr ⟨hfired, hwaiting⟩
    · exact .inl (if_neg hplace)
  | retry index retrying hretrying hstep =>
    exact ⟨entry, by rw [TaskRun.retryStep_timers hstep, hentry], .inl rfl⟩

end TinyReactor.Executor
