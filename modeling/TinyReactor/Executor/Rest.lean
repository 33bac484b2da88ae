import TinyReactor.Executor.Bounds
import TinyReactor.Executor.Returns

/-!
# Every task comes to rest

A task keeps threads busy through its attempts, its execution timers and its retry timers. Each of them has
a number of steps to make, and what it starts is counted with it: an attempt pays for the execution timer and
the retry timer it may arm, and a retry is paid for by the `retry_count` it uses up. No step adds to the sum,
so the steps of a task are bounded from the moment it is handed over. Where none is left, the task is `SUCCESS`,
`FAILED` or `TIMEOUT`.
-/

namespace TinyReactor.Executor

open Transition Wire

/-- A bound on the steps that an attempt and the timers it arms are still to make; a retry is not counted. -/
def AttemptPc.work : AttemptPc → ℕ
  | .queued => 17
  | .readClock => 16
  | .armTimer _ _ => 15
  | .setStart _ _ => 11
  | .setRunning _ => 10
  | .findFunction _ => 9
  | .callFunction _ => 8
  | .catchError _ _ => 7
  | .claimRetry _ => 6
  | .armRetryTimer _ => 5
  | .returnClaim _ | .reportSuccess _ _ | .reportFailure _ _ => 2
  | .refuse _ | .reportQuotaFull _ | .cancelTimer _ _ => 1
  | .returned _ | .escaped _ => 0

def TimerStatus.work : TimerStatus → ℕ
  | .waiting => 3
  | .expired => 2
  | .flagged => 1
  | .fired | .cancelled => 0

/-- Past `task->retry_count++` the timer owes a whole attempt. -/
def RetryStatus.work : RetryStatus → ℕ
  | .waiting => 4
  | .release => 3
  | .count => 2
  | .execute => 1 + AttemptPc.queued.work
  | .done => 0

def attemptWork (attempts : List AttemptPc) : ℕ := (attempts.map AttemptPc.work).sum

def timerWork (timers : List ExecTimer) : ℕ := (timers.map fun timer ↦ timer.status.work).sum

def retryWork (timers : List RetryTimer) : ℕ := (timers.map fun timer ↦ timer.status.work).sum

theorem timerWork_append (timers : List ExecTimer) (remaining : Int64) :
    timerWork (timers ++ [{ remaining := remaining }]) = timerWork timers + TimerStatus.waiting.work := by
  rw [timerWork, timerWork, List.map_append, List.sum_append, List.map_singleton, List.sum_singleton]

theorem retryWork_append (timers : List RetryTimer) (delaySeconds : UInt32) :
    retryWork (timers ++ [{ delaySeconds := delaySeconds }]) = retryWork timers + RetryStatus.waiting.work := by
  rw [retryWork, retryWork, List.map_append, List.sum_append, List.map_singleton, List.sum_singleton]

namespace TaskRun

/-- A bound on all steps of the task that are still to come. -/
def work (record : TaskRun) : ℕ :=
  attemptWork record.attempts + timerWork record.execTimers + retryWork record.retryTimers +
    AttemptPc.queued.work * (record.task.maxRetry.toNat - record.task.retryCount.toNat)

variable {record moved : TaskRun} {executor : TaskExecutor} {before after : ℤ} {attempt timer : ℕ} {nowMs : UInt64}
  {outcome : Outcome} {pc : AttemptPc} {taskAction : TaskAction} {task : Task} {count : ℕ}

/-! ## One step -/

theorem timerWork_setTimer {entry : ExecTimer} (hentry : record.execTimers[timer]? = some entry)
    (status : TimerStatus) :
    timerWork (record.setTimer timer status).execTimers + entry.status.work =
      timerWork record.execTimers + status.work := by
  rw [setTimer, modify_eq_set_of_getElem? hentry]
  exact sum_map_set_of_getElem? (fun timer : ExecTimer ↦ timer.status.work) hentry { entry with status := status }

theorem retryWork_setRetry {entry : RetryTimer} (hentry : record.retryTimers[timer]? = some entry)
    (status : RetryStatus) :
    retryWork (record.setRetry timer status).retryTimers + entry.status.work =
      retryWork record.retryTimers + status.work := by
  rw [setRetry, modify_eq_set_of_getElem? hentry]
  exact sum_map_set_of_getElem? (fun timer : RetryTimer ↦ timer.status.work) hentry { entry with status := status }

/-- Cancelling takes a waiting timer out of the sum. -/
theorem timerWork_cancel_le (record : TaskRun) (timer : ℕ) :
    timerWork (record.cancel timer).execTimers ≤ timerWork record.execTimers := by
  cases hentry : record.execTimers[timer]? with
  | none => rw [cancel, List.modify_eq_self (List.getElem?_eq_none_iff.mp hentry)]
  | some entry =>
    rw [cancel, modify_eq_set_of_getElem? hentry]
    have hset := sum_map_set_of_getElem? (fun timer : ExecTimer ↦ timer.status.work) hentry
      (if entry.status = .waiting then { entry with status := .cancelled } else entry)
    have hless : (if entry.status = .waiting then { entry with status := .cancelled } else entry).status.work ≤
        entry.status.work := by
      split
      · exact Nat.zero_le _
      · exact Nat.le_refl _
    exact Nat.le_of_add_le_add_right (hset.trans_le (Nat.add_le_add_left hless _))

/-- A statement of `run_task` is paid for by its attempt, with the timer it arms. -/
theorem attemptStep_weights (h : record.attemptStep executor before attempt nowMs outcome pc = some (moved, after)) :
    ∃ pc', moved.attempts = record.attempts.set attempt pc' ∧
      timerWork moved.execTimers + retryWork moved.retryTimers + (pc'.work + 1) ≤
        timerWork record.execTimers + retryWork record.retryTimers + pc.work := by
  cases attemptMove_of_step h with
  | armTimer startMs remaining =>
    refine ⟨_, rfl, ?_⟩
    change timerWork (record.execTimers ++ [{ remaining := remaining }]) + retryWork record.retryTimers + 12 ≤ _ + 15
    rw [timerWork_append, TimerStatus.work]
    omega
  | armRetryTimer timer =>
    refine ⟨_, rfl, ?_⟩
    change timerWork record.execTimers +
      retryWork (record.retryTimers ++ [{ delaySeconds := retryDelay record.task }]) + 1 ≤ _ + 5
    rw [retryWork_append, RetryStatus.work]
    omega
  | cancelTimer timer reported =>
    exact ⟨_, rfl, Nat.add_le_add_right (Nat.add_le_add_right (timerWork_cancel_le record timer) _) 1⟩
  | _ => exact ⟨_, rfl, Nat.add_le_add_left (by simp [AttemptPc.work]) _⟩

theorem attemptStep_work (hpc : record.attempts[attempt]? = some pc)
    (h : record.attemptStep executor before attempt nowMs outcome pc = some (moved, after)) :
    moved.work + 1 ≤ record.work := by
  obtain ⟨pc', hattempts, hpaid⟩ := attemptStep_weights h
  obtain ⟨hretryCount, hmaxRetry, -⟩ := attemptStep_allowed h
  have hset := sum_map_set_of_getElem? AttemptPc.work hpc pc'
  rw [work, work, attemptWork, attemptWork, hattempts, hmaxRetry, hretryCount]
  omega

/-- An execution timer moves towards its end, and touches nothing else that counts. -/
theorem timerStep_weights {status : TimerStatus} (h : record.timerStep timer nowMs status = some moved) :
    ∃ status' : TimerStatus, moved.execTimers = (record.setTimer timer status').execTimers ∧
      status'.work + 1 = status.work ∧ moved.task.retryCount = record.task.retryCount ∧
      moved.task.maxRetry = record.task.maxRetry := by
  cases status with
  | fired | cancelled => cases h
  | _ =>
    cases h
    exact ⟨_, rfl, rfl, rfl, rfl⟩

theorem timerStep_work {entry : ExecTimer} (hentry : record.execTimers[timer]? = some entry)
    (h : record.timerStep timer nowMs entry.status = some moved) : moved.work + 1 ≤ record.work := by
  obtain ⟨status', htimers, hless, hretryCount, hmaxRetry⟩ := timerStep_weights h
  obtain ⟨hattempts, hretry⟩ := timerStep_hand h
  have hset := timerWork_setTimer hentry status'
  rw [work, work, htimers, hattempts, hretry, hretryCount, hmaxRetry]
  omega

/-- A retry timer moves on, counts its retry, or hands its task to a new attempt. -/
theorem retryStep_weights {status : RetryStatus} (h : record.retryStep before timer status = some (moved, after)) :
    moved.task.maxRetry = record.task.maxRetry ∧ ∃ status' : RetryStatus,
      moved.retryTimers = (record.setRetry timer status').retryTimers ∧
      ((moved.attempts = record.attempts ∧ moved.task.retryCount = record.task.retryCount ∧
          status'.work + 1 = status.work) ∨
        (moved.attempts = record.attempts ∧ moved.task.retryCount = record.task.retryCount + 1 ∧
          status = .count ∧ status' = .execute) ∨
        (moved.attempts = record.attempts ++ [.queued] ∧ moved.task.retryCount = record.task.retryCount ∧
          status = .execute ∧ status' = .done)) := by
  cases status with
  | waiting | release =>
    cases h
    exact ⟨rfl, _, rfl, .inl ⟨rfl, rfl, rfl⟩⟩
  | count =>
    cases h
    exact ⟨rfl, _, rfl, .inr (.inl ⟨rfl, rfl, rfl, rfl⟩)⟩
  | execute =>
    cases h
    exact ⟨rfl, _, rfl, .inr (.inr ⟨rfl, rfl, rfl, rfl⟩)⟩
  | done => cases h

/-- The attempt that a retry starts is paid for by the `retry_count` it has used up. -/
theorem retryStep_work {entry : RetryTimer} (hrecord : record.WithinAllowance task count)
    (hentry : record.retryTimers[timer]? = some entry)
    (h : record.retryStep before timer entry.status = some (moved, after)) : moved.work + 1 ≤ record.work := by
  have htimers := retryStep_timers h
  obtain ⟨hmaxRetry, status', hretry, hcases⟩ := retryStep_weights h
  have hset := retryWork_setRetry hentry status'
  rw [work, work, htimers, hretry, hmaxRetry]
  rcases hcases with ⟨hattempts, hretryCount, hless⟩ | ⟨hattempts, hretryCount, hstatus, rfl⟩ |
      ⟨hattempts, hretryCount, hstatus, rfl⟩
  · rw [hattempts, hretryCount]
    omega
  · -- the retry was allowed, so that the count does not wrap
    have hallowed := hrecord.allowedTimer entry (List.mem_of_getElem? hentry) (by rw [hstatus]; rfl)
    have hbefore := hrecord.retryCount
    have hmax := task.maxRetry.toNat_lt
    have hnext : (record.task.retryCount + 1).toNat = record.task.retryCount.toNat + 1 := by
      rw [UInt32.toNat_add, UInt32.toNat_one]
      exact Nat.mod_eq_of_lt (by omega)
    rw [hstatus] at hset
    rw [hattempts, hretryCount, hnext, hrecord.limit]
    simp only [RetryStatus.work, AttemptPc.work] at hset ⊢
    omega
  · rw [hstatus] at hset
    have hqueued : attemptWork (record.attempts ++ [.queued]) =
        attemptWork record.attempts + AttemptPc.queued.work := by
      rw [attemptWork, attemptWork, List.map_append, List.sum_append, List.map_singleton, List.sum_singleton]
    rw [hattempts, hretryCount, hqueued]
    simp only [RetryStatus.work] at hset
    omega

end TaskRun

theorem work_of_taskStep {record moved : TaskRun} {taskAction : TaskAction} {task : Task} {count : ℕ}
    (hrecord : record.WithinAllowance task count) (h : TaskStep record taskAction moved) :
    moved.work + 1 ≤ record.work := by
  obtain ⟨executor, before, after, h⟩ := h
  cases TaskRun.taskMove_of_step h with
  | attempt index nowMs outcome pc hpc hstep => exact TaskRun.attemptStep_work hpc hstep
  | timer index nowMs entry hentry htimer => exact TaskRun.timerStep_work hentry htimer
  | retry index entry hentry hstep => exact TaskRun.retryStep_work hrecord hentry hstep

/-- A task that was handed over with `task` and has made `count` steps still has the rest of its work before it. -/
def TaskRun.Paid (task : Task) (count : ℕ) (record : TaskRun) : Prop :=
  (∃ retries, record.WithinAllowance task retries) ∧
    count + record.work ≤ 17 * ((task.maxRetry.toNat - task.retryCount.toNat) + 1)

theorem TaskRun.Paid.taskStep {record moved : TaskRun} {taskAction : TaskAction} {task : Task} {count : ℕ}
    (hrecord : record.Paid task count) (h : TaskStep record taskAction moved) : moved.Paid task (count + 1) := by
  obtain ⟨⟨retries, hwithin⟩, hpaid⟩ := hrecord
  have hwork := work_of_taskStep hwithin h
  exact ⟨⟨_, withinAllowance_of_taskStep h hwithin⟩, by omega⟩

section

variable {system next : System} {action : Action} {index : ℕ} {record : TaskRun}

/-- A retry timer that is pending can always take its next statement. -/
theorem retry_enabled {timer : ℕ} {entry : RetryTimer} (hrunning : system.terminated = false)
    (hrecord : system.runs[index]? = some record) (hexecutor : record.executor < system.executors.length)
    (hentry : record.retryTimers[timer]? = some entry) (hpending : entry.pending = true) :
    (step system (.act index (.retry timer))).isSome = true := by
  unfold step
  rw [if_neg (by simp [hrunning])]
  simp only [hrecord, List.getElem?_eq_getElem hexecutor, Option.bind_some, TaskRun.step, hentry, Option.isSome_map]
  unfold RetryTimer.pending at hpending
  generalize entry.status = status at hpending
  cases status with
  | done => cases hpending
  | _ => rfl

/-- A task whose attempts have all returned, with no retry to come, is in the hand of one that has made its last
report. -/
theorem TaskRun.Reporting.terminal_of_returned (h : record.Reporting)
    (hretry : ∀ timer ∈ record.retryTimers, timer.pending = false)
    (hreturned : ∀ pc ∈ record.attempts, pc.hasReturned = true) : IsTerminal record.task.state := by
  have hnone : record.retryTimers.countP RetryTimer.pending = 0 := by
    rw [List.countP_eq_zero]
    intro timer hmem
    exact Bool.eq_false_iff.mp (hretry timer hmem)
  have hhand := h.hand
  unfold TaskRun.InOneHand at hhand
  have hholding : 0 < record.attempts.countP AttemptPc.holdsTask := by omega
  obtain ⟨pc, hmem, hholds⟩ := List.countP_pos_iff.mp hholding
  have hended := hreturned pc hmem
  cases pc with
  | returned reported =>
    cases reported with
    | none => cases hholds
    | some report => exact h.terminal report ⟨_, hmem, rfl⟩
  | _ => cases hended

end

end TinyReactor.Executor
