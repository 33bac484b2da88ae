import TinyReactor.Executor.Attempts

/-!
# Execution timers

Each attempt that gets past its deadline check arms a timer. It cancels the timer after a success
and after a failure that is not retried. The two exits of the retryable branch, a full quota and a
scheduled retry, return without touching it: a timer that is still waiting there goes on waiting
after the attempt, and no later attempt knows it.
-/

namespace TinyReactor.Executor

open Transition Wire

namespace AttemptPc

/-- The execution timer in scope. -/
def timer? : AttemptPc → Option ℕ
  | .setStart timer _ | .setRunning timer | .findFunction timer | .callFunction timer
  | .reportSuccess timer _ | .catchError timer _ | .claimRetry timer | .returnClaim timer
  | .reportQuotaFull timer | .armRetryTimer timer | .reportFailure timer _ | .cancelTimer timer _
  | .escaped timer => some timer
  | _ => none

/-- The timer that goes out of scope here without `cancel`. -/
def abandoned? : AttemptPc → Option ℕ
  | .reportQuotaFull timer | .armRetryTimer timer => some timer
  | _ => none

end AttemptPc

namespace TaskRun

/-- The task is terminal, no attempt of it is queued or running, and no retry is pending. -/
structure Over (record : TaskRun) : Prop where
  terminal : IsTerminal record.task.state
  attempts : record.attempts.all AttemptPc.hasReturned = true
  retries : record.retryTimers.any RetryTimer.pending = false

/-- The retryable branch is not left with the attempt's timer still waiting. -/
def AbandonsNoWaiting (record : TaskRun) : TaskAction → Prop
  | .attempt index _ _ => ∀ timer entry, record.attempts[index]?.bind AttemptPc.abandoned? = some timer →
      record.execTimers[timer]? = some entry → entry.status ≠ .waiting
  | _ => True

/-- A waiting timer is in the scope of some attempt. -/
def WaitingInScope (record : TaskRun) : Prop :=
  ∀ (timer : ℕ) (entry : ExecTimer), record.execTimers[timer]? = some entry → entry.status = .waiting →
    ∃ (attempt : ℕ) (pc : AttemptPc), record.attempts[attempt]? = some pc ∧ pc.timer? = some timer

variable {record moved : TaskRun} {executor : TaskExecutor} {before after : ℤ} {attempt timer : ℕ}
  {nowMs : UInt64} {outcome : Outcome} {pc : AttemptPc} {taskAction : TaskAction}

/-- A timer that waits after a step waited before it, or is new. -/
theorem execTimers_waiting {entry : ExecTimer} (h : TaskStep record taskAction moved)
    (hentry : moved.execTimers[timer]? = some entry) (hwaiting : entry.status = .waiting) :
    record.execTimers[timer]? = some entry ∨ record.execTimers.length ≤ timer := by
  rcases Nat.lt_or_ge timer record.execTimers.length with hlt | hge
  · left
    obtain ⟨entry', hentry', hmove⟩ := execTimers_forward h (List.getElem?_eq_getElem hlt)
    obtain rfl : entry' = entry := Option.some.inj (hentry'.symm.trans hentry)
    obtain hsame | ⟨-, hnot⟩ := hmove
    · rw [hsame, List.getElem?_eq_getElem hlt]
    · exact absurd hwaiting hnot
  · exact .inr hge

/-- A timer leaves the scope of its attempt by `cancel` or abandoned. -/
theorem attemptStep_scope (h : record.attemptStep executor before attempt nowMs outcome pc = some (moved, after))
    (hscope : pc.timer? = some timer) (hkept : pc.abandoned? ≠ some timer) :
    (∃ pc', moved.attempts = record.attempts.set attempt pc' ∧ pc'.timer? = some timer) ∨
      moved.execTimers = (record.cancel timer).execTimers := by
  cases attemptMove_of_step h with
  | reportQuotaFull | armRetryTimer => exact absurd hscope hkept
  | cancelTimer place reported =>
    cases hscope
    exact .inr rfl
  | accept | insufficient | late | inTime | refuse | armTimer => cases hscope
  | _ => exact .inl ⟨_, rfl, hscope⟩

/-- A new timer is in the scope of the attempt that armed it. -/
theorem attemptStep_armed (h : record.attemptStep executor before attempt nowMs outcome pc = some (moved, after))
    {startMs : UInt64} {remaining : Int64} (hpc : pc = .armTimer startMs remaining) :
    moved.attempts = record.attempts.set attempt (.setStart record.execTimers.length startMs) := by
  subst hpc
  cases h
  rfl

theorem attemptStep_waitingInScope (hpc : record.attempts[attempt]? = some pc)
    (h : record.attemptStep executor before attempt nowMs outcome pc = some (moved, after))
    (hok : record.AbandonsNoWaiting (.attempt attempt nowMs outcome)) (hscope : record.WaitingInScope) :
    moved.WaitingInScope := by
  have hattempt := lt_length_of_getElem? hpc
  have htask : TaskStep record (.attempt attempt nowMs outcome) moved :=
    ⟨executor, before, after, by rw [TaskRun.step, hpc, Option.bind_some, h]⟩
  intro timer entry hentry hwaiting
  rcases execTimers_waiting htask hentry hwaiting with hold | hnew
  · obtain ⟨place, holder, hholder, hholds⟩ := hscope timer entry hold hwaiting
    by_cases hplace : attempt = place
    · subst hplace
      obtain rfl : pc = holder := Option.some.inj (hpc.symm.trans hholder)
      have hkept : pc.abandoned? ≠ some timer := by
        intro habandoned
        exact hok timer entry (by rw [hpc, Option.bind_some, habandoned]) hold hwaiting
      rcases attemptStep_scope h hholds hkept with ⟨pc', hattempts, hscope'⟩ | hcancel
      · exact ⟨attempt, pc', by rw [hattempts, List.getElem?_set_self hattempt], hscope'⟩
      · -- the attempt has just cancelled the timer
        rw [hcancel, cancel, getElem?_modify_of_getElem? hold, if_pos rfl, if_pos hwaiting] at hentry
        have hstatus := congrArg ExecTimer.status (Option.some.inj hentry)
        rw [hwaiting] at hstatus
        cases hstatus
    · obtain ⟨-, pc', hattempts, -⟩ := attemptStep_hand h
      exact ⟨place, holder, by rw [hattempts, List.getElem?_set_ne hplace, hholder], hholds⟩
  · have hlt := lt_length_of_getElem? hentry
    rcases attemptStep_timers h with hsame | ⟨startMs, remaining, harm, htimers⟩ | ⟨place, reported, -, hcancel⟩
    · rw [hsame] at hlt
      omega
    · rw [htimers, List.length_append, List.length_singleton] at hlt
      obtain rfl : timer = record.execTimers.length := by omega
      refine ⟨attempt, .setStart record.execTimers.length startMs, ?_, rfl⟩
      rw [attemptStep_armed h harm, List.getElem?_set_self hattempt]
    · rw [hcancel, cancel, List.length_modify] at hlt
      omega

theorem waitingInScope_of_taskStep (hscope : record.WaitingInScope) (hok : record.AbandonsNoWaiting taskAction)
    (h : TaskStep record taskAction moved) : moved.WaitingInScope := by
  have htask := h
  obtain ⟨executor, before, after, h⟩ := h
  cases taskMove_of_step h with
  | attempt index nowMs outcome pc hpc hstep =>
    exact attemptStep_waitingInScope hpc hstep hok hscope
  | timer index nowMs expiring hexpiring htimer =>
    obtain ⟨hattempts, -⟩ := timerStep_hand htimer
    obtain ⟨-, status, -, htimers⟩ := timerStep_timers htimer
    intro timer entry hentry hwaiting
    rw [hattempts]
    rcases execTimers_waiting htask hentry hwaiting with hold | hnew
    · exact hscope timer entry hold hwaiting
    · have hlt := lt_length_of_getElem? hentry
      rw [htimers, setTimer, List.length_modify] at hlt
      omega
  | retry index entry hentry hstep =>
    have htimers := retryStep_timers hstep
    obtain ⟨-, status', -, hattempts⟩ := retryStep_hand hstep
    intro timer entry hentry hwaiting
    rw [htimers] at hentry
    obtain ⟨place, pc, hpc, hholds⟩ := hscope timer entry hentry hwaiting
    refine ⟨place, pc, ?_, hholds⟩
    rcases hattempts with ⟨-, hsame⟩ | ⟨-, hnew⟩
    · rw [hsame, hpc]
    · rw [hnew, List.getElem?_append_left (lt_length_of_getElem? hpc), hpc]

/-- Once all attempts have returned, nothing is left in scope. -/
theorem WaitingInScope.not_waiting (hscope : record.WaitingInScope) (hover : record.Over) :
    ∀ timer ∈ record.execTimers, timer.status ≠ .waiting := by
  intro entry hmem hwaiting
  obtain ⟨timer, hentry⟩ := List.mem_iff_getElem?.mp hmem
  obtain ⟨attempt, pc, hpc, hholds⟩ := hscope timer entry hentry hwaiting
  have hreturned := List.all_eq_true.mp hover.attempts pc (List.mem_of_getElem? hpc)
  cases pc with
  | returned reported => cases hholds
  | _ => cases hreturned

end TaskRun

/-- In a run that never leaves the retryable branch with a waiting timer, no execution timer waits
for a task that is over. -/
theorem no_timer_outlives_task {actions : List Action} {system : System} {index : ℕ} {record : TaskRun}
    (hrun : run step {} actions = some system)
    (hok : Meets step (OnTasks TaskRun.AbandonsNoWaiting) {} actions)
    (hrecord : system.runs[index]? = some record) (hover : record.Over) :
    ∀ timer ∈ record.execTimers, timer.status ≠ .waiting := by
  refine TaskRun.WaitingInScope.not_waiting ?_ hover
  refine tasks_invariant ?_ ?_ hok hrun hrecord
  · intro record taskAction moved hscope hok htask
    exact TaskRun.waitingInScope_of_taskStep hscope hok htask
  · intro executor task timer entry hentry
    cases hentry

/-- A task handed to a new executor, whose function returns at the first attempt. -/
def returnsAtOnce : List Action :=
  [.construct, .executeTask 0 { funcName := "fib" }] ++
    List.replicate 9 (.act 0 (.attempt 0 0 (.returns .null)))

/-- A task whose function is refused a connection at the first attempt and returns at the second. -/
def returnsAtRetry : List Action :=
  [.construct, .executeTask 0 { funcName := "fib" }] ++
    List.replicate 10 (.act 0 (.attempt 0 0 (.throws { what := "", code := some .connectionRefused }))) ++
    List.replicate 4 (.act 0 (.retry 0)) ++
    List.replicate 9 (.act 0 (.attempt 1 0 (.returns .null)))

theorem no_timer_outlives_task_returned :
    ∃ system record, run step {} returnsAtOnce = some system ∧ system.runs[0]? = some record ∧ record.Over ∧
      ∀ timer ∈ record.execTimers, timer.status ≠ .waiting := by
  have hrun : run step {} returnsAtOnce = some _ := rfl
  refine ⟨_, _, hrun, rfl, ⟨.inl rfl, rfl, rfl⟩, ?_⟩
  refine @no_timer_outlives_task returnsAtOnce _ 0 _ hrun ?_ rfl ⟨.inl rfl, rfl, rfl⟩
  refine ⟨trivial, fun next hnext ↦ ?_⟩
  cases hnext
  refine ⟨trivial, fun next hnext ↦ ?_⟩
  cases hnext
  iterate 9
    refine ⟨?_, fun next hnext ↦ ?_⟩
    · intro record hrecord timer entry habandoned
      cases hrecord
      cases habandoned
    cases hnext
  trivial

theorem timer_outlives_retried_task :
    ∃ system record, run step {} returnsAtRetry = some system ∧ system.runs[0]? = some record ∧ record.Over ∧
      ∃ timer ∈ record.execTimers, timer.status = .waiting := by
  have hrun : run step {} returnsAtRetry = some _ := rfl
  refine ⟨_, _, hrun, rfl, ⟨.inl rfl, rfl, rfl⟩, ?_⟩
  exact ⟨_, List.mem_of_getElem? (i := 0) rfl, rfl⟩

end TinyReactor.Executor
