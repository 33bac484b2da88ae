import TinyReactor.Executor.Model

/-!
# Inversion of the statements

Who moves in a step of a task, and the outcomes of a statement of `run_task`, one constructor each. What the steps
keep is argued by cases on these.
-/

namespace TinyReactor.Executor.TaskRun

open Wire

section

variable (executor : TaskExecutor) (attempt : ℕ) (nowMs : UInt64) (outcome : Outcome) (record : TaskRun) (before : ℤ)

/-- The outcomes of a statement of `run_task`, with the value of `retrying_cnt` after it. -/
inductive AttemptMove : AttemptPc → TaskRun → ℤ → Prop
  | accept (hresources : checkResources executor.availableResources record.task.required = true) :
      AttemptMove .queued (record.setAttempt attempt .readClock) before
  | insufficient (hresources : checkResources executor.availableResources record.task.required = false) :
      AttemptMove .queued
        (record.setAttempt attempt (.refuse { state := .failed, errorMsg := "Insufficient resources" })) before
  | late (hremaining : remainingTimeout record.task nowMs < 0) :
      AttemptMove .readClock (record.setAttempt attempt (.refuse timeoutReport)) before
  | inTime (hremaining : ¬remainingTimeout record.task nowMs < 0) : AttemptMove .readClock
      (record.setAttempt attempt (.armTimer nowMs (remainingTimeout record.task nowMs))) before
  | refuse (report : Report) : AttemptMove (.refuse report)
      ((record.update report nowMs).setAttempt attempt (.returned (some report))) before
  | armTimer (startMs : UInt64) (remaining : Int64) : AttemptMove (.armTimer startMs remaining)
      (({ record with execTimers := record.execTimers ++ [{ remaining := remaining }] } : TaskRun).setAttempt attempt
        (.setStart record.execTimers.length startMs)) before
  | setStart (timer : ℕ) (startMs : UInt64) : AttemptMove (.setStart timer startMs)
      (({ record with task := { record.task with startTs := startMs.toInt64 } } : TaskRun).setAttempt attempt
        (.setRunning timer)) before
  | setRunning (timer : ℕ) : AttemptMove (.setRunning timer)
      ((record.update { state := .running } nowMs).setAttempt attempt (.findFunction timer)) before
  | found (timer : ℕ) (hname : record.task.funcName ∈ executor.functions) :
      AttemptMove (.findFunction timer) (record.setAttempt attempt (.callFunction timer)) before
  | unknown (timer : ℕ) (hname : record.task.funcName ∉ executor.functions) : AttemptMove (.findFunction timer)
      (record.setAttempt attempt (.catchError timer { what := "Unknown function: " ++ record.task.funcName })) before
  | returns (timer : ℕ) (result : Json) (houtcome : outcome = .returns result) :
      AttemptMove (.callFunction timer) (record.setAttempt attempt (.reportSuccess timer result)) before
  | throws (timer : ℕ) (error : StdException) (houtcome : outcome = .throws error) :
      AttemptMove (.callFunction timer) (record.setAttempt attempt (.catchError timer error)) before
  | throwsOther (timer : ℕ) (houtcome : outcome = .throwsOther) :
      AttemptMove (.callFunction timer) (record.setAttempt attempt (.escaped timer)) before
  | reportSuccess (timer : ℕ) (result : Json) : AttemptMove (.reportSuccess timer result)
      ((record.update { state := .success, result := result } nowMs).setAttempt attempt
        (.cancelTimer timer { state := .success, result := result })) before
  | retryable (timer : ℕ) (error : StdException) (hcode : isRetryableError (error.code.getD .success) = true)
      (hcount : record.task.retryCount < record.task.maxRetry) :
      AttemptMove (.catchError timer error) (record.setAttempt attempt (.claimRetry timer)) before
  | final (timer : ℕ) (error : StdException)
      (hfinal : (isRetryableError (error.code.getD .success) &&
        decide (record.task.retryCount < record.task.maxRetry)) = false) :
      AttemptMove (.catchError timer error) (record.setAttempt attempt (.reportFailure timer error.what)) before
  | overQuota (timer : ℕ) (hquota : maxConcurrentRetry ≤ before) :
      AttemptMove (.claimRetry timer) (record.setAttempt attempt (.returnClaim timer)) (before + 1)
  | admitted (timer : ℕ) (hquota : before < maxConcurrentRetry) :
      AttemptMove (.claimRetry timer) (record.setAttempt attempt (.armRetryTimer timer)) (before + 1)
  | returnClaim (timer : ℕ) :
      AttemptMove (.returnClaim timer) (record.setAttempt attempt (.reportQuotaFull timer)) (before - 1)
  | reportQuotaFull (timer : ℕ) : AttemptMove (.reportQuotaFull timer)
      ((record.update { state := .failed, errorMsg := "Retry quota full" } nowMs).setAttempt attempt
        (.returned (some { state := .failed, errorMsg := "Retry quota full" }))) before
  | armRetryTimer (timer : ℕ) : AttemptMove (.armRetryTimer timer)
      (({ record with
        retryTimers := record.retryTimers ++ [{ delaySeconds := retryDelay record.task }] } : TaskRun).setAttempt
        attempt (.returned none)) before
  | reportFailure (timer : ℕ) (what : String) : AttemptMove (.reportFailure timer what)
      ((record.update { state := .failed, errorMsg := "Execution failed: " ++ what } nowMs).setAttempt attempt
        (.cancelTimer timer { state := .failed, errorMsg := "Execution failed: " ++ what })) before
  | cancelTimer (timer : ℕ) (reported : Report) : AttemptMove (.cancelTimer timer reported)
      ((record.cancel timer).setAttempt attempt (.returned (some reported))) before

end

section

variable (executor : TaskExecutor) (record : TaskRun) (before : ℤ)

/-- Who moves, and from where: an attempt, an execution timer or a retry timer. -/
inductive TaskMove : TaskAction → TaskRun → ℤ → Prop
  | attempt {moved : TaskRun} {after : ℤ} (index : ℕ) (nowMs : UInt64) (outcome : Outcome) (pc : AttemptPc)
      (hpc : record.attempts[index]? = some pc)
      (hstep : record.attemptStep executor before index nowMs outcome pc = some (moved, after)) :
      TaskMove (.attempt index nowMs outcome) moved after
  | timer {moved : TaskRun} (index : ℕ) (nowMs : UInt64) (entry : ExecTimer)
      (hentry : record.execTimers[index]? = some entry)
      (hstep : record.timerStep index nowMs entry.status = some moved) : TaskMove (.timer index nowMs) moved before
  | retry {moved : TaskRun} {after : ℤ} (index : ℕ) (entry : RetryTimer)
      (hentry : record.retryTimers[index]? = some entry)
      (hstep : record.retryStep before index entry.status = some (moved, after)) :
      TaskMove (.retry index) moved after

end

variable {executor : TaskExecutor} {attempt : ℕ} {nowMs : UInt64} {outcome : Outcome} {record moved : TaskRun}
  {before after : ℤ} {pc : AttemptPc}

theorem taskMove_of_step {taskAction : TaskAction}
    (h : record.step executor before taskAction = some (moved, after)) :
    TaskMove executor record before taskAction moved after := by
  cases taskAction with
  | attempt index nowMs outcome =>
    obtain ⟨pc, hpc, hstep⟩ := Option.bind_eq_some_iff.mp h
    exact .attempt index nowMs outcome pc hpc hstep
  | timer index nowMs =>
    obtain ⟨entry, hentry, hstep⟩ := Option.bind_eq_some_iff.mp h
    obtain ⟨moved', htimer, heq⟩ := Option.map_eq_some_iff.mp hstep
    cases heq
    exact .timer index nowMs entry hentry htimer
  | retry index =>
    obtain ⟨entry, hentry, hstep⟩ := Option.bind_eq_some_iff.mp h
    exact .retry index entry hentry hstep

theorem attemptMove_of_step (h : record.attemptStep executor before attempt nowMs outcome pc = some (moved, after)) :
    AttemptMove executor attempt nowMs outcome record before pc moved after := by
  cases pc with
  | queued =>
    cases h
    cases hresources : checkResources executor.availableResources record.task.required with
    | true => exact .accept hresources
    | false => exact .insufficient hresources
  | readClock =>
    cases h
    split
    · rename_i hremaining
      exact .late hremaining
    · rename_i hremaining
      exact .inTime hremaining
  | findFunction timer =>
    cases h
    split
    · rename_i hname
      exact .found timer hname
    · rename_i hname
      exact .unknown timer hname
  | callFunction timer =>
    cases h
    cases houtcome : outcome with
    | returns result => exact .returns timer result rfl
    | throws error => exact .throws timer error rfl
    | throwsOther => exact .throwsOther timer rfl
  | catchError timer error =>
    cases h
    split
    · rename_i hretry
      rw [Bool.and_eq_true, decide_eq_true_eq] at hretry
      exact .retryable timer error hretry.1 hretry.2
    · rename_i hfinal
      exact .final timer error (Bool.not_eq_true _ ▸ hfinal)
  | claimRetry timer =>
    cases h
    split
    · rename_i hquota
      exact .overQuota timer hquota
    · rename_i hquota
      exact .admitted timer (Int.not_le.mp hquota)
  | returned reported => cases h
  | escaped timer => cases h
  | _ =>
    cases h
    constructor

end TinyReactor.Executor.TaskRun
