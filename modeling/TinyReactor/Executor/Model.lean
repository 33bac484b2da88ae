import TinyReactor.Transition.Runs
import TinyReactor.Transition.ThreadTable
import TinyReactor.Wire.Task

/-!
# The task executor

`TaskExecutor` of `src/worker/task-executor`. A task that was handed to `execute_task` owns its
attempts (calls of `run_task`, from the moment their closure is in the thread pool), the execution
timers these armed and its retry timers. Worker threads run the attempts and the thread of the
`io_context` runs the timer callbacks; every shared access is one step, and a whole
`update_task_state` is one step. The pool accepts every closure and may run it at any later time.

A registered function is the environment: it ends with a value, with a `std::exception` or with
something else, and does not itself write the task. The last way leaves `run_task` and the worker's
thread function, which terminates the process.
-/

namespace TinyReactor.Executor

open Data Wire

/-- `boost::system::error_code`, with the codes that the executor names. -/
inductive ErrorCode
  | success
  | connectionRefused
  | hostUnreachable
  | operationAborted
  | other (category : String) (value : ℤ)
  deriving DecidableEq, Repr

/-- A thrown `std::exception`; `code` is that of a `system_error`. -/
structure StdException where
  what : String
  code : Option ErrorCode := none

inductive Outcome
  | returns (result : Json)
  | throws (error : StdException)
  | throwsOther

/-- The arguments of a call of `update_task_state`. -/
structure Report where
  state : TaskState
  result : Json := .null
  errorMsg : String := ""

/-- Program points of one attempt. `timer` is the attempt's own execution timer. The last report
that an attempt made stays with it once it has returned; an attempt that left its task to a retry
timer made none. -/
inductive AttemptPc
  | queued
  | readClock
  | refuse (report : Report)
  | armTimer (nowMs : UInt64) (remaining : Int64)
  | setStart (timer : ℕ) (nowMs : UInt64)
  | setRunning (timer : ℕ)
  | findFunction (timer : ℕ)
  | callFunction (timer : ℕ)
  | reportSuccess (timer : ℕ) (result : Json)
  | catchError (timer : ℕ) (error : StdException)
  | claimRetry (timer : ℕ)
  | returnClaim (timer : ℕ)
  | reportQuotaFull (timer : ℕ)
  | armRetryTimer (timer : ℕ)
  | reportFailure (timer : ℕ) (what : String)
  | cancelTimer (timer : ℕ) (reported : Report)
  | returned (reported : Option Report)
  | escaped (timer : ℕ)

/-- An execution timer: waiting, expired with its callback queued, past the store of `cancelled`, past
the whole callback, or cancelled while it was waiting. -/
inductive TimerStatus
  | waiting
  | expired
  | flagged
  | fired
  | cancelled
  deriving DecidableEq, Repr

structure ExecTimer where
  remaining : Int64
  status : TimerStatus := .waiting
  deriving DecidableEq, Repr

/-- A retry timer: waiting, or at the next statement of its callback. -/
inductive RetryStatus
  | waiting
  | release
  | count
  | execute
  | done
  deriving DecidableEq, Repr

structure RetryTimer where
  delaySeconds : UInt32
  status : RetryStatus := .waiting
  deriving DecidableEq, Repr

/-- A task with everything that acts on it. -/
structure TaskRun where
  executor : ℕ
  task : Task
  attempts : List AttemptPc := [.queued]
  execTimers : List ExecTimer := []
  retryTimers : List RetryTimer := []

/-- The members of one `TaskExecutor`: the names in `functions_` and `available_resources_`. -/
structure TaskExecutor where
  functions : List String
  availableResources : Resource

/-- All executors of the process, their tasks, and the static counter they share. -/
structure System where
  executors : List TaskExecutor := []
  runs : List TaskRun := []
  retryingCnt : ℤ := 0

def maxConcurrentRetry : ℤ := 10

/-- `Resource{4.0, 8192}`. -/
def defaultResources : Resource where
  cpuCore := .finite 4 ⟨4, 0, by decide, by decide, by decide, by simp⟩
  memMb := 8192

/-- The constructor, which registers one function. -/
def TaskExecutor.create : TaskExecutor where
  functions := ["fib"]
  availableResources := defaultResources

def checkResources (available required : Resource) : Bool :=
  required.cpuCore.le available.cpuCore && decide (required.memMb ≤ available.memMb)

/-- `task->timeout_ms - (now_ms - task->submit_ts)` in the arithmetic of C++, stored in an `int64_t`. -/
def remainingTimeout (task : Task) (nowMs : UInt64) : Int64 :=
  (task.timeoutMs.toUInt64 - (nowMs - task.submitTs.toUInt64)).toInt64

def isRetryableError (code : ErrorCode) : Bool :=
  code == .connectionRefused || code == .hostUnreachable || code == .operationAborted

/-- `1 << std::min(task->retry_count, 4u)`. -/
def retryDelay (task : Task) : UInt32 := 1 <<< min task.retryCount 4

/-- `update_task_state`. -/
def updateTaskState (task : Task) (report : Report) (nowMs : UInt64) : Task :=
  { task with
    state := report.state
    result := report.result
    errorMsg := report.errorMsg
    finishTs := nowMs.toInt64 }

def timeoutReport : Report where
  state := .timeout
  errorMsg := "Execution timeout"

/-- What the program point passes to `update_task_state`, if it calls it. -/
def AttemptPc.update? : AttemptPc → Option Report
  | .refuse report => some report
  | .setRunning _ => some { state := .running }
  | .reportSuccess _ result => some { state := .success, result := result }
  | .reportQuotaFull _ => some { state := .failed, errorMsg := "Retry quota full" }
  | .reportFailure _ what => some { state := .failed, errorMsg := "Execution failed: " ++ what }
  | _ => none

namespace TaskRun

def setAttempt (run : TaskRun) (attempt : ℕ) (pc : AttemptPc) : TaskRun :=
  { run with attempts := run.attempts.set attempt pc }

def setTimer (run : TaskRun) (timer : ℕ) (status : TimerStatus) : TaskRun :=
  { run with execTimers := run.execTimers.modify timer fun entry ↦ { entry with status := status } }

def setRetry (run : TaskRun) (timer : ℕ) (status : RetryStatus) : TaskRun :=
  { run with retryTimers := run.retryTimers.modify timer fun entry ↦ { entry with status := status } }

def update (run : TaskRun) (report : Report) (nowMs : UInt64) : TaskRun :=
  { run with task := updateTaskState run.task report nowMs }

/-- `exec_timer->cancel()`: an expired timer is past cancelling. -/
def cancel (run : TaskRun) (timer : ℕ) : TaskRun :=
  { run with
    execTimers := run.execTimers.modify timer fun entry ↦
      if entry.status = .waiting then { entry with status := .cancelled } else entry }

/-- One statement of `run_task`. `nowMs` is what the clock reads and `outcome` how the function ends,
where the statement asks for them. The second component is the new value of `retrying_cnt`. -/
def attemptStep (run : TaskRun) (executor : TaskExecutor) (retryingCnt : ℤ) (attempt : ℕ) (nowMs : UInt64)
    (outcome : Outcome) : AttemptPc → Option (TaskRun × ℤ)
  | .queued =>
      let pc := if checkResources executor.availableResources run.task.required then .readClock
        else .refuse { state := .failed, errorMsg := "Insufficient resources" }
      some (run.setAttempt attempt pc, retryingCnt)
  | .readClock =>
      let remaining := remainingTimeout run.task nowMs
      let pc := if remaining < 0 then .refuse timeoutReport else .armTimer nowMs remaining
      some (run.setAttempt attempt pc, retryingCnt)
  | .refuse report => some ((run.update report nowMs).setAttempt attempt (.returned (some report)), retryingCnt)
  | .armTimer startMs remaining =>
      let armed : TaskRun := { run with execTimers := run.execTimers ++ [{ remaining := remaining }] }
      some (armed.setAttempt attempt (.setStart run.execTimers.length startMs), retryingCnt)
  | .setStart timer startMs =>
      let started : TaskRun := { run with task := { run.task with startTs := startMs.toInt64 } }
      some (started.setAttempt attempt (.setRunning timer), retryingCnt)
  | .setRunning timer =>
      some ((run.update { state := .running } nowMs).setAttempt attempt (.findFunction timer), retryingCnt)
  | .findFunction timer =>
      let pc := if run.task.funcName ∈ executor.functions then .callFunction timer
        else .catchError timer { what := "Unknown function: " ++ run.task.funcName }
      some (run.setAttempt attempt pc, retryingCnt)
  | .callFunction timer =>
      let pc := match outcome with
        | .returns result => .reportSuccess timer result
        | .throws error => .catchError timer error
        | .throwsOther => .escaped timer
      some (run.setAttempt attempt pc, retryingCnt)
  | .reportSuccess timer result =>
      let report : Report := { state := .success, result := result }
      some ((run.update report nowMs).setAttempt attempt (.cancelTimer timer report), retryingCnt)
  | .catchError timer error =>
      let pc := if isRetryableError (error.code.getD .success) && run.task.retryCount < run.task.maxRetry then
          .claimRetry timer
        else .reportFailure timer error.what
      some (run.setAttempt attempt pc, retryingCnt)
  | .claimRetry timer =>
      let pc := if maxConcurrentRetry ≤ retryingCnt then .returnClaim timer else .armRetryTimer timer
      some (run.setAttempt attempt pc, retryingCnt + 1)
  | .returnClaim timer => some (run.setAttempt attempt (.reportQuotaFull timer), retryingCnt - 1)
  | .reportQuotaFull _ =>
      -- this exit leaves the execution timer as it is
      let report : Report := { state := .failed, errorMsg := "Retry quota full" }
      some ((run.update report nowMs).setAttempt attempt (.returned (some report)), retryingCnt)
  | .armRetryTimer _ =>
      let armed : TaskRun := { run with retryTimers := run.retryTimers ++ [{ delaySeconds := retryDelay run.task }] }
      some (armed.setAttempt attempt (.returned none), retryingCnt)
  | .reportFailure timer what =>
      let report : Report := { state := .failed, errorMsg := "Execution failed: " ++ what }
      some ((run.update report nowMs).setAttempt attempt (.cancelTimer timer report), retryingCnt)
  | .cancelTimer timer reported =>
      some ((run.cancel timer).setAttempt attempt (.returned (some reported)), retryingCnt)
  | .returned _ | .escaped _ => none

/-- The expiry of an execution timer and the two statements of its callback. -/
def timerStep (run : TaskRun) (timer : ℕ) (nowMs : UInt64) : TimerStatus → Option TaskRun
  | .waiting => some (run.setTimer timer .expired)
  | .expired =>
      let cancelled : TaskRun := { run with task := { run.task with cancelled := true } }
      some (cancelled.setTimer timer .flagged)
  | .flagged => some ((run.update timeoutReport nowMs).setTimer timer .fired)
  | .fired | .cancelled => none

/-- The expiry of a retry timer and the statements of its callback. -/
def retryStep (run : TaskRun) (retryingCnt : ℤ) (timer : ℕ) : RetryStatus → Option (TaskRun × ℤ)
  | .waiting => some (run.setRetry timer .release, retryingCnt)
  | .release => some (run.setRetry timer .count, retryingCnt - 1)
  | .count =>
      let counted : TaskRun := { run with task := { run.task with retryCount := run.task.retryCount + 1 } }
      some (counted.setRetry timer .execute, retryingCnt)
  | .execute =>
      let executed : TaskRun := { run with attempts := run.attempts ++ [.queued] }
      some (executed.setRetry timer .done, retryingCnt)
  | .done => none

end TaskRun

/-- Who moves next among those that act on one task. -/
inductive TaskAction
  | attempt (index : ℕ) (nowMs : UInt64) (outcome : Outcome)
  | timer (index : ℕ) (nowMs : UInt64)
  | retry (index : ℕ)

def TaskRun.step (run : TaskRun) (executor : TaskExecutor) (retryingCnt : ℤ) :
    TaskAction → Option (TaskRun × ℤ)
  | .attempt index nowMs outcome =>
      run.attempts[index]?.bind (run.attemptStep executor retryingCnt index nowMs outcome)
  | .timer index nowMs =>
      run.execTimers[index]?.bind fun timer ↦ (run.timerStep index nowMs timer.status).map (·, retryingCnt)
  | .retry index =>
      run.retryTimers[index]?.bind fun timer ↦ run.retryStep retryingCnt index timer.status

inductive Action
  | construct
  | registerFunction (executor : ℕ) (name : String)
  | executeTask (executor : ℕ) (task : Task)
  | act (task : ℕ) (action : TaskAction)

def AttemptPc.isEscaped : AttemptPc → Bool
  | .escaped _ => true
  | _ => false

def AttemptPc.hasReturned : AttemptPc → Bool
  | .returned _ => true
  | _ => false

/-- `std::terminate` was called. -/
def System.terminated (system : System) : Bool :=
  system.runs.any fun run ↦ run.attempts.any AttemptPc.isEscaped

/-- Every task is handed over once: `executeTask` makes a new entry. -/
def step (system : System) (action : Action) : Option System :=
  if system.terminated then none
  else match action with
    | .construct => some { system with executors := system.executors ++ [.create] }
    | .registerFunction index name =>
        some { system with
          executors := system.executors.modify index fun executor ↦
            { executor with functions := name :: executor.functions } }
    | .executeTask executor task =>
        if executor < system.executors.length then
          some { system with runs := system.runs ++ [{ executor := executor, task := task }] }
        else none
    | .act index taskAction =>
        system.runs[index]?.bind fun run ↦
          system.executors[run.executor]?.bind fun executor ↦
            (run.step executor system.retryingCnt taskAction).map fun (moved, retryingCnt) ↦
              { system with runs := system.runs.set index moved, retryingCnt := retryingCnt }

end TinyReactor.Executor
