import TinyReactor.Executor.Model
import TinyReactor.ThreadPool.Model

/-!
# Executors on their thread pools

Every `TaskExecutor` has a thread pool of its own as a member, and `execute_task` is a call of its `enqueue`
with a closure that calls `run_task`. Here the two models run together: a worker that has called a closure
executes the statements of `run_task`, and only when that call returns does it go on in `ThreadPool::worker`. An
exception that leaves `run_task` has no handler above it, and the process is gone. An executor neither resizes
nor stops its pool while it lives.
-/

namespace TinyReactor.Worker

open Wire

/-- `thread_pool_` of one executor. `closures` holds, for each call of `enqueue`, the task and the attempt that
its closure runs. -/
structure Host where
  pool : ThreadPool.Pool
  closures : List (ℕ × ℕ) := []

/-- The process: its executors and tasks, and the pool of each executor. -/
structure Process where
  system : Executor.System := {}
  hosts : List Host := []

/-- Who moves: a caller of the executor, a thread in `enqueue`, a worker thread (with the result of
`try_acquire_for`, the clock and the end of the function, where it asks for them) or a timer. -/
inductive Action
  | construct (threads : ℕ)
  | registerFunction (executor : ℕ) (name : String)
  | executeTask (executor : ℕ) (task : Task)
  | enqueue (executor call : ℕ) (accepted : Bool)
  | worker (executor worker : ℕ) (granted : Bool) (nowMs : UInt64) (outcome : Executor.Outcome)
  | timer (task index : ℕ) (nowMs : UInt64)
  | retry (task index : ℕ)

namespace Process

def setHost (process : Process) (executor : ℕ) (host : Host) : Process :=
  { process with hosts := process.hosts.set executor host }

/-- Where the worker stands in `ThreadPool::worker`. -/
def workerPc? (process : Process) (executor worker : ℕ) : Option ThreadPool.WorkerPc :=
  process.hosts[executor]?.bind fun host ↦ host.pool.workers[worker]?

/-- The task and the attempt that the closure runs. -/
def closure? (process : Process) (executor call : ℕ) : Option (ℕ × ℕ) :=
  process.hosts[executor]?.bind fun host ↦ host.closures[call]?

/-- Where the attempt stands in `run_task`. -/
def attemptPc? (process : Process) (task attempt : ℕ) : Option Executor.AttemptPc :=
  process.system.runs[task]?.bind fun record ↦ record.attempts[attempt]?

/-- `thread_pool_.enqueue(..)` is called. -/
def post (sem : ThreadPool.Semaphore) (process : Process) (executor : ℕ) (closure : ℕ × ℕ) : Option Process :=
  process.hosts[executor]?.bind fun host ↦
    (ThreadPool.step sem host.pool .callEnqueue).map fun pool ↦
      process.setHost executor { pool, closures := host.closures ++ [closure] }

/-- One statement of `run_task`, on the worker that has called the closure; the last one takes the worker back
to `ThreadPool::worker`. -/
def runStep (process : Process) (executor worker call : ℕ) (host : Host) (granted : Bool) (nowMs : UInt64)
    (outcome : Executor.Outcome) : Option Process :=
  host.closures[call]?.bind fun (task, attempt) ↦
    (Executor.step process.system (.act task (.attempt attempt nowMs outcome))).bind fun system ↦
      let moved : Process := { process with system }
      if (moved.attemptPc? task attempt).any Executor.AttemptPc.hasReturned then
        (host.pool.workerStep worker granted (.running call)).map fun pool ↦
          moved.setHost executor { host with pool }
      else some moved

/-- One statement of a worker thread. -/
def workerStep (process : Process) (executor worker : ℕ) (granted : Bool) (nowMs : UInt64)
    (outcome : Executor.Outcome) : Option Process :=
  process.hosts[executor]?.bind fun host ↦
    host.pool.workers[worker]?.bind fun pc ↦
      match pc with
      | .running call => process.runStep executor worker call host granted nowMs outcome
      | pc => (host.pool.workerStep worker granted pc).map fun pool ↦ process.setHost executor { host with pool }

/-- A statement of the callback of a retry timer; the last one calls `execute_task`. -/
def retryStep (sem : ThreadPool.Semaphore) (process : Process) (task index : ℕ) : Option Process :=
  process.system.runs[task]?.bind fun record ↦
    record.retryTimers[index]?.bind fun timer ↦
      (Executor.step process.system (.act task (.retry index))).bind fun system ↦
        let moved : Process := { process with system }
        if timer.status = .execute then moved.post sem record.executor (task, record.attempts.length)
        else some moved

end Process

/-- One step of the process. -/
def step (sem : ThreadPool.Semaphore) (process : Process) (action : Action) : Option Process :=
  if process.system.terminated then none
  else
    match action with
    | .construct threads =>
        (Executor.step process.system .construct).map fun system ↦
          { system, hosts := process.hosts ++ [{ pool := .create threads }] }
    | .registerFunction executor name =>
        (Executor.step process.system (.registerFunction executor name)).map fun system ↦ { process with system }
    | .executeTask executor task =>
        (Executor.step process.system (.executeTask executor task)).bind fun system ↦
          Process.post sem { process with system } executor (process.system.runs.length, 0)
    | .enqueue executor call accepted =>
        process.hosts[executor]?.bind fun host ↦
          (ThreadPool.step sem host.pool (.enqueue call accepted)).map fun pool ↦
            process.setHost executor { host with pool }
    | .worker executor worker granted nowMs outcome => process.workerStep executor worker granted nowMs outcome
    | .timer task index nowMs =>
        (Executor.step process.system (.act task (.timer index nowMs))).map fun system ↦ { process with system }
    | .retry task index => process.retryStep sem task index

end TinyReactor.Worker
