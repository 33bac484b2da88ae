import TinyReactor.Transition.Runs
import TinyReactor.Transition.ThreadTable
import Mathlib.Data.Int.Order.Basic

/-!
# The thread pool

`ThreadPool` of `src/common/src/thread_pool.cpp` as a step function. Every atomic load, store,
read-modify-write, queue operation and semaphore operation is one step; a program point is named by
the statement its thread executes next. The lock-free queue is a FIFO whose `push` may fail at any
time, `try_acquire_for` may time out at any time, and tasks return normally.

The identity of a task is the index of the `enqueue` call it was passed to. `pushed`, `popped`,
`drained`, `ran` and `freed` only record what happened to the tasks; no step reads them.
-/

namespace TinyReactor.ThreadPool

abbrev TaskId := ℕ

/-- `std::binary_semaphore::release(n)` as a function of the count and `n`. Only a call within the
precondition `count + n ≤ 1` has a specified result. -/
structure Semaphore where
  release : ℕ → ℕ → ℕ
  release_spec : ∀ count n, count + n ≤ 1 → release count n = count + n

/-- The implementation that always adds. -/
def Semaphore.uncapped : Semaphore where
  release count n := count + n
  release_spec _ _ _ := rfl

/-- Program points of `enqueue` (lines 27 to 40). -/
inductive EnqueuePc
  | entry
  | push
  | recheck
  | count
  | release
  | returned
  | threw
  deriving DecidableEq, Repr

/-- Program points of `worker` (lines 42 to 70). -/
inductive WorkerPc
  | start
  | loop
  | acquire
  | pop
  | call (task : TaskId)
  | running (task : TaskId)
  | free (task : TaskId)
  | uncount
  | loadActive
  | compareTarget (active : ℤ)
  | reload
  | retest (old : ℤ)
  | exchange (old : ℤ)
  | pause
  | leave
  | exited
  deriving DecidableEq, Repr

/-- Program points of `add_threads`, `remove_threads` and `shutdown` (lines 72 to 97). -/
inductive ControlPc
  | addTarget (count : ℕ)
  | spawn (left : ℕ)
  | removeLoad (count : ℕ)
  | removeStore (target : ℕ)
  | setStop
  | returned
  deriving DecidableEq, Repr

/-- Program points of the body of `~ThreadPool` (lines 16 to 25). The destruction of the members comes after it and
joins the threads. -/
inductive DestructorPc
  | notStarted
  | setStop
  | release
  | pop
  | free (task : TaskId)
  | uncount
  | finished
  deriving DecidableEq, Repr

/-- The members of the pool, the threads that use it, and the record of each task's fate. The
`size_t` counters are integers: that they never wrap is a property, not an assumption. -/
structure Pool where
  queue : List TaskId := []
  stop : Bool := false
  activeThreads : ℤ := 0
  targetThreadCount : ℕ := 0
  taskSem : ℕ := 0
  leftover : ℤ := 0
  calls : List EnqueuePc := []
  workers : List WorkerPc := []
  controls : List ControlPc := []
  destructor : DestructorPc := .notStarted
  pushed : List TaskId := []
  popped : List TaskId := []
  drained : List TaskId := []
  ran : List TaskId := []
  freed : List TaskId := []
  deriving DecidableEq, Repr

/-- The constructor: `num_threads` workers, all of them before their first statement. -/
def Pool.create (numThreads : ℕ) : Pool where
  targetThreadCount := numThreads
  workers := List.replicate numThreads .start

/-- An `enqueue` call that has neither returned nor thrown. -/
def EnqueuePc.inProgress : EnqueuePc → Bool
  | .returned | .threw => false
  | _ => true

namespace Pool

def setCall (pool : Pool) (call : TaskId) (pc : EnqueuePc) : Pool :=
  { pool with calls := pool.calls.set call pc }

def setWorker (pool : Pool) (worker : ℕ) (pc : WorkerPc) : Pool :=
  { pool with workers := pool.workers.set worker pc }

def setControl (pool : Pool) (control : ℕ) (pc : ControlPc) : Pool :=
  { pool with controls := pool.controls.set control pc }

/-- One statement of `enqueue`. `accepted` is the outcome of `queue_.push`. -/
def enqueueStep (sem : Semaphore) (pool : Pool) (call : TaskId) (accepted : Bool) :
    EnqueuePc → Option Pool
  | .entry =>
      if pool.stop then
        -- the exception unwinds the argument, which is the only copy of the task
        some { pool.setCall call .threw with freed := pool.freed ++ [call] }
      else some (pool.setCall call .push)
  | .push =>
      if accepted then
        some { pool.setCall call .count with
          queue := pool.queue ++ [call], pushed := pool.pushed ++ [call] }
      else some (pool.setCall call .recheck)
  | .recheck =>
      if pool.stop then
        some { pool.setCall call .threw with freed := pool.freed ++ [call] }
      else some (pool.setCall call .push)
  | .count => some { pool.setCall call .release with leftover := pool.leftover + 1 }
  | .release => some { pool.setCall call .returned with taskSem := sem.release pool.taskSem 1 }
  | .returned | .threw => none

/-- One statement of `worker`. `granted` is the outcome of `try_acquire_for`, which can only be
true when the count is positive. -/
def workerStep (pool : Pool) (worker : ℕ) (granted : Bool) : WorkerPc → Option Pool
  | .start => some { pool.setWorker worker .loop with activeThreads := pool.activeThreads + 1 }
  | .loop => some (pool.setWorker worker (if pool.stop then .leave else .acquire))
  | .acquire =>
      if granted then
        if pool.taskSem = 0 then none
        else some { pool.setWorker worker .pop with taskSem := pool.taskSem - 1 }
      else some (pool.setWorker worker .loadActive)
  | .pop =>
      match pool.queue with
      | [] => some (pool.setWorker worker .loadActive)
      | task :: rest => some { pool.setWorker worker (.call task) with
          queue := rest, popped := pool.popped ++ [task] }
  | .call task => some { pool.setWorker worker (.running task) with ran := pool.ran ++ [task] }
  | .running task => some (pool.setWorker worker (.free task))
  | .free task => some { pool.setWorker worker .uncount with freed := pool.freed ++ [task] }
  | .uncount => some { pool.setWorker worker .loadActive with leftover := pool.leftover - 1 }
  | .loadActive => some (pool.setWorker worker (.compareTarget pool.activeThreads))
  | .compareTarget active =>
      some (pool.setWorker worker (if active > pool.targetThreadCount then .reload else .loop))
  | .reload => some (pool.setWorker worker (.retest pool.activeThreads))
  | .retest old =>
      some (pool.setWorker worker (if old > pool.targetThreadCount then .exchange old else .pause))
  | .exchange old =>
      if pool.activeThreads = old then
        some { pool.setWorker worker .exited with activeThreads := old - 1 }
      else some (pool.setWorker worker .pause)
  -- the test of line 64 only decides whether the thread sleeps
  | .pause => some (pool.setWorker worker .loop)
  | .leave => some { pool.setWorker worker .exited with activeThreads := pool.activeThreads - 1 }
  | .exited => none

/-- One statement of `add_threads`, `remove_threads` or `shutdown`. -/
def controlStep (pool : Pool) (control : ℕ) : ControlPc → Option Pool
  | .addTarget count => some { pool.setControl control (.spawn count) with
      targetThreadCount := pool.targetThreadCount + count }
  | .spawn 0 => some (pool.setControl control .returned)
  | .spawn (left + 1) => some { pool.setControl control (.spawn left) with
      workers := pool.workers ++ [.start] }
  | .removeLoad count =>
      let currentTarget := pool.targetThreadCount
      let newTarget := if currentTarget > count then currentTarget - count else 0
      some (pool.setControl control (.removeStore newTarget))
  | .removeStore target => some { pool.setControl control .returned with targetThreadCount := target }
  | .setStop => some { pool.setControl control .returned with stop := true }
  | .returned => none

/-- One statement of `~ThreadPool`. -/
def destructorStep (sem : Semaphore) (pool : Pool) : DestructorPc → Option Pool
  | .setStop => some { pool with stop := true, destructor := .release }
  | .release => some { pool with
      taskSem := sem.release pool.taskSem pool.workers.length, destructor := .pop }
  | .pop =>
      match pool.queue with
      | [] => some { pool with destructor := .finished }
      | task :: rest => some { pool with
          queue := rest, popped := pool.popped ++ [task], drained := pool.drained ++ [task]
          destructor := .free task }
  | .free task => some { pool with freed := pool.freed ++ [task], destructor := .uncount }
  | .uncount => some { pool with leftover := pool.leftover - 1, destructor := .pop }
  | .notStarted | .finished => none

end Pool

/-- What the environment schedules: a new call, or the next statement of a thread. -/
inductive Action
  | callEnqueue
  | enqueue (call : TaskId) (accepted : Bool)
  | worker (worker : ℕ) (granted : Bool)
  | callControl (pc : ControlPc)
  | control (control : ℕ)
  | callDestructor
  | destructor
  deriving DecidableEq, Repr

/-- The pool's step function. `~ThreadPool` may only be called when no `enqueue` is running, and
`enqueue` may not be called afterwards. -/
def step (sem : Semaphore) (pool : Pool) : Action → Option Pool
  | .callEnqueue =>
      if pool.destructor = .notStarted then some { pool with calls := pool.calls ++ [.entry] } else none
  | .enqueue call accepted => pool.calls[call]?.bind (pool.enqueueStep sem call accepted)
  | .worker worker granted => pool.workers[worker]?.bind (pool.workerStep worker granted)
  | .callControl pc =>
      if pc = .returned then none else some { pool with controls := pool.controls ++ [pc] }
  | .control control => pool.controls[control]?.bind (pool.controlStep control)
  | .callDestructor =>
      if pool.destructor = .notStarted ∧ ∀ pc ∈ pool.calls, pc.inProgress = false then
        some { pool with destructor := .setStop }
      else none
  | .destructor => pool.destructorStep sem pool.destructor

end TinyReactor.ThreadPool
