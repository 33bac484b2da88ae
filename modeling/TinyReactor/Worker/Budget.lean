import TinyReactor.Executor.Rest
import TinyReactor.Transition.Progress
import TinyReactor.ThreadPool.Moves
import TinyReactor.Worker.Model

/-!
# What a task costs the process

An attempt costs the statements of `run_task` and of the timers it arms, and nine more: four of the `enqueue` that
hands its closure over, and five of the worker that takes it, calls it and frees it. Workers also poll, and a full
queue makes `enqueue` try again; both may happen any number of times and take nothing further. All other steps are paid
for when a task is handed over, by the attempts that its `max_retry` allows.
-/

namespace TinyReactor.Executor

open Transition Wire

/-- The timer has counted its retry and not yet called `execute_task`. -/
def RetryTimer.owesAttempt (timer : RetryTimer) : Bool := timer.status == .execute

namespace TaskRun

/-- The calls of `execute_task` that the retry timers of the task may still make. -/
def owed (record : TaskRun) : ℕ :=
  record.task.maxRetry.toNat - record.task.retryCount.toNat + record.retryTimers.countP RetryTimer.owesAttempt

/-- The step is the call of `execute_task` by a retry timer. -/
def posts (record : TaskRun) : TaskAction → Bool
  | .retry index => record.retryTimers[index]?.any RetryTimer.owesAttempt
  | _ => false

/-- The steps that the task is still to make, and those of the pool for the attempts it is still to start. -/
def budget (record : TaskRun) : ℕ := record.work + 9 * record.owed

variable {record moved : TaskRun} {taskAction : TaskAction} {task : Task} {count : ℕ}

theorem countP_counted (timers : List RetryTimer) :
    timers.countP (fun timer ↦ timer.status.counted) =
      timers.countP RetryTimer.owesAttempt + timers.countP (fun timer ↦ timer.status == .done) := by
  induction timers with
  | nil => rfl
  | cons timer rest ih =>
    obtain ⟨delaySeconds, status⟩ := timer
    simp only [List.countP_cons, ih]
    cases status <;> simp [RetryTimer.owesAttempt, RetryStatus.counted] <;> omega

/-- The attempts made and those owed are the attempts that were allowed. -/
theorem WithinAllowance.owed_add_attempts (h : record.WithinAllowance task count) :
    record.owed + record.attempts.length = task.maxRetry.toNat - task.retryCount.toNat + 1 := by
  have hcounted := countP_counted record.retryTimers
  have hincrements := h.increments
  have hbounded := h.bounded
  rw [owed, h.limit, h.retryCount, h.attempts]
  omega

theorem length_attempts_of_taskStep (h : TaskStep record taskAction moved) :
    moved.attempts.length = record.attempts.length + (record.posts taskAction).toNat := by
  obtain ⟨executor, before, after, h⟩ := h
  cases taskMove_of_step h with
  | attempt index nowMs outcome pc hpc hstep =>
    obtain ⟨-, pc', hattempts, -⟩ := attemptStep_hand hstep
    rw [hattempts, List.length_set]
    rfl
  | timer index nowMs entry hentry htimer =>
    rw [(timerStep_hand htimer).1]
    rfl
  | retry index entry hentry hstep =>
    rw [posts, hentry, Option.any_some, RetryTimer.owesAttempt]
    generalize entry.status = status at hstep
    cases status with
    | done => cases hstep
    | execute =>
      cases hstep
      exact List.length_append
    | _ =>
      cases hstep
      rfl

end TaskRun

/-- A step of a task is paid for, and so is the `enqueue` that it calls. -/
theorem budget_of_taskStep {record moved : TaskRun} {taskAction : TaskAction} {task : Task} {count : ℕ}
    (hrecord : record.WithinAllowance task count) (h : TaskStep record taskAction moved) :
    moved.budget + 9 * (record.posts taskAction).toNat + 1 ≤ record.budget := by
  have hwork := work_of_taskStep hrecord h
  have hlength := TaskRun.length_attempts_of_taskStep h
  have hbefore := hrecord.owed_add_attempts
  have hafter := (withinAllowance_of_taskStep h hrecord).owed_add_attempts
  unfold TaskRun.budget
  omega

theorem budget_new (executor : ℕ) (task : Task) :
    ({ executor := executor, task := task } : TaskRun).budget + 9 =
      26 * ((task.maxRetry.toNat - task.retryCount.toNat) + 1) := by
  have hwork : ({ executor := executor, task := task } : TaskRun).work =
      17 + 0 + 0 + 17 * (task.maxRetry.toNat - task.retryCount.toNat) := rfl
  have howed : ({ executor := executor, task := task } : TaskRun).owed =
      task.maxRetry.toNat - task.retryCount.toNat + 0 := rfl
  rw [TaskRun.budget, hwork, howed]
  omega

/-- What the tasks may still cost. -/
def System.budget (system : System) : ℕ := (system.runs.map TaskRun.budget).sum

/-- Every task is within the allowance it was handed over with. -/
def System.Allowed (system : System) : Prop :=
  ∀ (index : ℕ) record, system.runs[index]? = some record → ∃ task count, record.WithinAllowance task count

variable {system next : System} {action : Action}

theorem System.Allowed.step (h : system.Allowed) (hstep : step system action = some next) : next.Allowed := by
  refine tasks_of_step (I := fun record ↦ ∃ task count, record.WithinAllowance task count) ?_
    (fun executor task ↦ ⟨task, 0, withinAllowance_new executor task⟩) (onTasks_true system action) hstep h
  rintro record taskAction moved ⟨task, count, hwithin⟩ - htask
  exact ⟨task, _, withinAllowance_of_taskStep htask hwithin⟩

theorem budget_of_act {index : ℕ} {taskAction : TaskAction} {record : TaskRun} (h : system.Allowed)
    (hrecord : system.runs[index]? = some record) (hstep : step system (.act index taskAction) = some next) :
    next.budget + 9 * (record.posts taskAction).toNat + 1 ≤ system.budget := by
  obtain ⟨record', moved, hrecord', htask, hruns⟩ := step_act hstep
  obtain rfl : record = record' := Option.some.inj (hrecord.symm.trans hrecord')
  obtain ⟨task, count, hwithin⟩ := h index record hrecord
  have hpaid := budget_of_taskStep hwithin htask
  have hset := sum_map_set_of_getElem? TaskRun.budget hrecord moved
  rw [System.budget, System.budget, hruns]
  omega

theorem runs_of_executeTask {executor : ℕ} {task : Task}
    (hstep : step system (.executeTask executor task) = some next) :
    next.runs = system.runs ++ [{ executor := executor, task := task }] := by
  unfold step at hstep
  split at hstep
  · cases hstep
  · simp only [Option.ite_none_right_eq_some, Option.some.injEq] at hstep
    rw [← hstep.2]

theorem budget_of_executeTask {executor : ℕ} {task : Task}
    (hstep : step system (.executeTask executor task) = some next) :
    next.budget + 9 = system.budget + 26 * ((task.maxRetry.toNat - task.retryCount.toNat) + 1) := by
  rw [System.budget, System.budget, runs_of_executeTask hstep, List.map_append, List.sum_append, List.map_singleton,
    List.sum_singleton, Nat.add_assoc, budget_new]

end TinyReactor.Executor

namespace TinyReactor.ThreadPool

open Transition

/-- The statement does more than try again. -/
def EnqueuePc.advances (accepted : Bool) : EnqueuePc → Bool
  | .push => accepted
  | .recheck => false
  | _ => true

/-- The statement does more than poll. -/
def WorkerPc.advances (granted : Bool) : WorkerPc → Bool
  | .acquire => granted
  | .pop | .call _ | .running _ | .free _ | .uncount => true
  | _ => false

/-- What an `enqueue` costs from here on, with what the worker that takes its task does. -/
def EnqueuePc.toil : EnqueuePc → ℕ
  | .entry => 9
  | .push | .recheck => 8
  | .count => 4
  | .release => 3
  | .returned | .threw => 0

def WorkerPc.toil : WorkerPc → ℕ
  | .call _ => 3
  | .running _ | .free _ => 2
  | .pop | .uncount => 1
  | _ => 0

namespace Pool

/-- A queued task waits for three statements of a worker, and a permit of the semaphore for two. -/
def toil (pool : Pool) : ℕ :=
  (pool.calls.map EnqueuePc.toil).sum + 3 * pool.queue.length + 2 * pool.taskSem + (pool.workers.map WorkerPc.toil).sum

theorem toil_create (threads : ℕ) : (create threads).toil = 0 := by
  simp [toil, create, List.map_replicate, WorkerPc.toil]

variable {pool next : Pool} {call worker : ℕ}

theorem toil_of_callEnqueue {sem : Semaphore} (h : step sem pool .callEnqueue = some next) :
    next.toil = pool.toil + 9 := by
  simp only [step, Option.ite_none_right_eq_some, Option.some.injEq] at h
  obtain ⟨-, rfl⟩ := h
  simp only [toil, List.map_append, List.sum_append, List.map_singleton, List.sum_singleton, EnqueuePc.toil]
  omega

/-- With a semaphore that adds, a statement of `enqueue` that advances is paid for by its call. -/
theorem toil_of_enqueueStep {accepted : Bool} {pc : EnqueuePc} (hpc : pool.calls[call]? = some pc)
    (h : pool.enqueueStep .uncapped call accepted pc = some next) :
    next.toil + (pc.advances accepted).toNat ≤ pool.toil := by
  obtain ⟨pc', hcalls, hworkers, hpaid⟩ : ∃ pc', next.calls = pool.calls.set call pc' ∧ next.workers = pool.workers ∧
      3 * next.queue.length + 2 * next.taskSem + pc'.toil + (pc.advances accepted).toNat ≤
        3 * pool.queue.length + 2 * pool.taskSem + pc.toil := by
    cases pc with
    | push =>
      cases accepted with
      | false =>
        cases h
        exact ⟨_, rfl, rfl, Nat.le_refl _⟩
      | true =>
        cases h
        refine ⟨_, rfl, rfl, ?_⟩
        simp only [setCall, List.length_append, List.length_singleton, EnqueuePc.toil, EnqueuePc.advances,
          Bool.toNat_true]
        omega
    | release =>
      cases h
      refine ⟨_, rfl, rfl, ?_⟩
      simp only [setCall, Semaphore.uncapped, EnqueuePc.toil, EnqueuePc.advances, Bool.toNat_true]
      omega
    | returned | threw => cases h
    | entry | recheck | count =>
      cases enqueueMove_of_step h <;> refine ⟨_, rfl, rfl, ?_⟩ <;>
        simp only [setCall, EnqueuePc.toil, EnqueuePc.advances, Bool.toNat_true, Bool.toNat_false] <;> omega
  have hset := sum_map_set_of_getElem? EnqueuePc.toil hpc pc'
  rw [toil, toil, hcalls, hworkers]
  omega

/-- A statement of a worker that advances is paid for by the permit, the task in the queue or the task it holds. -/
theorem toil_of_workerStep {granted : Bool} {pc : WorkerPc} (hpc : pool.workers[worker]? = some pc)
    (hoff : ∀ call, pc ≠ .running call) (h : pool.workerStep worker granted pc = some next) :
    next.toil + (pc.advances granted).toNat ≤ pool.toil := by
  obtain ⟨pc', hworkers, hcalls, hpaid⟩ : ∃ pc', next.workers = pool.workers.set worker pc' ∧ next.calls = pool.calls ∧
      3 * next.queue.length + 2 * next.taskSem + pc'.toil + (pc.advances granted).toNat ≤
        3 * pool.queue.length + 2 * pool.taskSem + pc.toil := by
    cases pc with
    | acquire =>
      cases granted with
      | false =>
        cases h
        exact ⟨_, rfl, rfl, Nat.le_refl _⟩
      | true =>
        simp only [workerStep, if_true, Option.ite_none_left_eq_some, Option.some.injEq] at h
        obtain ⟨hsem, rfl⟩ := h
        refine ⟨_, rfl, rfl, ?_⟩
        simp only [setWorker, WorkerPc.toil, WorkerPc.advances, Bool.toNat_true]
        omega
    | pop =>
      cases workerMove_of_step h with
      | popEmpty => exact ⟨_, rfl, rfl, Nat.le_refl _⟩
      | pop task rest hqueue =>
        refine ⟨_, rfl, rfl, ?_⟩
        simp only [setWorker, hqueue, List.length_cons, WorkerPc.toil, WorkerPc.advances, Bool.toNat_true]
        omega
    | running call => exact absurd rfl (hoff call)
    | _ => cases workerMove_of_step h <;> exact ⟨_, rfl, rfl, Nat.le_refl _⟩
  have hset := sum_map_set_of_getElem? WorkerPc.toil hpc pc'
  rw [toil, toil, hcalls, hworkers]
  omega

end Pool

end TinyReactor.ThreadPool

namespace TinyReactor.Worker

open Transition Wire ThreadPool

/-- The step advances an `enqueue`, a job, a timer or a retry; polls and new requests do not count. -/
def productive (process : Process) : Action → Bool
  | .enqueue executor call accepted =>
      (process.hosts[executor]?.bind fun host ↦ host.pool.calls[call]?).any (EnqueuePc.advances accepted)
  | .worker executor worker granted _ _ => (process.workerPc? executor worker).any (WorkerPc.advances granted)
  | .timer .. | .retry .. => true
  | _ => false

/-- What is set aside for a task: 26 statements for each attempt that its `max_retry` allows. -/
def allowance : Action → ℕ
  | .executeTask _ task => 26 * ((task.maxRetry.toNat - task.retryCount.toNat) + 1)
  | _ => 0

/-- What the tasks may still cost, and what is under way in the pools. -/
def Process.toil (process : Process) : ℕ :=
  process.system.budget + (process.hosts.map fun host ↦ host.pool.toil).sum

variable {process next : Process} {executor : ℕ} {host : Host} {system : Executor.System} {action : Action}

/-! ## The executors -/

theorem system_of_post {sem : Semaphore} {closure : ℕ × ℕ} (h : process.post sem executor closure = some next) :
    next.system = process.system := by
  obtain ⟨host, -, hcall⟩ := Option.bind_eq_some_iff.mp h
  obtain ⟨pool, -, rfl⟩ := Option.map_eq_some_iff.mp hcall
  rfl

/-- A step of the process is one of the executors, or leaves them as they are. -/
theorem system_of_step {sem : Semaphore} (hstep : step sem process action = some next) :
    next.system = process.system ∨ ∃ act, Executor.step process.system act = some next.system := by
  unfold step at hstep
  split at hstep
  · cases hstep
  cases action with
  | construct | registerFunction | timer =>
    obtain ⟨system, hsystem, rfl⟩ := Option.map_eq_some_iff.mp hstep
    exact .inr ⟨_, hsystem⟩
  | executeTask executor task =>
    obtain ⟨system, hsystem, hpost⟩ := Option.bind_eq_some_iff.mp hstep
    exact .inr ⟨_, hsystem.trans (congrArg some (system_of_post hpost).symm)⟩
  | enqueue executor call accepted =>
    obtain ⟨host, -, hcall⟩ := Option.bind_eq_some_iff.mp hstep
    obtain ⟨pool, -, rfl⟩ := Option.map_eq_some_iff.mp hcall
    exact .inl rfl
  | worker executor worker granted nowMs outcome =>
    obtain ⟨host, -, hstep⟩ := Option.bind_eq_some_iff.mp hstep
    obtain ⟨pc, -, hstep⟩ := Option.bind_eq_some_iff.mp hstep
    split at hstep
    · obtain ⟨⟨task, attempt⟩, -, hrun⟩ := Option.bind_eq_some_iff.mp hstep
      obtain ⟨system, hsystem, hrun⟩ := Option.bind_eq_some_iff.mp hrun
      dsimp only at hrun
      split at hrun <;> cases hrun <;> exact .inr ⟨_, hsystem⟩
    · obtain ⟨pool, -, rfl⟩ := Option.map_eq_some_iff.mp hstep
      exact .inl rfl
  | retry task index =>
    obtain ⟨record, -, hstep⟩ := Option.bind_eq_some_iff.mp hstep
    obtain ⟨timer, -, hstep⟩ := Option.bind_eq_some_iff.mp hstep
    obtain ⟨system, hsystem, hstep⟩ := Option.bind_eq_some_iff.mp hstep
    dsimp only at hstep
    split at hstep
    · exact .inr ⟨_, hsystem.trans (congrArg some (system_of_post hstep).symm)⟩
    · cases hstep
      exact .inr ⟨_, hsystem⟩

theorem allowed_of_step {sem : Semaphore} (h : process.system.Allowed)
    (hstep : step sem process action = some next) : next.system.Allowed := by
  obtain hsame | ⟨act, hact⟩ := system_of_step hstep
  · rw [hsame]
    exact h
  · exact h.step hact

/-! ## The cost of a step -/

theorem toil_setHost (hhost : process.hosts[executor]? = some host) (host' : Host) :
    (process.setHost executor host').toil + host.pool.toil = process.toil + host'.pool.toil := by
  have hset := sum_map_set_of_getElem? (fun host : Host ↦ host.pool.toil) hhost host'
  simp only [Process.toil, Process.setHost]
  omega

/-- A closure is handed to the pool. -/
theorem toil_post {closure : ℕ × ℕ} (h : process.post .uncapped executor closure = some next) :
    next.toil = process.toil + 9 := by
  obtain ⟨host, hhost, hcall⟩ := Option.bind_eq_some_iff.mp h
  obtain ⟨pool, hpool, rfl⟩ := Option.map_eq_some_iff.mp hcall
  have hset := toil_setHost hhost { pool, closures := host.closures ++ [closure] }
  have htoil := Pool.toil_of_callEnqueue hpool
  dsimp only at hset
  omega

/-- A step of one pool alone. -/
theorem toil_of_pool {pool : Pool} {paid : ℕ} (hhost : process.hosts[executor]? = some host)
    (hpaid : pool.toil + paid ≤ host.pool.toil) :
    (process.setHost executor { host with pool }).toil + paid ≤ process.toil := by
  have hset := toil_setHost hhost { host with pool }
  dsimp only at hset
  omega

/-- A step of one task alone, which may owe the pool a closure. -/
theorem toil_of_act {index : ℕ} {taskAction : Executor.TaskAction} {record : Executor.TaskRun}
    (h : process.system.Allowed) (hrecord : process.system.runs[index]? = some record)
    (hstep : Executor.step process.system (.act index taskAction) = some system) :
    ({ process with system } : Process).toil + 9 * (record.posts taskAction).toNat + 1 ≤ process.toil := by
  have hbudget := Executor.budget_of_act h hrecord hstep
  simp only [Process.toil]
  omega

theorem toil_of_act_le {index : ℕ} {taskAction : Executor.TaskAction} (h : process.system.Allowed)
    (hstep : Executor.step process.system (.act index taskAction) = some system) :
    ({ process with system } : Process).toil + 1 ≤ process.toil := by
  obtain ⟨record, -, hrecord, -⟩ := Executor.step_act hstep
  have htoil := toil_of_act h hrecord hstep
  omega

theorem toil_of_workerStep (h : process.system.Allowed) {worker : ℕ} {granted : Bool} {nowMs : UInt64}
    {outcome : Executor.Outcome} (hstep : process.workerStep executor worker granted nowMs outcome = some next) :
    next.toil + (productive process (.worker executor worker granted nowMs outcome)).toNat ≤ process.toil := by
  obtain ⟨host, hhost, hstep⟩ := Option.bind_eq_some_iff.mp hstep
  obtain ⟨pc, hpc, hstep⟩ := Option.bind_eq_some_iff.mp hstep
  simp only [productive, Process.workerPc?, hhost, Option.bind_some, hpc, Option.any_some]
  split at hstep
  · rename_i call
    obtain ⟨⟨task, attempt⟩, hclosure, hrun⟩ := Option.bind_eq_some_iff.mp hstep
    obtain ⟨system, hsystem, hrun⟩ := Option.bind_eq_some_iff.mp hrun
    have hpaid := toil_of_act_le h hsystem
    dsimp only at hrun
    split at hrun
    · -- the last statement of `run_task`, which costs the pool nothing
      cases hrun
      have hhost' : ({ process with system } : Process).hosts[executor]? = some host := hhost
      have hset := toil_setHost hhost' { host with pool := host.pool.setWorker worker (.free call) }
      have hworkers := sum_map_set_of_getElem? WorkerPc.toil hpc (.free call)
      simp only [Pool.toil, Pool.setWorker, WorkerPc.toil, WorkerPc.advances, Bool.toNat_true] at hset hworkers ⊢
      omega
    · cases hrun
      exact hpaid
  · rename_i hoff
    obtain ⟨pool, hpool, rfl⟩ := Option.map_eq_some_iff.mp hstep
    exact toil_of_pool hhost (Pool.toil_of_workerStep hpc hoff hpool)

theorem toil_of_retryStep (h : process.system.Allowed) {task index : ℕ}
    (hstep : process.retryStep .uncapped task index = some next) : next.toil + 1 ≤ process.toil := by
  obtain ⟨record, hrecord, hstep⟩ := Option.bind_eq_some_iff.mp hstep
  obtain ⟨timer, htimer, hstep⟩ := Option.bind_eq_some_iff.mp hstep
  obtain ⟨system, hsystem, hstep⟩ := Option.bind_eq_some_iff.mp hstep
  dsimp only at hstep
  split at hstep
  · rename_i hexecute
    have htoil := toil_of_act h hrecord hsystem
    have hpost := toil_post hstep
    simp only [Executor.TaskRun.posts, htimer, Option.any_some, Executor.RetryTimer.owesAttempt, hexecute,
      beq_self_eq_true, Bool.toNat_true] at htoil
    omega
  · cases hstep
    exact toil_of_act_le h hsystem

/-- Every step that advances something is paid for, and only a new task brings more. -/
theorem toil_of_step (h : process.system.Allowed) (hstep : step .uncapped process action = some next) :
    next.toil + (productive process action).toNat ≤ process.toil + allowance action := by
  unfold step at hstep
  split at hstep
  · cases hstep
  rename_i hrunning
  cases action with
  | construct threads =>
    obtain ⟨system, hsystem, rfl⟩ := Option.map_eq_some_iff.mp hstep
    rw [Executor.step, if_neg hrunning] at hsystem
    cases hsystem
    simp [Process.toil, Executor.System.budget, Pool.toil_create, productive]
  | registerFunction executor name =>
    obtain ⟨system, hsystem, rfl⟩ := Option.map_eq_some_iff.mp hstep
    rw [Executor.step, if_neg hrunning] at hsystem
    cases hsystem
    exact Nat.le_refl _
  | executeTask executor task =>
    obtain ⟨system, hsystem, hpost⟩ := Option.bind_eq_some_iff.mp hstep
    have hbudget := Executor.budget_of_executeTask hsystem
    have htoil := toil_post hpost
    simp only [productive, Bool.toNat_false, allowance, Process.toil] at htoil ⊢
    omega
  | enqueue executor call accepted =>
    obtain ⟨host, hhost, hcall⟩ := Option.bind_eq_some_iff.mp hstep
    obtain ⟨pool, hpool, rfl⟩ := Option.map_eq_some_iff.mp hcall
    obtain ⟨pc, hpc, hmove⟩ := Option.bind_eq_some_iff.mp hpool
    simp only [productive, hhost, Option.bind_some, hpc, Option.any_some]
    exact toil_of_pool hhost (Pool.toil_of_enqueueStep hpc hmove)
  | worker executor worker granted nowMs outcome => exact toil_of_workerStep h hstep
  | timer task index nowMs =>
    obtain ⟨system, hsystem, rfl⟩ := Option.map_eq_some_iff.mp hstep
    exact toil_of_act_le h hsystem
  | retry task index => exact toil_of_retryStep h hstep

end TinyReactor.Worker
