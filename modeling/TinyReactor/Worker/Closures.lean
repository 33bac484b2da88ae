import TinyReactor.Executor.Returns
import TinyReactor.ThreadPool.Ownership
import TinyReactor.ThreadPool.Resize
import TinyReactor.Worker.Model

/-!
# Closures and attempts

Every closure in the pool of an executor runs one attempt of one task, and no two closures run the same one. The
pool gives a closure to one worker, so that worker alone moves the attempt, from its first statement to its last.
-/

namespace TinyReactor.Worker

open Transition Wire ThreadPool

/-! ## A pool that is neither resized nor stopped -/

/-- The worker is not on its way out when so many threads are wanted. -/
def stays (target : ℕ) : WorkerPc → Prop
  | .compareTarget active => active ≤ target
  | .reload | .retest _ | .exchange _ | .pause | .leave | .exited => False
  | _ => True

/-- As many threads as the constructor was asked for, all of them there to stay. -/
structure Staffed (pool : Pool) : Prop where
  stop : pool.stop = false
  alive : pool.destructor = .notStarted
  target : pool.targetThreadCount = pool.workers.length
  active : pool.activeThreads + pool.workers.countP WorkerPc.starting = pool.workers.length
  staff : ∀ pc ∈ pool.workers, stays pool.targetThreadCount pc

variable {sem : Semaphore} {pool pool' : Pool} {worker : ℕ} {granted : Bool} {pc : WorkerPc}

theorem staffed_create (threads : ℕ) : Staffed (Pool.create threads) where
  stop := rfl
  alive := rfl
  target := by simp [Pool.create]
  active := by simp [Pool.create, List.countP_replicate, WorkerPc.starting]
  staff pc hpc := by
    rw [List.eq_of_mem_replicate hpc]
    trivial

theorem Staffed.of_sameStaff (h : Staffed pool) (hstaff : SameStaff pool pool') (hstop : pool'.stop = pool.stop)
    (halive : pool'.destructor = pool.destructor) : Staffed pool' where
  stop := hstop.trans h.stop
  alive := halive.trans h.alive
  target := by rw [hstaff.targetThreadCount, hstaff.workers, h.target]
  active := by rw [hstaff.activeThreads, hstaff.workers, h.active]
  staff := by
    rw [hstaff.targetThreadCount, hstaff.workers]
    exact h.staff

theorem Staffed.active_le (h : Staffed pool) : pool.activeThreads ≤ pool.targetThreadCount := by
  have := h.active
  have := h.target
  omega

/-- A worker of such a pool stays. -/
theorem Staffed.stays_workerStep (h : Staffed pool) (hpc : pool.workers[worker]? = some pc)
    (hstep : pool.workerStep worker granted pc = some pool') :
    ∃ pc', pool'.workers = pool.workers.set worker pc' ∧ stays pool.targetThreadCount pc' := by
  have hstays := h.staff pc (List.mem_of_getElem? hpc)
  cases workerMove_of_step hstep with
  | stopped hstopped => cases h.stop.symm.trans hstopped
  | loadActive => exact ⟨.compareTarget pool.activeThreads, rfl, h.active_le⟩
  | surplus hactive => exact absurd hactive (Int.not_lt.mpr hstays)
  | reload | stillSurplus | neededAgain | exchanged | changed | pause | leave => exact absurd hstays id
  | _ => exact ⟨_, rfl, trivial⟩

theorem Staffed.workerStep (h : Staffed pool) (hpc : pool.workers[worker]? = some pc)
    (hstep : pool.workerStep worker granted pc = some pool') : Staffed pool' := by
  have hstays := h.staff pc (List.mem_of_getElem? hpc)
  have hleave : pc ≠ .leave := by
    rintro rfl
    exact hstays
  obtain ⟨hstop, htarget, -⟩ := workerStep_control_frame hstep
  obtain ⟨-, halive, -⟩ := workerStep_frame hstep
  obtain ⟨pc', hworkers, hstays'⟩ := h.stays_workerStep hpc hstep
  obtain ⟨-, pc'', hworkers', -, hstarted, hcases⟩ := workerStep_alive h.stop hleave hstep
  obtain rfl : pc' = pc'' := by
    have hplace := congrArg (fun workers : List WorkerPc ↦ workers[worker]?) (hworkers.symm.trans hworkers')
    simpa [List.getElem?_set_self (lt_length_of_getElem? hpc)] using hplace
  refine ⟨hstop.trans h.stop, halive.trans h.alive, ?_, ?_, ?_⟩
  · rw [htarget, hworkers, List.length_set, h.target]
  · have hcount := countP_set_of_getElem? WorkerPc.starting hpc pc'
    have hle := toNat_le_countP WorkerPc.starting hpc
    have hactive := h.active
    rw [hstarted, Bool.toNat_false] at hcount
    rw [hworkers, hcount, List.length_set]
    obtain ⟨hmoved, -⟩ | ⟨hexchange, -, -⟩ := hcases
    · omega
    · cases pc with
      | exchange old => exact absurd hstays id
      | _ => cases hexchange
  · rw [htarget, hworkers]
    intro other hother
    obtain hold | rfl := List.mem_or_eq_of_mem_set hother
    · exact h.staff other hold
    · exact hstays'

/-- A worker that moves outside its closure calls at most the closure that it has popped. -/
theorem workerStep_calls (hpc : pool.workers[worker]? = some pc)
    (hstep : pool.workerStep worker granted pc = some pool') (hoff : ∀ call, pc ≠ .running call) :
    (∀ call ∈ pool.ran, call ∈ pool'.ran) ∧
      ∀ (other : ℕ) call, pool'.workers[other]? = some (.running call) →
        pool.workers[other]? = some (.running call) ∨ pc = .call call := by
  obtain ⟨pc', hworkers, hran, hcalls⟩ : ∃ pc', pool'.workers = pool.workers.set worker pc' ∧
      (∀ call ∈ pool.ran, call ∈ pool'.ran) ∧ ∀ call, pc' = .running call → pc = .call call := by
    cases workerMove_of_step hstep with
    | returned call => exact absurd rfl (hoff call)
    | call task =>
      refine ⟨_, rfl, fun call hcall ↦ List.mem_append_left _ hcall, ?_⟩
      rintro call ⟨⟩
      rfl
    | _ => exact ⟨_, rfl, fun _ h ↦ h, by rintro _ ⟨⟩⟩
  refine ⟨hran, fun other call hother ↦ ?_⟩
  rw [hworkers] at hother
  by_cases hsame : worker = other
  · subst hsame
    rw [List.getElem?_set_self (lt_length_of_getElem? hpc)] at hother
    exact .inr (hcalls call (Option.some.inj hother))
  · rw [List.getElem?_set_ne hsame] at hother
    exact .inl hother

/-! ## Who holds a closure -/

section Books

variable (hbooks : ∀ task, Accounted pool task) (horder : InOrder pool) {call : ℕ}

include hbooks horder

/-- A closure that is called has not run before. -/
theorem not_mem_ran_of_call (hpc : pool.workers[worker]? = some (.call call)) : call ∉ pool.ran := by
  intro hran
  have hcount : 0 < pool.ran.count call := List.count_pos_iff.mpr hran
  have hpopped := toNat_le_countP (WorkerPc.popped call) hpc
  have hpushed := @pushed_count pool call horder
  have hcalls : entryCount (fun _ ↦ true) pool.calls call ≤ 1 := entryCount_le_one _
  obtain ⟨hentered, hleft, -, -, -⟩ := hbooks call
  simp only [WorkerPc.popped, beq_self_eq_true, Bool.toNat_true] at hpopped
  omega

/-- A closure that is running was passed to `enqueue`. -/
theorem lt_length_of_running (hpc : pool.workers[worker]? = some (.running call)) : call < pool.calls.length := by
  have hcalled := toNat_le_countP (WorkerPc.called call) hpc
  have hpushed := @pushed_count pool call horder
  obtain ⟨hentered, hleft, -, hran, -⟩ := hbooks call
  simp only [WorkerPc.called, beq_self_eq_true, Bool.toNat_true] at hcalled
  by_contra hlength
  have hnone : entryCount (fun _ ↦ true) pool.calls call = 0 := by
    simp [entryCount, List.getElem?_eq_none (Nat.le_of_not_lt hlength)]
  omega

omit horder in
theorem mem_ran_of_running (hpc : pool.workers[worker]? = some (.running call)) : call ∈ pool.ran := by
  have hcalled := toNat_le_countP (WorkerPc.called call) hpc
  have hran := (hbooks call).called_le
  simp only [WorkerPc.called, beq_self_eq_true, Bool.toNat_true] at hcalled
  exact List.count_pos_iff.mp (by omega)

/-- A closure runs on one worker. -/
theorem running_unique {other : ℕ} (hpc : pool.workers[worker]? = some (.running call))
    (hother : pool.workers[other]? = some (.running call)) : worker = other := by
  have hplace : Place.worker worker = .worker other := by
    apply holds_unique (hbooks call) horder (entryCount_le_one _)
    · exact ⟨_, hpc, by simp [WorkerPc.called]⟩
    · exact ⟨_, hother, by simp [WorkerPc.called]⟩
  cases hplace
  rfl

end Books

/-! ## What a step does -/

/-- The statement of `run_task` that the worker executes next. -/
def Process.statement? (process : Process) (executor worker : ℕ) : Option Executor.AttemptPc :=
  match process.workerPc? executor worker with
  | some (.running call) =>
      (process.closure? executor call).bind fun closure ↦ process.attemptPc? closure.1 closure.2
  | _ => none

/-- A registered function that a worker calls ends with a value or with a `std::exception`. -/
def EndsCaught (process : Process) : Action → Prop
  | .worker executor worker _ _ outcome =>
      ∀ pc ∈ process.statement? executor worker, pc.callsFunction = true → outcome.caught = true
  | _ => True

instance (process : Process) : (action : Action) → Decidable (EndsCaught process action)
  | .worker executor worker _ _ outcome => inferInstanceAs (Decidable
      (∀ pc ∈ process.statement? executor worker, pc.callsFunction = true → outcome.caught = true))
  | .construct _ | .registerFunction .. | .executeTask .. | .enqueue .. | .timer .. | .retry .. => .isTrue trivial

/-- The worker thread whose statement the action executes. -/
def Action.mover : Action → Option (ℕ × ℕ)
  | .worker executor worker _ _ _ => some (executor, worker)
  | _ => none

/-- The steps of the process, with the worker that moves. -/
inductive Moves (sem : Semaphore) (process : Process) : Option (ℕ × ℕ) → Process → Prop
  | constructs {threads : ℕ} {system : Executor.System}
      (hstep : Executor.step process.system .construct = some system) :
      Moves sem process none { system, hosts := process.hosts ++ [{ pool := .create threads }] }
  | steps {act : Executor.Action} {system : Executor.System} (hstep : Executor.step process.system act = some system)
      (hother : ∀ task attempt nowMs outcome, act ≠ .act task (.attempt attempt nowMs outcome)) :
      Moves sem process none { process with system }
  | posts {act : Executor.Action} {system : Executor.System} {executor task attempt : ℕ} {host : Host}
      {pool : Pool} {record : Executor.TaskRun} (hstep : Executor.step process.system act = some system)
      (hother : ∀ task attempt nowMs outcome, act ≠ .act task (.attempt attempt nowMs outcome))
      (hfresh : process.attemptPc? task attempt = none) (hrecord : system.runs[task]? = some record)
      (hexecutor : record.executor = executor) (hqueued : record.attempts[attempt]? = some .queued)
      (hhost : process.hosts[executor]? = some host)
      (hpool : ThreadPool.step sem host.pool .callEnqueue = some pool) :
      Moves sem process none
        (Process.setHost { process with system } executor
          { pool, closures := host.closures ++ [(task, attempt)] })
  | enqueues {executor call : ℕ} {accepted : Bool} {host : Host} {pool : Pool}
      (hhost : process.hosts[executor]? = some host)
      (hpool : ThreadPool.step sem host.pool (.enqueue call accepted) = some pool) :
      Moves sem process none (process.setHost executor { host with pool })
  | works {executor worker : ℕ} {granted : Bool} {host : Host} {pc : WorkerPc} {pool : Pool}
      (hhost : process.hosts[executor]? = some host) (hpc : host.pool.workers[worker]? = some pc)
      (hoff : ∀ call, pc ≠ .running call) (hpool : host.pool.workerStep worker granted pc = some pool) :
      Moves sem process (some (executor, worker)) (process.setHost executor { host with pool })
  | runs {executor worker call task attempt : ℕ} {nowMs : UInt64} {outcome : Executor.Outcome} {host : Host}
      {system : Executor.System} (hhost : process.hosts[executor]? = some host)
      (hpc : host.pool.workers[worker]? = some (.running call))
      (hclosure : host.closures[call]? = some (task, attempt))
      (hcaught : ∀ pc ∈ process.attemptPc? task attempt, pc.callsFunction = true → outcome.caught = true)
      (hstep : Executor.step process.system (.act task (.attempt attempt nowMs outcome)) = some system)
      (hinside : (Process.attemptPc? { process with system } task attempt).any Executor.AttemptPc.hasReturned =
        false) :
      Moves sem process (some (executor, worker)) { process with system }
  | returns {executor worker call task attempt : ℕ} {nowMs : UInt64} {outcome : Executor.Outcome} {host : Host}
      {system : Executor.System} (hhost : process.hosts[executor]? = some host)
      (hpc : host.pool.workers[worker]? = some (.running call))
      (hclosure : host.closures[call]? = some (task, attempt))
      (hcaught : ∀ pc ∈ process.attemptPc? task attempt, pc.callsFunction = true → outcome.caught = true)
      (hstep : Executor.step process.system (.act task (.attempt attempt nowMs outcome)) = some system)
      (hreturned : (Process.attemptPc? { process with system } task attempt).any Executor.AttemptPc.hasReturned =
        true) :
      Moves sem process (some (executor, worker))
        (Process.setHost { process with system } executor
          { host with pool := host.pool.setWorker worker (.free call) })

variable {process next : Process} {action : Action}

/-- A task that is handed to an executor is a new one, with one queued attempt. -/
theorem executeTask_spec {system : Executor.System} {executor : ℕ} {task : Task}
    (h : Executor.step process.system (.executeTask executor task) = some system) :
    process.attemptPc? process.system.runs.length 0 = none ∧
      system.runs[process.system.runs.length]? = some { executor, task } := by
  unfold Executor.step at h
  split at h
  · cases h
  · simp only [Option.ite_none_right_eq_some, Option.some.injEq] at h
    obtain ⟨-, rfl⟩ := h
    exact ⟨by simp [Process.attemptPc?], by simp⟩

/-- The last statement of a retry adds a queued attempt to its task. -/
theorem retry_spec {system : Executor.System} {task index : ℕ} {record : Executor.TaskRun}
    {timer : Executor.RetryTimer} (hrecord : process.system.runs[task]? = some record)
    (htimer : record.retryTimers[index]? = some timer) (hexecute : timer.status = .execute)
    (h : Executor.step process.system (.act task (.retry index)) = some system) :
    process.attemptPc? task record.attempts.length = none ∧ ∃ moved, system.runs[task]? = some moved ∧
      moved.executor = record.executor ∧ moved.attempts[record.attempts.length]? = some .queued := by
  refine ⟨by simp [Process.attemptPc?, hrecord], ?_⟩
  unfold Executor.step at h
  split at h
  · cases h
  simp only [Option.bind_eq_some_iff, Option.map_eq_some_iff, hrecord, Option.some.injEq, exists_eq_left',
    Executor.TaskRun.step, htimer, hexecute, Executor.TaskRun.retryStep] at h
  obtain ⟨-, -, moved, rfl, rfl⟩ := h
  exact ⟨_, List.getElem?_set_self (lt_length_of_getElem? hrecord), rfl, List.getElem?_concat_length⟩

theorem moves_of_step (hstep : step sem process action = some next) (hcaught : EndsCaught process action) :
    Moves sem process action.mover next := by
  unfold step at hstep
  split at hstep
  · cases hstep
  cases action with
  | construct threads =>
    obtain ⟨system, hsystem, rfl⟩ := Option.map_eq_some_iff.mp hstep
    exact .constructs hsystem
  | registerFunction executor name =>
    obtain ⟨system, hsystem, rfl⟩ := Option.map_eq_some_iff.mp hstep
    exact .steps hsystem (by simp)
  | timer task index nowMs =>
    obtain ⟨system, hsystem, rfl⟩ := Option.map_eq_some_iff.mp hstep
    exact .steps hsystem (by simp)
  | executeTask executor task =>
    obtain ⟨system, hsystem, hpost⟩ := Option.bind_eq_some_iff.mp hstep
    obtain ⟨host, hhost, hcall⟩ := Option.bind_eq_some_iff.mp hpost
    obtain ⟨pool, hpool, rfl⟩ := Option.map_eq_some_iff.mp hcall
    obtain ⟨hfresh, hrecord⟩ := executeTask_spec hsystem
    exact .posts hsystem (by simp) hfresh hrecord rfl rfl hhost hpool
  | enqueue executor call accepted =>
    obtain ⟨host, hhost, hcall⟩ := Option.bind_eq_some_iff.mp hstep
    obtain ⟨pool, hpool, rfl⟩ := Option.map_eq_some_iff.mp hcall
    exact .enqueues hhost hpool
  | retry task index =>
    obtain ⟨record, hrecord, hstep⟩ := Option.bind_eq_some_iff.mp hstep
    obtain ⟨timer, htimer, hstep⟩ := Option.bind_eq_some_iff.mp hstep
    obtain ⟨system, hsystem, hstep⟩ := Option.bind_eq_some_iff.mp hstep
    dsimp only at hstep
    split at hstep
    · rename_i hexecute
      obtain ⟨host, hhost, hcall⟩ := Option.bind_eq_some_iff.mp hstep
      obtain ⟨pool, hpool, rfl⟩ := Option.map_eq_some_iff.mp hcall
      obtain ⟨hfresh, moved, hmoved, hexecutor, hqueued⟩ := retry_spec hrecord htimer hexecute hsystem
      exact .posts hsystem (by simp) hfresh hmoved hexecutor hqueued hhost hpool
    · cases hstep
      exact .steps hsystem (by simp)
  | worker executor worker granted nowMs outcome =>
    obtain ⟨host, hhost, hstep⟩ := Option.bind_eq_some_iff.mp hstep
    obtain ⟨pc, hpc, hstep⟩ := Option.bind_eq_some_iff.mp hstep
    split at hstep
    · rename_i call
      obtain ⟨⟨task, attempt⟩, hclosure, hrun⟩ := Option.bind_eq_some_iff.mp hstep
      obtain ⟨system, hsystem, hrun⟩ := Option.bind_eq_some_iff.mp hrun
      have hstatement : process.statement? executor worker = process.attemptPc? task attempt := by
        simp [Process.statement?, Process.workerPc?, Process.closure?, hhost, hpc, hclosure]
      have hends : ∀ pc ∈ process.attemptPc? task attempt, pc.callsFunction = true → outcome.caught = true := by
        rw [← hstatement]
        exact hcaught
      dsimp only at hrun
      split at hrun
      · rename_i hreturned
        cases hrun
        exact .returns hhost hpc hclosure hends hsystem hreturned
      · rename_i hinside
        cases hrun
        exact .runs hhost hpc hclosure hends hsystem (Bool.eq_false_iff.mpr hinside)
    · rename_i hoff
      obtain ⟨pool, hpool, rfl⟩ := Option.map_eq_some_iff.mp hstep
      exact .works hhost hpc hoff hpool

/-! ## Attempts of closures -/

/-- The attempt of a closure has not begun before the closure is called, and has not ended while it runs. -/
structure Fits (pool : Pool) (call : ℕ) (pc : Executor.AttemptPc) : Prop where
  queued : call ∉ pool.ran → pc = .queued
  inside : ∀ worker : ℕ, pool.workers[worker]? = some (.running call) → 0 < pc.statementsLeft

/-- The pool of an executor, with an attempt of its own for every closure. -/
structure Hosted (system : Executor.System) (executor : ℕ) (host : Host) : Prop where
  staffed : Staffed host.pool
  books : ∀ task, Accounted host.pool task
  inOrder : InOrder host.pool
  length : host.closures.length = host.pool.calls.length
  nodup : host.closures.Nodup
  attempts : ∀ (call task attempt : ℕ), host.closures[call]? = some (task, attempt) →
    ∃ (record : Executor.TaskRun) (pc : Executor.AttemptPc), system.runs[task]? = some record ∧
      record.executor = executor ∧ record.attempts[attempt]? = some pc ∧ Fits host.pool call pc

variable {system system' : Executor.System} {executor call task attempt : ℕ} {host : Host}

theorem hosted_create (threads : ℕ) : Hosted system executor { pool := .create threads } where
  staffed := staffed_create threads
  books := accounted_create threads
  inOrder := rfl
  length := rfl
  nodup := List.nodup_nil
  attempts _ _ _ h := by cases h

/-- A step of the system that is no statement of an attempt of this pool. -/
theorem Hosted.of_step (h : Hosted system executor host) {act : Executor.Action}
    (hstep : Executor.step system act = some system')
    (hother : ∀ (call task attempt : ℕ) nowMs outcome, host.closures[call]? = some (task, attempt) →
      act ≠ .act task (.attempt attempt nowMs outcome)) : Hosted system' executor host where
  staffed := h.staffed
  books := h.books
  inOrder := h.inOrder
  length := h.length
  nodup := h.nodup
  attempts call task attempt hclosure := by
    obtain ⟨record, pc, hrecord, rfl, hpc, hfits⟩ := h.attempts call task attempt hclosure
    obtain ⟨moved, hmoved, hexecutor, hstays | ⟨nowMs, outcome, hact⟩⟩ := Executor.attempt_of_step hstep hrecord hpc
    · exact ⟨moved, pc, hmoved, hexecutor, hstays, hfits⟩
    · exact absurd hact (hother call task attempt nowMs outcome hclosure)

/-- A step of the pool that keeps the attempts fitting. -/
theorem Hosted.of_pool (h : Hosted system executor host) (hstaffed : Staffed pool')
    (hbooks : ∀ task, Accounted pool' task) (horder : InOrder pool')
    (hlength : pool'.calls.length = host.pool.calls.length)
    (hfits : ∀ call pc, Fits host.pool call pc → Fits pool' call pc) :
    Hosted system executor { host with pool := pool' } where
  staffed := hstaffed
  books := hbooks
  inOrder := horder
  length := h.length.trans hlength.symm
  nodup := h.nodup
  attempts call task attempt hclosure := by
    obtain ⟨record, pc, hrecord, hexecutor, hpc, hfit⟩ := h.attempts call task attempt hclosure
    exact ⟨record, pc, hrecord, hexecutor, hpc, hfits call pc hfit⟩

theorem Hosted.enqueue (h : Hosted system executor host) {accepted : Bool}
    (hstep : ThreadPool.step sem host.pool (.enqueue call accepted) = some pool') :
    Hosted system executor { host with pool := pool' } := by
  obtain ⟨pc, hpc, hmove⟩ := Option.bind_eq_some_iff.mp hstep
  obtain ⟨hworkers, hdestructor, -, -, hran⟩ := enqueueStep_frame hmove
  obtain ⟨hstaff, hstop⟩ := enqueueStep_sameStaff hmove
  have hlength : pool'.calls.length = host.pool.calls.length := by
    cases enqueueMove_of_step hmove <;> exact List.length_set
  apply h.of_pool (h.staffed.of_sameStaff hstaff hstop hdestructor) (accounted_of_step hstep h.books)
    (inOrder_of_step hstep h.inOrder) hlength
  intro call pc hfits
  constructor
  · rw [hran]
    exact hfits.queued
  · rw [hworkers]
    exact hfits.inside

/-- A worker moves outside its closure; if it calls the closure, the attempt is at its first statement. -/
theorem Hosted.work (h : Hosted system executor host) (hpc : host.pool.workers[worker]? = some pc)
    (hoff : ∀ call, pc ≠ .running call) (hmove : host.pool.workerStep worker granted pc = some pool') :
    Hosted system executor { host with pool := pool' } := by
  have hstep : ThreadPool.step .uncapped host.pool (.worker worker granted) = some pool' := by
    rw [ThreadPool.step, hpc, Option.bind_some, hmove]
  obtain ⟨hcalls, -⟩ := workerStep_frame hmove
  obtain ⟨hran, hruns⟩ := workerStep_calls hpc hmove hoff
  apply h.of_pool (h.staffed.workerStep hpc hmove) (accounted_of_step hstep h.books)
    (inOrder_of_step hstep h.inOrder) (by rw [hcalls])
  intro call attemptPc hfits
  refine ⟨fun hnot ↦ hfits.queued fun hmem ↦ hnot (hran call hmem), fun other hother ↦ ?_⟩
  obtain hold | rfl := hruns other call hother
  · exact hfits.inside other hold
  · rw [hfits.queued (not_mem_ran_of_call h.books h.inOrder hpc)]
    decide

/-- A new closure is posted, for an attempt that has just been made. -/
theorem Hosted.post (h : Hosted system executor host) {record : Executor.TaskRun}
    (hrecord : system.runs[task]? = some record) (hexecutor : record.executor = executor)
    (hqueued : record.attempts[attempt]? = some .queued) (hfresh : (task, attempt) ∉ host.closures)
    (hstep : ThreadPool.step sem host.pool .callEnqueue = some pool') :
    Hosted system executor { pool := pool', closures := host.closures ++ [(task, attempt)] } := by
  obtain ⟨hstaffed, hcalls, hran, hworkers⟩ : Staffed pool' ∧ pool'.calls = host.pool.calls ++ [.entry] ∧
      pool'.ran = host.pool.ran ∧ pool'.workers = host.pool.workers := by
    simp only [ThreadPool.step, Option.ite_none_right_eq_some, Option.some.injEq] at hstep
    obtain ⟨-, rfl⟩ := hstep
    exact ⟨h.staffed.of_sameStaff ⟨rfl, rfl, rfl, rfl⟩ rfl rfl, rfl, rfl, rfl⟩
  refine ⟨hstaffed, accounted_of_step hstep h.books, inOrder_of_step hstep h.inOrder, ?_, ?_, ?_⟩
  · rw [hcalls, List.length_append, List.length_append, h.length]
    rfl
  · apply List.Nodup.append h.nodup (List.nodup_singleton _)
    rw [List.disjoint_singleton]
    exact hfresh
  · intro call task' attempt' hclosure
    obtain hold | ⟨rfl, hnew⟩ := of_getElem?_append_singleton hclosure
    · obtain ⟨record', pc, hrecord', hexecutor', hpc, hfits⟩ := h.attempts call task' attempt' hold
      refine ⟨record', pc, hrecord', hexecutor', hpc, ?_, ?_⟩
      · rw [hran]
        exact hfits.queued
      · rw [hworkers]
        exact hfits.inside
    · cases hnew
      refine ⟨record, .queued, hrecord, hexecutor, hqueued, fun _ ↦ rfl, fun _ _ ↦ ?_⟩
      decide

/-- A statement of the attempt of a closure, with what it does to the pool. -/
theorem Hosted.statement (h : Hosted system executor host) {nowMs : UInt64} {outcome : Executor.Outcome}
    {moved : Executor.TaskRun} {pc' : Executor.AttemptPc} (hclosure : host.closures[call]? = some (task, attempt))
    (hstep : Executor.step system (.act task (.attempt attempt nowMs outcome)) = some system')
    (hmoved : system'.runs[task]? = some moved) (hpc' : moved.attempts[attempt]? = some pc')
    (hpool : Hosted system executor { host with pool := pool' }) (hfits : Fits pool' call pc') :
    Hosted system' executor { host with pool := pool' } where
  staffed := hpool.staffed
  books := hpool.books
  inOrder := hpool.inOrder
  length := hpool.length
  nodup := hpool.nodup
  attempts other task' attempt' hother := by
    obtain ⟨record, pc, hrecord, rfl, hpc, hfit⟩ := hpool.attempts other task' attempt' hother
    obtain ⟨moved', hmoved', hexecutor, hstays | ⟨_, _, hact⟩⟩ := Executor.attempt_of_step hstep hrecord hpc
    · exact ⟨moved', pc, hmoved', hexecutor, hstays, hfit⟩
    · -- the closure of this attempt is the one whose statement was executed
      cases hact
      have hsame : other = call :=
        (List.getElem?_inj (lt_length_of_getElem? hother) h.nodup).mp (hother.trans hclosure.symm)
      subst hsame
      obtain rfl : moved' = moved := Option.some.inj (hmoved'.symm.trans hmoved)
      exact ⟨moved', pc', hmoved', hexecutor, hpc', hfits⟩

/-! ## The process -/

/-- The process runs, every pool belongs to an executor and has an attempt for every closure, and every task
reports as it should. -/
structure Bound (process : Process) : Prop where
  running : process.system.terminated = false
  executors : process.hosts.length ≤ process.system.executors.length
  hosted : ∀ (executor : ℕ) host, process.hosts[executor]? = some host → Hosted process.system executor host
  reporting : ∀ (task : ℕ) record, process.system.runs[task]? = some record → record.Reporting

theorem bound_create : Bound {} where
  running := rfl
  executors := Nat.le_refl 0
  hosted _ _ h := by simp at h
  reporting _ _ h := by simp at h

/-- A step of the system, whatever it does to the pools. -/
theorem Bound.of_step (h : Bound process) {act : Executor.Action}
    (hstep : Executor.step process.system act = some next.system)
    (hcaught : Executor.OnTasks Executor.TaskRun.EndsCaught process.system act)
    (hexecutors : next.hosts.length ≤ next.system.executors.length)
    (hhosted : ∀ (executor : ℕ) host, next.hosts[executor]? = some host → Hosted next.system executor host) :
    Bound next where
  running := Executor.not_terminated_of_step hstep hcaught
  executors := hexecutors
  hosted := hhosted
  reporting := Executor.reporting_of_step hstep h.reporting

theorem of_getElem?_setHost {other : ℕ} {host' : Host}
    (h : (process.setHost executor host).hosts[other]? = some host') :
    (other = executor ∧ host' = host) ∨ (other ≠ executor ∧ process.hosts[other]? = some host') := by
  by_cases hother : executor = other
  · subst hother
    have hlt := lt_length_of_getElem? h
    simp only [Process.setHost, List.length_set] at hlt
    rw [Process.setHost, List.getElem?_set_self hlt] at h
    exact .inl ⟨rfl, (Option.some.inj h).symm⟩
  · rw [Process.setHost, List.getElem?_set_ne hother] at h
    exact .inr ⟨Ne.symm hother, h⟩

/-- No two pools have a closure for the same attempt. -/
theorem Bound.owner_unique (h : Bound process) {other call' : ℕ} {host' : Host}
    (hhost : process.hosts[executor]? = some host) (hclosure : host.closures[call]? = some (task, attempt))
    (hhost' : process.hosts[other]? = some host') (hclosure' : host'.closures[call']? = some (task, attempt)) :
    executor = other := by
  obtain ⟨record, -, hrecord, rfl, -⟩ := (h.hosted executor host hhost).attempts call task attempt hclosure
  obtain ⟨record', -, hrecord', rfl, -⟩ := (h.hosted other host' hhost').attempts call' task attempt hclosure'
  obtain rfl : record = record' := Option.some.inj (hrecord.symm.trans hrecord')
  rfl

/-- What a step requires of the function of an attempt, in the terms of the executor. -/
theorem onTasks_of_caught {nowMs : UInt64} {outcome : Executor.Outcome}
    (hcaught : ∀ pc ∈ process.attemptPc? task attempt, pc.callsFunction = true → outcome.caught = true) :
    Executor.OnTasks Executor.TaskRun.EndsCaught process.system (.act task (.attempt attempt nowMs outcome)) := by
  intro record hrecord pc hpc
  apply hcaught
  simpa [Process.attemptPc?, hrecord] using hpc

/-- The attempt of a closure that is executing moves by its own statement; the other pools do not see it. -/
theorem Bound.of_statement (h : Bound process) {nowMs : UInt64} {outcome : Executor.Outcome}
    (hhost : process.hosts[executor]? = some host) (hclosure : host.closures[call]? = some (task, attempt))
    (hcaught : ∀ pc ∈ process.attemptPc? task attempt, pc.callsFunction = true → outcome.caught = true)
    (hstep : Executor.step process.system (.act task (.attempt attempt nowMs outcome)) = some next.system)
    (hlength : next.hosts.length = process.hosts.length)
    (hothers : ∀ (other : ℕ) host', next.hosts[other]? = some host' → other ≠ executor →
      process.hosts[other]? = some host')
    (hself : ∀ host', next.hosts[executor]? = some host' → Hosted next.system executor host') : Bound next := by
  apply h.of_step hstep (onTasks_of_caught hcaught)
  · rw [hlength]
    exact h.executors.trans (Executor.executors_length_le_of_step hstep)
  · intro other host' hhost'
    by_cases hother : other = executor
    · subst hother
      exact hself host' hhost'
    · have hold := hothers other host' hhost' hother
      apply (h.hosted other host' hold).of_step hstep
      rintro call' task' attempt' _ _ hclosure' ⟨⟩
      exact hother (h.owner_unique hhost hclosure hold hclosure').symm

/-- A step of one pool alone. -/
theorem Bound.setHost (h : Bound process) (hhost : Hosted process.system executor host) :
    Bound (process.setHost executor host) where
  running := h.running
  executors := by
    simp only [Process.setHost, List.length_set]
    exact h.executors
  hosted other host' hhost' := by
    obtain ⟨rfl, rfl⟩ | ⟨-, hold⟩ := of_getElem?_setHost hhost'
    · exact hhost
    · exact h.hosted other host' hold
  reporting := h.reporting

/-- The worker comes back from its closure, which nobody runs any more. -/
theorem Hosted.return (h : Hosted system executor host) (hpc : host.pool.workers[worker]? = some (.running call)) :
    Hosted system executor { host with pool := host.pool.setWorker worker (.free call) } ∧
      ∀ attemptPc, Fits (host.pool.setWorker worker (.free call)) call attemptPc := by
  have hmove : host.pool.workerStep worker false (.running call) =
      some (host.pool.setWorker worker (.free call)) := rfl
  have hstep : ThreadPool.step .uncapped host.pool (.worker worker false) =
      some (host.pool.setWorker worker (.free call)) := by
    rw [ThreadPool.step, hpc, Option.bind_some, hmove]
  have hruns (other call' : ℕ)
      (hother : (host.pool.setWorker worker (.free call)).workers[other]? = some (.running call')) :
      worker ≠ other ∧ host.pool.workers[other]? = some (.running call') := by
    by_cases hsame : worker = other
    · subst hsame
      rw [Pool.setWorker, List.getElem?_set_self (lt_length_of_getElem? hpc)] at hother
      cases hother
    · rw [Pool.setWorker, List.getElem?_set_ne hsame] at hother
      exact ⟨hsame, hother⟩
  constructor
  · apply h.of_pool (h.staffed.workerStep hpc hmove) (accounted_of_step hstep h.books)
      (inOrder_of_step hstep h.inOrder) rfl
    intro call' attemptPc hfits
    exact ⟨hfits.queued, fun other hother ↦ hfits.inside other (hruns other call' hother).2⟩
  · intro attemptPc
    refine ⟨fun hnot ↦ absurd (mem_ran_of_running h.books hpc) hnot, fun other hother ↦ ?_⟩
    obtain ⟨hne, hrunning⟩ := hruns other call hother
    exact absurd (running_unique h.books h.inOrder hpc hrunning) hne

theorem endsCaught_of_other {act : Executor.Action}
    (hother : ∀ task attempt nowMs outcome, act ≠ .act task (.attempt attempt nowMs outcome)) :
    Executor.OnTasks Executor.TaskRun.EndsCaught system act := by
  cases act with
  | act task taskAction =>
    cases taskAction with
    | attempt attempt nowMs outcome => exact absurd rfl (hother task attempt nowMs outcome)
    | _ => exact fun _ _ ↦ trivial
  | _ => trivial

/-- A closure is posted for an attempt that the same step makes. -/
theorem Bound.post (h : Bound process) {act : Executor.Action} {record : Executor.TaskRun}
    (hstep : Executor.step process.system act = some system')
    (hother : ∀ task attempt nowMs outcome, act ≠ .act task (.attempt attempt nowMs outcome))
    (hfresh : process.attemptPc? task attempt = none) (hrecord : system'.runs[task]? = some record)
    (hexecutor : record.executor = executor) (hqueued : record.attempts[attempt]? = some .queued)
    (hhost : process.hosts[executor]? = some host)
    (hpool : ThreadPool.step sem host.pool .callEnqueue = some pool') :
    Bound (Process.setHost { process with system := system' } executor
      { pool := pool', closures := host.closures ++ [(task, attempt)] }) := by
  have hnew : (task, attempt) ∉ host.closures := by
    intro hmem
    obtain ⟨call, hclosure⟩ := List.mem_iff_getElem?.mp hmem
    obtain ⟨old, pc, hold, -, hpc, -⟩ := (h.hosted executor host hhost).attempts call task attempt hclosure
    simp [Process.attemptPc?, hold, hpc] at hfresh
  have hframe (other : ℕ) (host' : Host) (hhost' : process.hosts[other]? = some host') :
      Hosted system' other host' :=
    (h.hosted other host' hhost').of_step hstep fun _ _ _ _ _ _ ↦ hother _ _ _ _
  refine h.of_step hstep (endsCaught_of_other hother) ?_ fun other host' hhost' ↦ ?_
  · simp only [Process.setHost, List.length_set]
    exact h.executors.trans (Executor.executors_length_le_of_step hstep)
  · obtain ⟨rfl, rfl⟩ | ⟨-, hold⟩ := of_getElem?_setHost hhost'
    · exact (hframe other host hhost).post hrecord hexecutor hqueued hnew hpool
    · exact hframe other host' hold

theorem bound_of_moves (h : Bound process) {mover : Option (ℕ × ℕ)} (hmoves : Moves sem process mover next) :
    Bound next := by
  cases hmoves with
  | constructs hstep =>
    refine h.of_step hstep trivial ?_ fun executor host hhost ↦ ?_
    · rw [Executor.step, if_neg (by simp [h.running])] at hstep
      cases hstep
      simp only [List.length_append]
      exact Nat.add_le_add_right h.executors 1
    · obtain hold | ⟨-, rfl⟩ := of_getElem?_append_singleton hhost
      · exact (h.hosted executor host hold).of_step hstep (by simp)
      · exact hosted_create _
  | steps hstep hother =>
    refine h.of_step hstep (endsCaught_of_other hother) ?_ fun executor host hhost ↦ ?_
    · exact h.executors.trans (Executor.executors_length_le_of_step hstep)
    · exact (h.hosted executor host hhost).of_step hstep fun _ _ _ _ _ _ ↦ hother _ _ _ _
  | posts hstep hother hfresh hrecord hexecutor hqueued hhost hpool =>
    exact h.post hstep hother hfresh hrecord hexecutor hqueued hhost hpool
  | enqueues hhost hpool => exact h.setHost ((h.hosted _ _ hhost).enqueue hpool)
  | works hhost hpc hoff hpool => exact h.setHost ((h.hosted _ _ hhost).work hpc hoff hpool)
  | runs hhost hpc hclosure hcaught hstep hinside =>
    rename_i executor worker call task attempt nowMs outcome host system
    have hhosted := h.hosted executor host hhost
    refine h.of_statement hhost hclosure hcaught hstep rfl (fun _ _ hold _ ↦ hold) fun host' hhost' ↦ ?_
    obtain rfl : host = host' := Option.some.inj (hhost.symm.trans hhost')
    obtain ⟨record, moved, attemptPc, attemptPc', hrecord, hattempt, hmoved, hattempt', hescaped, -, -⟩ :=
      Executor.statement_of_step hstep (onTasks_of_caught hcaught)
    have hleft : 0 < attemptPc'.statementsLeft := by
      apply Executor.AttemptPc.statementsLeft_pos _ hescaped
      simpa [Process.attemptPc?, hmoved, hattempt'] using hinside
    exact hhosted.statement hclosure hstep hmoved hattempt' hhosted
      ⟨fun hnot ↦ absurd (mem_ran_of_running hhosted.books hpc) hnot, fun _ _ ↦ hleft⟩
  | returns hhost hpc hclosure hcaught hstep hreturned =>
    rename_i executor worker call task attempt nowMs outcome host system
    have hhosted := h.hosted executor host hhost
    obtain ⟨hreturn, hfits⟩ := hhosted.return hpc
    refine h.of_statement hhost hclosure hcaught hstep (by simp [Process.setHost]) ?_ fun host' hhost' ↦ ?_
    · intro other host' hhost' hother
      obtain ⟨rfl, -⟩ | ⟨-, hold⟩ := of_getElem?_setHost hhost'
      · exact absurd rfl hother
      · exact hold
    · obtain ⟨-, rfl⟩ | ⟨hne, -⟩ := of_getElem?_setHost hhost'
      · obtain ⟨record, moved, attemptPc, attemptPc', -, -, hmoved, hattempt', -, -, -⟩ :=
          Executor.statement_of_step hstep (onTasks_of_caught hcaught)
        exact hhosted.statement hclosure hstep hmoved hattempt' hreturn (hfits attemptPc')
      · exact absurd rfl hne

end TinyReactor.Worker
