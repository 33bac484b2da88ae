import TinyReactor.Worker.Containment

/-!
# The worker process and its parts

The executor model lets any attempt move at any time, and the pool model lets every task return at any time. In
the process both are tied: an attempt that has begun is the attempt of a closure that one worker of its executor is
calling, and that worker leaves the closure with the last statement of `run_task`. A run of the process is
nevertheless a run of the executors and a run of every pool, so that what holds of their runs holds here; and an
executor never has more attempts under way than its pool has workers.
-/

namespace TinyReactor.Executor

/-- The attempt has executed a statement of `run_task` and has not returned. -/
def AttemptPc.underWay : AttemptPc → Bool
  | .queued | .returned _ => false
  | _ => true

variable {system next : System} {action : Action} {task attempt : ℕ} {moved : TaskRun} {pc : AttemptPc}

theorem AttemptPc.not_underWay (h : pc.hasReturned = true) (hunder : pc.underWay = true) : False := by
  cases pc with
  | returned => cases hunder
  | _ => cases h

theorem TaskRun.queued_of_taskStep {record : TaskRun} {taskAction : TaskAction} (h : TaskStep record taskAction moved)
    (hnone : record.attempts[attempt]? = none) (hpc : moved.attempts[attempt]? = some pc) : pc = .queued := by
  obtain ⟨executor, before, after, hact⟩ := h
  cases taskMove_of_step hact with
  | attempt index nowMs outcome moving hmoving hmove =>
    obtain ⟨-, pc', hattempts, -⟩ := attemptStep_hand hmove
    have hlt := Transition.lt_length_of_getElem? hpc
    rw [hattempts, List.length_set] at hlt
    exact absurd hlt (Nat.not_lt.mpr (List.getElem?_eq_none_iff.mp hnone))
  | timer index nowMs entry _ htimer =>
    obtain ⟨hattempts, -⟩ := timerStep_hand htimer
    rw [hattempts, hnone] at hpc
    cases hpc
  | retry index entry _ hmove =>
    obtain ⟨-, status', -, ⟨-, hattempts⟩ | ⟨-, hattempts⟩⟩ := retryStep_hand hmove
    · rw [hattempts, hnone] at hpc
      cases hpc
    · rw [hattempts, List.getElem?_append_right (List.getElem?_eq_none_iff.mp hnone)] at hpc
      exact List.mem_singleton.mp (List.mem_of_getElem? hpc)

/-- An attempt that was not there before is queued. -/
theorem queued_of_step (h : step system action = some next) (hmoved : next.runs[task]? = some moved)
    (hpc : moved.attempts[attempt]? = some pc)
    (hnone : ∀ record, system.runs[task]? = some record → record.attempts[attempt]? = none) : pc = .queued := by
  cases hrecord : system.runs[task]? with
  | none =>
    obtain ⟨executor, request, rfl⟩ := step_new h hrecord hmoved
    exact List.mem_singleton.mp (List.mem_of_getElem? hpc)
  | some record =>
    obtain hsame | ⟨taskAction, moved', rfl, htask, hmoved'⟩ := step_task h hrecord
    · cases hmoved.symm.trans hsame
      cases (hnone moved hrecord).symm.trans hpc
    · cases hmoved.symm.trans hmoved'
      exact TaskRun.queued_of_taskStep htask (hnone record hrecord) hpc

end TinyReactor.Executor

namespace TinyReactor.Worker

open Transition Wire ThreadPool

variable {sem : Semaphore} {process next : Process} {executor worker call task attempt : ℕ}
  {mover : Option (ℕ × ℕ)} {pc : Executor.AttemptPc}

/-- A worker of the executor is calling the closure of the attempt. -/
def Process.Executes (process : Process) (executor worker task attempt : ℕ) : Prop :=
  ∃ call, process.workerPc? executor worker = some (.running call) ∧
    process.closure? executor call = some (task, attempt)

theorem Process.Executes.of_host {host : Host} (hhost : process.hosts[executor]? = some host)
    (hworker : host.pool.workers[worker]? = some (.running call))
    (hclosure : host.closures[call]? = some (task, attempt)) : process.Executes executor worker task attempt := by
  refine ⟨call, ?_, ?_⟩
  · rw [Process.workerPc?, hhost, Option.bind_some, hworker]
  · rw [Process.closure?, hhost, Option.bind_some, hclosure]

/-- Every attempt that is under way has a worker. -/
def Manned (process : Process) : Prop :=
  ∀ task attempt pc, process.attemptPc? task attempt = some pc → pc.underWay = true →
    ∃ executor worker, process.Executes executor worker task attempt

/-! ## One step -/

/-- Where an attempt comes from: it is new, it has not moved, or it has executed a statement. -/
theorem attemptPc?_before {act : Executor.Action} {system : Executor.System}
    (hstep : Executor.step process.system act = some system)
    (hpc : Process.attemptPc? { process with system } task attempt = some pc) :
    pc = .queued ∨ process.attemptPc? task attempt = some pc ∨
      ∃ nowMs outcome, act = .act task (.attempt attempt nowMs outcome) := by
  obtain ⟨moved, hmoved, hattempt⟩ := Option.bind_eq_some_iff.mp hpc
  cases hold : process.attemptPc? task attempt with
  | none =>
    refine .inl (Executor.queued_of_step hstep hmoved hattempt fun record hrecord ↦ ?_)
    simpa [Process.attemptPc?, hrecord] using hold
  | some old =>
    obtain ⟨record, hrecord, hbefore⟩ := Option.bind_eq_some_iff.mp hold
    obtain ⟨moved', hmoved', -, hstays | hown⟩ := Executor.attempt_of_step hstep hrecord hbefore
    · cases hmoved.symm.trans hmoved'
      cases hattempt.symm.trans hstays
      exact .inr (.inl rfl)
    · exact .inr (.inr hown)

/-- A worker that goes on executing an attempt, or that another thread's step leaves where it is. -/
theorem Process.Executes.of_moves (h : process.Executes executor worker task attempt) (hbound : Bound process)
    (hmoves : Moves sem process mover next) (hother : mover ≠ some (executor, worker)) :
    next.Executes executor worker task attempt := by
  obtain ⟨call, hrunning, hclosure⟩ := h
  exact ⟨call, workerPc?_of_moves hbound hmoves hother hrunning, closure?_of_moves hmoves hclosure⟩

theorem manned_of_moves (h : Manned process) (hbound : Bound process) (hmoves : Moves sem process mover next) :
    Manned next := by
  intro task attempt pc hpc hunder
  -- the attempt was under way before, and its worker is still there
  have hkept (hold : process.attemptPc? task attempt = some pc)
      (hstays : ∀ executor worker, mover = some (executor, worker) → process.Executes executor worker task attempt →
        next.Executes executor worker task attempt) :
      ∃ executor worker, next.Executes executor worker task attempt := by
    obtain ⟨executor, worker, hexecutes⟩ := h task attempt pc hold hunder
    by_cases hmover : mover = some (executor, worker)
    · exact ⟨executor, worker, hstays executor worker hmover hexecutes⟩
    · exact ⟨executor, worker, hexecutes.of_moves hbound hmoves hmover⟩
  have hnew {act : Executor.Action} {system : Executor.System}
      (hstep : Executor.step process.system act = some system) (hsystem : next.system = system)
      (hact : ∀ task attempt nowMs outcome, act ≠ .act task (.attempt attempt nowMs outcome)) (hmover : mover = none) :
      ∃ executor worker, next.Executes executor worker task attempt := by
    have hpc' : Process.attemptPc? { process with system } task attempt = some pc := by
      rw [← hsystem]
      exact hpc
    obtain rfl | hold | ⟨nowMs, outcome, hown⟩ := attemptPc?_before hstep hpc'
    · cases hunder
    · exact hkept hold fun executor worker hsome ↦ by cases hmover.symm.trans hsome
    · exact absurd hown (hact task attempt nowMs outcome)
  cases hmoves with
  | constructs hstep => exact hnew hstep rfl (by simp) rfl
  | steps hstep hact => exact hnew hstep rfl hact rfl
  | posts hstep hact _ _ _ _ _ _ => exact hnew hstep rfl hact rfl
  | enqueues hhost hpool => exact hkept hpc fun _ _ hsome ↦ by cases hsome
  | works hhost hworker hoff hpool =>
    refine hkept hpc ?_
    rintro executor worker ⟨⟩ ⟨call, hrunning, -⟩
    simp only [Process.workerPc?, hhost, Option.bind_some] at hrunning
    exact absurd (Option.some.inj (hworker.symm.trans hrunning)) (hoff call)
  | runs hhost hworker hclosure hcaught hstep hinside =>
    obtain rfl | hold | ⟨nowMs, outcome, hown⟩ := attemptPc?_before hstep hpc
    · cases hunder
    · exact hkept hold fun _ _ _ hexecutes ↦ hexecutes
    · cases hown
      exact ⟨_, _, Process.Executes.of_host hhost hworker hclosure⟩
  | returns hhost hworker hclosure hcaught hstep hreturned =>
    -- the attempt that returns is not under way any more
    rename_i system
    have hover (hsame : (Process.attemptPc? { process with system } task attempt).any
        Executor.AttemptPc.hasReturned = true) : False := by
      rw [show Process.attemptPc? { process with system } task attempt = some pc from hpc] at hsame
      exact Executor.AttemptPc.not_underWay hsame hunder
    obtain rfl | hold | ⟨nowMs, outcome, hown⟩ := attemptPc?_before hstep hpc
    · cases hunder
    · refine hkept hold ?_
      rintro executor worker ⟨⟩ ⟨call, hrunning, hplace⟩
      simp only [Process.workerPc?, hhost, Option.bind_some] at hrunning
      cases Option.some.inj (hworker.symm.trans hrunning)
      simp only [Process.closure?, hhost, Option.bind_some] at hplace
      cases Option.some.inj (hclosure.symm.trans hplace)
      exact (hover hreturned).elim
    · cases hown
      exact (hover hreturned).elim

/-- The executors and every pool are where runs of their own models have taken them, and a pool has as many workers
as its executor asked for. -/
structure Conforms (sem : Semaphore) (process : Process) : Prop where
  system : ∃ trace, run Executor.step {} trace = some process.system
  pools : ∀ (executor : ℕ) host, process.hosts[executor]? = some host →
    ∃ trace, run (ThreadPool.step sem) (Pool.create host.pool.workers.length) trace = some host.pool

theorem conforms_create : Conforms sem {} where
  system := ⟨[], rfl⟩
  pools _ _ h := by simp at h

theorem Conforms.of_step (h : Conforms sem process) {act : Executor.Action} {system : Executor.System}
    (hstep : Executor.step process.system act = some system) : Conforms sem { process with system } where
  system := by
    obtain ⟨trace, htrace⟩ := h.system
    exact ⟨trace ++ [act], run_concat htrace hstep⟩
  pools := h.pools

/-- One pool takes a step of its own model. -/
theorem Conforms.setHost (h : Conforms sem process) {host host' : Host} (action : ThreadPool.Action)
    (hhost : process.hosts[executor]? = some host) (hpool : ThreadPool.step sem host.pool action = some host'.pool)
    (hlength : host'.pool.workers.length = host.pool.workers.length) :
    Conforms sem (process.setHost executor host') where
  system := h.system
  pools other host'' hother := by
    obtain ⟨-, rfl⟩ | ⟨-, hold⟩ := of_getElem?_setHost hother
    · obtain ⟨trace, htrace⟩ := h.pools executor host hhost
      rw [hlength]
      exact ⟨trace ++ [action], run_concat htrace hpool⟩
    · exact h.pools other host'' hold

theorem poolStep_worker (granted : Bool) {pool pool' : Pool} {pc : WorkerPc} (hpc : pool.workers[worker]? = some pc)
    (hmove : pool.workerStep worker granted pc = some pool') :
    ThreadPool.step sem pool (.worker worker granted) = some pool' := by
  rw [ThreadPool.step, hpc, Option.bind_some, hmove]

theorem conforms_of_moves (h : Conforms sem process) (hbound : Bound process)
    (hmoves : Moves sem process mover next) : Conforms sem next := by
  cases hmoves with
  | constructs hstep =>
    refine ⟨(h.of_step hstep).system, fun executor host hhost ↦ ?_⟩
    obtain hold | ⟨-, rfl⟩ := of_getElem?_append_singleton hhost
    · exact h.pools executor host hold
    · refine ⟨[], ?_⟩
      simp [Pool.create]
  | steps hstep _ => exact h.of_step hstep
  | posts hstep _ _ _ _ _ hhost hpool =>
    refine (h.of_step hstep).setHost .callEnqueue hhost hpool ?_
    simp only [ThreadPool.step, Option.ite_none_right_eq_some, Option.some.injEq] at hpool
    obtain ⟨-, rfl⟩ := hpool
    rfl
  | enqueues hhost hpool =>
    refine h.setHost _ hhost hpool ?_
    obtain ⟨_, -, hmove⟩ := Option.bind_eq_some_iff.mp hpool
    rw [(enqueueStep_frame hmove).1]
  | works hhost hworker _ hpool =>
    obtain ⟨pc', hworkers, -⟩ := (hbound.hosted _ _ hhost).staffed.stays_workerStep hworker hpool
    refine h.setHost _ hhost (poolStep_worker _ hworker hpool) ?_
    rw [hworkers, List.length_set]
  | runs _ _ _ _ hstep _ => exact h.of_step hstep
  | returns hhost hworker _ _ hstep _ =>
    exact (h.of_step hstep).setHost _ hhost (poolStep_worker false hworker rfl) List.length_set

/-! ## Workers and attempts -/

/-- The attempt is under way, on a task of the executor. -/
def Process.UnderWay (process : Process) (executor : ℕ) (place : ℕ × ℕ) : Prop :=
  ∃ record pc, process.system.runs[place.1]? = some record ∧ record.executor = executor ∧
    record.attempts[place.2]? = some pc ∧ pc.underWay = true

/-- A worker executes one attempt at a time. -/
theorem Process.Executes.attempt_unique {task' attempt' : ℕ} (h : process.Executes executor worker task attempt)
    (h' : process.Executes executor worker task' attempt') : (task, attempt) = (task', attempt') := by
  obtain ⟨call, hrunning, hclosure⟩ := h
  obtain ⟨call', hrunning', hclosure'⟩ := h'
  cases hrunning.symm.trans hrunning'
  exact Option.some.inj (hclosure.symm.trans hclosure')

/-- An attempt is executed by one worker. -/
theorem Process.Executes.worker_unique {executor' worker' : ℕ} (hbound : Bound process)
    (h : process.Executes executor worker task attempt) (h' : process.Executes executor' worker' task attempt) :
    (executor, worker) = (executor', worker') := by
  obtain ⟨call, hrunning, hclosure⟩ := h
  obtain ⟨call', hrunning', hclosure'⟩ := h'
  obtain ⟨host, hhost, hworker⟩ := Option.bind_eq_some_iff.mp hrunning
  obtain ⟨host', hhost', hworker'⟩ := Option.bind_eq_some_iff.mp hrunning'
  simp only [Process.closure?, hhost, hhost', Option.bind_some] at hclosure hclosure'
  obtain rfl := hbound.owner_unique hhost hclosure hhost' hclosure'
  obtain rfl : host = host' := Option.some.inj (hhost.symm.trans hhost')
  have hhosted := hbound.hosted executor host hhost
  obtain rfl : call = call' :=
    (List.getElem?_inj (lt_length_of_getElem? hclosure) hhosted.nodup).mp (hclosure.trans hclosure'.symm)
  rw [running_unique hhosted.books hhosted.inOrder hworker hworker']

/-- The worker of an attempt belongs to the executor that the task was handed to. -/
theorem Manned.worker_of_underWay (h : Manned process) (hbound : Bound process) {place : ℕ × ℕ}
    (hplace : process.UnderWay executor place) : ∃ worker, process.Executes executor worker place.1 place.2 := by
  obtain ⟨record, pc, hrecord, rfl, hpc, hunder⟩ := hplace
  obtain ⟨owner, worker, hexecutes⟩ := h place.1 place.2 pc (by simp [Process.attemptPc?, hrecord, hpc]) hunder
  obtain ⟨call, hrunning, hclosure⟩ := hexecutes
  obtain ⟨host, hhost, hcall⟩ := Option.bind_eq_some_iff.mp hclosure
  obtain ⟨record', -, hrecord', rfl, -⟩ := (hbound.hosted owner host hhost).attempts call place.1 place.2 hcall
  obtain rfl : record = record' := Option.some.inj (hrecord.symm.trans hrecord')
  exact ⟨worker, call, hrunning, hclosure⟩

/-- The attempts under way are no more than the workers. -/
theorem Manned.card_le (h : Manned process) (hbound : Bound process) {host : Host}
    (hhost : process.hosts[executor]? = some host) {places : Finset (ℕ × ℕ)}
    (hplaces : ∀ place ∈ places, process.UnderWay executor place) : places.card ≤ host.pool.workers.length := by
  choose! workerOf hworkerOf using fun place hplace ↦ h.worker_of_underWay hbound (hplaces place hplace)
  rw [← Finset.card_range host.pool.workers.length]
  refine Finset.card_le_card_of_injOn workerOf (fun place hplace ↦ ?_) fun first hfirst second hsecond heq ↦ ?_
  · obtain ⟨call, hrunning, -⟩ := hworkerOf place hplace
    simp only [Process.workerPc?, hhost, Option.bind_some] at hrunning
    simpa using lt_length_of_getElem? hrunning
  · have hexecutes := hworkerOf second hsecond
    rw [← heq] at hexecutes
    exact (hworkerOf first hfirst).attempt_unique hexecutes

/-! ## Runs -/

/-- As long as the process runs, its executors are in a state that the executor model reaches by itself, and every
pool is in a state that the pool model reaches from as many threads as it was made with. Every attempt under way
has one worker, and no executor has more of them than its pool has workers. -/
theorem process_refines_parts (sem : Semaphore) {actions : List Action} {final : Process}
    (hrun : run (step sem) {} actions = some final) (hrunning : final.system.terminated = false) :
    (∃ trace, run Executor.step {} trace = some final.system) ∧
      (∀ (executor : ℕ) host, final.hosts[executor]? = some host →
        (∃ trace, run (ThreadPool.step sem) (Pool.create host.pool.workers.length) trace = some host.pool) ∧
          ∀ places : Finset (ℕ × ℕ), (∀ place ∈ places, final.UnderWay executor place) →
            places.card ≤ host.pool.workers.length) ∧
      ∀ executor place, final.UnderWay executor place → ∃! worker, final.Executes executor worker place.1 place.2 := by
  obtain ⟨hbound, hmanned, hconforms⟩ : Bound final ∧ Manned final ∧ Conforms sem final := by
    refine (meets_of_running hrun hrunning).invariant (I := fun process ↦ Bound process ∧ Manned process ∧
      Conforms sem process) ?_ ⟨bound_create, ?_, conforms_create⟩ hrun
    · rintro process action next ⟨hbound, hmanned, hconforms⟩ hcaught hstep
      have hmoves := moves_of_step hstep hcaught
      exact ⟨bound_of_moves hbound hmoves, manned_of_moves hmanned hbound hmoves,
        conforms_of_moves hconforms hbound hmoves⟩
    · intro task attempt pc hpc
      simp [Process.attemptPc?] at hpc
  refine ⟨hconforms.system, fun executor host hhost ↦ ?_, fun executor place hplace ↦ ?_⟩
  · exact ⟨hconforms.pools executor host hhost, fun places hplaces ↦ hmanned.card_le hbound hhost hplaces⟩
  · obtain ⟨worker, hexecutes⟩ := hmanned.worker_of_underWay hbound hplace
    refine ⟨worker, hexecutes, fun other hother ↦ ?_⟩
    exact (Prod.mk.inj (hother.worker_unique hbound hexecutes)).2

/-- Two tasks on a pool of one thread: it is in the function of the first, and the second waits. -/
theorem process_refines_parts_two : ∃ final,
    run (step .uncapped) {} (callsDivide ++ [.executeTask 0 { funcName := "divide" }]) = some final ∧
      final.system.runs.length = 2 ∧ (∃! worker, final.Executes 0 worker 0 0) ∧
        ∀ places : Finset (ℕ × ℕ), (∀ place ∈ places, final.UnderWay 0 place) → places.card ≤ 1 := by
  have hplace : (run (step .uncapped) {} (callsDivide ++ [.executeTask 0 { funcName := "divide" }])).map
      (fun process ↦ (process.system.runs.length, process.system.runs[0]?.map Executor.TaskRun.executor,
        (process.attemptPc? 0 0).map Executor.AttemptPc.underWay, process.system.terminated,
        process.hosts[0]?.map fun host ↦ host.pool.workers.length)) =
      some (2, some 0, some true, false, some 1) := by
    decide +kernel
  obtain ⟨final, hrun, hend⟩ := Option.map_eq_some_iff.mp hplace
  simp only [Prod.mk.injEq, Option.map_eq_some_iff] at hend
  obtain ⟨hlength, ⟨record, hrecord, hexecutor⟩, ⟨pc, hpc, hunder⟩, hrunning, host, hhost, hworkers⟩ := hend
  have hplace : final.UnderWay 0 (0, 0) :=
    ⟨record, pc, hrecord, hexecutor, by simpa [Process.attemptPc?, hrecord] using hpc, hunder⟩
  obtain ⟨-, hpools, hexecutes⟩ := process_refines_parts .uncapped hrun hrunning
  refine ⟨final, hrun, hlength, hexecutes 0 (0, 0) hplace, fun places hplaces ↦ ?_⟩
  rw [← hworkers]
  exact (hpools 0 host hhost).2 places hplaces

end TinyReactor.Worker
