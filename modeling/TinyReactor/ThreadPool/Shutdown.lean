import TinyReactor.ThreadPool.Ownership
import TinyReactor.ThreadPool.Resize

/-!
# After `stop_` is set

The flag is read at the head of the worker's loop and at two places of `enqueue`. A worker that is past the head of
its loop may still take a token and call one task; it then returns to the head and leaves. A call of `enqueue` that
has read the flag before it was set may still push; one that reads it first throws.
-/

namespace TinyReactor.ThreadPool

open Transition

/-- The worker may call a task before it reads `stop_` again. -/
def WorkerPc.mayStart : WorkerPc → Bool
  | .acquire => true
  | .pop => true
  | .call _ => true
  | _ => false

def WorkerPc.starts : WorkerPc → Bool
  | .call _ => true
  | _ => false

/-- The call has not read `stop_`, or has thrown. -/
def EnqueuePc.outside : EnqueuePc → Bool
  | .entry => true
  | .threw => true
  | _ => false

/-- The step is the one in which the worker calls a task. -/
def Pool.startsTask (worker : ℕ) (pool : Pool) : Action → Bool
  | .worker index _ => decide (index = worker) && pool.workers[worker]?.any WorkerPc.starts
  | _ => false

variable {sem : Semaphore} {pool next : Pool} {action : Action}

/-! ## Workers -/

/-- While `stop_` is set a worker that moves uses up its permission to start a task, and gets no new one. -/
theorem workerStep_mayStart {worker : ℕ} {granted : Bool} {pc : WorkerPc} (hstop : pool.stop = true)
    (hpc : pool.workers[worker]? = some pc) (h : pool.workerStep worker granted pc = some next) :
    ∃ pc', next.workers = pool.workers.set worker pc' ∧
      pc.starts.toNat + pc'.mayStart.toNat ≤ pc.mayStart.toNat := by
  cases workerMove_of_step h with
  | wait hrunning =>
    rw [hstop] at hrunning
    cases hrunning
  | pop task rest hqueue => exact ⟨_, rfl, Nat.le_refl 1⟩
  | call task => exact ⟨_, rfl, Nat.le_refl 1⟩
  | acquired hsem => exact ⟨_, rfl, Nat.le_refl 1⟩
  | _ => exact ⟨_, rfl, Nat.zero_le _⟩

theorem startsTask_add_mayStart (hstop : pool.stop = true) (h : step sem pool action = some next) (worker : ℕ) :
    (pool.startsTask worker action).toNat + entryCount WorkerPc.mayStart next.workers worker ≤
      entryCount WorkerPc.mayStart pool.workers worker := by
  obtain ⟨rfl, -, rfl⟩ | ⟨call, accepted, pc, rfl, -, h⟩ | ⟨index, granted, pc, rfl, hpc, h⟩ | ⟨pc, rfl, rfl⟩ |
    ⟨control, pc, rfl, -, h⟩ | ⟨rfl, -, -, rfl⟩ | ⟨rfl, h⟩ := step_cases h
  · exact Nat.le_of_eq (Nat.zero_add _)
  · rw [(enqueueStep_frame h).1]
    exact Nat.le_of_eq (Nat.zero_add _)
  · obtain ⟨pc', hworkers, hle⟩ := workerStep_mayStart hstop hpc h
    rw [hworkers]
    by_cases hindex : index = worker
    · subst hindex
      rw [entryCount_set_self _ hpc, entryCount_of_getElem? _ hpc]
      simpa [Pool.startsTask, hpc] using hle
    · rw [entryCount_set_of_ne _ hindex]
      simp [Pool.startsTask, hindex]
  · exact Nat.le_of_eq (Nat.zero_add _)
  · obtain hsame | hspawned := controlStep_workers h
    · rw [hsame]
      exact Nat.le_of_eq (Nat.zero_add _)
    · rw [hspawned]
      by_cases hnew : worker = pool.workers.length
      · rw [hnew, entryCount_append_self]
        exact Nat.zero_le _
      · rw [entryCount_append_of_ne _ hnew]
        exact Nat.le_of_eq (Nat.zero_add _)
  · exact Nat.le_of_eq (Nat.zero_add _)
  · rw [(destructorStep_frame h).2.1]
    exact Nat.le_of_eq (Nat.zero_add _)

theorem stop_stays (hstop : pool.stop = true) (h : step sem pool action = some next) : next.stop = true := by
  by_contra hnext
  rw [Bool.not_eq_true] at hnext
  rw [stop_of_step h hnext] at hstop
  cases hstop

/-- What a worker starts after `stop_` was set is bounded by where it stood then. -/
theorem countSteps_startsTask_le {stopped final : Pool} {later : List Action} (hstop : stopped.stop = true)
    (hrun : run (step sem) stopped later = some final) (worker : ℕ) :
    countSteps (step sem) (Pool.startsTask worker) stopped later ≤
      entryCount WorkerPc.mayStart stopped.workers worker := by
  have hok : Meets (step sem) (fun _ _ ↦ True) stopped later := Meets.of_forall_mem fun _ _ _ ↦ trivial
  have hcount := countSteps_invariant (p := Pool.startsTask worker)
    (I := fun count pool ↦ pool.stop = true ∧
      count + entryCount WorkerPc.mayStart pool.workers worker ≤ entryCount WorkerPc.mayStart stopped.workers worker)
    ?_ hok ⟨hstop, Nat.le_of_eq (Nat.zero_add _)⟩ hrun
  · omega
  · intro count pool action next hpool _ hstep
    have hle := startsTask_add_mayStart hpool.1 hstep worker
    exact ⟨stop_stays hpool.1 hstep, by omega⟩

/-! ## Calls of `enqueue` -/

/-- The call was not made, has not begun, or has thrown. -/
def Pool.Rejects (pool : Pool) (call : TaskId) : Prop :=
  pool.calls[call]? = none ∨ ∃ pc, pool.calls[call]? = some pc ∧ pc.outside = true

theorem Pool.Rejects.of_calls {call : TaskId} (h : pool.Rejects call) (hcalls : next.calls = pool.calls) :
    next.Rejects call := by
  rw [Rejects, hcalls]
  exact h

/-- While `stop_` is set no call gets past its first statement. -/
theorem enqueueStep_outside {call : TaskId} {accepted : Bool} {pc : EnqueuePc} (hstop : pool.stop = true)
    (hpc : pc.outside = true) (h : pool.enqueueStep sem call accepted pc = some next) :
    next.calls = pool.calls.set call .threw := by
  cases enqueueMove_of_step h with
  | refused => rfl
  | admitted hrunning =>
    rw [hstop] at hrunning
    cases hrunning
  | _ => cases hpc

theorem Pool.Rejects.step {call : TaskId} (hrejects : pool.Rejects call) (hstop : pool.stop = true)
    (h : step sem pool action = some next) : next.Rejects call := by
  obtain ⟨-, -, rfl⟩ | ⟨index, accepted, pc, -, hpc, h⟩ | ⟨worker, granted, pc, -, -, h⟩ | ⟨pc, -, rfl⟩ |
    ⟨control, pc, -, -, h⟩ | ⟨-, -, -, rfl⟩ | ⟨-, h⟩ := step_cases h
  · -- a call that is made now has not begun
    cases hnew : (pool.calls ++ [EnqueuePc.entry])[call]? with
    | none => exact .inl hnew
    | some pc =>
      refine .inr ⟨pc, hnew, ?_⟩
      obtain hold | ⟨-, rfl⟩ := of_getElem?_append_singleton hnew
      · obtain hnone | ⟨pc', hpc', houtside⟩ := hrejects
        · cases hnone.symm.trans hold
        · cases hpc'.symm.trans hold
          exact houtside
      · rfl
  · by_cases hindex : index = call
    · subst hindex
      obtain hnone | ⟨pc', hpc', houtside⟩ := hrejects
      · cases hnone.symm.trans hpc
      · cases hpc'.symm.trans hpc
        refine .inr ⟨.threw, ?_, rfl⟩
        rw [enqueueStep_outside hstop houtside h, List.getElem?_set_self (lt_length_of_getElem? hpc)]
    · have hcalls : next.calls[call]? = pool.calls[call]? := by
        cases enqueueMove_of_step h <;> exact List.getElem?_set_ne hindex
      rw [Rejects, hcalls]
      exact hrejects
  · exact hrejects.of_calls (workerStep_frame h).1
  · exact hrejects
  · exact hrejects.of_calls (controlStep_frame h).1
  · exact hrejects
  · exact hrejects.of_calls (destructorStep_frame h).1

theorem not_mem_pushed_of_rejects {call : TaskId} (haccounted : Accounted pool call) (h : pool.Rejects call) :
    call ∉ pool.pushed := by
  rw [← List.count_eq_zero]
  have hentered := haccounted.entered
  obtain hnone | ⟨pc, hpc, houtside⟩ := h
  · simp only [entryCount, hnone, Option.elim_none] at hentered
    omega
  · rw [entryCount_of_getElem? _ hpc, entryCount_of_getElem? _ hpc, entryCount_of_getElem? _ hpc] at hentered
    cases pc with
    | entry => exact Nat.add_left_cancel hentered
    | threw => exact Nat.add_left_cancel hentered
    | _ => cases houtside

/-- Once `stop_` is set it stays set. After that a worker calls at most one task, and none if its thread function
has not begun; a call of `enqueue` that has not begun never gets its task into the queue, and its first statement
throws. -/
theorem shutdown_stops (sem : Semaphore) (numThreads : ℕ) (before later : List Action) (stopped final : Pool)
    (hbefore : run (step sem) (Pool.create numThreads) before = some stopped) (hstop : stopped.stop = true)
    (hlater : run (step sem) stopped later = some final) :
    final.stop = true ∧
      (∀ worker, countSteps (step sem) (Pool.startsTask worker) stopped later ≤ 1) ∧
      (∀ worker, stopped.workers[worker]? = none ∨ stopped.workers[worker]? = some .start →
        countSteps (step sem) (Pool.startsTask worker) stopped later = 0) ∧
      ∀ call, stopped.calls[call]? = none ∨ stopped.calls[call]? = some .entry →
        call ∉ final.pushed ∧ call ∉ final.queue ∧
          (final.calls[call]? = none ∨ final.calls[call]? = some .threw ∨
            (final.calls[call]? = some .entry ∧ ∀ accepted, ∃ next,
              step sem final (.enqueue call accepted) = some next ∧ next.calls[call]? = some .threw)) := by
  have hfinal : final.stop = true ∧ ∀ call, stopped.Rejects call → final.Rejects call := by
    refine run_invariant
      (I := fun pool ↦ pool.stop = true ∧ ∀ call, stopped.Rejects call → pool.Rejects call) ?_ ?_ hlater
    · rintro pool action next ⟨hpool, hrejects⟩ hstep
      exact ⟨stop_stays hpool hstep, fun call hcall ↦ (hrejects call hcall).step hpool hstep⟩
    · exact ⟨hstop, fun _ hcall ↦ hcall⟩
  have hreached : run (step sem) (Pool.create numThreads) (before ++ later) = some final := by
    rw [run_append, hbefore, Option.bind_some, hlater]
  obtain ⟨haccounted, horder⟩ := books_of_run hreached
  refine ⟨hfinal.1, fun worker ↦ ?_, fun worker hworker ↦ ?_, fun call hcall ↦ ?_⟩
  · exact (countSteps_startsTask_le hstop hlater worker).trans (entryCount_le_one _)
  · have hle := countSteps_startsTask_le hstop hlater worker
    rcases hworker with hnone | hstart
    · simpa [entryCount, hnone] using hle
    · simpa [entryCount, hstart, WorkerPc.mayStart] using hle
  · have hrejects : final.Rejects call := by
      apply hfinal.2
      rcases hcall with hnone | hentry
      · exact .inl hnone
      · exact .inr ⟨.entry, hentry, rfl⟩
    have hpushed := not_mem_pushed_of_rejects (haccounted call) hrejects
    refine ⟨hpushed, fun hqueue ↦ hpushed ?_, ?_⟩
    · rw [horder]
      exact List.mem_append_right _ hqueue
    · obtain hnone | ⟨pc, hpc, houtside⟩ := hrejects
      · exact .inl hnone
      · cases pc with
        | threw => exact .inr (.inl hpc)
        | entry =>
          refine .inr (.inr ⟨hpc, fun accepted ↦ ?_⟩)
          refine ⟨{ final.setCall call .threw with freed := final.freed ++ [call] }, ?_, ?_⟩
          · simp only [step, hpc, Option.bind_some, Pool.enqueueStep, hfinal.1, if_true]
          · exact List.getElem?_set_self (lt_length_of_getElem? hpc)
        | _ => cases houtside

/-- A task is queued and the only worker is past the test of `stop_` when `shutdown` sets it. -/
def shutdownTrace : List Action :=
  [.callEnqueue, .enqueue 0 true, .enqueue 0 true, .enqueue 0 true, .enqueue 0 true, .worker 0 true, .worker 0 true,
    .callControl .setStop, .control 0]

/-- The worker calls the task; another task is handed in, and a thread is added. -/
def afterShutdown : List Action :=
  [.worker 0 true, .worker 0 true, .worker 0 true, .callEnqueue, .enqueue 1 true, .callControl (.addTarget 1),
    .control 1, .control 1, .worker 1 true, .worker 1 true]

theorem shutdown_stops_one_left :
    ∃ stopped final, run (step .uncapped) (Pool.create 1) shutdownTrace = some stopped ∧ stopped.stop = true ∧
      run (step .uncapped) stopped afterShutdown = some final ∧ final.ran = [0] ∧ 1 ∉ final.pushed ∧
      countSteps (step .uncapped) (Pool.startsTask 0) stopped afterShutdown ≤ 1 ∧
      countSteps (step .uncapped) (Pool.startsTask 1) stopped afterShutdown = 0 := by
  have hbefore : run (step .uncapped) (Pool.create 1) shutdownTrace = some _ := rfl
  obtain ⟨-, hone, hnone, hcalls⟩ :=
    shutdown_stops .uncapped 1 shutdownTrace afterShutdown _ _ hbefore rfl rfl
  exact ⟨_, _, hbefore, rfl, rfl, rfl, (hcalls 1 (.inl rfl)).1, hone 0, hnone 1 (.inl rfl)⟩

end TinyReactor.ThreadPool
