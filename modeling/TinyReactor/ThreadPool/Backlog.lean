import TinyReactor.ThreadPool.Wakeup

/-!
# The backlog counter

`enqueue` adds to `leftover_` only after its task is visible in the queue, so a worker can have popped, run and
freed a task that nobody has counted yet. The subtraction that follows still finds a positive counter: the
worker could pop only with a token, a token is released only after a count, and the tasks that were pushed and
not counted are therefore outnumbered by the tasks that nobody has popped. The counter is an integer here, and
that it stays positive where it is decremented is what keeps the `size_t` from wrapping.
-/

namespace TinyReactor.ThreadPool

open Transition

/-- The worker has popped a task and has not subtracted it from `leftover_` yet. -/
def WorkerPc.holdsCounted : WorkerPc → Bool
  | .call _ | .running _ | .free _ | .uncount => true
  | _ => false

/-- The call has pushed its task and has not counted it yet. -/
def EnqueuePc.owesCount : EnqueuePc → Bool
  | .count => true
  | _ => false

/-- The destructor has popped a task and has not subtracted it yet. -/
def DestructorPc.holdsCounted : DestructorPc → Bool
  | .free _ | .uncount => true
  | _ => false

namespace Pool

/-- Popped tasks that were not subtracted yet. -/
def poppedUncounted (pool : Pool) : ℕ :=
  pool.workers.countP WorkerPc.holdsCounted + pool.destructor.holdsCounted.toNat

/-- Pushed tasks that were not added yet. -/
def pushedUncounted (pool : Pool) : ℕ := pool.calls.countP EnqueuePc.owesCount

/-- The action is a `leftover_.fetch_sub`. -/
def Subtracts (pool : Pool) : Action → Prop
  | .worker worker _ => pool.workers[worker]? = some .uncount
  | .destructor => pool.destructor = .uncount
  | _ => False

/-- The counter is the queue, with the tasks on their way out and without those on their way in. -/
def Counted (pool : Pool) : Prop :=
  pool.leftover + pool.pushedUncounted = pool.queue.length + pool.poppedUncounted

theorem counted_create (numThreads : ℕ) : (create numThreads).Counted := by
  simp [Counted, create, poppedUncounted, pushedUncounted, List.countP_replicate, WorkerPc.holdsCounted,
    DestructorPc.holdsCounted]

/-! ## One statement of each kind of thread -/

variable {sem : Semaphore} {pool next : Pool}

theorem enqueueStep_counted {call : TaskId} {accepted : Bool} {pc : EnqueuePc} (hpc : pool.calls[call]? = some pc)
    (h : pool.enqueueStep sem call accepted pc = some next) (hcounted : pool.Counted) : next.Counted := by
  have hset := countP_set_of_getElem? EnqueuePc.owesCount hpc
  have hle := toNat_le_countP EnqueuePc.owesCount hpc
  unfold Counted poppedUncounted pushedUncounted at hcounted ⊢
  cases enqueueMove_of_step h with
  | pushed =>
    simp [setCall, hset, EnqueuePc.owesCount]
    omega
  | count =>
    simp only [EnqueuePc.owesCount, Bool.toNat_true] at hle
    simp [setCall, hset, EnqueuePc.owesCount]
    omega
  | _ => simpa [setCall, hset, EnqueuePc.owesCount] using hcounted

theorem workerStep_counted {worker : ℕ} {granted : Bool} {pc : WorkerPc} (hpc : pool.workers[worker]? = some pc)
    (h : pool.workerStep worker granted pc = some next) (hcounted : pool.Counted) : next.Counted := by
  have hset := countP_set_of_getElem? WorkerPc.holdsCounted hpc
  have hle := toNat_le_countP WorkerPc.holdsCounted hpc
  unfold Counted poppedUncounted pushedUncounted at hcounted ⊢
  cases workerMove_of_step h with
  | pop task rest hqueue =>
    simp only [hqueue, List.length_cons] at hcounted
    simp [setWorker, hset, WorkerPc.holdsCounted]
    omega
  | uncount =>
    simp only [WorkerPc.holdsCounted, Bool.toNat_true] at hle
    simp [setWorker, hset, WorkerPc.holdsCounted]
    omega
  | call | returned | free =>
    simp only [WorkerPc.holdsCounted, Bool.toNat_true] at hle
    simp [setWorker, hset, WorkerPc.holdsCounted]
    omega
  | _ => simpa [setWorker, hset, WorkerPc.holdsCounted] using hcounted

theorem controlStep_counted {control : ℕ} {pc : ControlPc} (h : pool.controlStep control pc = some next)
    (hcounted : pool.Counted) : next.Counted := by
  have hleftover : next.leftover = pool.leftover := by
    rcases pc with _ | (_ | _) | _ | _ | _ | _ <;> cases h <;> rfl
  obtain ⟨hcalls, hdestructor, hqueue, -⟩ := controlStep_frame h
  unfold Counted poppedUncounted pushedUncounted at hcounted ⊢
  rw [hleftover, hcalls, hdestructor, hqueue]
  rcases controlStep_workers h with hworkers | hworkers
  · rw [hworkers]
    exact hcounted
  · simpa [hworkers, WorkerPc.holdsCounted] using hcounted

theorem destructorStep_counted (h : pool.destructorStep sem pool.destructor = some next) (hcounted : pool.Counted) :
    next.Counted := by
  unfold Counted poppedUncounted pushedUncounted at hcounted ⊢
  generalize hpc : pool.destructor = pc at h hcounted
  cases pc with
  | pop =>
    simp only [destructorStep] at h
    split at h
    · rename_i hqueue
      cases h
      exact hcounted
    · rename_i task rest hqueue
      cases h
      simp only [hqueue, List.length_cons] at hcounted
      simp only [DestructorPc.holdsCounted, Bool.toNat_true, Bool.toNat_false] at hcounted ⊢
      omega
  | uncount =>
    cases h
    simp only [DestructorPc.holdsCounted, Bool.toNat_true, Bool.toNat_false] at hcounted ⊢
    omega
  | notStarted | finished => cases h
  | setStop | release | free =>
    cases h
    exact hcounted

end Pool

/-! ## Runs -/

variable {sem : Semaphore} {pool next : Pool} {action : Action}

theorem counted_of_step (h : step sem pool action = some next) (hcounted : pool.Counted) : next.Counted := by
  obtain ⟨-, -, rfl⟩ | ⟨call, accepted, pc, -, hpc, h⟩ | ⟨worker, granted, pc, -, hpc, h⟩ | ⟨pc, -, rfl⟩ |
    ⟨control, pc, -, -, h⟩ | ⟨-, hd, -, rfl⟩ | ⟨-, h⟩ := step_cases h
  · simpa [Pool.Counted, Pool.poppedUncounted, Pool.pushedUncounted, countP_append_singleton,
      EnqueuePc.owesCount] using hcounted
  · exact Pool.enqueueStep_counted hpc h hcounted
  · exact Pool.workerStep_counted hpc h hcounted
  · exact hcounted
  · exact Pool.controlStep_counted h hcounted
  · unfold Pool.Counted Pool.poppedUncounted at hcounted
    rw [hd] at hcounted
    exact hcounted
  · exact Pool.destructorStep_counted h hcounted

/-- A call that owes its count owes its token too. -/
theorem pushedUncounted_le_tokensOwed (pool : Pool) : pool.pushedUncounted ≤ pool.tokensOwed := by
  apply List.countP_mono_left
  intro pc _ hpc
  cases pc with
  | count => rfl
  | _ => cases hpc

/-- Among the tasks nobody has popped are all that were not counted. -/
theorem pushedUncounted_le_length (hbal : pool.destructor.beforeRelease = true → pool.Balanced)
    (hidle : pool.destructor ≠ .notStarted → ∀ pc ∈ pool.calls, pc.inProgress = false) :
    pool.pushedUncounted ≤ pool.queue.length := by
  by_cases hd : pool.destructor = .notStarted
  · have hbalanced := hbal (by rw [hd]; rfl)
    have howed := pushedUncounted_le_tokensOwed pool
    unfold Pool.Balanced at hbalanced
    omega
  · -- no `enqueue` is running any more
    have hnone : pool.pushedUncounted = 0 := by
      apply List.countP_eq_zero.mpr
      intro pc hpc howes
      have hdone := hidle hd pc hpc
      cases pc with
      | count => cases hdone
      | _ => cases howes
    omega

theorem poppedUncounted_pos (h : pool.Subtracts action) : 0 < pool.poppedUncounted := by
  unfold Pool.poppedUncounted
  cases action with
  | worker worker granted =>
    have hle := toNat_le_countP WorkerPc.holdsCounted h
    simp only [WorkerPc.holdsCounted, Bool.toNat_true] at hle
    omega
  | destructor =>
    have hpc : pool.destructor = .uncount := h
    rw [hpc]
    exact Nat.succ_pos _
  | _ => cases h

/-- With a semaphore that always adds, `leftover_` is the length of the queue with the popped tasks not yet
subtracted and without the pushed tasks not yet counted, in every state of every run, the destructor included;
and every `fetch_sub` finds it positive. -/
theorem leftover_never_wraps (numThreads : ℕ) (actions : List Action) (pool : Pool)
    (hrun : run (step .uncapped) (Pool.create numThreads) actions = some pool) :
    pool.leftover = pool.queue.length + pool.poppedUncounted - pool.pushedUncounted ∧
      ∀ action, pool.Subtracts action → 0 < pool.leftover := by
  have hcounted : pool.Counted :=
    run_invariant (fun _ _ _ h hstep ↦ counted_of_step hstep h) (Pool.counted_create numThreads) hrun
  have hidle : pool.destructor ≠ .notStarted → ∀ pc ∈ pool.calls, pc.inProgress = false :=
    run_invariant (I := fun pool ↦ pool.destructor ≠ .notStarted → ∀ pc ∈ pool.calls, pc.inProgress = false)
      (fun _ _ _ h hstep ↦ idle_of_step hstep h) (fun h ↦ absurd rfl h) hrun
  have hle := pushedUncounted_le_length (balanced_of_run hrun) hidle
  unfold Pool.Counted at hcounted
  refine ⟨by omega, fun action hsubtracts ↦ ?_⟩
  have hpos := poppedUncounted_pos hsubtracts
  omega

/-- The second task is pushed; the worker takes the token of the first, runs the first task and is about to
subtract it while the second one is not counted yet. -/
def subtractsBeforeCount : List Action :=
  [.callEnqueue, .enqueue 0 true, .enqueue 0 true, .enqueue 0 true, .enqueue 0 true, .callEnqueue,
    .enqueue 1 true, .enqueue 1 true] ++ List.replicate 7 (.worker 0 true)

theorem leftover_never_wraps_two : ∃ pool,
    run (step .uncapped) (Pool.create 1) subtractsBeforeCount = some pool ∧ pool.pushedUncounted = 1 ∧
      pool.leftover = pool.queue.length + pool.poppedUncounted - pool.pushedUncounted ∧
      pool.Subtracts (.worker 0 true) ∧ 0 < pool.leftover := by
  have hrun : run (step .uncapped) (Pool.create 1) subtractsBeforeCount = some _ := rfl
  have h := leftover_never_wraps 1 subtractsBeforeCount _ hrun
  exact ⟨_, hrun, rfl, h.1, rfl, h.2 (.worker 0 true) rfl⟩

end TinyReactor.ThreadPool
