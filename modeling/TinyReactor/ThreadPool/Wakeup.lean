import TinyReactor.ThreadPool.Moves

/-!
# Wake-ups of the thread pool

Queue and semaphore move in separate steps. What stays equal is the balance between the queue on one
side and the tokens on the other: those in the semaphore, those a worker has taken and not yet
turned into a `pop`, and those an `enqueue` has pushed for and not yet released. The balance needs
of the semaphore only that each executed `release` adds, so it serves both the unbounded reading of
the semaphore and the runs that stay within the contract of `std::binary_semaphore`.
-/

namespace TinyReactor.ThreadPool

open Transition

/-- The worker has acquired a token and has not popped yet. -/
def WorkerPc.holdsToken : WorkerPc → Bool
  | .pop => true
  | _ => false

/-- The call has pushed its task and has not released its token yet. -/
def EnqueuePc.owesToken : EnqueuePc → Bool
  | .count | .release => true
  | _ => false

namespace Pool

/-- Workers between `try_acquire_for` and `queue_.pop`. -/
def tokensHeld (pool : Pool) : ℕ := pool.workers.countP WorkerPc.holdsToken

/-- Calls between `queue_.push` and `task_sem_.release`. -/
def tokensOwed (pool : Pool) : ℕ := pool.calls.countP EnqueuePc.owesToken

def Balanced (pool : Pool) : Prop :=
  pool.queue.length = pool.taskSem + pool.tokensHeld + pool.tokensOwed

theorem balanced_create (numThreads : ℕ) : (create numThreads).Balanced := by
  simp [Balanced, create, tokensHeld, tokensOwed, List.countP_replicate, WorkerPc.holdsToken]

/-! ## One statement of each kind of thread -/

variable {sem : Semaphore} {pool next : Pool}

theorem enqueueStep_balanced {call : TaskId} {accepted : Bool} {pc : EnqueuePc}
    (hpc : pool.calls[call]? = some pc)
    (hrelease : pc = .release → sem.release pool.taskSem 1 = pool.taskSem + 1)
    (h : pool.enqueueStep sem call accepted pc = some next) (hbal : pool.Balanced) : next.Balanced := by
  have hset := countP_set_of_getElem? EnqueuePc.owesToken hpc
  have hle := toNat_le_countP EnqueuePc.owesToken hpc
  unfold Balanced tokensHeld tokensOwed at hbal ⊢
  cases enqueueMove_of_step h with
  | pushed =>
    simp [setCall, hset, EnqueuePc.owesToken]
    omega
  | release =>
    simp only [EnqueuePc.owesToken, Bool.toNat_true] at hle
    simp [setCall, hset, EnqueuePc.owesToken, hrelease]
    omega
  | _ => simpa [setCall, hset, EnqueuePc.owesToken] using hbal

theorem workerStep_balanced {worker : ℕ} {granted : Bool} {pc : WorkerPc}
    (hpc : pool.workers[worker]? = some pc) (h : pool.workerStep worker granted pc = some next)
    (hbal : pool.Balanced) : next.Balanced := by
  have hset := countP_set_of_getElem? WorkerPc.holdsToken hpc
  have hle := toNat_le_countP WorkerPc.holdsToken hpc
  unfold Balanced tokensHeld tokensOwed at hbal ⊢
  cases workerMove_of_step h with
  | acquired hsem =>
    simp [setWorker, hset, WorkerPc.holdsToken]
    omega
  | popEmpty hempty =>
    -- an empty queue would leave the token of this worker without a task
    simp only [WorkerPc.holdsToken, Bool.toNat_true] at hle
    simp only [hempty, List.length_nil] at hbal
    omega
  | pop task rest hqueue =>
    simp only [WorkerPc.holdsToken, Bool.toNat_true] at hle
    simp only [hqueue, List.length_cons] at hbal
    simp [setWorker, hset, WorkerPc.holdsToken]
    omega
  | _ => simpa [setWorker, hset, WorkerPc.holdsToken] using hbal

theorem controlStep_balanced {control : ℕ} {pc : ControlPc} (h : pool.controlStep control pc = some next)
    (hbal : pool.Balanced) : next.Balanced := by
  obtain ⟨hcalls, -, hqueue, hsem, -⟩ := controlStep_frame h
  unfold Balanced tokensHeld tokensOwed at hbal ⊢
  rw [hcalls, hqueue, hsem]
  rcases controlStep_workers h with hworkers | hworkers
  · rw [hworkers]
    exact hbal
  · simpa [hworkers, WorkerPc.holdsToken] using hbal

end Pool

/-! ## Runs before the destructor drains the queue -/

/-- The destructor has not yet executed its `release`, so it has popped nothing. -/
def DestructorPc.beforeRelease : DestructorPc → Bool
  | .notStarted | .setStop | .release => true
  | _ => false

/-- The argument of the `task_sem_.release` the action executes, if it executes one. -/
def Pool.releaseArg (pool : Pool) : Action → Option ℕ
  | .enqueue call _ => if pool.calls[call]? = some .release then some 1 else none
  | .destructor => if pool.destructor = .release then some pool.workers.length else none
  | _ => none

variable {sem : Semaphore} {pool next : Pool} {action : Action}

/-- The destructor moves forward only: it never comes back to a point before its `release`. -/
theorem beforeRelease_of_step (hstep : step sem pool action = some next)
    (hnext : next.destructor.beforeRelease = true) : pool.destructor.beforeRelease = true := by
  obtain ⟨-, hd, rfl⟩ | ⟨call, accepted, pc, -, -, h⟩ | ⟨worker, granted, pc, -, -, h⟩ | ⟨pc, -, rfl⟩ |
    ⟨control, pc, -, -, h⟩ | ⟨-, hd, -, rfl⟩ | ⟨-, h⟩ := step_cases hstep
  · exact hnext
  · rwa [(enqueueStep_frame h).2.1] at hnext
  · rwa [(workerStep_frame h).2.1] at hnext
  · exact hnext
  · rwa [(controlStep_frame h).2.1] at hnext
  · rw [hd]
    rfl
  · cases hd : pool.destructor <;> simp only [hd, Pool.destructorStep] at h <;>
      (try split at h) <;> cases h <;> simp_all [DestructorPc.beforeRelease]

/-- As long as the destructor drains nothing, every step whose `release` adds keeps the balance. -/
theorem balanced_of_step (h : step sem pool action = some next)
    (hnext : next.destructor.beforeRelease = true)
    (hrelease : ∀ n, pool.releaseArg action = some n → sem.release pool.taskSem n = pool.taskSem + n)
    (hbal : pool.Balanced) : next.Balanced := by
  obtain ⟨-, -, rfl⟩ | ⟨call, accepted, pc, rfl, hpc, h⟩ | ⟨worker, granted, pc, -, hpc, h⟩ | ⟨pc, -, rfl⟩ |
    ⟨control, pc, -, -, h⟩ | ⟨-, -, -, rfl⟩ | ⟨-, h⟩ := step_cases h
  · simpa [Pool.Balanced, Pool.tokensOwed, Pool.tokensHeld, countP_append_singleton,
      EnqueuePc.owesToken] using hbal
  · refine Pool.enqueueStep_balanced hpc (fun hpc' ↦ ?_) h hbal
    apply hrelease
    simp [Pool.releaseArg, hpc, hpc']
  · exact Pool.workerStep_balanced hpc h hbal
  · exact hbal
  · exact Pool.controlStep_balanced h hbal
  · exact hbal
  · cases hd : pool.destructor <;> simp only [hd, Pool.destructorStep] at h <;>
      (try split at h) <;> cases h <;>
      first | exact hbal | simp [DestructorPc.beforeRelease] at hnext

/-- With a semaphore that always adds, the balance holds until the destructor drains the queue. -/
theorem balanced_of_run {numThreads : ℕ} {actions : List Action}
    (hrun : run (step .uncapped) (Pool.create numThreads) actions = some pool)
    (hd : pool.destructor.beforeRelease = true) : pool.Balanced := by
  have hstep (state : Pool) (action : Action) (next : Pool)
      (hstate : state.destructor.beforeRelease = true → state.Balanced)
      (h : step .uncapped state action = some next) :
      next.destructor.beforeRelease = true → next.Balanced := fun hnext ↦
    balanced_of_step h hnext (fun _ _ ↦ rfl) (hstate (beforeRelease_of_step h hnext))
  exact run_invariant (I := fun state ↦ state.destructor.beforeRelease = true → state.Balanced)
    hstep (fun _ ↦ Pool.balanced_create numThreads) hrun hd

/-- Queue and tokens balance in every state before the destructor, and a worker that has taken a
token finds a task. -/
theorem queue_length_eq_tokens {numThreads : ℕ} {actions : List Action}
    (hrun : run (step .uncapped) (Pool.create numThreads) actions = some pool)
    (hd : pool.destructor = .notStarted) :
    pool.queue.length = pool.taskSem + pool.tokensHeld + pool.tokensOwed ∧
      ∀ worker : ℕ, pool.workers[worker]? = some .pop → pool.queue ≠ [] := by
  have hbal : pool.Balanced := balanced_of_run hrun (by rw [hd]; rfl)
  refine ⟨hbal, fun worker hworker hempty ↦ ?_⟩
  have hheld : 1 ≤ pool.tokensHeld := toNat_le_countP WorkerPc.holdsToken hworker
  unfold Pool.Balanced at hbal
  rw [hempty, List.length_nil] at hbal
  omega

/-- Two workers, one task, its token taken and not yet turned into a `pop`. -/
def tokenTakenTrace : List Action :=
  [.callEnqueue, .enqueue 0 true, .enqueue 0 true, .enqueue 0 true, .enqueue 0 true,
    .worker 1 true, .worker 1 true, .worker 1 true]

theorem queue_length_eq_tokens_one_task :
    ∃ pool, run (step .uncapped) (Pool.create 2) tokenTakenTrace = some pool ∧
      pool.workers[1]? = some .pop ∧ pool.queue.length = 1 ∧
      pool.queue.length = pool.taskSem + pool.tokensHeld + pool.tokensOwed ∧ pool.queue ≠ [] := by
  have hrun : run (step .uncapped) (Pool.create 2) tokenTakenTrace = some _ := rfl
  have h := queue_length_eq_tokens hrun rfl
  exact ⟨_, hrun, rfl, rfl, h.1, h.2 1 rfl⟩

/-! ## The contract of the binary semaphore -/

/-- The precondition of `std::binary_semaphore::release` at every call the action makes. -/
def WithinContract (pool : Pool) (action : Action) : Prop :=
  ∀ n, pool.releaseArg action = some n → pool.taskSem + n ≤ 1

/-- Every queued task is spoken for when `enqueue` releases: a worker has taken its token, or its
own `enqueue` has yet to release it. The destructor releases nothing, or one token under the same
condition. -/
def ReleasesWhenSpokenFor (pool : Pool) (action : Action) : Prop :=
  ∀ n, pool.releaseArg action = some n →
    n = 0 ∨ n = 1 ∧ pool.queue.length = pool.tokensHeld + pool.tokensOwed

/-- What holds as long as every `release` so far was within the contract. -/
structure Contained (pool : Pool) : Prop where
  balanced : pool.destructor.beforeRelease = true → pool.Balanced ∧ pool.taskSem ≤ 1
  idle : pool.destructor ≠ .notStarted → ∀ pc ∈ pool.calls, pc.inProgress = false

theorem releaseArg_beforeRelease (hidle : pool.destructor ≠ .notStarted → ∀ pc ∈ pool.calls, pc.inProgress = false)
    {n : ℕ} (h : pool.releaseArg action = some n) : pool.destructor.beforeRelease = true := by
  cases action with
  | enqueue call accepted =>
    simp only [Pool.releaseArg, Option.ite_none_right_eq_some] at h
    by_cases hd : pool.destructor = .notStarted
    · rw [hd]
      rfl
    · -- a call at its `release` is in progress, which the started destructor excludes
      have := hidle hd _ (List.mem_of_getElem? h.1)
      cases this
  | destructor =>
    simp only [Pool.releaseArg, Option.ite_none_right_eq_some] at h
    rw [h.1]
    rfl
  | _ => cases h

theorem Contained.withinContract_iff (hpool : Contained pool) :
    WithinContract pool action ↔ ReleasesWhenSpokenFor pool action := by
  refine forall_congr' fun n ↦ forall_congr' fun harg ↦ ?_
  obtain ⟨hbal, hsem⟩ := hpool.balanced (releaseArg_beforeRelease hpool.idle harg)
  unfold Pool.Balanced at hbal
  omega

/-- The count grows only in a `release`. -/
theorem taskSem_of_step (hstep : step sem pool action = some next) :
    next.taskSem ≤ pool.taskSem ∨
      ∃ n, pool.releaseArg action = some n ∧ next.taskSem = sem.release pool.taskSem n := by
  obtain ⟨-, -, rfl⟩ | ⟨call, accepted, pc, rfl, hpc, h⟩ | ⟨worker, granted, pc, -, -, h⟩ | ⟨pc, -, rfl⟩ |
    ⟨control, pc, -, -, h⟩ | ⟨-, -, -, rfl⟩ | ⟨rfl, h⟩ := step_cases hstep
  · exact .inl (Nat.le_refl _)
  · cases enqueueMove_of_step h with
    | release => exact .inr ⟨1, by simp [Pool.releaseArg, hpc], rfl⟩
    | _ => exact .inl (Nat.le_refl _)
  · exact .inl (workerStep_frame h).2.2.2.2
  · exact .inl (Nat.le_refl _)
  · exact .inl (Nat.le_of_eq (controlStep_frame h).2.2.2.1)
  · exact .inl (Nat.le_refl _)
  · generalize hd : pool.destructor = pc at h
    cases pc with
    | release =>
      cases h
      exact .inr ⟨_, by simp [Pool.releaseArg, hd], rfl⟩
    | _ =>
      left
      simp only [Pool.destructorStep] at h
      (try split at h) <;> cases h <;> exact Nat.le_refl _

/-- No `enqueue` is running once the destructor has started. -/
theorem idle_of_step (hstep : step sem pool action = some next)
    (hidle : pool.destructor ≠ .notStarted → ∀ pc ∈ pool.calls, pc.inProgress = false) :
    next.destructor ≠ .notStarted → ∀ pc ∈ next.calls, pc.inProgress = false := by
  obtain ⟨-, hd, rfl⟩ | ⟨call, accepted, pc, -, hpc, h⟩ | ⟨worker, granted, pc, -, -, h⟩ | ⟨pc, -, rfl⟩ |
    ⟨control, pc, -, -, h⟩ | ⟨-, -, hcalls, rfl⟩ | ⟨-, h⟩ := step_cases hstep
  · exact fun hne ↦ absurd hd hne
  · intro hne
    rw [(enqueueStep_frame h).2.1] at hne
    have hdone := hidle hne pc (List.mem_of_getElem? hpc)
    cases pc with
    | returned => cases h
    | threw => cases h
    | _ => cases hdone
  · rwa [(workerStep_frame h).1, (workerStep_frame h).2.1]
  · exact hidle
  · rwa [(controlStep_frame h).1, (controlStep_frame h).2.1]
  · exact fun _ ↦ hcalls
  · intro _
    rw [(destructorStep_frame h).1]
    exact hidle (destructorStep_frame h).2.2.2.2.1

theorem contained_create (numThreads : ℕ) : Contained (Pool.create numThreads) where
  balanced _ := ⟨Pool.balanced_create numThreads, Nat.zero_le 1⟩
  idle h := absurd rfl h

theorem Contained.step (hpool : Contained pool) (hin : WithinContract pool action)
    (h : step sem pool action = some next) : Contained next where
  balanced hnext := by
    obtain ⟨hbal, hsem⟩ := hpool.balanced (beforeRelease_of_step h hnext)
    refine ⟨balanced_of_step h hnext (fun n harg ↦ sem.release_spec _ _ (hin n harg)) hbal, ?_⟩
    obtain hle | ⟨n, harg, heq⟩ := taskSem_of_step h
    · exact Nat.le_trans hle hsem
    · rw [heq, sem.release_spec _ _ (hin n harg)]
      exact hin n harg
  idle := idle_of_step h hpool.idle

/-- Two conditions that agree in every state a run can reach under the first are met by the same runs. -/
theorem meets_iff_of_contained (hpool : Contained pool) (actions : List Action) :
    Meets (step sem) WithinContract pool actions ↔ Meets (step sem) ReleasesWhenSpokenFor pool actions := by
  induction actions generalizing pool with
  | nil => exact Iff.rfl
  | cons action rest ih =>
    constructor
    · rintro ⟨hin, hrest⟩
      exact ⟨hpool.withinContract_iff.mp hin, fun next h ↦ (ih (hpool.step hin h)).mp (hrest next h)⟩
    · rintro ⟨hspoken, hrest⟩
      have hin := hpool.withinContract_iff.mpr hspoken
      exact ⟨hin, fun next h ↦ (ih (hpool.step hin h)).mpr (hrest next h)⟩

/-- A run uses the semaphore within its contract exactly when every release finds each queued task
spoken for, whatever the semaphore does beyond its contract. -/
theorem release_within_contract_iff (sem : Semaphore) (numThreads : ℕ) (actions : List Action) :
    Meets (step sem) WithinContract (Pool.create numThreads) actions ↔
      Meets (step sem) ReleasesWhenSpokenFor (Pool.create numThreads) actions :=
  meets_iff_of_contained (contained_create numThreads) actions

/-- Two calls of `enqueue` that complete before any worker wakes up: the second `release` finds the
count at its maximum. -/
theorem release_beyond_contract :
    ∃ pool, run (step .uncapped) (Pool.create 1)
        [.callEnqueue, .enqueue 0 true, .enqueue 0 true, .enqueue 0 true, .enqueue 0 true,
          .callEnqueue, .enqueue 1 true, .enqueue 1 true, .enqueue 1 true] = some pool ∧
      (step .uncapped pool (.enqueue 1 true)).isSome ∧ pool.releaseArg (.enqueue 1 true) = some 1 ∧
      ¬ WithinContract pool (.enqueue 1 true) := by
  refine ⟨_, rfl, rfl, rfl, fun h ↦ ?_⟩
  exact absurd (h 1 rfl) (by decide)

end TinyReactor.ThreadPool
