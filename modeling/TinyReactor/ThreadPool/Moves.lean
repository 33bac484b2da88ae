import TinyReactor.ThreadPool.Model

/-!
# Inversion of the pool's steps

Which thread a step moves, what a statement of `enqueue` and of `worker` can do, and what the statements of
each kind of thread leave alone.
-/

namespace TinyReactor.ThreadPool

/-- Inversion: which thread an enabled action moves, and from which program point. -/
theorem step_cases {sem : Semaphore} {pool next : Pool} {action : Action}
    (h : step sem pool action = some next) :
    (action = .callEnqueue ∧ pool.destructor = .notStarted ∧
      next = { pool with calls := pool.calls ++ [.entry] }) ∨
    (∃ call accepted pc, action = .enqueue call accepted ∧ pool.calls[call]? = some pc ∧
      pool.enqueueStep sem call accepted pc = some next) ∨
    (∃ worker granted pc, action = .worker worker granted ∧ pool.workers[worker]? = some pc ∧
      pool.workerStep worker granted pc = some next) ∨
    (∃ pc, action = .callControl pc ∧ next = { pool with controls := pool.controls ++ [pc] }) ∨
    (∃ control pc, action = .control control ∧ pool.controls[control]? = some pc ∧
      pool.controlStep control pc = some next) ∨
    (action = .callDestructor ∧ pool.destructor = .notStarted ∧
      (∀ pc ∈ pool.calls, pc.inProgress = false) ∧ next = { pool with destructor := .setStop }) ∨
    (action = .destructor ∧ pool.destructorStep sem pool.destructor = some next) := by
  cases action with
  | callEnqueue =>
    simp only [step, Option.ite_none_right_eq_some, Option.some.injEq] at h
    exact .inl ⟨rfl, h.1, h.2.symm⟩
  | enqueue call accepted =>
    obtain ⟨pc, hpc, hstep⟩ := Option.bind_eq_some_iff.mp h
    exact .inr (.inl ⟨call, accepted, pc, rfl, hpc, hstep⟩)
  | worker worker granted =>
    obtain ⟨pc, hpc, hstep⟩ := Option.bind_eq_some_iff.mp h
    exact .inr (.inr (.inl ⟨worker, granted, pc, rfl, hpc, hstep⟩))
  | callControl pc =>
    simp only [step, Option.ite_none_left_eq_some, Option.some.injEq] at h
    exact .inr (.inr (.inr (.inl ⟨pc, rfl, h.2.symm⟩)))
  | control control =>
    obtain ⟨pc, hpc, hstep⟩ := Option.bind_eq_some_iff.mp h
    exact .inr (.inr (.inr (.inr (.inl ⟨control, pc, rfl, hpc, hstep⟩))))
  | callDestructor =>
    simp only [step, Option.ite_none_right_eq_some, Option.some.injEq] at h
    exact .inr (.inr (.inr (.inr (.inr (.inl ⟨rfl, h.1.1, h.1.2, h.2.symm⟩)))))
  | destructor => exact .inr (.inr (.inr (.inr (.inr (.inr ⟨rfl, h⟩)))))

/-! ## What a statement can do -/

section

variable (sem : Semaphore) (call : TaskId) (pool : Pool)

/-- The outcomes of a statement of `enqueue`. -/
inductive Pool.EnqueueMove : EnqueuePc → Pool → Prop
  | refused (hstop : pool.stop = true) : EnqueueMove .entry
      ({ pool with freed := pool.freed ++ [call] }.setCall call .threw)
  | admitted (hstop : pool.stop = false) : EnqueueMove .entry (pool.setCall call .push)
  | pushed : EnqueueMove .push
      ({ pool with queue := pool.queue ++ [call], pushed := pool.pushed ++ [call] }.setCall call .count)
  | full : EnqueueMove .push (pool.setCall call .recheck)
  | givenUp (hstop : pool.stop = true) : EnqueueMove .recheck
      ({ pool with freed := pool.freed ++ [call] }.setCall call .threw)
  | retry (hstop : pool.stop = false) : EnqueueMove .recheck (pool.setCall call .push)
  | count : EnqueueMove .count ({ pool with leftover := pool.leftover + 1 }.setCall call .release)
  | release : EnqueueMove .release ({ pool with taskSem := sem.release pool.taskSem 1 }.setCall call .returned)

end

theorem enqueueMove_of_step {sem : Semaphore} {pool next : Pool} {call : TaskId} {accepted : Bool} {pc : EnqueuePc}
    (h : pool.enqueueStep sem call accepted pc = some next) : pool.EnqueueMove sem call pc next := by
  cases pc with
  | entry =>
    simp only [Pool.enqueueStep] at h
    cases hstop : pool.stop with
    | false =>
      rw [hstop] at h
      cases h
      exact .admitted hstop
    | true =>
      rw [hstop] at h
      cases h
      exact .refused hstop
  | push =>
    cases accepted with
    | false =>
      cases h
      exact .full
    | true =>
      cases h
      exact .pushed
  | recheck =>
    simp only [Pool.enqueueStep] at h
    cases hstop : pool.stop with
    | false =>
      rw [hstop] at h
      cases h
      exact .retry hstop
    | true =>
      rw [hstop] at h
      cases h
      exact .givenUp hstop
  | count =>
    cases h
    exact .count
  | release =>
    cases h
    exact .release
  | returned | threw => cases h

section

variable (worker : ℕ) (pool : Pool)

/-- The outcomes of a statement of `worker`. The compare-exchange succeeds, or the count has changed. -/
inductive Pool.WorkerMove : WorkerPc → Pool → Prop
  | start : WorkerMove .start ({ pool with activeThreads := pool.activeThreads + 1 }.setWorker worker .loop)
  | stopped (hstop : pool.stop = true) : WorkerMove .loop (pool.setWorker worker .leave)
  | wait (hstop : pool.stop = false) : WorkerMove .loop (pool.setWorker worker .acquire)
  | acquired (hsem : pool.taskSem ≠ 0) : WorkerMove .acquire
      ({ pool with taskSem := pool.taskSem - 1 }.setWorker worker .pop)
  | timedOut : WorkerMove .acquire (pool.setWorker worker .loadActive)
  | popEmpty (hqueue : pool.queue = []) : WorkerMove .pop (pool.setWorker worker .loadActive)
  | pop (task : TaskId) (rest : List TaskId) (hqueue : pool.queue = task :: rest) : WorkerMove .pop
      ({ pool with queue := rest, popped := pool.popped ++ [task] }.setWorker worker (.call task))
  | call (task : TaskId) : WorkerMove (.call task)
      ({ pool with ran := pool.ran ++ [task] }.setWorker worker (.running task))
  | returned (task : TaskId) : WorkerMove (.running task) (pool.setWorker worker (.free task))
  | free (task : TaskId) : WorkerMove (.free task)
      ({ pool with freed := pool.freed ++ [task] }.setWorker worker .uncount)
  | uncount : WorkerMove .uncount ({ pool with leftover := pool.leftover - 1 }.setWorker worker .loadActive)
  | loadActive : WorkerMove .loadActive (pool.setWorker worker (.compareTarget pool.activeThreads))
  | surplus {active : ℤ} (hactive : active > pool.targetThreadCount) :
      WorkerMove (.compareTarget active) (pool.setWorker worker .reload)
  | needed {active : ℤ} (hactive : active ≤ pool.targetThreadCount) :
      WorkerMove (.compareTarget active) (pool.setWorker worker .loop)
  | reload : WorkerMove .reload (pool.setWorker worker (.retest pool.activeThreads))
  | stillSurplus {old : ℤ} (hold : old > pool.targetThreadCount) :
      WorkerMove (.retest old) (pool.setWorker worker (.exchange old))
  | neededAgain {old : ℤ} (hold : old ≤ pool.targetThreadCount) :
      WorkerMove (.retest old) (pool.setWorker worker .pause)
  | exchanged : WorkerMove (.exchange pool.activeThreads)
      ({ pool with activeThreads := pool.activeThreads - 1 }.setWorker worker .exited)
  | changed {old : ℤ} (hold : pool.activeThreads ≠ old) :
      WorkerMove (.exchange old) (pool.setWorker worker .pause)
  | pause : WorkerMove .pause (pool.setWorker worker .loop)
  | leave : WorkerMove .leave ({ pool with activeThreads := pool.activeThreads - 1 }.setWorker worker .exited)

end

theorem workerMove_of_step {pool next : Pool} {worker : ℕ} {granted : Bool} {pc : WorkerPc}
    (h : pool.workerStep worker granted pc = some next) : pool.WorkerMove worker pc next := by
  cases pc with
  | loop =>
    cases h
    cases hstop : pool.stop with
    | false => exact .wait hstop
    | true => exact .stopped hstop
  | acquire =>
    simp only [Pool.workerStep] at h
    split at h
    · split at h
      · cases h
      · rename_i hsem
        cases h
        exact .acquired hsem
    · cases h
      exact .timedOut
  | pop =>
    simp only [Pool.workerStep] at h
    split at h
    · rename_i hqueue
      cases h
      exact .popEmpty hqueue
    · rename_i task rest hqueue
      cases h
      exact .pop task rest hqueue
  | compareTarget active =>
    cases h
    split
    · rename_i hactive
      exact .surplus hactive
    · rename_i hactive
      exact .needed (Int.not_lt.mp hactive)
  | retest old =>
    cases h
    split
    · rename_i hold
      exact .stillSurplus hold
    · rename_i hold
      exact .neededAgain (Int.not_lt.mp hold)
  | exchange old =>
    simp only [Pool.workerStep] at h
    split at h
    · rename_i hold
      cases h
      subst hold
      exact .exchanged
    · rename_i hold
      cases h
      exact .changed hold
  | exited => cases h
  | _ =>
    cases h
    constructor

/-! ## What the threads leave alone -/

section Frame

variable {sem : Semaphore} {pool next : Pool}

theorem enqueueStep_frame {call : TaskId} {accepted : Bool} {pc : EnqueuePc}
    (h : pool.enqueueStep sem call accepted pc = some next) :
    next.workers = pool.workers ∧ next.destructor = pool.destructor ∧ next.popped = pool.popped ∧
      next.drained = pool.drained ∧ next.ran = pool.ran := by
  cases enqueueMove_of_step h <;> exact ⟨rfl, rfl, rfl, rfl, rfl⟩

theorem workerStep_frame {worker : ℕ} {granted : Bool} {pc : WorkerPc}
    (h : pool.workerStep worker granted pc = some next) :
    next.calls = pool.calls ∧ next.destructor = pool.destructor ∧ next.pushed = pool.pushed ∧
      next.drained = pool.drained ∧ next.taskSem ≤ pool.taskSem := by
  cases workerMove_of_step h with
  | acquired hsem => exact ⟨rfl, rfl, rfl, rfl, Nat.sub_le _ _⟩
  | _ => exact ⟨rfl, rfl, rfl, rfl, Nat.le_refl _⟩

theorem controlStep_frame {control : ℕ} {pc : ControlPc} (h : pool.controlStep control pc = some next) :
    next.calls = pool.calls ∧ next.destructor = pool.destructor ∧ next.queue = pool.queue ∧
      next.taskSem = pool.taskSem ∧ next.pushed = pool.pushed ∧ next.popped = pool.popped ∧
      next.drained = pool.drained ∧ next.ran = pool.ran ∧ next.freed = pool.freed := by
  rcases pc with _ | (_ | _) | _ | _ | _ | _ <;> cases h <;>
    exact ⟨rfl, rfl, rfl, rfl, rfl, rfl, rfl, rfl, rfl⟩

/-- A control call spawns at most one worker a step, and that worker has not begun. -/
theorem controlStep_workers {control : ℕ} {pc : ControlPc} (h : pool.controlStep control pc = some next) :
    next.workers = pool.workers ∨ next.workers = pool.workers ++ [.start] := by
  rcases pc with _ | (_ | _) | _ | _ | _ | _ <;> cases h <;> first | exact .inl rfl | exact .inr rfl

theorem destructorStep_frame {pc : DestructorPc} (h : pool.destructorStep sem pc = some next) :
    next.calls = pool.calls ∧ next.workers = pool.workers ∧ next.pushed = pool.pushed ∧
      next.ran = pool.ran ∧ pc ≠ .notStarted ∧ next.destructor ≠ .notStarted := by
  cases pc <;> simp only [Pool.destructorStep] at h <;> (try split at h) <;> cases h <;>
    simp

end Frame

end TinyReactor.ThreadPool
