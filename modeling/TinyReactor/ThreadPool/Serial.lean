import TinyReactor.ThreadPool.Completion

/-!
# The order in which tasks start

The queue hands tasks out in the order of the pushes, but a worker that has popped a task may be overtaken
before it calls it, so a pool starts its tasks in no particular order. Each single worker does: what it starts
is a part of what was pushed, in that order, and it frees a task before it starts the next one. A pool that
never had more than one worker therefore runs its tasks strictly one after another, and leaves none out unless
the destructor took it.
-/

namespace TinyReactor.ThreadPool

open Transition

/-- The task that the worker has popped and calls next. -/
def WorkerPc.inHand : WorkerPc → Option TaskId
  | .call task => some task
  | _ => none

/-- The task that the worker has called and not freed yet. -/
def WorkerPc.underWay : WorkerPc → Option TaskId
  | .running task | .free task => some task
  | _ => none

namespace Pool

/-- What `f` reads off the program point of the worker. -/
def taskOf (pool : Pool) (f : WorkerPc → Option TaskId) (worker : ℕ) : List TaskId :=
  (pool.workers[worker]?.bind f).toList

/-- The task that the step makes the worker start. -/
def startedBy (worker : ℕ) (pool : Pool) : Action → Option TaskId
  | .worker index _ => if index = worker then pool.workers[worker]?.bind WorkerPc.inHand else none
  | _ => none

/-- `shown` are the tasks the worker has started, in order. -/
structure Works (worker : ℕ) (shown : List TaskId) (pool : Pool) : Prop where
  picked : (shown ++ pool.taskOf WorkerPc.inHand worker).Sublist pool.popped
  done : ∃ done, shown = done ++ pool.taskOf WorkerPc.underWay worker ∧ done ⊆ pool.freed

end Pool

variable {sem : Semaphore} {pool next : Pool} {action : Action} {worker : ℕ} {shown : List TaskId}

/-! ## Records -/

theorem destructorStep_records {pc : DestructorPc} (h : pool.destructorStep sem pc = some next) :
    pool.popped <+: next.popped ∧ pool.drained <+: next.drained ∧ pool.freed <+: next.freed ∧
      (next.drained = [] → next.popped = pool.popped) := by
  cases pc <;> simp only [Pool.destructorStep] at h <;> (try split at h) <;> cases h <;> simp

/-- The records only grow. -/
theorem records_of_step (h : step sem pool action = some next) :
    pool.popped <+: next.popped ∧ pool.drained <+: next.drained ∧ pool.freed <+: next.freed := by
  obtain ⟨-, -, rfl⟩ | ⟨call, accepted, _, -, -, h⟩ | ⟨index, granted, _, -, -, h⟩ | ⟨_, -, rfl⟩ |
    ⟨control, _, -, -, h⟩ | ⟨-, -, -, rfl⟩ | ⟨-, h⟩ := step_cases h
  · simp
  · cases enqueueMove_of_step h <;> simp [Pool.setCall]
  · cases workerMove_of_step h <;> simp [Pool.setWorker]
  · simp
  · obtain ⟨-, -, -, -, -, hpopped, hdrained, -, hfreed⟩ := controlStep_frame h
    rw [hpopped, hdrained, hfreed]
    simp
  · simp
  · obtain ⟨hpopped, hdrained, hfreed, -⟩ := destructorStep_records h
    exact ⟨hpopped, hdrained, hfreed⟩

/-! ## One worker -/

theorem taskOf_of_step {f : WorkerPc → Option TaskId} (hstart : f .start = none) (h : step sem pool action = some next)
    (hother : action.ofWorker worker = false) : next.taskOf f worker = pool.taskOf f worker := by
  unfold Pool.taskOf
  cases hpc : pool.workers[worker]? with
  | some pc => rw [worker_of_step h hother hpc]
  | none =>
    -- the worker is at most spawned by this step
    obtain ⟨-, -, rfl⟩ | ⟨call, accepted, _, -, -, h⟩ | ⟨index, granted, moving, rfl, hmoving, h⟩ | ⟨_, -, rfl⟩ |
      ⟨control, _, -, -, h⟩ | ⟨-, -, -, rfl⟩ | ⟨-, h⟩ := step_cases h
    · rw [hpc]
    · rw [(enqueueStep_frame h).1, hpc]
    · have hne : index ≠ worker := by simpa [Action.ofWorker] using hother
      obtain ⟨pc', hworkers⟩ : ∃ pc', next.workers = pool.workers.set index pc' := by
        cases workerMove_of_step h <;> exact ⟨_, rfl⟩
      rw [hworkers, List.getElem?_set_ne hne, hpc]
    · rw [hpc]
    · obtain hsame | hspawned := controlStep_workers h
      · rw [hsame, hpc]
      · have hle : pool.workers.length ≤ worker := List.getElem?_eq_none_iff.mp hpc
        rw [hspawned, List.getElem?_append_right hle]
        cases worker - pool.workers.length with
        | zero => simp [hstart]
        | succ _ => simp
    · rw [hpc]
    · rw [(destructorStep_frame h).2.1, hpc]

theorem startedBy_of_other (hother : action.ofWorker worker = false) : pool.startedBy worker action = none := by
  cases action with
  | worker index granted =>
    have hne : index ≠ worker := by simpa [Action.ofWorker] using hother
    exact if_neg hne
  | _ => rfl

theorem Pool.Works.other (h : pool.Works worker shown) (hstep : step sem pool action = some next)
    (hother : action.ofWorker worker = false) : next.Works worker shown := by
  obtain ⟨hpopped, -, hfreed⟩ := records_of_step hstep
  obtain ⟨done, hshown, hdone⟩ := h.done
  refine ⟨?_, done, ?_, fun task htask ↦ hfreed.subset (hdone htask)⟩
  · rw [taskOf_of_step rfl hstep hother]
    exact h.picked.trans hpopped.sublist
  · rw [taskOf_of_step rfl hstep hother, hshown]

theorem taskOf_eq {pc : WorkerPc} (f : WorkerPc → Option TaskId) (hpc : pool.workers[worker]? = some pc) :
    pool.taskOf f worker = (f pc).toList := by
  rw [Pool.taskOf, hpc, Option.bind_some]

/-- A worker comes to hold what it pops, runs what it holds, and frees what it has run. -/
theorem workerStep_tasks {granted : Bool} {pc : WorkerPc} (h : pool.workerStep worker granted pc = some next) :
    ∃ pc' gone, next.workers = pool.workers.set worker pc' ∧ next.popped = pool.popped ++ pc'.inHand.toList ∧
      next.ran = pool.ran ++ pc.inHand.toList ∧ next.freed = pool.freed ++ gone ∧
      pc.underWay.toList ++ pc.inHand.toList = gone ++ pc'.underWay.toList := by
  cases workerMove_of_step h with
  | free task => exact ⟨_, [task], rfl, (List.append_nil _).symm, (List.append_nil _).symm, rfl, rfl⟩
  | pop task rest hqueue => exact ⟨_, [], rfl, rfl, (List.append_nil _).symm, (List.append_nil _).symm, rfl⟩
  | call task => exact ⟨_, [], rfl, (List.append_nil _).symm, rfl, (List.append_nil _).symm, rfl⟩
  | _ => exact ⟨_, [], rfl, (List.append_nil _).symm, (List.append_nil _).symm, (List.append_nil _).symm, rfl⟩

theorem Pool.Works.own {granted : Bool} {pc : WorkerPc} (h : pool.Works worker shown)
    (hpc : pool.workers[worker]? = some pc) (hstep : pool.workerStep worker granted pc = some next) :
    next.Works worker (shown ++ pc.inHand.toList) := by
  obtain ⟨pc', gone, hworkers, hpopped, -, hfreed, hhand⟩ := workerStep_tasks hstep
  obtain ⟨hpicked, done, hshown, hdone⟩ := h
  rw [taskOf_eq _ hpc] at hpicked hshown
  have hpc' : next.workers[worker]? = some pc' := by
    rw [hworkers, List.getElem?_set_self (lt_length_of_getElem? hpc)]
  refine ⟨?_, done ++ gone, ?_, ?_⟩
  · rw [taskOf_eq _ hpc', hpopped]
    exact hpicked.append (List.Sublist.refl _)
  · rw [taskOf_eq _ hpc', hshown, List.append_assoc, hhand, ← List.append_assoc]
  · rw [hfreed]
    intro task htask
    rw [List.mem_append] at htask ⊢
    exact htask.imp_left fun h ↦ hdone h

theorem Pool.Works.step (h : pool.Works worker shown) (hstep : step sem pool action = some next) :
    next.Works worker (shown ++ (pool.startedBy worker action).toList) := by
  cases hother : action.ofWorker worker with
  | false =>
    rw [startedBy_of_other hother, Option.toList_none, List.append_nil]
    exact h.other hstep hother
  | true =>
    cases action with
    | worker index granted =>
      obtain rfl : index = worker := by simpa [Action.ofWorker] using hother
      obtain ⟨pc, hpc, hmove⟩ := Option.bind_eq_some_iff.mp hstep
      have hstarted : pool.startedBy index (.worker index granted) = pc.inHand := by
        simp only [Pool.startedBy, if_true, hpc, Option.bind_some]
      rw [hstarted]
      exact h.own hpc hmove
    | _ => cases hother

/-! ## A pool with one worker -/

/-- While there is one worker at most, what was run is what that worker has started, and it has popped
everything that the destructor has not. -/
structure Pool.Alone (shown : List TaskId) (pool : Pool) : Prop where
  ran : pool.ran = shown
  popped : pool.drained = [] → pool.popped = shown ++ pool.taskOf WorkerPc.inHand 0

theorem workers_length_of_step (h : step sem pool action = some next) : pool.workers.length ≤ next.workers.length := by
  obtain ⟨-, -, rfl⟩ | ⟨call, accepted, _, -, -, h⟩ | ⟨index, granted, _, -, -, h⟩ | ⟨_, -, rfl⟩ |
    ⟨control, _, -, -, h⟩ | ⟨-, -, -, rfl⟩ | ⟨-, h⟩ := step_cases h
  · exact Nat.le_refl _
  · rw [(enqueueStep_frame h).1]
  · obtain ⟨pc', gone, hworkers, -⟩ := workerStep_tasks h
    rw [hworkers, List.length_set]
  · exact Nat.le_refl _
  · obtain hsame | hspawned := controlStep_workers h
    · rw [hsame]
    · rw [hspawned, List.length_append]
      exact Nat.le_add_right _ _
  · exact Nat.le_refl _
  · rw [(destructorStep_frame h).2.1]

theorem Pool.Alone.other (h : pool.Alone shown) (hstep : step sem pool action = some next)
    (hworker : ∀ index granted, action ≠ .worker index granted) : next.Alone shown := by
  have hother : action.ofWorker 0 = false := by
    cases action with
    | worker index granted => exact absurd rfl (hworker index granted)
    | _ => rfl
  have hhand := taskOf_of_step (f := WorkerPc.inHand) rfl hstep hother
  suffices hsame : next.ran = pool.ran ∧ (next.drained = [] → next.popped = pool.popped ∧ pool.drained = []) by
    refine ⟨hsame.1.trans h.ran, fun hdrained ↦ ?_⟩
    obtain ⟨hpopped, hnone⟩ := hsame.2 hdrained
    rw [hpopped, hhand, h.popped hnone]
  obtain ⟨-, -, rfl⟩ | ⟨call, accepted, _, -, -, h⟩ | ⟨index, granted, _, rfl, -, -⟩ | ⟨_, -, rfl⟩ |
    ⟨control, _, -, -, h⟩ | ⟨-, -, -, rfl⟩ | ⟨-, h⟩ := step_cases hstep
  · exact ⟨rfl, fun hdrained ↦ ⟨rfl, hdrained⟩⟩
  · obtain ⟨-, -, hpopped, hdrained, hran⟩ := enqueueStep_frame h
    exact ⟨hran, fun hnone ↦ ⟨hpopped, hdrained ▸ hnone⟩⟩
  · exact absurd rfl (hworker index granted)
  · exact ⟨rfl, fun hdrained ↦ ⟨rfl, hdrained⟩⟩
  · obtain ⟨-, -, -, -, -, hpopped, hdrained, hran, -⟩ := controlStep_frame h
    exact ⟨hran, fun hnone ↦ ⟨hpopped, hdrained ▸ hnone⟩⟩
  · exact ⟨rfl, fun hdrained ↦ ⟨rfl, hdrained⟩⟩
  · obtain ⟨-, hdrained, -, hpopped⟩ := destructorStep_records h
    refine ⟨(destructorStep_frame h).2.2.2.1, fun hnone ↦ ⟨hpopped hnone, ?_⟩⟩
    rw [hnone] at hdrained
    exact List.prefix_nil.mp hdrained

theorem Pool.Alone.step (h : pool.Alone shown) (hone : pool.workers.length ≤ 1)
    (hstep : step sem pool action = some next) :
    next.Alone (shown ++ (pool.startedBy 0 action).toList) := by
  cases action with
  | worker index granted =>
    obtain ⟨pc, hpc, hmove⟩ := Option.bind_eq_some_iff.mp hstep
    have hlt := lt_length_of_getElem? hpc
    obtain rfl : index = 0 := by omega
    have hstarted : pool.startedBy 0 (.worker 0 granted) = pc.inHand := by
      simp only [Pool.startedBy, if_true, hpc, Option.bind_some]
    obtain ⟨pc', gone, hworkers, hpopped, hran, -⟩ := workerStep_tasks hmove
    have hpc' : next.workers[0]? = some pc' := by
      rw [hworkers, List.getElem?_set_self hlt]
    rw [hstarted]
    refine ⟨by rw [hran, h.ran], fun hnone ↦ ?_⟩
    rw [(workerStep_frame hmove).2.2.2.1] at hnone
    rw [hpopped, h.popped hnone, taskOf_eq _ hpc, taskOf_eq _ hpc']
  | _ =>
    simp only [Pool.startedBy, Option.toList_none, List.append_nil]
    exact h.other hstep (by simp)

/-! ## Runs -/

theorem taskOf_create {f : WorkerPc → Option TaskId} (hf : f .start = none) (numThreads worker : ℕ) :
    (Pool.create numThreads).taskOf f worker = [] := by
  cases hpc : (Pool.create numThreads).workers[worker]? with
  | none => rw [Pool.taskOf, hpc, Option.bind_none, Option.toList_none]
  | some pc => rw [taskOf_eq f hpc, (List.mem_replicate.mp (List.mem_of_getElem? hpc)).2, hf, Option.toList_none]

theorem works_of_run {numThreads : ℕ} {actions : List Action}
    (hrun : run (step sem) (Pool.create numThreads) actions = some pool) (worker : ℕ) :
    pool.Works worker (collect (step sem) (Pool.startedBy worker) (Pool.create numThreads) actions) := by
  have hok : Meets (step sem) (fun _ _ ↦ True) (Pool.create numThreads) actions :=
    Meets.of_forall_mem fun _ _ _ ↦ trivial
  have hstart : (Pool.create numThreads).Works worker [] := by
    refine ⟨?_, [], ?_, List.nil_subset _⟩
    · rw [taskOf_create rfl]
      exact List.nil_sublist _
    · rw [taskOf_create rfl]
      rfl
  exact collect_invariant (I := Pool.Works worker) (fun _ _ _ _ h _ hstep ↦ h.step hstep) hok hstart hrun

theorem alone_of_run {numThreads : ℕ} {actions : List Action}
    (hrun : run (step sem) (Pool.create numThreads) actions = some pool) (hone : pool.workers.length ≤ 1) :
    pool.Alone (collect (step sem) (Pool.startedBy 0) (Pool.create numThreads) actions) := by
  have hok : Meets (step sem) (fun _ _ ↦ True) (Pool.create numThreads) actions :=
    Meets.of_forall_mem fun _ _ _ ↦ trivial
  have hstart : (Pool.create numThreads).workers.length ≤ 1 → (Pool.create numThreads).Alone [] := by
    intro _
    refine ⟨rfl, fun _ ↦ ?_⟩
    rw [taskOf_create rfl]
    rfl
  refine collect_invariant (f := Pool.startedBy 0) (I := fun shown pool ↦ pool.workers.length ≤ 1 → pool.Alone shown)
    ?_ hok hstart hrun hone
  intro shown pool action next h _ hstep hone
  -- workers never leave the table
  have hbefore := Nat.le_trans (workers_length_of_step hstep) hone
  exact (h hbefore).step hbefore hstep

/-- Every task the worker has started, but the last one, is freed. -/
theorem Pool.Works.dropLast_subset (h : pool.Works worker shown) : shown.dropLast ⊆ pool.freed := by
  obtain ⟨done, rfl, hdone⟩ := h.done
  intro task htask
  apply hdone
  cases hway : pool.workers[worker]?.bind WorkerPc.underWay with
  | none =>
    rw [Pool.taskOf, hway, Option.toList_none, List.append_nil] at htask
    exact List.mem_of_mem_dropLast htask
  | some current =>
    rw [Pool.taskOf, hway, Option.toList_some, List.dropLast_concat] at htask
    exact htask

/-- Every worker starts tasks in the order in which they were pushed, and frees each one before it starts the
next. Unless a second worker was ever spawned, that is the order of the whole pool, and it skips only what the
destructor drained. -/
theorem tasks_start_in_order (sem : Semaphore) (numThreads : ℕ) (actions : List Action) (pool : Pool)
    (hrun : run (step sem) (Pool.create numThreads) actions = some pool) :
    (∀ worker, let started := collect (step sem) (Pool.startedBy worker) (Pool.create numThreads) actions
      started.Sublist pool.pushed ∧ started.dropLast ⊆ pool.freed) ∧
    (pool.workers.length ≤ 1 → pool.ran.Sublist pool.pushed ∧ pool.ran.dropLast ⊆ pool.freed ∧
      (pool.drained = [] → pool.ran <+: pool.pushed)) := by
  have horder : InOrder pool :=
    run_invariant (fun _ _ _ h hstep ↦ inOrder_of_step hstep h) (show InOrder (Pool.create numThreads) from rfl) hrun
  have hstarted (worker : ℕ) :
      (collect (step sem) (Pool.startedBy worker) (Pool.create numThreads) actions).Sublist pool.pushed := by
    rw [show pool.pushed = pool.popped ++ pool.queue from horder]
    exact ((List.sublist_append_left ..).trans (works_of_run hrun worker).picked).trans (List.sublist_append_left ..)
  refine ⟨fun worker ↦ ⟨hstarted worker, (works_of_run hrun worker).dropLast_subset⟩, fun hone ↦ ?_⟩
  obtain ⟨hran, hpopped⟩ := alone_of_run hrun hone
  refine ⟨hran ▸ hstarted 0, hran ▸ (works_of_run hrun 0).dropLast_subset, fun hnone ↦ ?_⟩
  rw [show pool.pushed = pool.popped ++ pool.queue from horder, hpopped hnone, hran, List.append_assoc]
  exact List.prefix_append ..

/-- Two callers push the second task before the first one; the single worker runs the second task and is about to
run the first. -/
def outOfCallOrder : List Action :=
  [.callEnqueue, .callEnqueue, .enqueue 0 true] ++ List.replicate 4 (.enqueue 1 true) ++
    List.replicate 3 (.enqueue 0 true) ++ List.replicate 12 (.worker 0 true) ++ List.replicate 2 (.worker 0 true)

theorem tasks_start_in_order_two : ∃ pool,
    run (step .uncapped) (Pool.create 1) outOfCallOrder = some pool ∧ pool.workers.length ≤ 1 ∧
      pool.ran = [1, 0] ∧ pool.ran <+: pool.pushed ∧ pool.ran.dropLast ⊆ pool.freed := by
  have hrun : run (step .uncapped) (Pool.create 1) outOfCallOrder = some _ := rfl
  have h := (tasks_start_in_order .uncapped 1 outOfCallOrder _ hrun).2 (by decide)
  exact ⟨_, hrun, by decide, rfl, h.2.2 rfl, h.2.1⟩

end TinyReactor.ThreadPool
