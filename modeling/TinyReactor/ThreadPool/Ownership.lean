import TinyReactor.ThreadPool.Moves

/-!
# Ownership of the tasks of the thread pool

The closure behind each `std::function<void()>*` passes from its `enqueue` call to the queue, from
there to a worker or to the destructor, and is freed by whoever holds it last. The invariant counts,
for one task at a time, the places it is found in; each statement of the pool moves one unit of the
count from one place to another.
-/

namespace TinyReactor.ThreadPool

open Transition

/-- The call still holds its task: it has neither pushed nor freed it. -/
def EnqueuePc.holdsTask : EnqueuePc → Bool
  | .entry | .push | .recheck => true
  | _ => false

def EnqueuePc.hasThrown : EnqueuePc → Bool
  | .threw => true
  | _ => false

/-- The worker has popped the task and not yet called it. -/
def WorkerPc.popped (task : TaskId) : WorkerPc → Bool
  | .call held => held == task
  | _ => false

/-- The worker has called the task and not yet freed it. -/
def WorkerPc.called (task : TaskId) : WorkerPc → Bool
  | .running held | .free held => held == task
  | _ => false

def DestructorPc.holds (task : TaskId) : DestructorPc → Bool
  | .free held => held == task
  | _ => false

/-- The books of one task. -/
structure Accounted (pool : Pool) (task : TaskId) : Prop where
  entered : entryCount EnqueuePc.holdsTask pool.calls task + entryCount EnqueuePc.hasThrown pool.calls task +
    pool.pushed.count task = entryCount (fun _ ↦ true) pool.calls task
  left : pool.popped.count task =
    pool.workers.countP (WorkerPc.popped task) + pool.ran.count task + pool.drained.count task
  freed : pool.freed.count task + pool.workers.countP (WorkerPc.called task) +
      (pool.destructor.holds task).toNat =
    entryCount EnqueuePc.hasThrown pool.calls task + pool.ran.count task + pool.drained.count task
  called_le : pool.workers.countP (WorkerPc.called task) ≤ pool.ran.count task
  holds_le : (pool.destructor.holds task).toNat ≤ pool.drained.count task

theorem count_append_toNat (record : List TaskId) (held task : TaskId) :
    (record ++ [held]).count task = record.count task + (held == task).toNat := by
  rw [List.count_append, List.count_singleton]
  cases held == task <;> rfl

theorem accounted_create (numThreads : ℕ) (task : TaskId) : Accounted (Pool.create numThreads) task := by
  constructor <;>
    simp [Pool.create, entryCount, List.countP_replicate, WorkerPc.popped, WorkerPc.called,
      DestructorPc.holds]

/-! ## One statement of each kind of thread -/

variable {sem : Semaphore} {pool next : Pool} {task : TaskId}

/-- A call moves from `old` to `new` while `pushed` and `freed` grow by so many entries for the task: the
books of other tasks stay as they are, and those of its own stay right if the program points account for the
difference. -/
theorem Accounted.call_move {call : TaskId} {old new : EnqueuePc} (hacc : Accounted pool task)
    (hpc : pool.calls[call]? = some old) (hcalls : next.calls = pool.calls.set call new)
    (hframe : next.workers = pool.workers ∧ next.destructor = pool.destructor ∧ next.popped = pool.popped ∧
      next.drained = pool.drained ∧ next.ran = pool.ran)
    (pushed freed : ℕ) (hpushed : next.pushed.count task = pool.pushed.count task + pushed)
    (hfreed : next.freed.count task = pool.freed.count task + freed)
    (hown : call = task → old.holdsTask.toNat + old.hasThrown.toNat =
        new.holdsTask.toNat + new.hasThrown.toNat + pushed ∧ freed + old.hasThrown.toNat = new.hasThrown.toNat)
    (hother : call ≠ task → pushed = 0 ∧ freed = 0) : Accounted next task := by
  obtain ⟨hworkers, hdestructor, hpopped, hdrained, hran⟩ := hframe
  obtain ⟨entered, left, freed, called_le, holds_le⟩ := hacc
  by_cases htask : call = task
  · subst htask
    obtain ⟨hheld, hthrown⟩ := hown rfl
    simp only [entryCount_of_getElem? _ hpc] at entered freed
    constructor <;> simp only [hworkers, hdestructor, hpopped, hdrained, hran, hcalls, hpushed, hfreed,
      entryCount_set_self _ hpc] <;> omega
  · obtain ⟨rfl, rfl⟩ := hother htask
    constructor <;> simp only [hworkers, hdestructor, hpopped, hdrained, hran, hcalls, hpushed, hfreed,
      entryCount_set_of_ne _ htask, Nat.add_zero] <;> assumption

theorem enqueueStep_accounted {call : TaskId} {accepted : Bool} {pc : EnqueuePc}
    (hpc : pool.calls[call]? = some pc) (h : pool.enqueueStep sem call accepted pc = some next)
    (hacc : Accounted pool task) : Accounted next task := by
  have hframe := enqueueStep_frame h
  cases enqueueMove_of_step h with
  | refused | givenUp =>
    apply hacc.call_move hpc rfl hframe 0 (call == task).toNat rfl
    · exact count_append_toNat ..
    · rintro rfl
      simp [EnqueuePc.holdsTask, EnqueuePc.hasThrown]
    · simp
  | pushed =>
    apply hacc.call_move hpc rfl hframe (call == task).toNat 0 (count_append_toNat ..) rfl
    · rintro rfl
      simp [EnqueuePc.holdsTask, EnqueuePc.hasThrown]
    · simp
  | _ => exact hacc.call_move hpc rfl hframe 0 0 rfl rfl (fun _ ↦ ⟨rfl, rfl⟩) fun _ ↦ ⟨rfl, rfl⟩

/-- A worker moves from `old` to `new` while `popped`, `ran` and `freed` grow by so many entries for
the task: the books stay right if the two program points account for the difference. -/
theorem Accounted.worker_move {worker : ℕ} {old new : WorkerPc} (hacc : Accounted pool task)
    (hpc : pool.workers[worker]? = some old) (hworkers : next.workers = pool.workers.set worker new)
    (hframe : next.calls = pool.calls ∧ next.destructor = pool.destructor ∧ next.pushed = pool.pushed ∧
      next.drained = pool.drained ∧ next.taskSem ≤ pool.taskSem)
    (popped ran freed : ℕ) (hpopped : next.popped.count task = pool.popped.count task + popped)
    (hran : next.ran.count task = pool.ran.count task + ran)
    (hfreed : next.freed.count task = pool.freed.count task + freed)
    (hhand : popped + (old.popped task).toNat = (new.popped task).toNat + ran)
    (hcall : freed + (new.called task).toNat = (old.called task).toNat + ran) : Accounted next task := by
  obtain ⟨hcalls, hdestructor, hpushed, hdrained, -⟩ := hframe
  have hpopped_set := countP_set_of_getElem? (WorkerPc.popped task) hpc new
  have hcalled_set := countP_set_of_getElem? (WorkerPc.called task) hpc new
  have hpopped_le := toNat_le_countP (WorkerPc.popped task) hpc
  have hcalled_le := toNat_le_countP (WorkerPc.called task) hpc
  obtain ⟨entered, left, freed, called_le, holds_le⟩ := hacc
  constructor <;> simp only [hcalls, hdestructor, hpushed, hdrained, hworkers, hpopped, hran, hfreed,
    hpopped_set, hcalled_set] <;> omega

theorem workerStep_accounted {worker : ℕ} {granted : Bool} {pc : WorkerPc}
    (hpc : pool.workers[worker]? = some pc) (h : pool.workerStep worker granted pc = some next)
    (hacc : Accounted pool task) : Accounted next task := by
  have hframe := workerStep_frame h
  cases workerMove_of_step h with
  | pop held rest hqueue =>
    exact hacc.worker_move hpc rfl hframe (held == task).toNat 0 0 (count_append_toNat ..) rfl rfl rfl rfl
  | call held =>
    exact hacc.worker_move hpc rfl hframe 0 (held == task).toNat 0 rfl (count_append_toNat ..) rfl
      (by simp [WorkerPc.popped]) (by simp [WorkerPc.called])
  | returned held => exact hacc.worker_move hpc rfl hframe 0 0 0 rfl rfl rfl rfl (by simp [WorkerPc.called])
  | free held =>
    exact hacc.worker_move hpc rfl hframe 0 0 (held == task).toNat rfl rfl (count_append_toNat ..) rfl
      (by simp [WorkerPc.called])
  | _ => exact hacc.worker_move hpc rfl hframe 0 0 0 rfl rfl rfl rfl rfl

theorem controlStep_accounted {control : ℕ} {pc : ControlPc} (h : pool.controlStep control pc = some next)
    (hacc : Accounted pool task) : Accounted next task := by
  obtain ⟨hcalls, hdestructor, -, -, hpushed, hpopped, hdrained, hran, hfreed⟩ := controlStep_frame h
  obtain ⟨entered, left, freed, called_le, holds_le⟩ := hacc
  rcases controlStep_workers h with hworkers | hworkers <;> constructor <;>
    simpa [hcalls, hdestructor, hpushed, hpopped, hdrained, hran, hfreed, hworkers, WorkerPc.popped,
      WorkerPc.called]

theorem destructorStep_accounted (h : pool.destructorStep sem pool.destructor = some next)
    (hacc : Accounted pool task) : Accounted next task := by
  obtain ⟨entered, left, freed, called_le, holds_le⟩ := hacc
  generalize hd : pool.destructor = pc at h freed holds_le
  cases pc with
  | pop =>
    simp only [Pool.destructorStep] at h
    split at h
    · cases h
      exact ⟨entered, left, freed, called_le, holds_le⟩
    · rename_i held rest hqueue
      cases h
      simp only [DestructorPc.holds, Bool.toNat_false] at freed
      constructor <;>
        simp only [count_append_toNat, DestructorPc.holds] <;> omega
  | free held =>
    cases h
    simp only [DestructorPc.holds] at freed
    constructor <;>
      simp only [count_append_toNat, DestructorPc.holds, Bool.toNat_false] <;> omega
  | notStarted | finished => cases h
  | _ =>
    cases h
    exact ⟨entered, left, freed, called_le, holds_le⟩

theorem accounted_of_step {action : Action} (hstep : step sem pool action = some next)
    (hacc : ∀ task, Accounted pool task) : ∀ task, Accounted next task := by
  intro task
  obtain ⟨-, -, rfl⟩ | ⟨call, accepted, pc, -, hpc, h⟩ | ⟨worker, granted, pc, -, hpc, h⟩ | ⟨pc, -, rfl⟩ |
    ⟨control, pc, -, -, h⟩ | ⟨-, hd, -, rfl⟩ | ⟨-, h⟩ := step_cases hstep
  · obtain ⟨entered, left, freed, called_le, holds_le⟩ := hacc task
    -- the new call is the first to have this index
    by_cases hnew : task = pool.calls.length
    · subst hnew
      have hnone (p : EnqueuePc → Bool) : entryCount p pool.calls pool.calls.length = 0 := by
        simp [entryCount]
      simp only [hnone] at entered freed
      refine ⟨?_, left, ?_, called_le, holds_le⟩ <;>
        simp only [entryCount_append_self, EnqueuePc.holdsTask, EnqueuePc.hasThrown, Bool.toNat_true,
          Bool.toNat_false] <;> omega
    · refine ⟨?_, left, ?_, called_le, holds_le⟩ <;> simpa [entryCount_append_of_ne, hnew]
  · exact enqueueStep_accounted hpc h (hacc task)
  · exact workerStep_accounted hpc h (hacc task)
  · obtain ⟨entered, left, freed, called_le, holds_le⟩ := hacc task
    exact ⟨entered, left, freed, called_le, holds_le⟩
  · exact controlStep_accounted h (hacc task)
  · obtain ⟨entered, left, freed, called_le, holds_le⟩ := hacc task
    rw [hd] at freed holds_le
    exact ⟨entered, left, freed, called_le, holds_le⟩
  · exact destructorStep_accounted h (hacc task)

/-! ## Order of the queue -/

/-- What was pushed is what was popped, in order, followed by what is still queued. -/
def InOrder (pool : Pool) : Prop := pool.pushed = pool.popped ++ pool.queue

theorem inOrder_of_step {action : Action} (hstep : step sem pool action = some next)
    (horder : InOrder pool) : InOrder next := by
  unfold InOrder at horder ⊢
  obtain ⟨-, -, rfl⟩ | ⟨call, accepted, pc, -, -, h⟩ | ⟨worker, granted, pc, -, -, h⟩ | ⟨pc, -, rfl⟩ |
    ⟨control, pc, -, -, h⟩ | ⟨-, -, -, rfl⟩ | ⟨-, h⟩ := step_cases hstep
  · exact horder
  · cases enqueueMove_of_step h with
    | pushed => simp only [Pool.setCall, horder, List.append_assoc]
    | _ => exact horder
  · cases workerMove_of_step h with
    | pop task rest hqueue =>
      simp only [Pool.setWorker, horder, hqueue, List.append_assoc, List.singleton_append]
    | _ => exact horder
  · exact horder
  · obtain ⟨-, -, hqueue, -, hpushed, hpopped, -⟩ := controlStep_frame h
    rw [hpushed, hpopped, hqueue, horder]
  · exact horder
  · generalize pool.destructor = pc at h
    cases pc with
    | pop =>
      simp only [Pool.destructorStep] at h
      split at h <;> cases h
      · exact horder
      · rename_i task rest hqueue
        simp only [horder, hqueue, List.append_assoc, List.singleton_append]
    | _ =>
      simp only [Pool.destructorStep] at h
      cases h <;> exact horder

/-! ## Exactly one place -/

/-- Where a task can be. -/
inductive Place
  | caller
  | rejected
  | queue
  | worker (worker : ℕ)
  | finished
  | destructor
  deriving DecidableEq, Repr

/-- The task is found there. A rejected task is freed without ever having entered the queue; a
finished one has been run and freed. -/
def Pool.Holds (pool : Pool) (task : TaskId) : Place → Prop
  | .caller => ∃ pc, pool.calls[task]? = some pc ∧ pc.holdsTask = true
  | .rejected => task ∉ pool.pushed ∧ task ∈ pool.freed
  | .queue => task ∈ pool.queue
  | .worker worker => ∃ pc, pool.workers[worker]? = some pc ∧ (pc.popped task || pc.called task) = true
  | .finished => task ∈ pool.ran ∧ task ∈ pool.freed
  | .destructor => task ∈ pool.drained

/-- How often the task has been run and freed when it is found there. -/
def Pool.Fate (pool : Pool) (task : TaskId) : Place → Prop
  | .caller | .queue => pool.ran.count task = 0 ∧ pool.freed.count task = 0
  | .rejected => pool.ran.count task = 0 ∧ pool.freed.count task = 1
  | .worker _ => pool.ran.count task ≤ 1 ∧ pool.freed.count task = 0
  | .finished => pool.ran.count task = 1 ∧ pool.freed.count task = 1
  | .destructor => pool.ran.count task = 0 ∧
      pool.freed.count task + (pool.destructor.holds task).toNat = 1

/-- The number of times the books find the task in a place of this kind. -/
def Pool.share (pool : Pool) (task : TaskId) : Place → ℕ
  | .caller => entryCount EnqueuePc.holdsTask pool.calls task
  | .rejected => entryCount EnqueuePc.hasThrown pool.calls task
  | .queue => pool.queue.count task
  | .worker _ => pool.workers.countP (WorkerPc.popped task) + pool.workers.countP (WorkerPc.called task)
  | .finished => pool.ran.count task - pool.workers.countP (WorkerPc.called task)
  | .destructor => pool.drained.count task

/-- A worker holds a task as popped or as called, never both. -/
theorem countP_holdsTask (task : TaskId) (workers : List WorkerPc) :
    workers.countP (fun pc ↦ pc.popped task || pc.called task) =
      workers.countP (WorkerPc.popped task) + workers.countP (WorkerPc.called task) := by
  induction workers with
  | nil => rfl
  | cons pc rest ih =>
    simp only [List.countP_cons, ih]
    cases pc <;> simp [WorkerPc.popped, WorkerPc.called] <;> omega

section Place

variable (hacc : Accounted pool task) (horder : InOrder pool)

include horder in
theorem pushed_count : pool.pushed.count task = pool.popped.count task + pool.queue.count task := by
  unfold InOrder at horder
  rw [horder, List.count_append]

include hacc horder in
/-- Each task that was ever passed to `enqueue` is booked exactly once. -/
theorem share_sum (worker : ℕ) :
    pool.share task .caller + pool.share task .rejected + pool.share task .queue +
      pool.share task (.worker worker) + pool.share task .finished + pool.share task .destructor =
      entryCount (fun _ ↦ true) pool.calls task := by
  have hcount := @pushed_count pool task horder
  obtain ⟨entered, left, freed, called_le, holds_le⟩ := hacc
  simp only [Pool.share]
  omega

include hacc horder in
theorem share_pos_of_holds {place : Place} (hplace : pool.Holds task place)
    (hone : entryCount (fun _ ↦ true) pool.calls task ≤ 1) : 1 ≤ pool.share task place := by
  have hsum := share_sum hacc horder 0
  have hcount := @pushed_count pool task horder
  obtain ⟨entered, left, freed, called_le, holds_le⟩ := hacc
  simp only [Pool.share] at hsum
  cases place with
  | caller =>
    obtain ⟨pc, hpc, hholds⟩ := hplace
    simp [Pool.share, entryCount_of_getElem? _ hpc, hholds]
  | rejected =>
    have hpushed : pool.pushed.count task = 0 := List.count_eq_zero.mpr hplace.1
    have hfreed : 0 < pool.freed.count task := List.count_pos_iff.mpr hplace.2
    simp only [Pool.share]
    omega
  | queue => exact List.count_pos_iff.mpr hplace
  | worker worker =>
    obtain ⟨pc, hpc, hholds⟩ := hplace
    have hle := toNat_le_countP (fun pc ↦ pc.popped task || pc.called task) hpc
    rw [hholds, countP_holdsTask] at hle
    exact hle
  | finished =>
    have hran : 0 < pool.ran.count task := List.count_pos_iff.mpr hplace.1
    have hfreed : 0 < pool.freed.count task := List.count_pos_iff.mpr hplace.2
    simp only [Pool.share]
    omega
  | destructor => exact List.count_pos_iff.mpr hplace

include hacc horder in
theorem exists_holds (hone : entryCount (fun _ ↦ true) pool.calls task = 1) :
    ∃ place, pool.Holds task place := by
  have hsum := share_sum hacc horder 0
  have hcount := @pushed_count pool task horder
  obtain ⟨entered, left, freed, called_le, holds_le⟩ := hacc
  simp only [Pool.share] at hsum
  by_cases hcaller : entryCount EnqueuePc.holdsTask pool.calls task = 1
  · refine ⟨.caller, ?_⟩
    cases hpc : pool.calls[task]? with
    | none => simp [entryCount, hpc] at hcaller
    | some pc => exact ⟨pc, hpc, by simpa [entryCount, hpc] using hcaller⟩
  by_cases hrejected : entryCount EnqueuePc.hasThrown pool.calls task = 1
  · exact ⟨.rejected, List.count_eq_zero.mp (by omega), List.count_pos_iff.mp (by omega)⟩
  by_cases hqueue : 0 < pool.queue.count task
  · exact ⟨.queue, List.count_pos_iff.mp hqueue⟩
  by_cases hworker : 0 < pool.workers.countP (fun pc ↦ pc.popped task || pc.called task)
  · obtain ⟨pc, hmem, hholds⟩ := List.countP_pos_iff.mp hworker
    obtain ⟨worker, hpc⟩ := List.mem_iff_getElem?.mp hmem
    exact ⟨.worker worker, pc, hpc, hholds⟩
  rw [countP_holdsTask] at hworker
  by_cases hdrained : 0 < pool.drained.count task
  · exact ⟨.destructor, List.count_pos_iff.mp hdrained⟩
  · exact ⟨.finished, List.count_pos_iff.mp (by omega), List.count_pos_iff.mp (by omega)⟩

include hacc horder in
theorem holds_unique (hone : entryCount (fun _ ↦ true) pool.calls task ≤ 1) {place other : Place}
    (hplace : pool.Holds task place) (hother : pool.Holds task other) : place = other := by
  have hshare := share_pos_of_holds hacc horder hplace hone
  have hshare' := share_pos_of_holds hacc horder hother hone
  have hsum := share_sum hacc horder 0
  simp only [Pool.share] at hsum
  have hworkers : pool.workers.countP (fun pc ↦ pc.popped task || pc.called task) ≤ 1 := by
    rw [countP_holdsTask]
    omega
  -- two different kinds of place would book the task twice
  cases place <;> cases other <;> simp only [Pool.share] at hshare hshare' <;>
    first
    | rfl
    | omega
    | skip
  obtain ⟨pc, hpc, hholds⟩ := hplace
  obtain ⟨pc', hpc', hholds'⟩ := hother
  rw [index_unique_of_countP_le_one hworkers hpc hpc' hholds hholds']

include hacc horder in
theorem fate_of_holds (hone : entryCount (fun _ ↦ true) pool.calls task ≤ 1) {place : Place}
    (hplace : pool.Holds task place) : pool.Fate task place := by
  have hshare := share_pos_of_holds hacc horder hplace hone
  have hsum := share_sum hacc horder 0
  obtain ⟨entered, left, freed, called_le, holds_le⟩ := hacc
  simp only [Pool.share] at hsum
  cases place <;> simp only [Pool.share, Pool.Fate] at hshare ⊢ <;> omega

end Place

theorem books_of_run {numThreads : ℕ} {actions : List Action}
    (hrun : run (step sem) (Pool.create numThreads) actions = some pool) :
    (∀ task, Accounted pool task) ∧ InOrder pool := by
  refine run_invariant (I := fun state ↦ (∀ task, Accounted state task) ∧ InOrder state) ?_ ?_ hrun
  · rintro state action next ⟨hacc, horder⟩ hstep
    exact ⟨accounted_of_step hstep hacc, inOrder_of_step hstep horder⟩
  · exact ⟨accounted_create numThreads, rfl⟩

/-- Every task passed to `enqueue` is in exactly one place, having been run and freed as that place
says; `enqueue` throws exactly for the rejected ones; tasks leave the queue as they entered it. -/
theorem task_in_exactly_one_place {numThreads : ℕ} {actions : List Action}
    (hrun : run (step sem) (Pool.create numThreads) actions = some pool) :
    (∀ task < pool.calls.length,
      (∃! place, pool.Holds task place) ∧ ∀ place, pool.Holds task place → pool.Fate task place) ∧
    (∀ task < pool.calls.length, pool.calls[task]? = some .threw ↔ pool.Holds task .rejected) ∧
    pool.pushed = pool.popped ++ pool.queue := by
  obtain ⟨hacc, horder⟩ := books_of_run hrun
  have hentry (task : TaskId) (hlt : task < pool.calls.length) :
      entryCount (fun _ ↦ true) pool.calls task = 1 := by
    simp [entryCount, hlt]
  refine ⟨fun task hlt ↦ ⟨?_, fun place hplace ↦ ?_⟩, fun task hlt ↦ ⟨fun hthrew ↦ ?_, fun hplace ↦ ?_⟩,
    horder⟩
  · obtain ⟨place, hplace⟩ := exists_holds (hacc task) horder (hentry task hlt)
    refine ⟨place, hplace, fun other hother ↦ ?_⟩
    exact holds_unique (hacc task) horder (Nat.le_of_eq (hentry task hlt)) hother hplace
  · exact fate_of_holds (hacc task) horder (Nat.le_of_eq (hentry task hlt)) hplace
  · have hone := hentry task hlt
    have hcount := @pushed_count pool task horder
    obtain ⟨entered, left, freed, called_le, holds_le⟩ := hacc task
    simp only [entryCount_of_getElem? _ hthrew, EnqueuePc.hasThrown, Bool.toNat_true] at entered freed
    exact ⟨List.count_eq_zero.mp (by omega), List.count_pos_iff.mp (by omega)⟩
  · have hshare := share_pos_of_holds (hacc task) horder hplace (Nat.le_of_eq (hentry task hlt))
    simp only [Pool.share] at hshare
    cases hpc : pool.calls[task]? with
    | none => simp [entryCount, hpc] at hshare
    | some pc => cases pc <;> simp [entryCount, hpc, EnqueuePc.hasThrown] at hshare ⊢

/-- One worker runs the first of two tasks, the pool is shut down, a third task is rejected, and the
destructor pops the second. -/
def threeFatesTrace : List Action :=
  [.callEnqueue, .enqueue 0 true, .enqueue 0 true, .enqueue 0 true, .enqueue 0 true,
    .callEnqueue, .enqueue 1 true, .enqueue 1 false, .enqueue 1 true, .enqueue 1 true, .enqueue 1 true,
    .enqueue 1 true, .worker 0 true, .worker 0 true, .worker 0 true, .worker 0 true, .worker 0 true,
    .worker 0 true, .worker 0 true, .callControl .setStop, .control 0, .callEnqueue, .enqueue 2 true,
    .callDestructor, .destructor, .destructor, .destructor]

theorem task_in_exactly_one_place_three_fates :
    ∃ pool, run (step .uncapped) (Pool.create 1) threeFatesTrace = some pool ∧
      pool.Holds 0 .finished ∧ pool.Holds 1 .destructor ∧ pool.Holds 2 .rejected ∧
      (∃! place, pool.Holds 0 place) ∧ (∃! place, pool.Holds 1 place) ∧ (∃! place, pool.Holds 2 place) ∧
      pool.pushed = pool.popped ++ pool.queue := by
  have hrun : run (step .uncapped) (Pool.create 1) threeFatesTrace = some _ := rfl
  have h := task_in_exactly_one_place hrun
  refine ⟨_, hrun, ?_, ?_, ?_, (h.1 0 (by decide)).1, (h.1 1 (by decide)).1, (h.1 2 (by decide)).1, h.2.2⟩
  · exact ⟨by decide, by decide⟩
  · exact (by decide : 1 ∈ [1])
  · exact ⟨by decide, by decide⟩

end TinyReactor.ThreadPool
