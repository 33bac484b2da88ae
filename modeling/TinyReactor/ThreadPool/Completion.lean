import TinyReactor.ThreadPool.Backlog
import TinyReactor.ThreadPool.Shutdown
import TinyReactor.Transition.Progress

/-!
# The pool comes to an end

Once `stop_` is set, every thread that uses the pool has only so many statements left, whatever the others do, and
none of them can block it: a worker's wait is timed, a failing `push` is followed by a test of the flag, and the
destructor pops a queue that nobody fills any more. So the destruction of `threads_`, which comes after the body of
the destructor and joins the workers, has something to wait for only as long as a worker can move. When all are
through, every closure has been freed once and the counters are back at zero. All of this takes tasks to return, as
the model does.
-/

namespace TinyReactor.ThreadPool

open Transition

/-- A bound on the statements of a worker that are still to come, once `stop_` is set. -/
def WorkerPc.statementsLeft : WorkerPc → ℕ
  | .acquire => 14
  | .pop => 13
  | .call _ => 12
  | .running _ => 11
  | .free _ => 10
  | .uncount => 9
  | .loadActive => 8
  | .compareTarget _ => 7
  | .reload => 6
  | .retest _ => 5
  | .exchange _ => 4
  | .pause | .start => 3
  | .loop => 2
  | .leave => 1
  | .exited => 0

/-- The same for a call of `enqueue`. -/
def EnqueuePc.statementsLeft : EnqueuePc → ℕ
  | .push => 3
  | .count => 2
  | .entry | .recheck | .release => 1
  | .returned | .threw => 0

/-- The same for the destructor, which makes three statements for each closure in the queue. -/
def DestructorPc.statementsLeft (queued : ℕ) : DestructorPc → ℕ
  | .setStop => 3 * queued + 3
  | .release => 3 * queued + 2
  | .pop => 3 * queued + 1
  | .free _ => 3 * queued + 3
  | .uncount => 3 * queued + 2
  | .notStarted | .finished => 0

/-- The actions of one worker, of one call of `enqueue`, and of the destructor. -/
def Action.ofWorker (worker : ℕ) : Action → Bool
  | .worker index _ => index == worker
  | _ => false

def Action.ofCall (call : TaskId) : Action → Bool
  | .enqueue index _ => index == call
  | _ => false

def Action.ofDestructor : Action → Bool
  | .destructor => true
  | _ => false

variable {sem : Semaphore} {pool next : Pool} {action : Action}

/-! ## Workers -/

theorem workerStep_left {worker : ℕ} {granted : Bool} {pc : WorkerPc} (hstop : pool.stop = true)
    (h : pool.workerStep worker granted pc = some next) :
    ∃ pc', next.workers = pool.workers.set worker pc' ∧ pc'.statementsLeft < pc.statementsLeft := by
  cases workerMove_of_step h with
  | wait hrunning =>
    rw [hstop] at hrunning
    cases hrunning
  | _ => exact ⟨_, rfl, by simp [WorkerPc.statementsLeft]⟩

/-- A worker that has not returned can always go on: its wait may time out. -/
theorem workerStep_enabled {worker : ℕ} {pc : WorkerPc} (hleft : 0 < pc.statementsLeft) :
    (pool.workerStep worker false pc).isSome = true := by
  cases pc with
  | exited => cases hleft
  | pop =>
    simp only [Pool.workerStep]
    split <;> rfl
  | exchange old =>
    simp only [Pool.workerStep]
    split <;> rfl
  | _ => rfl

/-- Only its own statements move a worker. -/
theorem worker_of_step {worker : ℕ} {pc : WorkerPc} (h : step sem pool action = some next)
    (hother : action.ofWorker worker = false) (hpc : pool.workers[worker]? = some pc) :
    next.workers[worker]? = some pc := by
  obtain ⟨-, -, rfl⟩ | ⟨call, accepted, _, -, -, h⟩ | ⟨index, granted, moving, rfl, -, h⟩ | ⟨_, -, rfl⟩ |
    ⟨control, _, -, -, h⟩ | ⟨-, -, -, rfl⟩ | ⟨-, h⟩ := step_cases h
  · exact hpc
  · rw [(enqueueStep_frame h).1, hpc]
  · have hne : index ≠ worker := by simpa [Action.ofWorker] using hother
    obtain ⟨pc', hworkers⟩ : ∃ pc', next.workers = pool.workers.set index pc' := by
      cases workerMove_of_step h <;> exact ⟨_, rfl⟩
    rw [hworkers, List.getElem?_set_ne hne, hpc]
  · exact hpc
  · obtain hsame | hspawned := controlStep_workers h
    · rw [hsame, hpc]
    · rw [hspawned, List.getElem?_append_left (lt_length_of_getElem? hpc), hpc]
  · exact hpc
  · rw [(destructorStep_frame h).2.1, hpc]

/-- A worker returns after at most so many statements as it has left, under every schedule of the others. -/
theorem worker_returns {worker : ℕ} {pc : WorkerPc} (hstop : pool.stop = true)
    (hpc : pool.workers[worker]? = some pc) :
    Within (step sem) (fun _ _ ↦ True) (Action.ofWorker worker) pc.statementsLeft
      (fun pool ↦ pool.workers[worker]? = some .exited) pool := by
  refine Within.imp (within_of_entry (I := fun pool : Pool ↦ pool.stop = true) (m := WorkerPc.statementsLeft)
    (e := fun pool ↦ pool.workers[worker]?) (fun _ _ _ hstop _ ↦ stop_stays hstop) ?_ ?_ ?_ hstop hpc) ?_
  · intro pool pc _ hpc hleft
    refine ⟨.worker worker false, by simp [Action.ofWorker], trivial, ?_⟩
    simp only [step, hpc, Option.bind_some]
    exact workerStep_enabled hleft
  · intro pool pc action next hstop hpc hown _ hstep
    cases action with
    | worker index granted =>
      obtain rfl : index = worker := by simpa [Action.ofWorker] using hown
      obtain ⟨moving, hmoving, hmove⟩ := Option.bind_eq_some_iff.mp hstep
      cases hmoving.symm.trans hpc
      obtain ⟨pc', hworkers, hless⟩ := workerStep_left hstop hmove
      exact ⟨pc', by rw [hworkers, List.getElem?_set_self (lt_length_of_getElem? hpc)], hless⟩
    | _ => cases hown
  · exact fun pool pc action next _ hpc hother _ hstep ↦ worker_of_step hstep hother hpc
  · rintro pool ⟨pc, hpc, hnone⟩
    cases pc with
    | exited => exact hpc
    | _ => cases hnone

/-! ## Calls of `enqueue` -/

theorem enqueueStep_left {call : TaskId} {accepted : Bool} {pc : EnqueuePc} (hstop : pool.stop = true)
    (h : pool.enqueueStep sem call accepted pc = some next) :
    ∃ pc', next.calls = pool.calls.set call pc' ∧ pc'.statementsLeft < pc.statementsLeft := by
  cases enqueueMove_of_step h with
  | admitted hrunning | retry hrunning =>
    rw [hstop] at hrunning
    cases hrunning
  | _ => exact ⟨_, rfl, by simp [EnqueuePc.statementsLeft]⟩

theorem enqueueStep_enabled {call : TaskId} {pc : EnqueuePc} (hleft : 0 < pc.statementsLeft) :
    (pool.enqueueStep sem call false pc).isSome = true := by
  cases pc with
  | returned | threw => cases hleft
  | entry | recheck =>
    simp only [Pool.enqueueStep]
    split <;> rfl
  | _ => rfl

theorem call_of_step {call : TaskId} {pc : EnqueuePc} (h : step sem pool action = some next)
    (hother : action.ofCall call = false) (hpc : pool.calls[call]? = some pc) : next.calls[call]? = some pc := by
  obtain ⟨-, -, rfl⟩ | ⟨index, accepted, moving, rfl, -, h⟩ | ⟨worker, granted, _, -, -, h⟩ | ⟨_, -, rfl⟩ |
    ⟨control, _, -, -, h⟩ | ⟨-, -, -, rfl⟩ | ⟨-, h⟩ := step_cases h
  · exact (List.getElem?_append_left (lt_length_of_getElem? hpc)).trans hpc
  · have hne : index ≠ call := by simpa [Action.ofCall] using hother
    obtain ⟨pc', hcalls⟩ : ∃ pc', next.calls = pool.calls.set index pc' := by
      cases enqueueMove_of_step h <;> exact ⟨_, rfl⟩
    rw [hcalls, List.getElem?_set_ne hne, hpc]
  · rw [(workerStep_frame h).1, hpc]
  · exact hpc
  · rw [(controlStep_frame h).1, hpc]
  · exact hpc
  · rw [(destructorStep_frame h).1, hpc]

/-- A call of `enqueue` ends after at most so many statements as it has left. -/
theorem call_ends {call : TaskId} {pc : EnqueuePc} (hstop : pool.stop = true) (hpc : pool.calls[call]? = some pc) :
    Within (step sem) (fun _ _ ↦ True) (Action.ofCall call) pc.statementsLeft
      (fun pool ↦ pool.calls[call]? = some .returned ∨ pool.calls[call]? = some .threw) pool := by
  refine Within.imp (within_of_entry (I := fun pool : Pool ↦ pool.stop = true) (m := EnqueuePc.statementsLeft)
    (e := fun pool ↦ pool.calls[call]?) (fun _ _ _ hstop _ ↦ stop_stays hstop) ?_ ?_ ?_ hstop hpc) ?_
  · intro pool pc _ hpc hleft
    refine ⟨.enqueue call false, by simp [Action.ofCall], trivial, ?_⟩
    simp only [step, hpc, Option.bind_some]
    exact enqueueStep_enabled hleft
  · intro pool pc action next hstop hpc hown _ hstep
    cases action with
    | enqueue index accepted =>
      obtain rfl : index = call := by simpa [Action.ofCall] using hown
      obtain ⟨moving, hmoving, hmove⟩ := Option.bind_eq_some_iff.mp hstep
      cases hmoving.symm.trans hpc
      obtain ⟨pc', hcalls, hless⟩ := enqueueStep_left hstop hmove
      exact ⟨pc', by rw [hcalls, List.getElem?_set_self (lt_length_of_getElem? hpc)], hless⟩
    | _ => cases hown
  · exact fun pool pc action next _ hpc hother _ hstep ↦ call_of_step hstep hother hpc
  · rintro pool ⟨pc, hpc, hnone⟩
    cases pc with
    | returned => exact .inl hpc
    | threw => exact .inr hpc
    | _ => cases hnone

/-! ## The destructor -/

/-- The destructor is under way and nobody fills the queue. -/
structure Pool.Closing (pool : Pool) : Prop where
  started : pool.destructor ≠ .notStarted
  idle : ∀ pc ∈ pool.calls, pc.inProgress = false

theorem Pool.Closing.step (h : pool.Closing) (hstep : step sem pool action = some next) : next.Closing := by
  have hstarted : next.destructor ≠ .notStarted := by
    obtain ⟨-, hd, rfl⟩ | ⟨call, accepted, _, -, -, hmove⟩ | ⟨index, granted, moving, rfl, -, hmove⟩ | ⟨_, -, rfl⟩ |
      ⟨control, _, -, -, hmove⟩ | ⟨-, hd, -, rfl⟩ | ⟨-, hmove⟩ := step_cases hstep
    · exact h.started
    · rw [(enqueueStep_frame hmove).2.1]
      exact h.started
    · rw [(workerStep_frame hmove).2.1]
      exact h.started
    · exact h.started
    · rw [(controlStep_frame hmove).2.1]
      exact h.started
    · exact absurd hd h.started
    · exact (destructorStep_frame hmove).2.2.2.2.2
  exact ⟨hstarted, idle_of_step hstep (fun _ ↦ h.idle) hstarted⟩

/-- Each statement of the destructor leaves fewer of them. -/
theorem destructorStep_left {pc : DestructorPc} (h : pool.destructorStep sem pc = some next) :
    next.destructor.statementsLeft next.queue.length < pc.statementsLeft pool.queue.length := by
  cases pc with
  | notStarted | finished => cases h
  | pop =>
    simp only [Pool.destructorStep] at h
    split at h
    · rename_i hqueue
      cases h
      exact Nat.succ_pos _
    · rename_i task rest hqueue
      cases h
      simp only [DestructorPc.statementsLeft, hqueue, List.length_cons]
      omega
  | _ =>
    cases h
    simp [DestructorPc.statementsLeft]

theorem destructorStep_enabled (hleft : 0 < pool.destructor.statementsLeft pool.queue.length) :
    (pool.destructorStep sem pool.destructor).isSome = true := by
  cases hpc : pool.destructor with
  | notStarted | finished =>
    rw [hpc] at hleft
    cases hleft
  | pop =>
    simp only [Pool.destructorStep]
    split <;> rfl
  | _ => rfl

/-- While the pool is being destroyed the queue does not grow. -/
theorem Pool.Closing.queue_le (h : pool.Closing) (hstep : ThreadPool.step sem pool action = some next)
    (hother : action.ofDestructor = false) :
    next.destructor = pool.destructor ∧ next.queue.length ≤ pool.queue.length := by
  obtain ⟨-, -, rfl⟩ | ⟨call, accepted, pc, -, hpc, hmove⟩ | ⟨worker, granted, pc, rfl, -, hmove⟩ | ⟨_, -, rfl⟩ |
    ⟨control, _, -, -, hmove⟩ | ⟨-, hd, -, rfl⟩ | ⟨rfl, hmove⟩ := step_cases hstep
  · exact ⟨rfl, Nat.le_refl _⟩
  · have hidle := h.idle pc (List.mem_of_getElem? hpc)
    cases enqueueMove_of_step hmove <;> cases hidle
  · refine ⟨(workerStep_frame hmove).2.1, ?_⟩
    cases workerMove_of_step hmove with
    | pop task rest hqueue =>
      rw [hqueue]
      exact Nat.le_succ _
    | _ => exact Nat.le_refl _
  · exact ⟨rfl, Nat.le_refl _⟩
  · exact ⟨(controlStep_frame hmove).2.1, Nat.le_of_eq (congrArg List.length (controlStep_frame hmove).2.2.1)⟩
  · exact absurd hd h.started
  · cases hother

theorem DestructorPc.statementsLeft_mono {fewer more : ℕ} (h : fewer ≤ more) (pc : DestructorPc) :
    pc.statementsLeft fewer ≤ pc.statementsLeft more ∧ (0 < pc.statementsLeft more → 0 < pc.statementsLeft fewer) := by
  cases pc <;> simp only [statementsLeft] <;> omega

theorem destructor_ends (h : pool.Closing) :
    Within (step sem) (fun _ _ ↦ True) Action.ofDestructor (pool.destructor.statementsLeft pool.queue.length)
      (fun pool ↦ pool.destructor = .finished) pool := by
  refine Within.imp (within_of_measure (I := Pool.Closing)
    (m := fun pool ↦ pool.destructor.statementsLeft pool.queue.length) ?_ ?_ ?_ h) ?_
  · exact fun pool _ hleft ↦ ⟨.destructor, rfl, trivial, destructorStep_enabled hleft⟩
  · intro pool action next hclosing hown _ hstep
    refine ⟨hclosing.step hstep, ?_⟩
    cases action with
    | destructor => exact destructorStep_left hstep
    | _ => cases hown
  · intro pool action next hclosing hother _ hstep
    obtain ⟨hsame, hle⟩ := hclosing.queue_le hstep hother
    obtain ⟨hmono, hpos⟩ := DestructorPc.statementsLeft_mono hle pool.destructor
    rw [hsame]
    exact ⟨hclosing.step hstep, hpos, hmono⟩
  · rintro pool ⟨hclosing, hnone⟩
    cases hpc : pool.destructor with
    | finished => rfl
    | notStarted => exact absurd hpc hclosing.started
    | _ =>
      rw [hpc] at hnone
      cases hnone

/-! ## The joins -/

/-- The step does not start another worker. -/
def SpawnsNone (pool : Pool) : Action → Prop
  | .control control => ∀ left, pool.controls[control]? ≠ some (.spawn (left + 1))
  | _ => True

/-- The actions of the destructor and of the workers it joins. -/
def Action.ofDestruction : Action → Bool
  | .destructor | .worker _ _ => true
  | _ => false

/-- The body of the destructor is through, and the joins after it have nobody to wait for. -/
def Pool.Joined (pool : Pool) : Prop := pool.destructor = .finished ∧ ∀ pc ∈ pool.workers, pc = .exited

/-- A bound on the statements of the destructor and the workers that are still to come. -/
def Pool.destructionLeft (pool : Pool) : ℕ :=
  pool.destructor.statementsLeft pool.queue.length + (pool.workers.map WorkerPc.statementsLeft).sum

/-- The others leave destructor, queue and workers alone. -/
theorem Pool.Closing.frame (h : pool.Closing) (hspawns : SpawnsNone pool action) (hother : action.ofDestruction = false)
    (hstep : ThreadPool.step sem pool action = some next) :
    next.destructor = pool.destructor ∧ next.queue = pool.queue ∧ next.workers = pool.workers := by
  obtain ⟨-, -, rfl⟩ | ⟨call, accepted, pc, -, hpc, hmove⟩ | ⟨worker, granted, pc, rfl, -, hmove⟩ | ⟨_, -, rfl⟩ |
    ⟨control, pc, rfl, hpc, hmove⟩ | ⟨-, hd, -, rfl⟩ | ⟨rfl, hmove⟩ := step_cases hstep
  · exact ⟨rfl, rfl, rfl⟩
  · have hidle := h.idle pc (List.mem_of_getElem? hpc)
    cases enqueueMove_of_step hmove <;> cases hidle
  · cases hother
  · exact ⟨rfl, rfl, rfl⟩
  · refine ⟨(controlStep_frame hmove).2.1, (controlStep_frame hmove).2.2.1, ?_⟩
    cases pc with
    | spawn left =>
      cases left with
      | zero =>
        cases hmove
        rfl
      | succ left => exact absurd hpc (hspawns left)
    | returned => cases hmove
    | _ =>
      cases hmove
      rfl
  · exact absurd hd h.started
  · cases hother

/-- Each statement of the destructor or of a worker leaves fewer of them. -/
theorem destructionLeft_own (hclosing : pool.Closing) (hstop : pool.stop = true) (hown : action.ofDestruction = true)
    (hstep : step sem pool action = some next) : next.destructionLeft < pool.destructionLeft := by
  unfold Pool.destructionLeft
  cases action with
  | destructor =>
    have hless := destructorStep_left hstep
    rw [(destructorStep_frame hstep).2.1]
    omega
  | worker index granted =>
    obtain ⟨hsame, hle⟩ := hclosing.queue_le hstep rfl
    obtain ⟨pc, hpc, hmove⟩ := Option.bind_eq_some_iff.mp hstep
    obtain ⟨pc', hworkers, hless⟩ := workerStep_left hstop hmove
    have hsum := sum_map_set_of_getElem? WorkerPc.statementsLeft hpc pc'
    have hmono := (DestructorPc.statementsLeft_mono hle pool.destructor).1
    rw [hsame, hworkers]
    omega
  | _ => cases hown

theorem destruction_ready (hleft : 0 < pool.destructionLeft) : ∃ action : Action,
    action.ofDestruction = true ∧ SpawnsNone pool action ∧ (step sem pool action).isSome = true := by
  by_cases hdestructor : 0 < pool.destructor.statementsLeft pool.queue.length
  · exact ⟨.destructor, rfl, trivial, destructorStep_enabled hdestructor⟩
  · have hworkers : 0 < (pool.workers.map WorkerPc.statementsLeft).sum := by
      unfold Pool.destructionLeft at hleft
      omega
    obtain ⟨_, hmem, hpos⟩ := List.sum_pos_iff_exists_pos_nat.mp hworkers
    obtain ⟨pc, hpc, rfl⟩ := List.mem_map.mp hmem
    obtain ⟨worker, hworker⟩ := List.getElem?_of_mem hpc
    refine ⟨.worker worker false, rfl, trivial, ?_⟩
    simp only [step, hworker, Option.bind_some]
    exact workerStep_enabled hpos

theorem joined_of_destructionLeft (hclosing : pool.Closing) (hnone : pool.destructionLeft = 0) : pool.Joined := by
  obtain ⟨hdestructor, hworkers⟩ := Nat.add_eq_zero_iff.mp hnone
  constructor
  · cases hpc : pool.destructor with
    | finished => rfl
    | notStarted => exact absurd hpc hclosing.started
    | _ =>
      rw [hpc] at hdestructor
      cases hdestructor
  · intro pc hmem
    have hleft : pc.statementsLeft = 0 := List.sum_eq_zero_iff_forall_eq_nat.mp hworkers _ (List.mem_map_of_mem hmem)
    cases pc with
    | exited => rfl
    | _ => cases hleft

theorem destruction_ends (hclosing : pool.Closing) (hstop : pool.stop = true) :
    Within (step sem) SpawnsNone Action.ofDestruction pool.destructionLeft Pool.Joined pool := by
  refine Within.imp (within_of_measure (I := fun pool : Pool ↦ pool.Closing ∧ pool.stop = true)
    (m := Pool.destructionLeft) ?_ ?_ ?_ ⟨hclosing, hstop⟩) ?_
  · exact fun pool _ hleft ↦ destruction_ready hleft
  · rintro pool action next ⟨hclosing, hstop⟩ hown - hstep
    exact ⟨⟨hclosing.step hstep, stop_stays hstop hstep⟩, destructionLeft_own hclosing hstop hown hstep⟩
  · rintro pool action next ⟨hclosing, hstop⟩ hother hspawns hstep
    obtain ⟨hdestructor, hqueue, hworkers⟩ := hclosing.frame hspawns hother hstep
    have hsame : next.destructionLeft = pool.destructionLeft := by
      rw [Pool.destructionLeft, hdestructor, hqueue, hworkers, Pool.destructionLeft]
    exact ⟨⟨hclosing.step hstep, stop_stays hstop hstep⟩, fun hpos ↦ hsame ▸ hpos, Nat.le_of_eq hsame⟩
  · rintro pool ⟨⟨hclosing, -⟩, hnone⟩
    exact joined_of_destructionLeft hclosing hnone

theorem destructionLeft_le (pool : Pool) :
    pool.destructionLeft ≤ 3 * pool.queue.length + 3 + 14 * pool.workers.length := by
  have hdestructor : pool.destructor.statementsLeft pool.queue.length ≤ 3 * pool.queue.length + 3 := by
    cases pool.destructor <;> simp only [DestructorPc.statementsLeft] <;> omega
  have hworkers : (pool.workers.map WorkerPc.statementsLeft).sum ≤ 14 * pool.workers.length := by
    rw [← List.countP_true]
    apply sum_map_le_mul_countP
    intro pc
    cases pc <;> simp [WorkerPc.statementsLeft]
  unfold Pool.destructionLeft
  omega

/-! ## Bounds -/

/-- From the moment `stop_` is set, under every schedule of the others and whatever the length of the queue, a worker
returns after at most 14 of its own statements and a call of `enqueue` ends after at most 3, and until then each of
them can take its next statement; the return of a task counts as a statement of its worker. -/
theorem stopped_pool_winds_down (sem : Semaphore) (pool : Pool) (hstop : pool.stop = true) :
    (∀ worker < pool.workers.length, Within (step sem) (fun _ _ ↦ True) (Action.ofWorker worker) 14
      (fun pool ↦ pool.workers[worker]? = some .exited) pool) ∧
    ∀ call < pool.calls.length, Within (step sem) (fun _ _ ↦ True) (Action.ofCall call) 3
      (fun pool ↦ pool.calls[call]? = some .returned ∨ pool.calls[call]? = some .threw) pool := by
  constructor
  · intro worker hlt
    refine (worker_returns hstop (List.getElem?_eq_getElem hlt)).mono ?_
    cases pool.workers[worker] <;> simp [WorkerPc.statementsLeft]
  · intro call hlt
    refine (call_ends hstop (List.getElem?_eq_getElem hlt)).mono ?_
    cases pool.calls[call] <;> simp [EnqueuePc.statementsLeft]

theorem stopped_pool_winds_down_one :
    ∃ stopped, run (step .uncapped) (Pool.create 1) shutdownTrace = some stopped ∧
      Within (step .uncapped) (fun _ _ ↦ True) (Action.ofWorker 0) 14
        (fun pool ↦ pool.workers[0]? = some .exited) stopped := by
  have hrun : run (step .uncapped) (Pool.create 1) shutdownTrace = some _ := rfl
  exact ⟨_, hrun, (stopped_pool_winds_down .uncapped _ rfl).1 0 (by decide)⟩

/-- Three statements for each closure in the queue and three more bring the body of the destructor to its end. From
the moment `stop_` is set, and if nobody starts another worker, these and 14 statements for each worker also let all
workers return, which is what the joins after the body wait for; until then one of them can take its next statement. -/
theorem destructor_completes (sem : Semaphore) (pool closing : Pool)
    (hcall : step sem pool .callDestructor = some closing) :
    Within (step sem) (fun _ _ ↦ True) Action.ofDestructor (3 * pool.queue.length + 3)
        (fun pool ↦ pool.destructor = .finished) closing ∧
      ∀ (actions : List Action) (stopping : Pool), run (step sem) closing actions = some stopping →
        stopping.stop = true → Within (step sem) SpawnsNone Action.ofDestruction
          (3 * stopping.queue.length + 3 + 14 * stopping.workers.length) Pool.Joined stopping := by
  simp only [step, Option.ite_none_right_eq_some, Option.some.injEq] at hcall
  obtain ⟨⟨-, hidle⟩, rfl⟩ := hcall
  have hclosing : Pool.Closing { pool with destructor := .setStop } := ⟨by simp, hidle⟩
  refine ⟨destructor_ends hclosing, fun actions stopping hrun hstop ↦ ?_⟩
  have hstopping : stopping.Closing := run_invariant (fun _ _ _ h hstep ↦ h.step hstep) hclosing hrun
  exact (destruction_ends hstopping hstop).mono (destructionLeft_le stopping)

/-- One closure was pushed, and the worker has not begun. -/
def oneQueued : Pool where
  queue := [0]
  targetThreadCount := 1
  taskSem := 1
  leftover := 1
  calls := [.returned]
  workers := [.start]
  pushed := [0]

theorem destructor_completes_one :
    run (step .uncapped) (Pool.create 1) (.callEnqueue :: List.replicate 4 (.enqueue 0 true)) = some oneQueued ∧
      ∃ closing stopping, step .uncapped oneQueued .callDestructor = some closing ∧
        run (step .uncapped) closing [.worker 0 false, .worker 0 false, .destructor] = some stopping ∧
        Within (step .uncapped) (fun _ _ ↦ True) Action.ofDestructor 6 (fun pool ↦ pool.destructor = .finished)
          closing ∧
        Within (step .uncapped) SpawnsNone Action.ofDestruction 20 Pool.Joined stopping := by
  have hcall : step .uncapped oneQueued .callDestructor = some { oneQueued with destructor := .setStop } := rfl
  have hrun : run (step .uncapped) { oneQueued with destructor := .setStop }
      [.worker 0 false, .worker 0 false, .destructor] = some _ := rfl
  obtain ⟨hbody, hjoins⟩ := destructor_completes .uncapped _ _ hcall
  exact ⟨rfl, _, _, hcall, hrun, hbody, hjoins _ _ hrun rfl⟩

/-! ## The end -/

/-- Between the two updates of `active_threads_`. -/
def WorkerPc.isCounted : WorkerPc → Bool
  | .start | .exited => false
  | _ => true

/-- `active_threads_` counts the workers that have begun and not returned; the queue is empty once the destructor
is through. -/
structure Pool.Settling (pool : Pool) : Prop where
  active : pool.activeThreads = pool.workers.countP WorkerPc.isCounted
  idle : pool.destructor ≠ .notStarted → ∀ pc ∈ pool.calls, pc.inProgress = false
  emptied : pool.destructor = .finished → pool.queue = []

theorem workerStep_active {worker : ℕ} {granted : Bool} {pc : WorkerPc} (hpc : pool.workers[worker]? = some pc)
    (h : pool.workerStep worker granted pc = some next)
    (hactive : pool.activeThreads = pool.workers.countP WorkerPc.isCounted) :
    next.activeThreads = next.workers.countP WorkerPc.isCounted := by
  have hset := countP_set_of_getElem? WorkerPc.isCounted hpc
  have hle := toNat_le_countP WorkerPc.isCounted hpc
  cases workerMove_of_step h with
  | start =>
    simp [Pool.setWorker, hset, WorkerPc.isCounted, hactive]
  | exchanged | leave =>
    simp only [WorkerPc.isCounted, Bool.toNat_true] at hle
    simp [Pool.setWorker, hset, WorkerPc.isCounted]
    omega
  | _ =>
    simp only [WorkerPc.isCounted, Bool.toNat_true] at hle
    simp [Pool.setWorker, hset, WorkerPc.isCounted, hactive]

theorem active_of_step (h : step sem pool action = some next)
    (hactive : pool.activeThreads = pool.workers.countP WorkerPc.isCounted) :
    next.activeThreads = next.workers.countP WorkerPc.isCounted := by
  obtain ⟨-, -, rfl⟩ | ⟨call, accepted, _, -, -, h⟩ | ⟨worker, granted, pc, -, hpc, h⟩ | ⟨_, -, rfl⟩ |
    ⟨control, _, -, -, h⟩ | ⟨-, -, -, rfl⟩ | ⟨-, h⟩ := step_cases h
  · exact hactive
  · have hsame : next.activeThreads = pool.activeThreads := by cases enqueueMove_of_step h <;> rfl
    rw [hsame, (enqueueStep_frame h).1]
    exact hactive
  · exact workerStep_active hpc h hactive
  · exact hactive
  · rw [controlStep_activeThreads h]
    obtain hsame | hspawned := controlStep_workers h
    · rw [hsame]
      exact hactive
    · rw [hspawned, countP_append_singleton]
      exact hactive
  · exact hactive
  · have hsame : next.activeThreads = pool.activeThreads := by
      generalize pool.destructor = pc at h
      cases pc <;> simp only [Pool.destructorStep] at h <;> (try split at h) <;> cases h <;> rfl
    rw [hsame, (destructorStep_frame h).2.1]
    exact hactive

/-- The destructor ends at an empty queue, and nobody fills it afterwards. -/
theorem emptied_of_step (h : step sem pool action = some next) (hpool : pool.Settling)
    (hfinished : next.destructor = .finished) : next.queue = [] := by
  by_cases hbefore : pool.destructor = .finished
  · have hstarted : pool.destructor ≠ .notStarted := by
      rw [hbefore]
      rintro ⟨⟩
    have hother : action.ofDestructor = false := by
      cases action with
      | destructor =>
        simp only [step, hbefore] at h
        cases h
      | _ => rfl
    have hle := (Pool.Closing.queue_le ⟨hstarted, hpool.idle hstarted⟩ h hother).2
    rw [hpool.emptied hbefore] at hle
    exact List.eq_nil_of_length_eq_zero (Nat.le_zero.mp hle)
  · obtain ⟨-, -, rfl⟩ | ⟨call, accepted, _, -, -, h⟩ | ⟨worker, granted, pc, -, -, h⟩ | ⟨_, -, rfl⟩ |
      ⟨control, _, -, -, h⟩ | ⟨-, -, -, rfl⟩ | ⟨-, h⟩ := step_cases h
    · exact absurd hfinished hbefore
    · exact absurd ((enqueueStep_frame h).2.1 ▸ hfinished) hbefore
    · exact absurd ((workerStep_frame h).2.1 ▸ hfinished) hbefore
    · exact absurd hfinished hbefore
    · exact absurd ((controlStep_frame h).2.1 ▸ hfinished) hbefore
    · cases hfinished
    · generalize pool.destructor = pc at h
      cases pc with
      | pop =>
        simp only [Pool.destructorStep] at h
        split at h
        · rename_i hqueue
          cases h
          exact hqueue
        · cases h
          cases hfinished
      | notStarted | finished => cases h
      | _ =>
        cases h
        cases hfinished

theorem settling_of_run {numThreads : ℕ} {actions : List Action}
    (hrun : run (step sem) (Pool.create numThreads) actions = some pool) : pool.Settling := by
  refine run_invariant (I := Pool.Settling) ?_ ?_ hrun
  · intro pool action next h hstep
    exact ⟨active_of_step hstep h.active, idle_of_step hstep h.idle, emptied_of_step hstep h⟩
  · exact ⟨by simp [Pool.create, List.countP_replicate, WorkerPc.isCounted], fun h ↦ absurd rfl h, by rintro ⟨⟩⟩

section End

variable {task : TaskId} (hfinished : pool.destructor = .finished) (hexited : ∀ pc ∈ pool.workers, pc = .exited)
  (hover : ∀ pc ∈ pool.calls, pc.inProgress = false) (hqueue : pool.queue = [])

include hexited in
theorem countP_exited (p : WorkerPc → Bool) (hp : p .exited = false) : pool.workers.countP p = 0 := by
  rw [List.countP_eq_zero]
  intro pc hmem
  rw [hexited pc hmem, hp]
  exact Bool.false_ne_true

include hover in
theorem entryCount_over (p : EnqueuePc → Bool) (hreturned : p .returned = false) (hthrew : p .threw = false) :
    entryCount p pool.calls task = 0 := by
  cases hpc : pool.calls[task]? with
  | none => rw [entryCount, hpc, Option.elim_none]
  | some pc =>
    rw [entryCount_of_getElem? _ hpc]
    have hdone := hover pc (List.mem_of_getElem? hpc)
    cases pc with
    | returned =>
      rw [hreturned]
      rfl
    | threw =>
      rw [hthrew]
      rfl
    | _ => cases hdone

include hfinished hexited hover hqueue in
/-- With nobody left to hold it, a closure was freed as often as it was passed to `enqueue`. -/
theorem count_freed (hbooks : Accounted pool task) (horder : InOrder pool) :
    pool.freed.count task = entryCount (fun _ ↦ true) pool.calls task := by
  obtain ⟨entered, left, freed, -, -⟩ := hbooks
  have hheld : (pool.destructor.holds task).toNat = 0 := by
    rw [hfinished]
    rfl
  rw [countP_exited hexited _ rfl] at left freed
  rw [horder, hqueue, List.append_nil, entryCount_over hover EnqueuePc.holdsTask rfl rfl] at entered
  omega

include hfinished hexited hover hqueue in
theorem leftover_eq_zero (hcounted : pool.Counted) : pool.leftover = 0 := by
  have howed : pool.pushedUncounted = 0 := by
    rw [Pool.pushedUncounted, List.countP_eq_zero]
    intro pc hmem
    have hdone := hover pc hmem
    cases pc with
    | returned | threw => exact Bool.false_ne_true
    | _ => cases hdone
  unfold Pool.Counted Pool.poppedUncounted at hcounted
  rw [howed, hqueue, countP_exited hexited _ rfl, hfinished] at hcounted
  simpa [DestructorPc.holdsCounted] using hcounted

end End

theorem entryCount_true_eq_count_range {α : Type*} (table : List α) (index : ℕ) :
    entryCount (fun _ ↦ true) table index = (List.range table.length).count index := by
  by_cases hlt : index < table.length
  · rw [entryCount, List.getElem?_eq_getElem hlt, Option.elim_some, Bool.toNat_true,
      List.count_eq_one_of_mem List.nodup_range (List.mem_range.mpr hlt)]
  · rw [entryCount, List.getElem?_eq_none (Nat.le_of_not_lt hlt), Option.elim_none,
      List.count_eq_zero_of_not_mem fun hmem ↦ hlt (List.mem_range.mp hmem)]

/-- Once the pool is destroyed and its workers have returned, every closure that was ever passed to `enqueue` has
been freed exactly once, the queue is empty and both counters are back at zero. -/
theorem destroyed_pool_owes_nothing (sem : Semaphore) (numThreads : ℕ) (actions : List Action) (pool : Pool)
    (hrun : run (step sem) (Pool.create numThreads) actions = some pool) (hfinished : pool.destructor = .finished)
    (hexited : ∀ pc ∈ pool.workers, pc = .exited) :
    pool.freed.Perm (List.range pool.calls.length) ∧ pool.queue = [] ∧ pool.leftover = 0 ∧
      pool.activeThreads = 0 := by
  obtain ⟨hactive, hidle, hemptied⟩ := settling_of_run hrun
  obtain ⟨hbooks, horder⟩ := books_of_run hrun
  have hqueue := hemptied hfinished
  have hover := hidle (by rw [hfinished]; rintro ⟨⟩)
  refine ⟨?_, hqueue, ?_, ?_⟩
  · rw [List.perm_iff_count]
    intro task
    rw [count_freed hfinished hexited hover hqueue (hbooks task) horder, entryCount_true_eq_count_range]
  · apply leftover_eq_zero hfinished hexited hover hqueue
    exact run_invariant (I := Pool.Counted) (fun _ _ _ h hstep ↦ counted_of_step hstep h)
      (Pool.counted_create numThreads) hrun
  · rw [hactive, countP_exited hexited _ rfl]
    rfl

/-- A task is run, another one is left in the queue, and the pool is destroyed. -/
def destroyedTrace : List Action :=
  threeFatesTrace ++ List.replicate 3 .destructor ++ List.replicate 5 (.worker 0 false)

theorem destroyed_pool_owes_nothing_three :
    ∃ pool, run (step .uncapped) (Pool.create 1) destroyedTrace = some pool ∧
      pool.freed.Perm [0, 1, 2] ∧ pool.leftover = 0 ∧ pool.activeThreads = 0 := by
  have hrun : run (step .uncapped) (Pool.create 1) destroyedTrace = some _ := rfl
  obtain ⟨hfreed, -, hleftover, hactive⟩ :=
    destroyed_pool_owes_nothing .uncapped 1 destroyedTrace _ hrun rfl (by decide)
  exact ⟨_, hrun, hfreed, hleftover, hactive⟩

end TinyReactor.ThreadPool
