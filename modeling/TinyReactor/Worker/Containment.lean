import TinyReactor.Transition.Progress
import TinyReactor.Worker.Closures

/-!
# Failures of user code

`run_task` turns a `std::exception` of the registered function into a failed task or a retry, and the worker
that called the closure goes on. Nothing above `run_task` catches anything, so a function that throws any
other value ends the process.
-/

namespace TinyReactor.Worker

open Transition Wire ThreadPool

/-- The action is a statement of this worker. -/
def stepsOf (executor worker : ℕ) (action : Action) : Bool := action.mover == some (executor, worker)

/-- `run_task` has returned to the worker, and the task is concluded. -/
def Returned (executor worker call task attempt : ℕ) (process : Process) : Prop :=
  process.workerPc? executor worker = some (.free call) ∧
    ∃ record pc, process.system.runs[task]? = some record ∧ record.attempts[attempt]? = some pc ∧
      pc.hasReturned = true ∧ record.Concluded

/-- No failure of user code has done harm: the process runs; a worker inside `run_task` returns from it after at
most eleven statements of its own, whatever the other threads do, and leaves the task concluded; it then frees the
closure, counts it off and comes back to the semaphore. -/
structure Contained (sem : Semaphore) (process : Process) : Prop where
  running : process.system.terminated = false
  returns : ∀ executor worker call, process.workerPc? executor worker = some (.running call) →
    ∃ task attempt, process.closure? executor call = some (task, attempt) ∧
      Within (step sem) EndsCaught (stepsOf executor worker) 11 (Returned executor worker call task attempt) process
  frees : ∀ executor worker call host granted nowMs outcome, process.hosts[executor]? = some host →
    host.pool.workers[worker]? = some (.free call) →
    ∃ pool, step sem process (.worker executor worker granted nowMs outcome) =
        some (process.setHost executor { host with pool }) ∧
      pool.freed = host.pool.freed ++ [call] ∧ pool.workers[worker]? = some .uncount
  uncounts : ∀ executor worker host granted nowMs outcome, process.hosts[executor]? = some host →
    host.pool.workers[worker]? = some .uncount →
    ∃ pool, step sem process (.worker executor worker granted nowMs outcome) =
        some (process.setHost executor { host with pool }) ∧
      pool.leftover = host.pool.leftover - 1 ∧ pool.workers[worker]? = some .loadActive
  serves : ∀ executor worker, process.workerPc? executor worker = some .loadActive →
    Within (step sem) EndsCaught (stepsOf executor worker) 3
      (fun later ↦ later.workerPc? executor worker = some .acquire) process

variable {sem : Semaphore} {process next : Process} {executor worker call task attempt : ℕ}
  {mover : Option (ℕ × ℕ)} {pc : WorkerPc}

/-! ## What the other threads leave alone -/

theorem attemptPc?_of_step {act : Executor.Action} {attemptPc : Executor.AttemptPc}
    (hstep : Executor.step process.system act = some next.system)
    (hpc : process.attemptPc? task attempt = some attemptPc)
    (hother : ∀ nowMs outcome, act ≠ .act task (.attempt attempt nowMs outcome)) :
    next.attemptPc? task attempt = some attemptPc := by
  obtain ⟨record, hrecord, hattempt⟩ := Option.bind_eq_some_iff.mp hpc
  obtain ⟨moved, hmoved, -, hstays | ⟨nowMs, outcome, hact⟩⟩ := Executor.attempt_of_step hstep hrecord hattempt
  · simp [Process.attemptPc?, hmoved, hstays]
  · exact absurd hact (hother nowMs outcome)

theorem workerPc?_set {host host' : Host} {other place : ℕ} (hhost : process.hosts[executor]? = some host)
    (hnext : next.hosts = process.hosts.set executor host')
    (hframe : executor = other → host'.pool.workers[place]? = host.pool.workers[place]?) :
    next.workerPc? other place = process.workerPc? other place := by
  by_cases hother : executor = other
  · subst hother
    simp [Process.workerPc?, hnext, List.getElem?_set_self (lt_length_of_getElem? hhost), hhost, hframe rfl]
  · simp [Process.workerPc?, hnext, List.getElem?_set_ne hother]

theorem closure?_set {host host' : Host} {other place : ℕ} {closure : ℕ × ℕ}
    (hhost : process.hosts[executor]? = some host) (hnext : next.hosts = process.hosts.set executor host')
    (hframe : ∀ closure, host.closures[place]? = some closure → host'.closures[place]? = some closure)
    (hclosure : process.closure? other place = some closure) : next.closure? other place = some closure := by
  by_cases hother : executor = other
  · subst hother
    simp only [Process.closure?, hhost, Option.bind_some] at hclosure
    simp [Process.closure?, hnext, List.getElem?_set_self (lt_length_of_getElem? hhost), hframe closure hclosure]
  · simpa [Process.closure?, hnext, List.getElem?_set_ne hother] using hclosure

/-- A worker is moved by its own statements only. -/
theorem workerPc?_of_moves (hbound : Bound process) (h : Moves sem process mover next)
    (hother : mover ≠ some (executor, worker)) (hpc : process.workerPc? executor worker = some pc) :
    next.workerPc? executor worker = some pc := by
  -- another worker of the same pool has another index
  have hplace {moving place : ℕ} (hmoving : some (moving, place) ≠ some (executor, worker)) (hsame : moving = executor)
      (workers : List WorkerPc) (pc' : WorkerPc) : (workers.set place pc')[worker]? = workers[worker]? := by
    apply List.getElem?_set_ne
    rintro rfl
    exact hmoving (by rw [hsame])
  cases h with
  | constructs hstep =>
    obtain ⟨host, hhost, hworker⟩ := Option.bind_eq_some_iff.mp hpc
    simp [Process.workerPc?, List.getElem?_append_left (lt_length_of_getElem? hhost), hhost, hworker]
  | steps | runs => exact hpc
  | posts hstep _ _ _ _ _ hhost hpool =>
    rw [workerPc?_set hhost rfl]
    · exact hpc
    · intro
      simp only [ThreadPool.step, Option.ite_none_right_eq_some, Option.some.injEq] at hpool
      obtain ⟨-, rfl⟩ := hpool
      rfl
  | enqueues hhost hpool =>
    obtain ⟨_, -, hmove⟩ := Option.bind_eq_some_iff.mp hpool
    rw [workerPc?_set hhost rfl fun _ ↦ by rw [(enqueueStep_frame hmove).1], hpc]
  | works hhost hworker _ hpool =>
    obtain ⟨pc', hworkers, -⟩ := (hbound.hosted _ _ hhost).staffed.stays_workerStep hworker hpool
    rw [workerPc?_set hhost rfl fun hsame ↦ by rw [hworkers, hplace hother hsame], hpc]
  | returns hhost _ _ _ _ _ =>
    rw [workerPc?_set hhost rfl fun hsame ↦ hplace hother hsame _ _]
    exact hpc

theorem closure?_of_moves (h : Moves sem process mover next) {closure : ℕ × ℕ}
    (hclosure : process.closure? executor call = some closure) : next.closure? executor call = some closure := by
  cases h with
  | constructs hstep =>
    obtain ⟨host, hhost, hplace⟩ := Option.bind_eq_some_iff.mp hclosure
    simp [Process.closure?, List.getElem?_append_left (lt_length_of_getElem? hhost), hhost, hplace]
  | steps | runs => exact hclosure
  | posts hstep _ _ _ _ _ hhost hpool =>
    refine closure?_set hhost rfl (fun closure hold ↦ ?_) hclosure
    rw [List.getElem?_append_left (lt_length_of_getElem? hold), hold]
  | enqueues hhost _ | works hhost _ _ _ | returns hhost _ _ _ _ _ =>
    exact closure?_set hhost rfl (fun _ hold ↦ hold) hclosure

/-- The attempt of a running closure is moved by the statements of its worker only. -/
theorem attemptPc?_of_moves (hbound : Bound process) (h : Moves sem process mover next)
    (hother : mover ≠ some (executor, worker)) {attemptPc : Executor.AttemptPc}
    (hpc : process.workerPc? executor worker = some (.running call))
    (hclosure : process.closure? executor call = some (task, attempt))
    (hattempt : process.attemptPc? task attempt = some attemptPc) : next.attemptPc? task attempt = some attemptPc := by
  obtain ⟨host, hhost, hrunning⟩ := Option.bind_eq_some_iff.mp hpc
  have hplace : host.closures[call]? = some (task, attempt) := by
    simpa [Process.closure?, hhost] using hclosure
  -- a worker that executes this attempt runs this closure, so it is this worker
  have hmine {moving place call' task' attempt' : ℕ} {host' : Host} {nowMs : UInt64} {outcome : Executor.Outcome}
      (hmoving : some (moving, place) ≠ some (executor, worker)) (hhost' : process.hosts[moving]? = some host')
      (hpc' : host'.pool.workers[place]? = some (.running call'))
      (hclosure' : host'.closures[call']? = some (task', attempt')) (nowMs' : UInt64) (outcome' : Executor.Outcome) :
      Executor.Action.act task' (.attempt attempt' nowMs outcome) ≠ .act task (.attempt attempt nowMs' outcome') := by
    rintro ⟨⟩
    obtain rfl := hbound.owner_unique hhost' hclosure' hhost hplace
    obtain rfl : host' = host := Option.some.inj (hhost'.symm.trans hhost)
    have hhosted := hbound.hosted _ _ hhost
    obtain rfl : call' = call :=
      (List.getElem?_inj (lt_length_of_getElem? hclosure') hhosted.nodup).mp (hclosure'.trans hplace.symm)
    exact hmoving (by rw [running_unique hhosted.books hhosted.inOrder hpc' hrunning])
  cases h with
  | constructs hstep => exact attemptPc?_of_step hstep hattempt (by simp)
  | steps hstep hact | posts hstep hact _ _ _ _ _ _ => exact attemptPc?_of_step hstep hattempt (hact task attempt)
  | enqueues | works => exact hattempt
  | runs hhost' hpc' hclosure' _ hstep _ | returns hhost' hpc' hclosure' _ hstep _ =>
    exact attemptPc?_of_step hstep hattempt (hmine hother hhost' hpc' hclosure')

/-! ## Inside `run_task` -/

/-- The worker runs the closure, and its attempt has so many statements to go. -/
structure Inside (executor worker call task attempt rank : ℕ) (process : Process) : Prop where
  bound : Bound process
  running : process.workerPc? executor worker = some (.running call)
  closure : process.closure? executor call = some (task, attempt)
  statement : ∃ pc, process.attemptPc? task attempt = some pc ∧ pc.statementsLeft = rank

variable {rank : ℕ}

theorem inside_of_running (h : Bound process) (hpc : process.workerPc? executor worker = some (.running call)) :
    ∃ task attempt rank, Inside executor worker call task attempt rank process := by
  obtain ⟨host, hhost, hrunning⟩ := Option.bind_eq_some_iff.mp hpc
  have hhosted := h.hosted executor host hhost
  have hlength : call < host.closures.length := by
    rw [hhosted.length]
    exact lt_length_of_running hhosted.books hhosted.inOrder hrunning
  obtain ⟨⟨task, attempt⟩, hclosure⟩ : ∃ closure, host.closures[call]? = some closure :=
    ⟨_, List.getElem?_eq_getElem hlength⟩
  obtain ⟨record, pc, hrecord, -, hattempt, -⟩ := hhosted.attempts call task attempt hclosure
  refine ⟨task, attempt, pc.statementsLeft, h, hpc, ?_, pc, ?_, rfl⟩
  · simpa [Process.closure?, hhost] using hclosure
  · simp [Process.attemptPc?, hrecord, hattempt]

/-- The worker can always take the next statement. -/
theorem Inside.ready (h : Inside executor worker call task attempt rank process) :
    0 < rank ∧ ∃ action, stepsOf executor worker action = true ∧ EndsCaught process action ∧
      (step sem process action).isSome = true := by
  obtain ⟨host, hhost, hrunning⟩ := Option.bind_eq_some_iff.mp h.running
  obtain ⟨pc, hpc, rfl⟩ := h.statement
  have hclosure : host.closures[call]? = some (task, attempt) := by
    simpa [Process.closure?, hhost] using h.closure
  obtain ⟨record, pc', hrecord, hexecutor, hattempt, hfits⟩ :=
    (h.bound.hosted executor host hhost).attempts call task attempt hclosure
  obtain rfl : pc' = pc := by simpa [Process.attemptPc?, hrecord, hattempt] using hpc
  have hleft := hfits.inside worker hrunning
  have hlt : record.executor < process.system.executors.length := by
    rw [hexecutor]
    exact Nat.lt_of_lt_of_le (lt_length_of_getElem? hhost) h.bound.executors
  refine ⟨hleft, .worker executor worker false 0 (.returns .null), by simp [stepsOf, Action.mover],
    fun _ _ _ ↦ rfl, ?_⟩
  have henabled : (Executor.step process.system (.act task (.attempt attempt 0 (.returns .null)))).isSome = true :=
    Executor.statement_enabled h.bound.running hrecord hlt hattempt hleft
  obtain ⟨system, hsystem⟩ := Option.isSome_iff_exists.mp henabled
  simp only [step, h.bound.running, Process.workerStep, hhost, hrunning, Option.bind_some, Process.runStep, hclosure,
    hsystem, Bool.false_eq_true, if_false]
  split <;> rfl

/-- A statement of the worker leaves fewer of them, or it is the last one. -/
theorem Inside.own (h : Inside executor worker call task attempt rank process)
    (hmoves : Moves sem process (some (executor, worker)) next) :
    Returned executor worker call task attempt next ∨
      ∃ rank' < rank, Inside executor worker call task attempt rank' next := by
  have hbound := bound_of_moves h.bound hmoves
  obtain ⟨host, hhost, hrunning⟩ := Option.bind_eq_some_iff.mp h.running
  have hclosure : host.closures[call]? = some (task, attempt) := by
    simpa [Process.closure?, hhost] using h.closure
  obtain ⟨pc, hpc, rfl⟩ := h.statement
  have hsame {host' : Host} (hhost' : process.hosts[executor]? = some host') : host' = host :=
    Option.some.inj (hhost'.symm.trans hhost)
  have hkept := closure?_of_moves hmoves h.closure
  cases hmoves with
  | works hhost' hpc' hoff _ =>
    obtain rfl := hsame hhost'
    exact absurd (Option.some.inj (hpc'.symm.trans hrunning)) (hoff call)
  | runs hhost' hpc' hclosure' hcaught hstep _ =>
    obtain rfl := hsame hhost'
    cases Option.some.inj (hpc'.symm.trans hrunning)
    cases Option.some.inj (hclosure'.symm.trans hclosure)
    obtain ⟨record, moved, old, new, hrecord, hold, hmoved, hnew, -, hless, -⟩ :=
      Executor.statement_of_step hstep (onTasks_of_caught hcaught)
    obtain rfl : old = pc := by simpa [Process.attemptPc?, hrecord, hold] using hpc
    refine .inr ⟨new.statementsLeft, hless, hbound, h.running, hkept, new, ?_, rfl⟩
    simp [Process.attemptPc?, hmoved, hnew]
  | returns hhost' hpc' hclosure' hcaught hstep hreturned =>
    obtain rfl := hsame hhost'
    cases Option.some.inj (hpc'.symm.trans hrunning)
    cases Option.some.inj (hclosure'.symm.trans hclosure)
    obtain ⟨record, moved, old, new, hrecord, hold, hmoved, hnew, -, -, htask⟩ :=
      Executor.statement_of_step hstep (onTasks_of_caught hcaught)
    have hended : new.hasReturned = true := by simpa [Process.attemptPc?, hmoved, hnew] using hreturned
    refine .inl ⟨?_, moved, new, hmoved, hnew, hended, ?_⟩
    · simp [Process.workerPc?, Process.setHost, List.getElem?_set_self (lt_length_of_getElem? hhost), Pool.setWorker,
        List.getElem?_set_self (lt_length_of_getElem? hrunning)]
    · exact Executor.TaskRun.concluded_of_returned (h.bound.reporting task record hrecord) htask hnew hended

theorem Inside.other (h : Inside executor worker call task attempt rank process)
    (hmoves : Moves sem process mover next) (hother : mover ≠ some (executor, worker)) :
    Inside executor worker call task attempt rank next := by
  obtain ⟨pc, hpc, hrank⟩ := h.statement
  exact ⟨bound_of_moves h.bound hmoves, workerPc?_of_moves h.bound hmoves hother h.running,
    closure?_of_moves hmoves h.closure, pc, attemptPc?_of_moves h.bound hmoves hother h.running h.closure hpc, hrank⟩

theorem Inside.returns_within (h : Inside executor worker call task attempt rank process) :
    Within (step sem) EndsCaught (stepsOf executor worker) rank (Returned executor worker call task attempt)
      process := by
  apply within_of_rank (P := Inside executor worker call task attempt) _ _ _ h
  · exact fun rank state hinside ↦ hinside.ready
  · intro rank state action next hinside hown hcaught hstep
    have hmoves := moves_of_step hstep hcaught
    rw [stepsOf, beq_iff_eq] at hown
    rw [hown] at hmoves
    exact hinside.own hmoves
  · intro rank state action next hinside hother hcaught hstep
    rw [stepsOf, beq_eq_false_iff_ne] at hother
    exact hinside.other (moves_of_step hstep hcaught) hother

theorem Inside.rank_le (h : Inside executor worker call task attempt rank process) : rank ≤ 11 := by
  obtain ⟨pc, -, rfl⟩ := h.statement
  cases pc <;> simp [Executor.AttemptPc.statementsLeft]

/-! ## Back in `ThreadPool::worker` -/

/-- Outside its closure a worker executes the statements of `ThreadPool::worker`. -/
theorem step_outside {host : Host} {pool' : Pool} {granted : Bool} {nowMs : UInt64} {outcome : Executor.Outcome}
    (hrunning : process.system.terminated = false) (hhost : process.hosts[executor]? = some host)
    (hpc : host.pool.workers[worker]? = some pc) (hoff : ∀ call, pc ≠ .running call)
    (hpool : host.pool.workerStep worker granted pc = some pool') :
    step sem process (.worker executor worker granted nowMs outcome) =
      some (process.setHost executor { host with pool := pool' }) := by
  simp only [step, hrunning, Process.workerStep, hhost, hpc, Option.bind_some, Bool.false_eq_true, if_false, hpool,
    Option.map_some]

/-- The statements from the end of a job to the next wait for the semaphore. -/
def homeward : WorkerPc → ℕ
  | .loadActive => 3
  | .compareTarget _ => 2
  | .loop => 1
  | _ => 0

/-- The worker is on its way back to the semaphore. -/
structure Homeward (executor worker rank : ℕ) (process : Process) : Prop where
  bound : Bound process
  positive : 0 < rank
  place : ∃ pc, process.workerPc? executor worker = some pc ∧ homeward pc = rank

theorem Homeward.next_place {host : Host} (h : Hosted process.system executor host)
    (hpc : host.pool.workers[worker]? = some pc) (hhome : 0 < homeward pc) (granted : Bool) :
    ∃ pool pc', host.pool.workerStep worker granted pc = some pool ∧ pool.workers[worker]? = some pc' ∧
      (pc' = .acquire ∨ (0 < homeward pc' ∧ homeward pc' < homeward pc)) := by
  have hplace (pc' : WorkerPc) : (host.pool.setWorker worker pc').workers[worker]? = some pc' :=
    List.getElem?_set_self (lt_length_of_getElem? hpc)
  cases pc with
  | loadActive => exact ⟨_, _, rfl, hplace _, .inr ⟨by simp [homeward], by simp [homeward]⟩⟩
  | compareTarget active =>
    have hstays : active ≤ host.pool.targetThreadCount := h.staffed.staff _ (List.mem_of_getElem? hpc)
    refine ⟨_, .loop, rfl, ?_, .inr ⟨by simp [homeward], by simp [homeward]⟩⟩
    rw [if_neg (Int.not_lt.mpr hstays), hplace]
  | loop =>
    refine ⟨_, .acquire, rfl, ?_, .inl rfl⟩
    simp only [h.staffed.stop, Bool.false_eq_true, if_false]
    exact hplace _
  | _ => cases hhome

theorem Homeward.ready (h : Homeward executor worker rank process) :
    0 < rank ∧ ∃ action, stepsOf executor worker action = true ∧ EndsCaught process action ∧
      (step sem process action).isSome = true := by
  obtain ⟨pc, hpc, rfl⟩ := h.place
  obtain ⟨host, hhost, hworker⟩ := Option.bind_eq_some_iff.mp hpc
  obtain ⟨pool, pc', hpool, -⟩ := Homeward.next_place (h.bound.hosted executor host hhost) hworker h.positive false
  have hoff : ∀ call, pc ≠ .running call := by
    rintro call rfl
    cases h.positive
  refine ⟨h.positive, .worker executor worker false 0 (.returns .null), by simp [stepsOf, Action.mover],
    fun _ _ _ ↦ rfl, ?_⟩
  rw [step_outside h.bound.running hhost hworker hoff hpool]
  rfl

theorem Homeward.own (h : Homeward executor worker rank process)
    (hmoves : Moves sem process (some (executor, worker)) next) :
    next.workerPc? executor worker = some .acquire ∨ ∃ rank' < rank, Homeward executor worker rank' next := by
  have hbound := bound_of_moves h.bound hmoves
  obtain ⟨pc, hpc, rfl⟩ := h.place
  obtain ⟨host, hhost, hworker⟩ := Option.bind_eq_some_iff.mp hpc
  have hpositive := h.positive
  have hsame {host' : Host} (hhost' : process.hosts[executor]? = some host') : host' = host :=
    Option.some.inj (hhost'.symm.trans hhost)
  cases hmoves with
  | works hhost' hpc' hoff hpool =>
    rename_i granted host' moving pool
    obtain rfl : host' = host := hsame hhost'
    obtain rfl : moving = pc := Option.some.inj (hpc'.symm.trans hworker)
    obtain ⟨_, pc', hpool', hplace, hnext⟩ :=
      Homeward.next_place (h.bound.hosted executor host' hhost) hworker h.positive granted
    obtain rfl : pool = _ := Option.some.inj (hpool.symm.trans hpool')
    have hmoved : (process.setHost executor { host' with pool }).workerPc? executor worker = some pc' := by
      simp [Process.workerPc?, Process.setHost, List.getElem?_set_self (lt_length_of_getElem? hhost), hplace]
    obtain rfl | ⟨hleft, hless⟩ := hnext
    · exact .inl hmoved
    · exact .inr ⟨homeward pc', hless, hbound, hleft, pc', hmoved, rfl⟩
  | runs hhost' hpc' _ _ _ _ | returns hhost' hpc' _ _ _ _ =>
    obtain rfl := hsame hhost'
    cases Option.some.inj (hpc'.symm.trans hworker)
    cases hpositive

theorem Homeward.serves_within (h : Homeward executor worker rank process) :
    Within (step sem) EndsCaught (stepsOf executor worker) rank
      (fun later ↦ later.workerPc? executor worker = some .acquire) process := by
  apply within_of_rank (P := Homeward executor worker) _ _ _ h
  · exact fun rank state hhome ↦ hhome.ready
  · intro rank state action next hhome hown hcaught hstep
    have hmoves := moves_of_step hstep hcaught
    rw [stepsOf, beq_iff_eq] at hown
    rw [hown] at hmoves
    exact hhome.own hmoves
  · intro rank state action next hhome hother hcaught hstep
    rw [stepsOf, beq_eq_false_iff_ne] at hother
    have hmoves := moves_of_step hstep hcaught
    obtain ⟨pc, hpc, hrank⟩ := hhome.place
    exact ⟨bound_of_moves hhome.bound hmoves, hhome.positive, pc,
      workerPc?_of_moves hhome.bound hmoves hother hpc, hrank⟩

/-! ## Runs -/

theorem Bound.contained (h : Bound process) : Contained sem process where
  running := h.running
  returns executor worker call hpc := by
    obtain ⟨task, attempt, rank, hinside⟩ := inside_of_running h hpc
    exact ⟨task, attempt, hinside.closure, hinside.returns_within.mono hinside.rank_le⟩
  frees executor worker call host granted nowMs outcome hhost hpc := by
    refine ⟨_, step_outside h.running hhost hpc (by simp) rfl, rfl, ?_⟩
    exact List.getElem?_set_self (lt_length_of_getElem? hpc)
  uncounts executor worker host granted nowMs outcome hhost hpc := by
    refine ⟨_, step_outside h.running hhost hpc (by simp) rfl, rfl, ?_⟩
    exact List.getElem?_set_self (lt_length_of_getElem? hpc)
  serves executor worker hpc :=
    Homeward.serves_within ⟨h, by decide, .loadActive, hpc, rfl⟩

/-- A function that ends otherwise ends the process. -/
theorem terminated_of_uncaught {action : Action} (hstep : step sem process action = some next)
    (huncaught : ¬ EndsCaught process action) : next.system.terminated = true := by
  cases action with
  | worker executor worker granted nowMs outcome =>
    obtain ⟨pc, hpc, hcalls, houtcome⟩ : ∃ pc, process.statement? executor worker = some pc ∧
        pc.callsFunction = true ∧ outcome.caught = false := by
      simpa [EndsCaught] using huncaught
    unfold Process.statement? at hpc
    split at hpc
    · rename_i call hworker
      obtain ⟨⟨task, attempt⟩, hclosure, hattempt⟩ := Option.bind_eq_some_iff.mp hpc
      obtain ⟨host, hhost, hrunning⟩ := Option.bind_eq_some_iff.mp hworker
      obtain ⟨record, hrecord, hplace⟩ := Option.bind_eq_some_iff.mp hattempt
      have hclosure' : host.closures[call]? = some (task, attempt) := by
        simpa [Process.closure?, hhost] using hclosure
      unfold step at hstep
      split at hstep
      · cases hstep
      simp only [Process.workerStep, hhost, hrunning, Option.bind_some, Process.runStep, hclosure'] at hstep
      obtain ⟨system, hsystem, hreturn⟩ := Option.bind_eq_some_iff.mp hstep
      obtain ⟨hterminated, moved, timer, hmoved, hescaped⟩ :=
        Executor.escapes_of_step hsystem hrecord hplace hcalls houtcome
      have hinside : (Process.attemptPc? { process with system } task attempt).any
          Executor.AttemptPc.hasReturned = false := by
        simp [Process.attemptPc?, hmoved, hescaped, Executor.AttemptPc.hasReturned]
      rw [hinside] at hreturn
      cases hreturn
      exact hterminated
    · cases hpc
  | _ => exact absurd trivial huncaught

/-- Nothing runs once the process is gone, so a run that ends with the process alive met the condition. -/
theorem meets_of_running {actions : List Action} {final : Process} (hrun : run (step sem) process actions = some final)
    (hrunning : final.system.terminated = false) : Meets (step sem) EndsCaught process actions := by
  induction actions generalizing process with
  | nil => trivial
  | cons action rest ih =>
    obtain ⟨next, hnext, hrest⟩ := run_cons_some hrun
    constructor
    · by_contra huncaught
      have hterminated := terminated_of_uncaught hnext huncaught
      cases rest with
      | nil =>
        cases hrest
        cases hterminated.symm.trans hrunning
      | cons again rest =>
        obtain ⟨_, hagain, -⟩ := run_cons_some hrest
        unfold step at hagain
        rw [if_pos hterminated] at hagain
        cases hagain
    · intro next' hnext'
      cases hnext.symm.trans hnext'
      exact ih hrest

/-- Failures of user code are contained in a run exactly if every registered function that a worker called ended
with a value or with a `std::exception`. -/
theorem contained_iff (sem : Semaphore) {actions : List Action} {final : Process}
    (hrun : run (step sem) {} actions = some final) :
    Contained sem final ↔ Meets (step sem) EndsCaught {} actions := by
  constructor
  · intro h
    exact meets_of_running hrun h.running
  · intro h
    have hbound : Bound final := by
      apply h.invariant _ bound_create hrun
      intro state action next hstate hcaught hstep
      exact bound_of_moves hstate (moves_of_step hstep hcaught)
    exact hbound.contained

/-- A task is handed to a pool of one thread, which gets as far as the call of its function. -/
def callsDivide : List Action :=
  [.construct 1, .registerFunction 0 "divide", .executeTask 0 { funcName := "divide" }] ++
    List.replicate 4 (.enqueue 0 0 true) ++ List.replicate 11 (.worker 0 0 true 0 (.returns .null))

/-- The function throws a `std::exception`, and `run_task` returns. -/
def divideThrows : List Action :=
  .worker 0 0 true 0 (.throws { what := "division by zero" }) ::
    List.replicate 3 (.worker 0 0 true 0 (.returns .null))

theorem contained_iff_throws : ∃ final, run (step .uncapped) {} (callsDivide ++ divideThrows) = some final ∧
    final.workerPc? 0 0 = some (.free 0) ∧ Contained .uncapped final := by
  have hplace : (run (step .uncapped) {} (callsDivide ++ divideThrows)).map (fun process ↦
      process.workerPc? 0 0) = some (some (.free 0)) := by
    decide +kernel
  obtain ⟨final, hrun, hpc⟩ := Option.map_eq_some_iff.mp hplace
  exact ⟨final, hrun, hpc, (contained_iff .uncapped hrun).mpr (by decide +kernel)⟩

/-- The function throws something else, and the process is gone. -/
theorem escapes_and_terminates : ¬ ∀ (sem : Semaphore) (actions : List Action) (final : Process),
    run (step sem) {} actions = some final → Contained sem final := by
  intro h
  have hend : (run (step .uncapped) {} (callsDivide ++ [.worker 0 0 true 0 .throwsOther])).map (fun process ↦
      process.system.terminated) = some true := by
    decide +kernel
  obtain ⟨final, hrun, hterminated⟩ := Option.map_eq_some_iff.mp hend
  cases hterminated.symm.trans (h .uncapped _ final hrun).running

end TinyReactor.Worker
