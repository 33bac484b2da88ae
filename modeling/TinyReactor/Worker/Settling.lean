import TinyReactor.ThreadPool.Wakeup
import TinyReactor.Worker.Budget
import TinyReactor.Worker.Refinement

/-!
# No task is left behind

A task that is not yet `SUCCESS`, `FAILED` or `TIMEOUT` is in somebody's hand: a retry timer is to hand it over, an
`enqueue` or the queue holds its closure, or a worker runs it. Whoever it is can go on, and where the closure waits in
the queue there is a permit for a worker that polls. As the steps that lead on are paid for in advance, the process
settles all its tasks, under every schedule that lets the threads run.
-/

namespace TinyReactor.ThreadPool

open Transition

variable {sem : Semaphore} {pool next : Pool} {action : Action}

/-- Nothing was refused and nothing was drained. -/
structure Pool.Keeps (pool : Pool) : Prop where
  threw : .threw ∉ pool.calls
  drained : pool.drained = []

/-- A pool that is neither stopped nor destroyed keeps what it is given. -/
theorem Pool.Keeps.step (h : pool.Keeps) (hstop : pool.stop = false) (halive : next.destructor = .notStarted)
    (hstep : step sem pool action = some next) : next.Keeps := by
  obtain ⟨-, -, rfl⟩ | ⟨call, accepted, pc, -, hpc, hmove⟩ | ⟨worker, granted, pc, -, hpc, hmove⟩ | ⟨pc, -, rfl⟩ |
    ⟨control, pc, -, -, hmove⟩ | ⟨-, -, -, rfl⟩ | ⟨-, hmove⟩ := step_cases hstep
  · refine ⟨?_, h.drained⟩
    simpa using h.threw
  · refine ⟨fun hthrew ↦ ?_, (enqueueStep_frame hmove).2.2.2.1.trans h.drained⟩
    cases enqueueMove_of_step hmove with
    | refused hstopped | givenUp hstopped => cases hstop.symm.trans hstopped
    | _ =>
      obtain hold | hnew := List.mem_or_eq_of_mem_set hthrew
      · exact h.threw hold
      · cases hnew
  · obtain ⟨hcalls, -, -, hdrained, -⟩ := workerStep_frame hmove
    exact ⟨hcalls ▸ h.threw, hdrained.trans h.drained⟩
  · exact ⟨h.threw, h.drained⟩
  · obtain ⟨hcalls, -, -, -, -, -, hdrained, -⟩ := controlStep_frame hmove
    exact ⟨hcalls ▸ h.threw, hdrained.trans h.drained⟩
  · cases halive
  · exact absurd halive (destructorStep_frame hmove).2.2.2.2.2

theorem destructor_of_step (hstep : step sem pool action = some next) (halive : next.destructor = .notStarted) :
    pool.destructor = .notStarted := by
  obtain ⟨-, hd, -⟩ | ⟨call, accepted, pc, -, -, hmove⟩ | ⟨worker, granted, pc, -, -, hmove⟩ | ⟨pc, -, rfl⟩ |
    ⟨control, pc, -, -, hmove⟩ | ⟨-, hd, -⟩ | ⟨-, hmove⟩ := step_cases hstep
  · exact hd
  · exact (enqueueStep_frame hmove).2.1 ▸ halive
  · exact (workerStep_frame hmove).2.1 ▸ halive
  · exact halive
  · exact (controlStep_frame hmove).2.1 ▸ halive
  · exact hd
  · exact absurd halive (destructorStep_frame hmove).2.2.2.2.2

theorem keeps_of_run {threads : ℕ} {actions : List Action}
    (hrun : run (step sem) (Pool.create threads) actions = some pool) (hstop : pool.stop = false)
    (halive : pool.destructor = .notStarted) : pool.Keeps := by
  refine run_invariant (I := fun state ↦ state.stop = false → state.destructor = .notStarted → state.Keeps)
    (fun state action next hstate hstep hstop halive ↦ ?_) (fun _ _ ↦ ⟨List.not_mem_nil, rfl⟩) hrun hstop halive
  have hbefore := stop_of_step hstep hstop
  exact (hstate hbefore (destructor_of_step hstep halive)).step hbefore halive hstep

end TinyReactor.ThreadPool

namespace TinyReactor.Worker

open Transition Wire ThreadPool

variable {sem : Semaphore} {process next : Process} {action : Action} {executor worker call task attempt : ℕ}
  {mover : Option (ℕ × ℕ)} {host : Host} {system : Executor.System}

/-! ## Every attempt has its closure -/

/-- Every attempt was handed to the pool of its executor. -/
def Posted (process : Process) : Prop :=
  ∀ (task attempt : ℕ) record, process.system.runs[task]? = some record → attempt < record.attempts.length →
    ∃ call, process.closure? record.executor call = some (task, attempt)

theorem closure?_of_post {closure : ℕ × ℕ} (h : process.post sem executor closure = some next) :
    ∃ call, next.closure? executor call = some closure := by
  obtain ⟨host, hhost, hcall⟩ := Option.bind_eq_some_iff.mp h
  obtain ⟨pool, -, rfl⟩ := Option.map_eq_some_iff.mp hcall
  refine ⟨host.closures.length, ?_⟩
  simp [Process.closure?, Process.setHost, List.getElem?_set_self (lt_length_of_getElem? hhost)]

/-- The task of the executor was given the attempt. -/
def Attempted (system : Executor.System) (executor task attempt : ℕ) : Prop :=
  ∃ record, system.runs[task]? = some record ∧ record.executor = executor ∧ attempt < record.attempts.length

theorem Attempted.of_runs {system' : Executor.System} (h : Attempted system' executor task attempt)
    (hruns : system'.runs = system.runs) : Attempted system executor task attempt := by
  rwa [Attempted, ← hruns]

/-- A step of a task gives it no attempt, or the one that its call of `execute_task` posts. -/
theorem Attempted.of_act {index : ℕ} {taskAction : Executor.TaskAction} {record : Executor.TaskRun}
    (hrecord : process.system.runs[index]? = some record)
    (hstep : Executor.step process.system (.act index taskAction) = some system)
    (h : Attempted system executor task attempt) :
    Attempted process.system executor task attempt ∨
      record.posts taskAction = true ∧ executor = record.executor ∧ task = index ∧
        attempt = record.attempts.length := by
  obtain ⟨moved, hmoved, rfl, hattempt⟩ := h
  obtain ⟨record', moved', hrecord', htask, hruns⟩ := Executor.step_act hstep
  obtain rfl : record = record' := Option.some.inj (hrecord.symm.trans hrecord')
  rw [hruns] at hmoved
  by_cases hother : index = task
  · subst hother
    rw [List.getElem?_set_self (lt_length_of_getElem? hrecord)] at hmoved
    obtain rfl := Option.some.inj hmoved
    have hexecutor := Executor.TaskRun.executor_of_taskStep htask
    rw [Executor.TaskRun.length_attempts_of_taskStep htask] at hattempt
    by_cases hold : attempt < record.attempts.length
    · exact .inl ⟨record, hrecord, hexecutor.symm, hold⟩
    · cases hposts : record.posts taskAction with
      | false =>
        rw [hposts] at hattempt
        exact absurd hattempt hold
      | true =>
        rw [hposts, Bool.toNat_true] at hattempt
        exact .inr ⟨rfl, hexecutor, rfl, by omega⟩
  · rw [List.getElem?_set_ne hother] at hmoved
    exact .inl ⟨moved, hmoved, rfl, hattempt⟩

/-- A statement or a timer that calls nothing gives no attempt. -/
theorem Attempted.of_silent_act {index : ℕ} {taskAction : Executor.TaskAction} {record : Executor.TaskRun}
    (h : Attempted system executor task attempt) (hrecord : process.system.runs[index]? = some record)
    (hstep : Executor.step process.system (.act index taskAction) = some system)
    (hposts : record.posts taskAction = false) : Attempted process.system executor task attempt := by
  obtain hold | ⟨hcalls, -⟩ := Attempted.of_act hrecord hstep h
  · exact hold
  · cases hposts.symm.trans hcalls

/-- The callback of a retry timer posts the attempt that it gives. -/
theorem posted_of_retryStep {index timer : ℕ} (hstep : process.retryStep sem index timer = some next)
    (h : Attempted next.system executor task attempt) :
    Attempted process.system executor task attempt ∨ ∃ call, next.closure? executor call = some (task, attempt) := by
  obtain ⟨record, hrecord, hstep⟩ := Option.bind_eq_some_iff.mp hstep
  obtain ⟨entry, hentry, hstep⟩ := Option.bind_eq_some_iff.mp hstep
  obtain ⟨system, hsystem, hstep⟩ := Option.bind_eq_some_iff.mp hstep
  dsimp only at hstep
  split at hstep
  · obtain ⟨call, hclosure⟩ := closure?_of_post hstep
    rw [system_of_post hstep] at h
    obtain hold | ⟨-, rfl, rfl, rfl⟩ := Attempted.of_act hrecord hsystem h
    · exact .inl hold
    · exact .inr ⟨call, hclosure⟩
  · rename_i hexecute
    cases hstep
    refine .inl (h.of_silent_act hrecord hsystem ?_)
    simp [Executor.TaskRun.posts, hentry, Executor.RetryTimer.owesAttempt, hexecute]

/-- An attempt that a step adds comes with its closure. -/
theorem posted_of_step (hstep : step sem process action = some next)
    (h : Attempted next.system executor task attempt) :
    Attempted process.system executor task attempt ∨ ∃ call, next.closure? executor call = some (task, attempt) := by
  unfold step at hstep
  split at hstep
  · cases hstep
  rename_i hrunning
  cases action with
  | construct | registerFunction =>
    obtain ⟨system, hsystem, rfl⟩ := Option.map_eq_some_iff.mp hstep
    rw [Executor.step, if_neg hrunning] at hsystem
    cases hsystem
    exact .inl (h.of_runs rfl)
  | executeTask executor request =>
    obtain ⟨system, hsystem, hpost⟩ := Option.bind_eq_some_iff.mp hstep
    obtain ⟨call, hclosure⟩ := closure?_of_post hpost
    obtain ⟨moved, hmoved, rfl, hattempt⟩ := h
    rw [system_of_post hpost, Executor.runs_of_executeTask hsystem] at hmoved
    obtain hold | ⟨rfl, rfl⟩ := of_getElem?_append_singleton hmoved
    · exact .inl ⟨moved, hold, rfl, hattempt⟩
    · obtain rfl := Nat.lt_one_iff.mp hattempt
      exact .inr ⟨call, hclosure⟩
  | enqueue =>
    obtain ⟨host, hhost, hcall⟩ := Option.bind_eq_some_iff.mp hstep
    obtain ⟨pool, hpool, rfl⟩ := Option.map_eq_some_iff.mp hcall
    exact .inl (h.of_runs rfl)
  | worker =>
    obtain ⟨host, hhost, hstep⟩ := Option.bind_eq_some_iff.mp hstep
    obtain ⟨pc, hpc, hstep⟩ := Option.bind_eq_some_iff.mp hstep
    split at hstep
    · obtain ⟨⟨task, attempt⟩, hclosure, hrun⟩ := Option.bind_eq_some_iff.mp hstep
      obtain ⟨system, hsystem, hrun⟩ := Option.bind_eq_some_iff.mp hrun
      obtain ⟨record, -, hrecord, -⟩ := Executor.step_act hsystem
      dsimp only at hrun
      split at hrun <;> cases hrun <;> exact .inl (h.of_silent_act hrecord hsystem rfl)
    · obtain ⟨pool, hpool, rfl⟩ := Option.map_eq_some_iff.mp hstep
      exact .inl (h.of_runs rfl)
  | timer =>
    obtain ⟨system, hsystem, rfl⟩ := Option.map_eq_some_iff.mp hstep
    obtain ⟨record, -, hrecord, -⟩ := Executor.step_act hsystem
    exact .inl (h.of_silent_act hrecord hsystem rfl)
  | retry => exact posted_of_retryStep hstep h

theorem Posted.step (h : Posted process) (hcaught : EndsCaught process action)
    (hstep : step sem process action = some next) : Posted next := by
  intro task attempt moved hmoved hattempt
  obtain ⟨record, hrecord, hexecutor, hlt⟩ | hnew := posted_of_step hstep ⟨moved, hmoved, rfl, hattempt⟩
  · obtain ⟨call, hclosure⟩ := h task attempt record hrecord hlt
    exact ⟨call, hexecutor ▸ closure?_of_moves (moves_of_step hstep hcaught) hclosure⟩
  · exact hnew

/-! ## A closure that was called is running until its attempt is over -/

/-- The attempt of a closure that was called has begun, or a worker is at its first statement. -/
def Begun (process : Process) : Prop :=
  ∀ (executor call task attempt : ℕ) host, process.hosts[executor]? = some host →
    host.closures[call]? = some (task, attempt) → call ∈ host.pool.ran →
    process.attemptPc? task attempt = some .queued → ∃ worker, process.Executes executor worker task attempt

/-- A statement of an attempt does not lead to its beginning. -/
theorem not_queued_of_statement {nowMs : UInt64} {outcome : Executor.Outcome}
    (hcaught : ∀ pc ∈ process.attemptPc? task attempt, pc.callsFunction = true → outcome.caught = true)
    (hstep : Executor.step process.system (.act task (.attempt attempt nowMs outcome)) = some next.system) :
    next.attemptPc? task attempt ≠ some .queued := by
  obtain ⟨record, moved, pc, pc', hrecord, hpc, hmoved, hpc', -, hless, -⟩ :=
    Executor.statement_of_step hstep (onTasks_of_caught hcaught)
  intro hqueued
  obtain rfl : pc' = .queued := by simpa [Process.attemptPc?, hmoved, hpc'] using hqueued
  cases pc <;> simp [Executor.AttemptPc.statementsLeft] at hless

/-- An attempt that is queued after a step was queued before it. -/
theorem queued_of_moves (hmoves : Moves sem process mover next) {pc : Executor.AttemptPc}
    (hpc : process.attemptPc? task attempt = some pc) (hqueued : next.attemptPc? task attempt = some .queued) :
    pc = .queued := by
  have hstays {act : Executor.Action} (hstep : Executor.step process.system act = some next.system)
      (hact : ∀ nowMs outcome, act ≠ .act task (.attempt attempt nowMs outcome)) : pc = .queued :=
    Option.some.inj ((attemptPc?_of_step hstep hpc hact).symm.trans hqueued)
  cases hmoves with
  | constructs hstep => exact hstays hstep (by simp)
  | steps hstep hact | posts hstep hact _ _ _ _ _ _ => exact hstays hstep (hact task attempt)
  | enqueues | works => exact Option.some.inj (hpc.symm.trans hqueued)
  | runs _ _ _ hcaught hstep _ | returns _ _ _ hcaught hstep _ =>
    refine hstays hstep ?_
    rintro nowMs outcome ⟨⟩
    exact not_queued_of_statement hcaught hstep hqueued

/-- The worker of an attempt that is still queued has not moved. -/
theorem Process.Executes.of_queued (h : process.Executes executor worker task attempt) (hbound : Bound process)
    (hmoves : Moves sem process mover next) (hqueued : next.attemptPc? task attempt = some .queued) :
    next.Executes executor worker task attempt := by
  by_cases hmover : mover = some (executor, worker)
  · subst hmover
    obtain ⟨call, hrunning, hclosure⟩ := id h
    cases hmoves with
    | works hhost hpc hoff _ =>
      simp only [Process.workerPc?, hhost, Option.bind_some] at hrunning
      exact absurd (Option.some.inj (hpc.symm.trans hrunning)) (hoff call)
    | runs hhost hpc hplace hcaught hstep _ | returns hhost hpc hplace hcaught hstep _ =>
      cases h.attempt_unique (.of_host hhost hpc hplace)
      exact absurd hqueued (not_queued_of_statement hcaught hstep)
  · exact h.of_moves hbound hmoves hmover

/-- A closure that was called was passed to `enqueue`. -/
theorem lt_length_of_mem_ran {pool : Pool} (hbooks : Accounted pool call) (horder : InOrder pool)
    (hran : call ∈ pool.ran) : call < pool.calls.length := by
  have hcount : 0 < pool.ran.count call := List.count_pos_iff.mpr hran
  have hpushed := @pushed_count pool call horder
  obtain ⟨hentered, hleft, -, -, -⟩ := hbooks
  by_contra hlength
  have hnone : entryCount (fun _ ↦ true) pool.calls call = 0 := by
    simp [entryCount, List.getElem?_eq_none (Nat.le_of_not_lt hlength)]
  omega

/-- A closure that was called after a step was called before it, or its worker has just called it. -/
theorem called_of_moves (hbound : Bound process) (hmoves : Moves sem process mover next)
    (hhost : next.hosts[executor]? = some host) (hclosure : host.closures[call]? = some (task, attempt))
    (hran : call ∈ host.pool.ran) :
    (∃ before, process.hosts[executor]? = some before ∧ before.closures[call]? = some (task, attempt) ∧
        call ∈ before.pool.ran) ∨
      ∃ worker, next.Executes executor worker task attempt := by
  cases hmoves with
  | constructs hstep =>
    obtain hold | ⟨-, rfl⟩ := of_getElem?_append_singleton hhost
    · exact .inl ⟨host, hold, hclosure, hran⟩
    · cases hran
  | steps | runs => exact .inl ⟨host, hhost, hclosure, hran⟩
  | posts _ _ _ _ _ _ hbefore hpool =>
    obtain ⟨rfl, rfl⟩ | ⟨-, hold⟩ := of_getElem?_setHost hhost
    · simp only [ThreadPool.step, Option.ite_none_right_eq_some, Option.some.injEq] at hpool
      obtain ⟨-, rfl⟩ := hpool
      obtain hold | ⟨rfl, -⟩ := of_getElem?_append_singleton hclosure
      · exact .inl ⟨_, hbefore, hold, hran⟩
      · have hhosted := hbound.hosted _ _ hbefore
        have hlt := lt_length_of_mem_ran (hhosted.books _) hhosted.inOrder hran
        rw [hhosted.length] at hlt
        exact absurd hlt (Nat.lt_irrefl _)
    · exact .inl ⟨host, hold, hclosure, hran⟩
  | enqueues hbefore hpool =>
    obtain ⟨rfl, rfl⟩ | ⟨-, hold⟩ := of_getElem?_setHost hhost
    · obtain ⟨_, -, hmove⟩ := Option.bind_eq_some_iff.mp hpool
      exact .inl ⟨_, hbefore, hclosure, (enqueueStep_frame hmove).2.2.2.2 ▸ hran⟩
    · exact .inl ⟨host, hold, hclosure, hran⟩
  | works hbefore hpc _ hpool =>
    have hself := hhost
    obtain ⟨rfl, rfl⟩ | ⟨-, hold⟩ := of_getElem?_setHost hhost
    · cases workerMove_of_step hpool with
      | call held =>
        obtain hold | hnew := List.mem_append.mp hran
        · exact .inl ⟨_, hbefore, hclosure, hold⟩
        · obtain rfl := List.mem_singleton.mp hnew
          exact .inr ⟨_, .of_host hself (List.getElem?_set_self (lt_length_of_getElem? hpc)) hclosure⟩
      | _ => exact .inl ⟨_, hbefore, hclosure, hran⟩
    · exact .inl ⟨host, hold, hclosure, hran⟩
  | returns hbefore _ _ _ _ _ =>
    obtain ⟨rfl, rfl⟩ | ⟨-, hold⟩ := of_getElem?_setHost hhost
    · exact .inl ⟨_, hbefore, hclosure, hran⟩
    · exact .inl ⟨host, hold, hclosure, hran⟩

theorem begun_of_moves (h : Begun process) (hbound : Bound process) (hmoves : Moves sem process mover next) :
    Begun next := by
  intro executor call task attempt host hhost hclosure hran hqueued
  obtain ⟨before, hbefore, hplace, hcalled⟩ | hnew := called_of_moves hbound hmoves hhost hclosure hran
  · obtain ⟨record, pc, hrecord, -, hpc, -⟩ := (hbound.hosted executor before hbefore).attempts call task attempt hplace
    have hattempt : process.attemptPc? task attempt = some pc := by simp [Process.attemptPc?, hrecord, hpc]
    obtain rfl := queued_of_moves hmoves hattempt hqueued
    obtain ⟨worker, hexecutes⟩ := h executor call task attempt before hbefore hplace hcalled hattempt
    exact ⟨worker, hexecutes.of_queued hbound hmoves hqueued⟩
  · exact hnew

/-! ## Who can go on -/

/-- The thread of the action, left to itself, advances something within so many of its statements, where the queue
takes its closure, the semaphore grants a permit that is there and the function it calls returns. -/
def Process.Drives (process : Process) (action : Action) (count : ℕ) : Prop :=
  (run (step .uncapped) process (List.replicate count action)).isSome = true ∧
    0 < countSteps (step .uncapped) productive process (List.replicate count action)

theorem Process.Drives.now (hstep : step .uncapped process action = some next)
    (hproductive : productive process action = true) : process.Drives action 1 := by
  constructor
  · rw [List.replicate_one, run_cons, hstep, Option.bind_some, run_nil]
    rfl
  · rw [List.replicate_one, countSteps, hstep, Option.elim_some, hproductive, Bool.toNat_true]
    exact Nat.lt_of_lt_of_le Nat.zero_lt_one (Nat.le_add_right 1 _)

theorem Process.Drives.after {count : ℕ} (hstep : step .uncapped process action = some next)
    (h : next.Drives action count) : process.Drives action (count + 1) := by
  constructor
  · rw [List.replicate_succ, run_cons, hstep, Option.bind_some]
    exact h.1
  · rw [List.replicate_succ, countSteps, hstep, Option.elim_some]
    exact Nat.lt_of_lt_of_le h.2 (Nat.le_add_left _ _)

/-- Some thread gets on within four statements. -/
def Process.Live (process : Process) : Prop := ∃ action count, count ≤ 4 ∧ process.Drives action count

theorem Process.Live.of_step (hstep : (step .uncapped process action).isSome = true)
    (hproductive : productive process action = true) : process.Live := by
  obtain ⟨next, hnext⟩ := Option.isSome_iff_exists.mp hstep
  exact ⟨action, 1, by decide, .now hnext hproductive⟩

/-- A worker inside its closure takes the next statement. -/
theorem live_of_running (h : Bound process) (hrunning : process.workerPc? executor worker = some (.running call)) :
    process.Live := by
  obtain ⟨task, attempt, rank, hinside⟩ := inside_of_running h hrunning
  obtain ⟨-, action, hown, -, hstep⟩ : _ ∧ ∃ action, stepsOf executor worker action = true ∧ _ ∧
      (step .uncapped process action).isSome = true := hinside.ready
  refine .of_step hstep ?_
  cases action with
  | worker =>
    rw [stepsOf, Action.mover, beq_iff_eq] at hown
    cases hown
    rw [productive, hrunning]
    rfl
  | _ => cases hown

/-- A worker that holds a permit or a task goes on. -/
theorem live_of_holding (h : Bound process) (hhost : process.hosts[executor]? = some host) {pc : WorkerPc}
    (hpc : host.pool.workers[worker]? = some pc) (hadvances : pc.advances false = true) : process.Live := by
  have hplace : process.workerPc? executor worker = some pc := by
    rw [Process.workerPc?, hhost, Option.bind_some, hpc]
  by_cases hoff : ∀ call, pc ≠ .running call
  · obtain ⟨pool, hpool⟩ : ∃ pool, host.pool.workerStep worker false pc = some pool := by
      cases pc with
      | pop =>
        rw [Pool.workerStep]
        cases host.pool.queue with
        | nil => exact ⟨_, rfl⟩
        | cons => exact ⟨_, rfl⟩
      | running call => exact absurd rfl (hoff call)
      | call | free | uncount => exact ⟨_, rfl⟩
      | _ => cases hadvances
    have hstep : step .uncapped process (.worker executor worker false 0 (.returns .null)) = some _ :=
      step_outside h.running hhost hpc hoff hpool
    refine .of_step (Option.isSome_iff_exists.mpr ⟨_, hstep⟩) ?_
    rw [productive, hplace]
    exact hadvances
  · push Not at hoff
    obtain ⟨call, rfl⟩ := hoff
    exact live_of_running h hplace

/-- The statements of a worker that polls, up to and with its next `try_acquire_for`. -/
def pollsLeft : WorkerPc → ℕ
  | .loadActive => 4
  | .compareTarget _ | .start => 3
  | .loop => 2
  | .acquire => 1
  | _ => 0

/-- A worker that polls comes closer to the semaphore, and leaves it alone until it is there. -/
theorem polls_on (h : Staffed host.pool) {pc : WorkerPc} (hpc : host.pool.workers[worker]? = some pc) {rank : ℕ}
    (hrank : pollsLeft pc = rank + 1) (hpositive : 0 < rank) :
    ∃ pool pc', host.pool.workerStep worker true pc = some pool ∧ pool.workers[worker]? = some pc' ∧
      pollsLeft pc' = rank ∧ pool.taskSem = host.pool.taskSem := by
  have hplace (pc' : WorkerPc) : (host.pool.workers.set worker pc')[worker]? = some pc' :=
    List.getElem?_set_self (lt_length_of_getElem? hpc)
  cases pc with
  | acquire =>
    cases hrank
    cases hpositive
  | loadActive | start =>
    cases hrank
    exact ⟨_, _, rfl, hplace _, rfl, rfl⟩
  | compareTarget active =>
    cases hrank
    have hstays : active ≤ host.pool.targetThreadCount := h.staff _ (List.mem_of_getElem? hpc)
    refine ⟨_, .loop, rfl, ?_, rfl, rfl⟩
    rw [if_neg (Int.not_lt.mpr hstays)]
    exact hplace _
  | loop =>
    cases hrank
    refine ⟨_, .acquire, rfl, ?_, rfl, rfl⟩
    rw [h.stop]
    exact hplace _
  | _ => cases hrank

/-- With a permit there, a worker that polls gets it. -/
theorem drives_of_polling (h : Bound process) (hhost : process.hosts[executor]? = some host) {pc : WorkerPc}
    (hpc : host.pool.workers[worker]? = some pc) (hpermit : 0 < host.pool.taskSem) {rank : ℕ}
    (hrank : pollsLeft pc = rank) (hpositive : 0 < rank) :
    process.Drives (.worker executor worker true 0 (.returns .null)) rank := by
  induction rank generalizing process host pc with
  | zero => cases hpositive
  | succ rank ih =>
    have hoff : ∀ call, pc ≠ .running call := by
      rintro call rfl
      cases hrank
    rcases Nat.eq_zero_or_pos rank with rfl | hleft
    · obtain rfl : pc = .acquire := by
        cases pc with
        | acquire => rfl
        | _ => cases hrank
      have hpool : host.pool.workerStep worker true .acquire =
          some { host.pool.setWorker worker .pop with taskSem := host.pool.taskSem - 1 } := by
        simp [Pool.workerStep, Nat.ne_of_gt hpermit]
      refine .now (step_outside h.running hhost hpc hoff hpool) ?_
      simp [productive, Process.workerPc?, hhost, hpc, WorkerPc.advances]
    · obtain ⟨pool, pc', hpool, hpc', hrank', hsem⟩ := polls_on (h.hosted _ _ hhost).staffed hpc hrank hleft
      have hstep : step .uncapped process (.worker executor worker true 0 (.returns .null)) = some _ :=
        step_outside h.running hhost hpc hoff hpool
      have hbound := bound_of_moves h (moves_of_step hstep fun _ _ _ ↦ rfl)
      have hhost' : (process.setHost executor { host with pool }).hosts[executor]? = some { host with pool } :=
        List.getElem?_set_self (lt_length_of_getElem? hhost)
      exact .after hstep (ih hbound hhost' hpc' (hsem ▸ hpermit) hrank' hleft)

/-- A pool with a thread and a permit goes on. -/
theorem live_of_permit (h : Bound process) (hhost : process.hosts[executor]? = some host)
    (hthreads : host.pool.workers ≠ []) (hpermit : 0 < host.pool.taskSem) : process.Live := by
  obtain ⟨pc, hmem⟩ := List.exists_mem_of_ne_nil _ hthreads
  obtain ⟨worker, hpc⟩ := List.getElem?_of_mem hmem
  have hstays := (h.hosted executor host hhost).staffed.staff pc hmem
  cases hadvances : pc.advances false with
  | true => exact live_of_holding h hhost hpc hadvances
  | false =>
    have hpolls : 0 < pollsLeft pc ∧ pollsLeft pc ≤ 4 := by
      cases pc with
      | start | loop | acquire | loadActive | compareTarget => simp [pollsLeft]
      | reload | retest | exchange | pause | leave | exited => exact absurd hstays id
      | _ => cases hadvances
    exact ⟨_, _, hpolls.2, drives_of_polling h hhost hpc hpermit rfl hpolls.1⟩

theorem step_enqueue {pc : EnqueuePc} {pool : Pool} (hrunning : process.system.terminated = false)
    (hhost : process.hosts[executor]? = some host) (hpc : host.pool.calls[call]? = some pc)
    (hpool : host.pool.enqueueStep .uncapped call true pc = some pool) :
    step .uncapped process (.enqueue executor call true) = some (process.setHost executor { host with pool }) := by
  simp only [step, hrunning, hhost, ThreadPool.step, hpc, hpool, Option.bind_some, Option.map_some,
    Bool.false_eq_true, if_false]

theorem productive_enqueue {pc : EnqueuePc} (hhost : process.hosts[executor]? = some host)
    (hpc : host.pool.calls[call]? = some pc) (hpush : pc ≠ .recheck) :
    productive process (.enqueue executor call true) = true := by
  simp only [productive, hhost, hpc, Option.bind_some, Option.any_some]
  cases pc with
  | recheck => exact absurd rfl hpush
  | _ => rfl

/-- An `enqueue` that has not returned goes on, if need be once it has seen that the pool is not stopped. -/
theorem live_of_enqueue (h : Bound process) (hhost : process.hosts[executor]? = some host) {pc : EnqueuePc}
    (hpc : host.pool.calls[call]? = some pc) (hinProgress : pc.inProgress = true) : process.Live := by
  have hstop := (h.hosted executor host hhost).staffed.stop
  cases pc with
  | recheck =>
    have hpool : host.pool.enqueueStep .uncapped call true .recheck = some (host.pool.setCall call .push) := by
      simp [Pool.enqueueStep, hstop]
    have hhost' : (process.setHost executor { host with pool := host.pool.setCall call .push }).hosts[executor]? =
        some { host with pool := host.pool.setCall call .push } :=
      List.getElem?_set_self (lt_length_of_getElem? hhost)
    have hpc' : (host.pool.setCall call .push).calls[call]? = some .push :=
      List.getElem?_set_self (lt_length_of_getElem? hpc)
    exact ⟨_, 2, by decide, .after (step_enqueue h.running hhost hpc hpool)
      (.now (step_enqueue h.running hhost' hpc' rfl) (productive_enqueue hhost' hpc' (by decide)))⟩
  | returned | threw => cases hinProgress
  | entry =>
    have hpool : host.pool.enqueueStep .uncapped call true .entry = some (host.pool.setCall call .push) := by
      simp [Pool.enqueueStep, hstop]
    exact ⟨_, 1, by decide, .now (step_enqueue h.running hhost hpc hpool) (productive_enqueue hhost hpc (by decide))⟩
  | _ => exact ⟨_, 1, by decide, .now (step_enqueue h.running hhost hpc rfl) (productive_enqueue hhost hpc (by decide))⟩

/-! ## Whose hand a task is in -/

/-- What every run keeps of closures and attempts. -/
structure Carried (process : Process) : Prop where
  bound : Bound process
  conforms : Conforms .uncapped process
  manned : Manned process
  posted : Posted process
  begun : Begun process
  allowed : process.system.Allowed

theorem carried_create : Carried {} where
  bound := bound_create
  conforms := conforms_create
  manned task attempt pc hpc := by simp [Process.attemptPc?] at hpc
  posted _ _ _ h := by simp at h
  begun _ _ _ _ _ h := by simp at h
  allowed _ _ h := by simp at h

theorem Carried.keeps (h : Carried process) (hhost : process.hosts[executor]? = some host) :
    host.pool.Keeps ∧ host.pool.Balanced := by
  have hstaffed := (h.bound.hosted executor host hhost).staffed
  obtain ⟨trace, htrace⟩ := h.conforms.pools executor host hhost
  exact ⟨keeps_of_run htrace hstaffed.stop hstaffed.alive, balanced_of_run htrace (by rw [hstaffed.alive]; rfl)⟩

/-- A closure in the queue is matched by a permit, or by a thread that has taken one or is to release one. -/
theorem Carried.live_of_queued (h : Carried process) (hhost : process.hosts[executor]? = some host)
    (hthreads : host.pool.workers ≠ []) (hqueue : call ∈ host.pool.queue) : process.Live := by
  have hbalanced := (h.keeps hhost).2
  have hlength := List.length_pos_of_mem hqueue
  unfold Pool.Balanced Pool.tokensHeld Pool.tokensOwed at hbalanced
  by_cases hheld : 0 < host.pool.workers.countP WorkerPc.holdsToken
  · obtain ⟨pc, hmem, hholds⟩ := List.countP_pos_iff.mp hheld
    obtain ⟨worker, hpc⟩ := List.getElem?_of_mem hmem
    refine live_of_holding h.bound hhost hpc ?_
    cases pc with
    | pop => rfl
    | _ => cases hholds
  by_cases howed : 0 < host.pool.calls.countP EnqueuePc.owesToken
  · obtain ⟨pc, hmem, howes⟩ := List.countP_pos_iff.mp howed
    obtain ⟨other, hpc⟩ := List.getElem?_of_mem hmem
    refine live_of_enqueue h.bound hhost hpc ?_
    cases pc with
    | count | release => rfl
    | _ => cases howes
  · exact live_of_permit h.bound hhost hthreads (by omega)

/-- A pool that keeps what it is given has rejected nothing. -/
theorem not_rejected {pool : Pool} (hkeeps : pool.Keeps) (hbooks : Accounted pool call) (horder : InOrder pool) :
    ¬pool.Holds call .rejected := by
  rintro ⟨hpushed, hfreed⟩
  have hthrown : entryCount EnqueuePc.hasThrown pool.calls call = 0 := by
    cases hpc : pool.calls[call]? with
    | none => rw [entryCount, hpc, Option.elim_none]
    | some pc =>
      rw [entryCount_of_getElem? _ hpc]
      cases pc with
      | threw => exact absurd (List.mem_of_getElem? hpc) hkeeps.threw
      | _ => rfl
  have hfreed' : 0 < pool.freed.count call := List.count_pos_iff.mpr hfreed
  have hpushed' : pool.pushed.count call = 0 := List.count_eq_zero.mpr hpushed
  have hcount := @pushed_count pool call horder
  obtain ⟨entered, left, freed, called_le, holds_le⟩ := hbooks
  rw [hkeeps.drained, List.count_nil] at left freed holds_le
  omega

/-- An attempt that has not returned keeps a thread going. -/
theorem Carried.live_of_attempt (h : Carried process) (hthreads : ∀ host ∈ process.hosts, host.pool.workers ≠ [])
    {record : Executor.TaskRun} {pc : Executor.AttemptPc} (hrecord : process.system.runs[task]? = some record)
    (hpc : record.attempts[attempt]? = some pc) (hreturned : pc.hasReturned = false) : process.Live := by
  have hattempt : process.attemptPc? task attempt = some pc := by simp [Process.attemptPc?, hrecord, hpc]
  have hrunning {executor worker : ℕ} (hexecutes : process.Executes executor worker task attempt) : process.Live := by
    obtain ⟨call, hplace, -⟩ := hexecutes
    exact live_of_running h.bound hplace
  by_cases hunder : pc.underWay = true
  · obtain ⟨executor, worker, hexecutes⟩ := h.manned task attempt pc hattempt hunder
    exact hrunning hexecutes
  obtain rfl : pc = .queued := by
    cases pc with
    | queued => rfl
    | returned => cases hreturned
    | _ => exact absurd rfl hunder
  obtain ⟨call, hclosure⟩ := h.posted task attempt record hrecord (lt_length_of_getElem? hpc)
  obtain ⟨host, hhost, hclosure⟩ := Option.bind_eq_some_iff.mp hclosure
  have hhosted := h.bound.hosted _ host hhost
  have hentry : entryCount (fun _ ↦ true) host.pool.calls call = 1 := by
    simp [entryCount, ← hhosted.length, lt_length_of_getElem? hclosure]
  obtain ⟨place, hplace⟩ := exists_holds (hhosted.books call) hhosted.inOrder hentry
  cases place with
  | caller =>
    obtain ⟨pc, hcall, hholds⟩ := hplace
    refine live_of_enqueue h.bound hhost hcall ?_
    cases pc with
    | entry | push | recheck => rfl
    | _ => cases hholds
  | rejected => exact absurd hplace (not_rejected (h.keeps hhost).1 (hhosted.books call) hhosted.inOrder)
  | queue => exact h.live_of_queued hhost (hthreads host (List.mem_of_getElem? hhost)) hplace
  | worker worker =>
    obtain ⟨pc, hworker, hholds⟩ := hplace
    refine live_of_holding h.bound hhost hworker ?_
    cases pc with
    | call | running | free => rfl
    | _ => cases hholds
  | finished =>
    -- a closure that is over was called, and its attempt would not be queued any more
    obtain ⟨worker, hexecutes⟩ := h.begun _ call task attempt host hhost hclosure hplace.1 hattempt
    exact hrunning hexecutes
  | destructor =>
    have hdrained : call ∈ host.pool.drained := hplace
    rw [(h.keeps hhost).1.drained] at hdrained
    cases hdrained

/-- A retry that is pending keeps its timer going. -/
theorem Carried.live_of_retry (h : Carried process) {record : Executor.TaskRun} {index : ℕ}
    {timer : Executor.RetryTimer} (hrecord : process.system.runs[task]? = some record)
    (htimer : record.retryTimers[index]? = some timer) (hpending : timer.pending = true) : process.Live := by
  obtain ⟨request, count, hwithin⟩ := h.allowed task record hrecord
  obtain ⟨call, hclosure⟩ := h.posted task 0 record hrecord (by rw [hwithin.attempts]; omega)
  obtain ⟨host, hhost, -⟩ := Option.bind_eq_some_iff.mp hclosure
  have hexecutor := Nat.lt_of_lt_of_le (lt_length_of_getElem? hhost) h.bound.executors
  obtain ⟨system, hsystem⟩ := Option.isSome_iff_exists.mp
    (Executor.retry_enabled h.bound.running hrecord hexecutor htimer hpending)
  have hpool : ThreadPool.step .uncapped host.pool .callEnqueue =
      some { host.pool with calls := host.pool.calls ++ [.entry] } := by
    rw [ThreadPool.step, if_pos (h.bound.hosted _ host hhost).staffed.alive]
  have hstep : (step .uncapped process (.retry task index)).isSome = true := by
    simp only [step, h.bound.running, Process.retryStep, hrecord, htimer, hsystem, Option.bind_some, Process.post,
      hhost, hpool, Option.map_some, Bool.false_eq_true, if_false]
    split <;> rfl
  exact .of_step hstep rfl

theorem Carried.step (h : Carried process) (hcaught : EndsCaught process action)
    (hstep : step .uncapped process action = some next) : Carried next := by
  have hmoves := moves_of_step hstep hcaught
  have hbound := bound_of_moves h.bound hmoves
  refine ⟨hbound, conforms_of_moves h.conforms h.bound hmoves, manned_of_moves h.manned h.bound hmoves,
    h.posted.step hcaught hstep, begun_of_moves h.begun h.bound hmoves, ?_⟩
  exact allowed_of_step h.allowed hstep

/-! ## Runs -/

/-- In every run of the process, at most 26 statements for each attempt that is allowed to the tasks handed over
advance anything. As long as the process is not terminated, every pool has a thread and a task is not `SUCCESS`,
`FAILED` or `TIMEOUT`, some thread gets within four of its own statements to one that does, where the function it
calls ends, `try_acquire_for` takes a permit that is there and the queue takes what is pushed. -/
theorem tasks_settle {actions : List Action} {final : Process}
    (hrun : run (step .uncapped) {} actions = some final) :
    countSteps (step .uncapped) productive {} actions ≤ (actions.map allowance).sum ∧
      (final.system.terminated = false → (∀ host ∈ final.hosts, host.pool.workers ≠ []) →
        ∀ record ∈ final.system.runs, ¬Executor.IsTerminal record.task.state →
          ∃ action count, count ≤ 4 ∧ final.Drives action count) := by
  constructor
  · have hcost : final.toil + countSteps (step .uncapped) productive {} actions ≤
        ({} : Process).toil + (actions.map allowance).sum :=
      countSteps_le_of_credit (I := fun process ↦ process.system.Allowed) (m := Process.toil) (c := allowance)
        (fun _ _ _ hallowed hstep ↦ ⟨allowed_of_step hallowed hstep, toil_of_step hallowed hstep⟩)
        carried_create.allowed hrun
    have hnothing : ({} : Process).toil = 0 := rfl
    omega
  · intro hrunning hthreads record hmem hopen
    have hcarried : Carried final := (meets_of_running hrun hrunning).invariant
      (fun _ _ _ hcarried hcaught hstep ↦ hcarried.step hcaught hstep) carried_create hrun
    obtain ⟨task, hrecord⟩ := List.getElem?_of_mem hmem
    by_contra hstuck
    refine hopen ((hcarried.bound.reporting task record hrecord).terminal_of_returned (fun timer htimer ↦ ?_)
      fun pc hpc ↦ ?_)
    · obtain ⟨index, hindex⟩ := List.getElem?_of_mem htimer
      rw [Bool.eq_false_iff]
      exact fun hpending ↦ hstuck (hcarried.live_of_retry hrecord hindex hpending)
    · obtain ⟨attempt, hattempt⟩ := List.getElem?_of_mem hpc
      by_contra hreturned
      exact hstuck (hcarried.live_of_attempt hthreads hrecord hattempt (Bool.eq_false_iff.mpr hreturned))

/-- The worker of the only task is at the call of its function. -/
theorem tasks_settle_divide : ∃ final, run (step .uncapped) {} callsDivide = some final ∧
    countSteps (step .uncapped) productive {} callsDivide = 13 ∧
      countSteps (step .uncapped) productive {} callsDivide ≤ 26 * 4 ∧
      ∃ action count, count ≤ 4 ∧ final.Drives action count := by
  have hplace : (run (step .uncapped) {} callsDivide).map (fun process ↦
      (process.system.terminated, process.hosts.map fun host ↦ host.pool.workers.length,
        process.system.runs.map fun record ↦ record.task.state)) = some (false, [1], [.running]) := by
    decide +kernel
  obtain ⟨final, hrun, hend⟩ := Option.map_eq_some_iff.mp hplace
  simp only [Prod.mk.injEq] at hend
  obtain ⟨hrunning, hworkers, hstates⟩ := hend
  have hthreads : ∀ host ∈ final.hosts, host.pool.workers ≠ [] := by
    intro host hmem hnone
    have hlength := List.mem_map_of_mem (f := fun host : Host ↦ host.pool.workers.length) hmem
    simp [hworkers, hnone] at hlength
  have hrecord : final.system.runs ≠ [] := by
    intro hnone
    rw [hnone] at hstates
    cases hstates
  obtain ⟨record, hmem⟩ := List.exists_mem_of_ne_nil _ hrecord
  have hstate := List.mem_map_of_mem (f := fun record : Executor.TaskRun ↦ record.task.state) hmem
  rw [hstates, List.mem_singleton] at hstate
  have hopen : ¬Executor.IsTerminal record.task.state := by
    rw [hstate]
    rintro (hterminal | hterminal | hterminal) <;> cases hterminal
  obtain ⟨hcost, hdrives⟩ := tasks_settle hrun
  have hallowance : (callsDivide.map allowance).sum = 26 * 4 := by decide +kernel
  exact ⟨final, hrun, by decide +kernel, hallowance ▸ hcost, hdrives hrunning hthreads record hmem hopen⟩

end TinyReactor.Worker
