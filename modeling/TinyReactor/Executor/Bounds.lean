import TinyReactor.Executor.Attempts

/-!
# How often a task is attempted

The number of attempts is decided by `retry_count`, but the check that allows a retry and the increment
are far apart: the increment happens in the callback of the retry timer. In between the task is in the
hand of that attempt and then of that timer, so nothing else can use the same allowance. A task therefore
has one attempt more than there are increments, and the increments stop at `max_retry`.
-/

namespace TinyReactor.Executor

open Transition Wire

/-- The attempt is queued or running; one that retries runs until it has armed its retry timer. -/
def AttemptPc.active : AttemptPc → Bool
  | .returned _ => false
  | _ => true

/-- The attempt was allowed a retry and has not armed its timer. -/
def AttemptPc.allowed : AttemptPc → Bool
  | .claimRetry _ => true
  | .returnClaim _ => true
  | .armRetryTimer _ => true
  | _ => false

/-- At the call of the registered function. -/
def AttemptPc.calls : AttemptPc → Bool
  | .callFunction _ => true
  | _ => false

/-- Past the call of the registered function, if the attempt gets that far. -/
def AttemptPc.called : AttemptPc → Bool
  | .queued => false
  | .readClock => false
  | .refuse _ => false
  | .armTimer _ _ => false
  | .setStart _ _ => false
  | .setRunning _ => false
  | .findFunction _ => false
  | .callFunction _ => false
  | _ => true

/-- Past `task->retry_count++`. -/
def RetryStatus.counted : RetryStatus → Bool
  | .execute => true
  | .done => true
  | _ => false

namespace TaskRun

/-- The step calls the registered function. -/
def invokes (record : TaskRun) : TaskAction → Bool
  | .attempt attempt _ _ => record.attempts[attempt]?.any AttemptPc.calls
  | _ => false

/-- The step executes `task->retry_count++`. -/
def increments (record : TaskRun) : TaskAction → Bool
  | .retry timer => record.retryTimers[timer]?.any fun entry ↦ entry.status == .count
  | _ => false

/-- The attempts that are queued or running and the retries that are waiting. -/
def inFlight (record : TaskRun) : ℕ :=
  record.attempts.countP AttemptPc.active + record.retryTimers.countP RetryTimer.pending

/-- A task that was handed over with `task`, after `count` increments of its `retry_count`. -/
structure WithinAllowance (task : Task) (count : ℕ) (record : TaskRun) : Prop where
  oneHand : record.InOneHand
  limit : record.task.maxRetry = task.maxRetry
  increments : record.retryTimers.countP (fun timer ↦ timer.status.counted) = count
  retryCount : record.task.retryCount.toNat = task.retryCount.toNat + count
  attempts : record.attempts.length = 1 + record.retryTimers.countP (fun timer ↦ timer.status == .done)
  bounded : count ≤ task.maxRetry.toNat - task.retryCount.toNat
  allowedAttempt : ∀ pc ∈ record.attempts, pc.allowed = true →
    task.retryCount.toNat + count < task.maxRetry.toNat
  allowedTimer : ∀ timer ∈ record.retryTimers, timer.status.counted = false →
    task.retryCount.toNat + count < task.maxRetry.toNat

end TaskRun

/-- A question about the steps of one task, asked of a step of the system. -/
def ofTask (index : ℕ) (p : TaskRun → TaskAction → Bool) (system : System) : Action → Bool
  | .act other taskAction => other == index && (system.runs[other]?.elim false fun record ↦ p record taskAction)
  | _ => false

variable {system next : System} {action : Action} {index : ℕ} {record moved : TaskRun}

theorem ofTask_eq_false {p : TaskRun → TaskAction → Bool} (h : ∀ taskAction, action ≠ .act index taskAction) :
    ofTask index p system action = false := by
  cases action with
  | act other taskAction =>
    have hother : other ≠ index := fun heq ↦ h taskAction (heq ▸ rfl)
    simp [ofTask, hother]
  | _ => rfl

/-- What the steps of a task preserve, the number of its steps of some kind included, holds of it from the
moment it holds. -/
theorem task_count_invariant {p : TaskRun → TaskAction → Bool} {I : ℕ → TaskRun → Prop}
    (hstep : ∀ count record taskAction moved, I count record → TaskStep record taskAction moved →
      I (count + (p record taskAction).toNat) moved)
    {actions : List Action} {final : System} (hrun : run step system actions = some final)
    (hrecord : system.runs[index]? = some record) (hI : I 0 record) :
    ∃ moved, final.runs[index]? = some moved ∧ I (countSteps step (ofTask index p) system actions) moved := by
  have hok : Meets step (fun _ _ ↦ True) system actions := Meets.of_forall_mem fun _ _ _ ↦ trivial
  have hfinal := countSteps_invariant (p := ofTask index p)
    (I := fun count visited ↦ ∃ moved, visited.runs[index]? = some moved ∧ I count moved) ?_ hok
    ⟨record, hrecord, hI⟩ hrun
  · rwa [Nat.zero_add] at hfinal
  · intro count state action next hstate _ hnext
    obtain ⟨current, hcurrent, hIcurrent⟩ := hstate
    by_cases hown : ∃ taskAction, action = .act index taskAction
    · obtain ⟨taskAction, rfl⟩ := hown
      obtain ⟨acting, moved, hacting, htask, hruns⟩ := step_act hnext
      obtain rfl : acting = current := Option.some.inj (hacting.symm.trans hcurrent)
      have hof : ofTask index p state (.act index taskAction) = p acting taskAction := by
        simp [ofTask, hcurrent]
      refine ⟨moved, by rw [hruns, List.getElem?_set_self (lt_length_of_getElem? hacting)], ?_⟩
      rw [hof]
      exact hstep count acting taskAction moved hIcurrent htask
    · rcases step_task hnext hcurrent with hsame | ⟨taskAction, _, hact, -⟩
      · refine ⟨current, hsame, ?_⟩
        rw [ofTask_eq_false fun taskAction hact ↦ hown ⟨taskAction, hact⟩]
        exact hIcurrent
      · exact absurd ⟨taskAction, hact⟩ hown

/-! ## The allowance -/

namespace TaskRun

variable {executor : TaskExecutor} {before after : ℤ} {attempt timer : ℕ} {nowMs : UInt64} {outcome : Outcome}
  {pc : AttemptPc} {task : Task} {count : ℕ}

theorem inFlight_le_one (h : record.InOneHand) : record.inFlight ≤ 1 := by
  have hle : record.attempts.countP AttemptPc.active ≤ record.attempts.countP AttemptPc.holdsTask := by
    apply List.countP_mono_left
    intro pc _ hactive
    cases pc with
    | returned reported => cases hactive
    | _ => rfl
  unfold InOneHand at h
  unfold inFlight
  omega

/-- The statements of `run_task` leave the two counts alone; the one that allows a retry compares them. -/
theorem attemptStep_allowed (h : record.attemptStep executor before attempt nowMs outcome pc = some (moved, after)) :
    moved.task.retryCount = record.task.retryCount ∧ moved.task.maxRetry = record.task.maxRetry ∧
      ∃ pc', moved.attempts = record.attempts.set attempt pc' ∧
        (pc'.allowed = true → pc.allowed = true ∨ record.task.retryCount < record.task.maxRetry) ∧
        (moved.retryTimers = record.retryTimers ∨ (pc.allowed = true ∧
          moved.retryTimers = record.retryTimers ++ [{ delaySeconds := retryDelay record.task }])) := by
  cases attemptMove_of_step h with
  | armRetryTimer timer => exact ⟨rfl, rfl, _, rfl, fun _ ↦ .inl rfl, .inr ⟨rfl, rfl⟩⟩
  | overQuota | admitted => exact ⟨rfl, rfl, _, rfl, fun _ ↦ .inl rfl, .inl rfl⟩
  | retryable timer error hcode hcount => exact ⟨rfl, rfl, _, rfl, fun _ ↦ .inr hcount, .inl rfl⟩
  | _ => exact ⟨rfl, rfl, _, rfl, by rintro ⟨⟩, .inl rfl⟩

theorem WithinAllowance.attemptStep (hrecord : WithinAllowance task count record)
    (hpc : record.attempts[attempt]? = some pc)
    (h : record.attemptStep executor before attempt nowMs outcome pc = some (moved, after)) :
    WithinAllowance task count moved := by
  obtain ⟨hretryCount, hmaxRetry, pc', hattempts, hallowed, htimers⟩ := attemptStep_allowed h
  have hpcAllowed := hrecord.allowedAttempt pc (List.mem_of_getElem? hpc)
  -- a retry is allowed by the comparison, or was allowed before
  have hnew : pc'.allowed = true → task.retryCount.toNat + count < task.maxRetry.toNat := by
    intro hpc'
    rcases hallowed hpc' with hold | hlt
    · exact hpcAllowed hold
    · rw [UInt32.lt_iff_toNat_lt, hrecord.limit, hrecord.retryCount] at hlt
      exact hlt
  have hcount (p : RetryStatus → Bool) (hp : p .waiting = false) :
      moved.retryTimers.countP (fun timer ↦ p timer.status) = record.retryTimers.countP (fun timer ↦ p timer.status) := by
    rcases htimers with hsame | ⟨-, harmed⟩
    · rw [hsame]
    · rw [harmed, countP_append_singleton]
      simp [hp]
  refine ⟨attemptStep_inOneHand hpc h hrecord.oneHand, hmaxRetry.trans hrecord.limit, ?_, ?_, ?_, hrecord.bounded, ?_, ?_⟩
  · rw [hcount RetryStatus.counted rfl, hrecord.increments]
  · rw [hretryCount, hrecord.retryCount]
  · rw [hattempts, List.length_set, hcount (· == .done) rfl, hrecord.attempts]
  · intro other hother hotherAllowed
    rw [hattempts] at hother
    rcases List.mem_or_eq_of_mem_set hother with hold | rfl
    · exact hrecord.allowedAttempt other hold hotherAllowed
    · exact hnew hotherAllowed
  · rcases htimers with hsame | ⟨hpc', harmed⟩
    · rw [hsame]
      exact hrecord.allowedTimer
    · rw [harmed]
      exact forall_mem_append_singleton hrecord.allowedTimer fun _ ↦ hpcAllowed hpc'

theorem WithinAllowance.timerStep {status : TimerStatus} (hrecord : WithinAllowance task count record)
    (h : record.timerStep timer nowMs status = some moved) : WithinAllowance task count moved := by
  obtain ⟨hone, hlimit, hincrements, hretryCount, hattempts, hbounded, hallowedAttempt, hallowedTimer⟩ := hrecord
  cases status with
  | fired => cases h
  | cancelled => cases h
  | _ =>
    cases h
    exact ⟨hone, hlimit, hincrements, hretryCount, hattempts, hbounded, hallowedAttempt, hallowedTimer⟩

theorem mem_setRetry {entry other : RetryTimer} {status : RetryStatus}
    (hentry : record.retryTimers[timer]? = some entry) (h : other ∈ (record.setRetry timer status).retryTimers) :
    other ∈ record.retryTimers ∨ other = { entry with status := status } := by
  rw [setRetry, List.modify_eq_set_getElem?, hentry, Option.map_eq_map, Option.map_some, Option.getD_some] at h
  exact List.mem_or_eq_of_mem_set h

/-- While a timer has counted its retry and not started it, nobody is allowed another one. -/
theorem InOneHand.alone {entry : RetryTimer} (hone : record.InOneHand)
    (hentry : record.retryTimers[timer]? = some entry) (hexecute : entry.status = .execute) :
    (∀ pc ∈ record.attempts, pc.allowed = false) ∧
      ∀ other ∈ record.retryTimers, other.status.counted = true := by
  have hpending : entry.pending = true := by
    rw [RetryTimer.pending, hexecute]
    rfl
  have hholds := toNat_le_countP RetryTimer.pending hentry
  rw [hpending, Bool.toNat_true] at hholds
  unfold InOneHand at hone
  constructor
  · intro pc hpc
    have hnone : record.attempts.countP AttemptPc.holdsTask = 0 := by omega
    have hleft := List.countP_eq_zero.mp hnone pc hpc
    cases pc with
    | returned reported => rfl
    | _ => exact absurd rfl hleft
  · intro other hother
    obtain ⟨place, hplace⟩ := List.getElem?_of_mem hother
    cases hcounted : other.status.counted with
    | true => rfl
    | false =>
      have hotherPending : other.pending = true := by
        rw [RetryTimer.pending, bne_iff_ne]
        intro hdone
        rw [hdone] at hcounted
        cases hcounted
      obtain rfl := index_unique_of_countP_le_one (by omega) hplace hentry hotherPending hpending
      obtain rfl : other = entry := Option.some.inj (hplace.symm.trans hentry)
      rw [hexecute] at hcounted
      cases hcounted

theorem ne_done_of_uncounted {status : RetryStatus} (h : status.counted = false) : (status == .done) = false := by
  cases status with
  | done => cases h
  | _ => rfl

/-- A timer that has not counted its retry moves on without counting it. -/
theorem WithinAllowance.setRetry {entry : RetryTimer} {status : RetryStatus}
    (hrecord : WithinAllowance task count record) (hentry : record.retryTimers[timer]? = some entry)
    (hold : entry.status.counted = false) (hnew : status.counted = false)
    (hone : (record.setRetry timer status).InOneHand) : WithinAllowance task count (record.setRetry timer status) := by
  have hcounted := countP_setRetry RetryStatus.counted hentry status
  have hdone := countP_setRetry (· == .done) hentry status
  rw [hold, hnew] at hcounted
  rw [ne_done_of_uncounted hold, ne_done_of_uncounted hnew] at hdone
  refine ⟨hone, hrecord.limit, ?_, hrecord.retryCount, ?_, hrecord.bounded, hrecord.allowedAttempt, ?_⟩
  · exact hcounted.trans hrecord.increments
  · exact hrecord.attempts.trans (congrArg (1 + ·) hdone.symm)
  · intro other hother hotherCounted
    rcases mem_setRetry hentry hother with hmem | rfl
    · exact hrecord.allowedTimer other hmem hotherCounted
    · exact hrecord.allowedTimer entry (List.mem_of_getElem? hentry) hold

/-- `task->retry_count++` does not wrap: the retry was allowed. -/
theorem WithinAllowance.countStep {entry : RetryTimer} (hrecord : WithinAllowance task count record)
    (hentry : record.retryTimers[timer]? = some entry) (hstatus : entry.status = .count)
    (hmoved : record.retryStep before timer .count = some (moved, after)) (hone : moved.InOneHand) :
    WithinAllowance task (count + 1) moved := by
  cases hmoved
  have hcounted := countP_setRetry RetryStatus.counted hentry .execute
  have hdone := countP_setRetry (· == .done) hentry .execute
  have hallowed := hrecord.allowedTimer entry (List.mem_of_getElem? hentry) (by rw [hstatus]; rfl)
  have hcount := hrecord.retryCount
  have hbounded := hrecord.bounded
  have hmax := task.maxRetry.toNat_lt
  rw [hstatus] at hcounted hdone
  have hexecute : (record.setRetry timer .execute).retryTimers[timer]? = some { entry with status := .execute } := by
    rw [TaskRun.setRetry, getElem?_modify_of_getElem? hentry, if_pos rfl]
  obtain ⟨hattempts, htimers⟩ := hone.alone hexecute rfl
  refine ⟨hone, hrecord.limit, ?_, ?_, ?_, by omega, ?_, ?_⟩
  · exact hcounted.trans (congrArg (· + 1) hrecord.increments)
  · change (record.task.retryCount + 1).toNat = _
    rw [UInt32.toNat_add, hcount]
    exact Nat.mod_eq_of_lt (by rw [UInt32.toNat_one]; omega)
  · exact hrecord.attempts.trans (congrArg (1 + ·) hdone.symm)
  · intro pc hpc hpcAllowed
    rw [hattempts pc hpc] at hpcAllowed
    cases hpcAllowed
  · intro other hother hotherCounted
    rw [htimers other hother] at hotherCounted
    cases hotherCounted

/-- `execute_task(task)` in the callback queues one more attempt. -/
theorem WithinAllowance.executeStep {entry : RetryTimer} (hrecord : WithinAllowance task count record)
    (hentry : record.retryTimers[timer]? = some entry) (hstatus : entry.status = .execute)
    (hmoved : record.retryStep before timer .execute = some (moved, after)) (hone : moved.InOneHand) :
    WithinAllowance task count moved := by
  cases hmoved
  have hcounted := countP_setRetry RetryStatus.counted hentry .done
  have hdone := countP_setRetry (· == .done) hentry .done
  rw [hstatus] at hcounted hdone
  refine ⟨hone, hrecord.limit, ?_, hrecord.retryCount, ?_, hrecord.bounded, ?_, ?_⟩
  · exact (Nat.add_right_cancel hcounted).trans hrecord.increments
  · have hlength := hrecord.attempts
    change _ + 0 = _ + 1 at hdone
    change (record.attempts ++ [AttemptPc.queued]).length =
      1 + (record.setRetry timer .done).retryTimers.countP (fun timer ↦ timer.status == .done)
    rw [List.length_append, List.length_singleton]
    omega
  · exact forall_mem_append_singleton hrecord.allowedAttempt (by rintro ⟨⟩)
  · intro other hother hotherCounted
    rcases mem_setRetry hentry hother with hmem | rfl
    · exact hrecord.allowedTimer other hmem hotherCounted
    · cases hotherCounted

theorem WithinAllowance.retryStep {entry : RetryTimer} (hrecord : WithinAllowance task count record)
    (hentry : record.retryTimers[timer]? = some entry)
    (h : record.retryStep before timer entry.status = some (moved, after)) :
    WithinAllowance task (count + (entry.status == .count).toNat) moved := by
  have hone := retryStep_inOneHand hentry h hrecord.oneHand
  cases hstatus : entry.status with
  | waiting =>
    rw [hstatus] at h
    cases h
    exact hrecord.setRetry hentry (by rw [hstatus]; rfl) rfl hone
  | release =>
    rw [hstatus] at h
    cases h
    exact hrecord.setRetry hentry (by rw [hstatus]; rfl) rfl hone
  | count => exact hrecord.countStep hentry hstatus (hstatus ▸ h) hone
  | execute => exact hrecord.executeStep hentry hstatus (hstatus ▸ h) hone
  | done =>
    rw [hstatus] at h
    cases h

/-- An attempt calls the function at most once. -/
theorem attemptStep_called (h : record.attemptStep executor before attempt nowMs outcome pc = some (moved, after)) :
    ∃ pc', moved.attempts = record.attempts.set attempt pc' ∧
      pc.called.toNat + pc.calls.toNat ≤ pc'.called.toNat := by
  cases attemptMove_of_step h with
  | returns | throws | throwsOther => exact ⟨_, rfl, Nat.le_refl 1⟩
  | _ => exact ⟨_, rfl, by simp [AttemptPc.called, AttemptPc.calls]⟩

end TaskRun

theorem withinAllowance_of_taskStep {task : Task} {count : ℕ} {taskAction : TaskAction}
    (h : TaskStep record taskAction moved) (hrecord : record.WithinAllowance task count) :
    moved.WithinAllowance task (count + (record.increments taskAction).toNat) := by
  obtain ⟨executor, before, after, h⟩ := h
  cases TaskRun.taskMove_of_step h with
  | attempt index nowMs outcome pc hpc hstep =>
    exact hrecord.attemptStep hpc hstep
  | timer index nowMs entry hentry htimer =>
    exact hrecord.timerStep htimer
  | retry index entry hentry hstep =>
    rw [TaskRun.increments, hentry, Option.any_some]
    exact hrecord.retryStep hentry hstep

theorem called_of_taskStep {count : ℕ} {taskAction : TaskAction} (h : TaskStep record taskAction moved)
    (hrecord : count ≤ record.attempts.countP AttemptPc.called) :
    count + (record.invokes taskAction).toNat ≤ moved.attempts.countP AttemptPc.called := by
  obtain ⟨executor, before, after, h⟩ := h
  cases TaskRun.taskMove_of_step h with
  | attempt index nowMs outcome pc hpc hstep =>
    obtain ⟨pc', hattempts, hcalled⟩ := TaskRun.attemptStep_called hstep
    have hset := countP_set_of_getElem? AttemptPc.called hpc pc'
    rw [hattempts, hset, TaskRun.invokes, hpc, Option.any_some]
    omega
  | timer index nowMs entry hentry htimer =>
    rw [(TaskRun.timerStep_hand htimer).1]
    exact hrecord
  | retry index entry hentry hstep =>
    obtain ⟨-, status, -, ⟨-, hattempts⟩ | ⟨-, hattempts⟩⟩ := TaskRun.retryStep_hand hstep
    · rw [hattempts]
      exact hrecord
    · rw [hattempts, countP_append_singleton]
      exact Nat.le_trans hrecord (Nat.le_add_right _ _)

theorem withinAllowance_new (executor : ℕ) (task : Task) :
    TaskRun.WithinAllowance task 0 { executor := executor, task := task } where
  oneHand := rfl
  limit := rfl
  increments := rfl
  retryCount := rfl
  attempts := rfl
  bounded := Nat.zero_le _
  allowedAttempt pc hpc hallowed := by
    obtain rfl := List.mem_singleton.mp hpc
    cases hallowed
  allowedTimer := List.forall_mem_nil _

/-- A task that is handed over with `retry_count` `r₀` calls its function at most
`max(max_retry - r₀, 0) + 1` times, its `retry_count` counts its retries without wrapping and stays within
its bound, and it is never in flight twice. -/
theorem attempts_bounded (rest : List Action) (executor : ℕ) (task : Task) (before submitted final : System)
    (hsubmit : step before (.executeTask executor task) = some submitted)
    (hrest : run step submitted rest = some final) :
    countSteps step (ofTask before.runs.length TaskRun.invokes) submitted rest ≤
        (task.maxRetry.toNat - task.retryCount.toNat) + 1 ∧
      ∃ record, final.runs[before.runs.length]? = some record ∧
        record.task.retryCount.toNat = task.retryCount.toNat +
          countSteps step (ofTask before.runs.length TaskRun.increments) submitted rest ∧
        record.task.retryCount.toNat ≤ max task.retryCount.toNat task.maxRetry.toNat ∧
        record.inFlight ≤ 1 := by
  have hnew := getElem?_executeTask hsubmit
  obtain ⟨record, hrecord, hwithin⟩ := task_count_invariant
    (fun _ _ _ _ hwithin htask ↦ withinAllowance_of_taskStep htask hwithin) hrest hnew
    (withinAllowance_new executor task)
  obtain ⟨record', hrecord', hcalled⟩ := task_count_invariant
    (I := fun count record ↦ count ≤ record.attempts.countP AttemptPc.called)
    (fun _ _ _ _ hcalled htask ↦ called_of_taskStep htask hcalled) hrest hnew (Nat.zero_le _)
  obtain rfl : record = record' := Option.some.inj (hrecord.symm.trans hrecord')
  have hbounded := hwithin.bounded
  have hretryCount := hwithin.retryCount
  refine ⟨?_, record, hrecord, hretryCount, by omega, TaskRun.inFlight_le_one hwithin.oneHand⟩
  -- one attempt for each retry that was started, and one more
  have hstarted : record.retryTimers.countP (fun timer ↦ timer.status == .done) ≤
      record.retryTimers.countP (fun timer ↦ timer.status.counted) := by
    apply List.countP_mono_left
    intro timer _ hdone
    rw [beq_iff_eq.mp hdone]
    rfl
  calc countSteps step (ofTask before.runs.length TaskRun.invokes) submitted rest
      ≤ record.attempts.countP AttemptPc.called := hcalled
    _ ≤ record.attempts.length := List.countP_le_length
    _ = 1 + record.retryTimers.countP (fun timer ↦ timer.status == .done) := hwithin.attempts
    _ ≤ 1 + record.retryTimers.countP (fun timer ↦ timer.status.counted) := Nat.add_le_add_left hstarted 1
    _ ≤ (task.maxRetry.toNat - task.retryCount.toNat) + 1 := by
      rw [hwithin.increments, Nat.add_comm]
      exact Nat.add_le_add_right hbounded 1

/-- A task with one retry left. -/
def lastRetry : Task := { funcName := "fib", retryCount := 2, maxRetry := 3 }

/-- Its function is refused a connection twice; the second failure is final. -/
def failsTwice : List Action :=
  List.replicate 10 (.act 0 (.attempt 0 0 (.throws { what := "", code := some .connectionRefused }))) ++
    List.replicate 4 (.act 0 (.retry 0)) ++
    List.replicate 10 (.act 0 (.attempt 1 0 (.throws { what := "", code := some .connectionRefused })))

theorem attempts_bounded_two :
    ∃ submitted final record, step { executors := [.create] } (.executeTask 0 lastRetry) = some submitted ∧
      run step submitted failsTwice = some final ∧ final.runs[0]? = some record ∧
      countSteps step (ofTask 0 TaskRun.invokes) submitted failsTwice = 2 ∧ record.task.retryCount.toNat ≤ 3 := by
  have hrun : run step { executors := [.create], runs := [{ executor := 0, task := lastRetry }] } failsTwice =
      some _ := rfl
  obtain ⟨-, record, hrecord, -, hretryCount, -⟩ :=
    attempts_bounded failsTwice 0 lastRetry { executors := [.create] } _ _ rfl hrun
  exact ⟨_, _, record, rfl, hrun, hrecord, rfl, hretryCount⟩

end TinyReactor.Executor
