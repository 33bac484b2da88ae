import TinyReactor.Executor.Attempts

/-!
# The deadline of a task

`run_task` computes the time that a task has left in a mixture of `uint32_t`, `uint64_t` and `int64_t`. All of it
is arithmetic modulo `2 ^ 64`, so the stored `int64_t` is the exact difference exactly where that fits. `submit_ts`
comes from the client unchecked: one that lies far in the past wraps into the future, and one that lies far in the
future overflows the nanoseconds of the timer.
-/

namespace TinyReactor.Executor

open Transition Wire

/-- `submit_ts + timeout_ms`, as an exact integer. -/
def deadline (task : Task) : ℤ := task.submitTs.toInt + task.timeoutMs.toNat

/-- `std::chrono::milliseconds` in the unit of a `steady_timer`. -/
def toNanoseconds (delay : Int64) : ℤ := delay.toInt * 1000000

/-- The integers of an `int64_t`. -/
def FitsInt64 (value : ℤ) : Prop := -2 ^ 63 ≤ value ∧ value < 2 ^ 63

/-- An attempt of a task reads the clock and moves on as the deadline of the task says. -/
structure MeetsDeadline (task : Task) (nowMs : UInt64) (attempt : ℕ) (record moved : TaskRun) : Prop where
  remaining : (remainingTimeout record.task nowMs).toInt =
    task.timeoutMs.toNat - (nowMs.toNat - task.submitTs.toInt)
  refused : moved.attempts[attempt]? = some (.refuse timeoutReport) ↔ deadline task < nowMs.toNat
  armed : nowMs.toNat ≤ deadline task → ∃ delay, moved.attempts[attempt]? = some (.armTimer nowMs delay) ∧
    FitsInt64 (toNanoseconds delay) ∧ nowMs.toNat + delay.toInt = deadline task

/-- The time to the deadline is no less than an `int64_t` holds in milliseconds and no more than one holds in
nanoseconds. -/
def InRange (task : Task) (nowMs : UInt64) : Prop :=
  -2 ^ 63 ≤ deadline task - nowMs.toNat ∧ (deadline task - nowMs.toNat) * 1000000 < 2 ^ 63

instance (task : Task) (nowMs : UInt64) : Decidable (InRange task nowMs) := inferInstanceAs (Decidable (_ ∧ _))

/-! ## The arithmetic -/

theorem toInt_toInt64 (value : UInt64) : value.toInt64.toInt = Int.bmod value.toNat (2 ^ 64) :=
  BitVec.toInt_eq_toNat_bmod value.toBitVec

/-- Modulo `2 ^ 64` the mixed expression is the exact one. -/
theorem toInt_remainingTimeout (task : Task) (nowMs : UInt64) :
    (remainingTimeout task nowMs).toInt = (deadline task - nowMs.toNat).bmod (2 ^ 64) := by
  have hsubmit : task.submitTs.toUInt64.toInt64 = task.submitTs := rfl
  have hexact : (task.timeoutMs.toNat : ℤ) - (nowMs.toNat - task.submitTs.toInt) = deadline task - nowMs.toNat := by
    unfold deadline
    omega
  unfold remainingTimeout
  rw [UInt64.toInt64_sub, UInt64.toInt64_sub, hsubmit, Int64.toInt_sub, Int64.toInt_sub, toInt_toInt64,
    toInt_toInt64, UInt32.toNat_toUInt64, Int.bmod_sub_bmod, Int.bmod_sub_bmod, Int.sub_bmod_bmod, hexact]

theorem remainingTimeout_exact {task : Task} {nowMs : UInt64} (hfits : FitsInt64 (deadline task - nowMs.toNat)) :
    (remainingTimeout task nowMs).toInt = deadline task - nowMs.toNat := by
  obtain ⟨hlower, hupper⟩ := hfits
  rw [toInt_remainingTimeout]
  apply Int.bmod_eq_of_le <;> omega

/-! ## The members it reads -/

/-- The members that the deadline is computed from. -/
def SameTimes (task task' : Task) : Prop := task'.submitTs = task.submitTs ∧ task'.timeoutMs = task.timeoutMs

variable {record moved : TaskRun}

namespace TaskRun

variable {executor : TaskExecutor} {before after : ℤ} {attempt timer : ℕ} {nowMs : UInt64} {outcome : Outcome}
  {pc : AttemptPc}

theorem attemptStep_times (h : record.attemptStep executor before attempt nowMs outcome pc = some (moved, after)) :
    SameTimes record.task moved.task := by
  cases attemptMove_of_step h with
  | _ => exact ⟨rfl, rfl⟩

theorem timerStep_times {status : TimerStatus} (h : record.timerStep timer nowMs status = some moved) :
    SameTimes record.task moved.task := by
  cases status with
  | fired => cases h
  | cancelled => cases h
  | _ =>
    cases h
    exact ⟨rfl, rfl⟩

theorem retryStep_times {status : RetryStatus} (h : record.retryStep before timer status = some (moved, after)) :
    SameTimes record.task moved.task := by
  cases status with
  | done => cases h
  | _ =>
    cases h
    exact ⟨rfl, rfl⟩

end TaskRun

/-- No statement writes `submit_ts` or `timeout_ms`. -/
theorem sameTimes_of_taskStep {taskAction : TaskAction} (h : TaskStep record taskAction moved) :
    SameTimes record.task moved.task := by
  obtain ⟨executor, before, after, h⟩ := h
  cases TaskRun.taskMove_of_step h with
  | attempt index nowMs outcome pc hpc hstep => exact TaskRun.attemptStep_times hstep
  | timer index nowMs entry hentry hstep => exact TaskRun.timerStep_times hstep
  | retry index entry hentry hstep => exact TaskRun.retryStep_times hstep

theorem sameTimes_of_run {rest : List Action} {executor : ℕ} {task : Task} {before submitted current : System}
    (hsubmit : step before (.executeTask executor task) = some submitted)
    (hrest : run step submitted rest = some current)
    (hrecord : current.runs[before.runs.length]? = some record) : SameTimes task record.task := by
  have hok : Meets step (OnTasks fun _ _ ↦ True) submitted rest :=
    Meets.of_forall_mem fun action _ state ↦ onTasks_true state action
  have hkept : ∃ record, current.runs[before.runs.length]? = some record ∧ SameTimes task record.task := by
    refine task_invariant (I := fun record ↦ SameTimes task record.task) ?_ hok hrest (getElem?_executeTask hsubmit)
      ⟨rfl, rfl⟩
    intro record taskAction moved htimes _ hstep
    obtain ⟨hsubmitTs, htimeoutMs⟩ := sameTimes_of_taskStep hstep
    exact ⟨hsubmitTs.trans htimes.1, htimeoutMs.trans htimes.2⟩
  obtain ⟨record', hrecord', htimes⟩ := hkept
  obtain rfl : record = record' := Option.some.inj (hrecord.symm.trans hrecord')
  exact htimes

theorem deadline_eq {task task' : Task} (h : SameTimes task task') : deadline task' = deadline task := by
  unfold deadline
  rw [h.1, h.2]

/-! ## The attempts of a task -/

/-- Where an attempt goes once it has read the clock. -/
def afterClock (task : Task) (nowMs : UInt64) : AttemptPc :=
  if remainingTimeout task nowMs < 0 then .refuse timeoutReport else .armTimer nowMs (remainingTimeout task nowMs)

theorem step_readClock {system next : System} {index attempt : ℕ} {nowMs : UInt64} {outcome : Outcome}
    (hrecord : system.runs[index]? = some record) (hattempt : record.attempts[attempt]? = some .readClock)
    (hnext : step system (.act index (.attempt attempt nowMs outcome)) = some next)
    (hmoved : next.runs[index]? = some moved) :
    moved.attempts[attempt]? = some (afterClock record.task nowMs) := by
  obtain ⟨record', moved', hrecord', ⟨executor, before, after, hstep⟩, hruns⟩ := step_act hnext
  obtain rfl : record = record' := Option.some.inj (hrecord.symm.trans hrecord')
  rw [hruns, List.getElem?_set_self (lt_length_of_getElem? hrecord)] at hmoved
  obtain rfl : moved' = moved := Option.some.inj hmoved
  rw [TaskRun.step, hattempt, Option.bind_some] at hstep
  cases hstep
  exact List.getElem?_set_self (lt_length_of_getElem? hattempt)

section

variable {task : Task} {nowMs : UInt64} {attempt : ℕ}

theorem meetsDeadline_of_inRange (htimes : SameTimes task record.task) (hrange : InRange task nowMs)
    (hmoved : moved.attempts[attempt]? = some (afterClock record.task nowMs)) :
    MeetsDeadline task nowMs attempt record moved := by
  obtain ⟨hlower, hupper⟩ := hrange
  have hexact : (remainingTimeout record.task nowMs).toInt = deadline task - nowMs.toNat := by
    rw [← deadline_eq htimes] at hlower hupper ⊢
    exact remainingTimeout_exact ⟨hlower, by omega⟩
  have hlate : remainingTimeout record.task nowMs < 0 ↔ deadline task < nowMs.toNat := by
    rw [Int64.lt_iff_toInt_lt, hexact, Int64.toInt_zero]
    omega
  constructor
  case remaining =>
    rw [hexact, deadline]
    omega
  case refused =>
    rw [hmoved, afterClock, ← hlate]
    split
    · rename_i hneg
      exact iff_of_true rfl hneg
    · rename_i hneg
      exact iff_of_false nofun hneg
  case armed =>
    intro hintime
    have hneg : ¬remainingTimeout record.task nowMs < 0 := fun hneg ↦ Int.not_lt.mpr hintime (hlate.mp hneg)
    refine ⟨remainingTimeout record.task nowMs, ?_, ?_, ?_⟩
    · rw [hmoved, afterClock, if_neg hneg]
    · rw [toNanoseconds, hexact]
      exact ⟨by omega, hupper⟩
    · rw [hexact]
      omega

theorem inRange_of_meetsDeadline (hmeets : MeetsDeadline task nowMs attempt record moved) : InRange task nowMs := by
  have hremaining := hmeets.remaining
  have hlower := Int64.le_toInt (remainingTimeout record.task nowMs)
  have hdeadline : deadline task - nowMs.toNat = (remainingTimeout record.task nowMs).toInt := by
    rw [hremaining, deadline]
    omega
  unfold InRange
  by_cases hintime : (nowMs.toNat : ℤ) ≤ deadline task
  · obtain ⟨delay, -, ⟨-, hfits⟩, hdelay⟩ := hmeets.armed hintime
    rw [toNanoseconds] at hfits
    omega
  · omega

end

/-- At every attempt of a task, in every run after the task was handed over, the deadline arithmetic is exact if
and only if the time to the deadline is in range. -/
theorem meetsDeadline_iff_inRange (rest : List Action) (executor : ℕ) (task : Task)
    (before submitted current next : System) (record moved : TaskRun) (attempt : ℕ) (nowMs : UInt64)
    (outcome : Outcome) (hsubmit : step before (.executeTask executor task) = some submitted)
    (hrest : run step submitted rest = some current)
    (hrecord : current.runs[before.runs.length]? = some record)
    (hattempt : record.attempts[attempt]? = some .readClock)
    (hnext : step current (.act before.runs.length (.attempt attempt nowMs outcome)) = some next)
    (hmoved : next.runs[before.runs.length]? = some moved) :
    MeetsDeadline task nowMs attempt record moved ↔ InRange task nowMs := by
  constructor
  · exact inRange_of_meetsDeadline
  · intro hrange
    exact meetsDeadline_of_inRange (sameTimes_of_run hsubmit hrest hrecord) hrange
      (step_readClock hrecord hattempt hnext hmoved)

/-- A task with no timeout, submitted at the start of time. -/
def ancient : Task := { submitTs := Int64.minValue, timeoutMs := 0 }

/-- Its first attempt passes the check of the resources. -/
def firstAttempt : List Action := [.act 0 (.attempt 0 0 .throwsOther)]

/-- An ancient task whose attempt reads the clock at `1` is given almost all of `int64_t` in milliseconds. -/
theorem ancient_not_refused :
    ∃ submitted current next record moved,
      step { executors := [.create] } (.executeTask 0 ancient) = some submitted ∧
      run step submitted firstAttempt = some current ∧ current.runs[0]? = some record ∧
      record.attempts[0]? = some .readClock ∧
      step current (.act 0 (.attempt 0 1 .throwsOther)) = some next ∧ next.runs[0]? = some moved ∧
      moved.attempts[0]? = some (.armTimer 1 Int64.maxValue) ∧ deadline ancient < 1 ∧
      ¬MeetsDeadline ancient 1 0 record moved := by
  have hwraps : remainingTimeout ancient 1 = Int64.maxValue := by decide
  have harmed : afterClock ancient 1 = .armTimer 1 Int64.maxValue := by
    rw [afterClock, hwraps, if_neg (by decide)]
  refine ⟨_, _, _, _, _, rfl, rfl, rfl, rfl, rfl, rfl, ?_, by decide, ?_⟩
  · exact congrArg some harmed
  · intro hmeets
    have hrange := inRange_of_meetsDeadline hmeets
    revert hrange
    decide

/-- A task of half a minute, submitted at the epoch of the clock. -/
def recent : Task := { submitTs := 0, timeoutMs := 30000 }

theorem meetsDeadline_recent :
    ∃ submitted current next record moved,
      step { executors := [.create] } (.executeTask 0 recent) = some submitted ∧
      run step submitted firstAttempt = some current ∧ current.runs[0]? = some record ∧
      step current (.act 0 (.attempt 0 30001 .throwsOther)) = some next ∧ next.runs[0]? = some moved ∧
      MeetsDeadline recent 30001 0 record moved := by
  refine ⟨_, _, _, _, _, rfl, rfl, rfl, rfl, rfl, ?_⟩
  exact (meetsDeadline_iff_inRange firstAttempt 0 recent { executors := [.create] } _ _ _ _ _ 0 30001 .throwsOther
    rfl rfl rfl rfl rfl rfl).mpr (by decide)

end TinyReactor.Executor
