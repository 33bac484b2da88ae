import Mathlib.Algebra.Order.BigOperators.Group.List
import TinyReactor.Executor.Attempts

/-!
# The retry quota

`run_task` claims a retry by adding one to the counter that all executors share, and takes the claim back
when the counter had already reached the limit. Between the two the counter is too high, and it may be too
high by as many as there are workers. What bounds the retries that are admitted is that the value found by
an admitted claim counts every retry that is pending or about to be armed.
-/

namespace TinyReactor.Executor

open Transition Wire

/-- The timer is armed and its callback is not yet past its `fetch_sub`. -/
def RetryStatus.holdsClaim : RetryStatus → Bool
  | .waiting => true
  | .release => true
  | _ => false

def RetryTimer.holdsClaim (timer : RetryTimer) : Bool := timer.status.holdsClaim

/-- Between `fetch_add` and the arming of the timer or the compensating `fetch_sub`. -/
def AttemptPc.deciding : AttemptPc → Bool
  | .returnClaim _ => true
  | .armRetryTimer _ => true
  | _ => false

/-- The claim was admitted and its timer is not armed yet. -/
def AttemptPc.arming : AttemptPc → Bool
  | .armRetryTimer _ => true
  | _ => false

namespace TaskRun

def pendingRetries (record : TaskRun) : ℕ := record.retryTimers.countP RetryTimer.holdsClaim

def decidingCalls (record : TaskRun) : ℕ := record.attempts.countP AttemptPc.deciding

def armingCalls (record : TaskRun) : ℕ := record.attempts.countP AttemptPc.arming

end TaskRun

namespace System

def pendingRetries (system : System) : ℕ := (system.runs.map TaskRun.pendingRetries).sum

def decidingCalls (system : System) : ℕ := (system.runs.map TaskRun.decidingCalls).sum

def armingCalls (system : System) : ℕ := (system.runs.map TaskRun.armingCalls).sum

end System

/-- The counter is exact, and the admitted claims are within the quota. -/
structure QuotaKept (system : System) : Prop where
  counted : system.retryingCnt = system.pendingRetries + system.decidingCalls
  admitted : (system.pendingRetries + system.armingCalls : ℤ) ≤ maxConcurrentRetry

/-! ## One task -/

variable {system next : System} {action : Action} {index : ℕ} {record moved : TaskRun}

/-- What a step of one task may do to the counter and to its own retries. -/
structure ClaimStep (record moved : TaskRun) (before after : ℤ) : Prop where
  counted : after + (record.pendingRetries + record.decidingCalls) =
    before + (moved.pendingRetries + moved.decidingCalls)
  admitted : moved.pendingRetries + moved.armingCalls ≤ record.pendingRetries + record.armingCalls ∨
    (before < maxConcurrentRetry ∧
      moved.pendingRetries + moved.armingCalls ≤ record.pendingRetries + record.armingCalls + 1)

namespace TaskRun

variable {executor : TaskExecutor} {before after : ℤ} {attempt timer : ℕ} {nowMs : UInt64} {outcome : Outcome}
  {pc : AttemptPc}

/-- The statements of `run_task` that touch the counter or arm a retry timer, and all others. -/
theorem attemptStep_claim (h : record.attemptStep executor before attempt nowMs outcome pc = some (moved, after)) :
    ∃ pc', moved.attempts = record.attempts.set attempt pc' ∧
      ((moved.retryTimers = record.retryTimers ∧
          after + pc.deciding.toNat = before + pc'.deciding.toNat ∧
          (pc'.arming = true → before < maxConcurrentRetry)) ∨
        (pc.deciding = true ∧ pc.arming = true ∧ pc'.deciding = false ∧ pc'.arming = false ∧ after = before ∧
          moved.retryTimers = record.retryTimers ++ [{ delaySeconds := retryDelay record.task }])) := by
  cases attemptMove_of_step h with
  | armRetryTimer timer => exact ⟨_, rfl, .inr ⟨rfl, rfl, rfl, rfl, rfl, rfl⟩⟩
  | overQuota timer hquota =>
    refine ⟨_, rfl, .inl ⟨rfl, ?_, by rintro ⟨⟩⟩⟩
    simp [AttemptPc.deciding]
  | admitted timer hquota =>
    refine ⟨_, rfl, .inl ⟨rfl, ?_, fun _ ↦ hquota⟩⟩
    simp [AttemptPc.deciding]
  | returnClaim timer =>
    refine ⟨_, rfl, .inl ⟨rfl, ?_, by rintro ⟨⟩⟩⟩
    change before - 1 + 1 = before + 0
    omega
  | _ => exact ⟨_, rfl, .inl ⟨rfl, rfl, by rintro ⟨⟩⟩⟩

theorem claimStep_attempt (hpc : record.attempts[attempt]? = some pc)
    (h : record.attemptStep executor before attempt nowMs outcome pc = some (moved, after)) :
    ClaimStep record moved before after := by
  obtain ⟨pc', hattempts, hcases⟩ := attemptStep_claim h
  have hdeciding := countP_set_of_getElem? AttemptPc.deciding hpc pc'
  have harming := countP_set_of_getElem? AttemptPc.arming hpc pc'
  have hdecides := toNat_le_countP AttemptPc.deciding hpc
  have harms := toNat_le_countP AttemptPc.arming hpc
  rw [← hattempts] at hdeciding harming
  rcases hcases with ⟨hretry, hcounter, hadmitted⟩ | ⟨hdec, harm, hdec', harm', rfl, hretry⟩
  · have hpending : moved.pendingRetries = record.pendingRetries := by
      rw [pendingRetries, hretry, pendingRetries]
    constructor
    · unfold decidingCalls
      omega
    · cases hnew : pc'.arming with
      | false =>
        rw [hnew, Bool.toNat_false] at harming
        exact .inl (by unfold armingCalls; omega)
      | true =>
        rw [hnew, Bool.toNat_true] at harming
        exact .inr ⟨hadmitted hnew, by unfold armingCalls; omega⟩
  · have hpending : moved.pendingRetries = record.pendingRetries + 1 := by
      rw [pendingRetries, hretry, countP_append_singleton]
      rfl
    rw [hdec, hdec', Bool.toNat_true, Bool.toNat_false] at hdeciding
    rw [harm, harm', Bool.toNat_true, Bool.toNat_false] at harming
    rw [hdec, Bool.toNat_true] at hdecides
    rw [harm, Bool.toNat_true] at harms
    constructor
    · unfold decidingCalls
      omega
    · exact .inl (by unfold armingCalls; omega)

/-- The callback gives its claim back and never takes one. -/
theorem retryStep_claim {status : RetryStatus} (h : record.retryStep before timer status = some (moved, after)) :
    ∃ status', moved.retryTimers = (record.setRetry timer status').retryTimers ∧
      moved.decidingCalls = record.decidingCalls ∧ moved.armingCalls = record.armingCalls ∧
      after + status.holdsClaim.toNat = before + status'.holdsClaim.toNat ∧
      status'.holdsClaim.toNat ≤ status.holdsClaim.toNat := by
  cases status with
  | done => cases h
  | waiting =>
    cases h
    exact ⟨.release, rfl, rfl, rfl, rfl, Nat.le_refl 1⟩
  | release =>
    cases h
    refine ⟨.count, rfl, rfl, rfl, ?_, Nat.zero_le 1⟩
    change before - 1 + 1 = before + 0
    omega
  | count =>
    cases h
    exact ⟨.execute, rfl, rfl, rfl, rfl, Nat.le_refl 0⟩
  | execute =>
    cases h
    refine ⟨.done, rfl, ?_, ?_, rfl, Nat.le_refl 0⟩
    · exact countP_append_singleton AttemptPc.deciding
    · exact countP_append_singleton AttemptPc.arming

theorem claimStep_retry {entry : RetryTimer} (hentry : record.retryTimers[timer]? = some entry)
    (h : record.retryStep before timer entry.status = some (moved, after)) : ClaimStep record moved before after := by
  obtain ⟨status, hretry, hdeciding, harming, hcounter, hle⟩ := retryStep_claim h
  have hpending : moved.pendingRetries + entry.status.holdsClaim.toNat =
      record.pendingRetries + status.holdsClaim.toNat := by
    have hset := countP_setRetry RetryStatus.holdsClaim hentry status
    rw [← hretry] at hset
    exact hset
  constructor
  · rw [hdeciding]
    omega
  · rw [harming]
    exact .inl (by omega)

/-- A callback of an execution timer touches neither. -/
theorem claimStep_timer {status : TimerStatus} (h : record.timerStep timer nowMs status = some moved) :
    ClaimStep record moved before before := by
  obtain ⟨hattempts, hretry⟩ := timerStep_hand h
  have hpending : moved.pendingRetries = record.pendingRetries := by
    rw [pendingRetries, hretry, pendingRetries]
  have hdeciding : moved.decidingCalls = record.decidingCalls := by
    rw [decidingCalls, hattempts, decidingCalls]
  have harming : moved.armingCalls = record.armingCalls := by
    rw [armingCalls, hattempts, armingCalls]
  constructor
  · rw [hpending, hdeciding]
  · rw [hpending, harming]
    exact .inl (Nat.le_refl _)

theorem claimStep {taskAction : TaskAction} (h : record.step executor before taskAction = some (moved, after)) :
    ClaimStep record moved before after := by
  cases taskMove_of_step h with
  | attempt index nowMs outcome pc hpc hstep =>
    exact claimStep_attempt hpc hstep
  | timer index nowMs entry hentry htimer =>
    exact claimStep_timer htimer
  | retry index entry hentry hstep =>
    exact claimStep_retry hentry hstep

end TaskRun

/-! ## All tasks of all executors -/

/-- The totals of the system move as those of the task that moves. -/
theorem QuotaKept.of_claimStep {before after : ℤ} (h : QuotaKept system) (hcnt : system.retryingCnt = before)
    (hrecord : system.runs[index]? = some record) (hclaim : ClaimStep record moved before after) :
    QuotaKept { system with runs := system.runs.set index moved, retryingCnt := after } := by
  have hpending := sum_map_set_of_getElem? TaskRun.pendingRetries hrecord moved
  have hdeciding := sum_map_set_of_getElem? TaskRun.decidingCalls hrecord moved
  have harming := sum_map_set_of_getElem? TaskRun.armingCalls hrecord moved
  obtain ⟨hcounted, hadmitted⟩ := h
  obtain ⟨hmove, hgrow⟩ := hclaim
  unfold System.pendingRetries System.decidingCalls at hcounted
  unfold System.pendingRetries System.armingCalls at hadmitted
  constructor
  · change after = ((system.runs.set index moved).map TaskRun.pendingRetries).sum +
      ((system.runs.set index moved).map TaskRun.decidingCalls).sum
    omega
  · change (((system.runs.set index moved).map TaskRun.pendingRetries).sum +
      ((system.runs.set index moved).map TaskRun.armingCalls).sum : ℤ) ≤ maxConcurrentRetry
    rcases hgrow with hsame | ⟨hfree, hone⟩
    · omega
    · -- an attempt that is arming is also deciding, so the counter bounds the admitted claims
      have hle : (system.runs.map TaskRun.armingCalls).sum ≤ (system.runs.map TaskRun.decidingCalls).sum := by
        apply List.sum_le_sum
        intro run _
        apply List.countP_mono_left
        intro pc _ hpc
        cases pc with
        | armRetryTimer timer => rfl
        | _ => cases hpc
      omega

theorem QuotaKept.step (h : QuotaKept system) (hstep : step system action = some next) : QuotaKept next := by
  unfold Executor.step at hstep
  split at hstep
  · cases hstep
  · cases action with
    | construct =>
      cases hstep
      exact ⟨h.counted, h.admitted⟩
    | registerFunction executor name =>
      cases hstep
      exact ⟨h.counted, h.admitted⟩
    | executeTask executor task =>
      simp only at hstep
      split at hstep
      · cases hstep
        obtain ⟨hcounted, hadmitted⟩ := h
        constructor
        · simpa [System.pendingRetries, System.decidingCalls, TaskRun.pendingRetries, TaskRun.decidingCalls,
            AttemptPc.deciding] using hcounted
        · simpa [System.pendingRetries, System.armingCalls, TaskRun.pendingRetries, TaskRun.armingCalls,
            AttemptPc.arming] using hadmitted
      · cases hstep
    | act index taskAction =>
      simp only [Option.bind_eq_some_iff, Option.map_eq_some_iff] at hstep
      obtain ⟨record, hrecord, executor, -, ⟨moved, after⟩, hmoved, rfl⟩ := hstep
      exact h.of_claimStep rfl hrecord (TaskRun.claimStep hmoved)

theorem quotaKept_of_run {actions : List Action} (hrun : run step {} actions = some system) : QuotaKept system := by
  refine run_invariant (I := QuotaKept) (fun _ _ _ h hstep ↦ h.step hstep) ?_ hrun
  exact ⟨rfl, by decide⟩

/-- In every reachable state the pending retries are within the limit, and the counter is the number of
pending retries plus that of the calls which are deciding on one. -/
theorem retry_quota_holds (actions : List Action) (system : System) (hrun : run step {} actions = some system) :
    (system.pendingRetries : ℤ) ≤ maxConcurrentRetry ∧
      system.retryingCnt = system.pendingRetries + system.decidingCalls ∧ 0 ≤ system.retryingCnt ∧
      (system.pendingRetries = 0 → system.decidingCalls = 0 → system.retryingCnt = 0) := by
  obtain ⟨hcounted, hadmitted⟩ := quotaKept_of_run hrun
  refine ⟨by omega, hcounted, by omega, fun hpending hdeciding ↦ ?_⟩
  rw [hcounted, hpending, hdeciding]
  rfl

/-- Two executors with one task each. The function of both is refused a connection; the first task waits
for its retry and the second has claimed one. -/
def twoRetries : List Action :=
  [.construct, .construct, .executeTask 0 { funcName := "fib" }, .executeTask 1 { funcName := "fib" }] ++
    List.replicate 10 (.act 0 (.attempt 0 0 (.throws { what := "", code := some .connectionRefused }))) ++
    List.replicate 9 (.act 1 (.attempt 0 0 (.throws { what := "", code := some .connectionRefused })))

theorem retry_quota_holds_two :
    ∃ system, run step {} twoRetries = some system ∧ system.pendingRetries = 1 ∧ system.decidingCalls = 1 ∧
      (system.pendingRetries : ℤ) ≤ maxConcurrentRetry ∧ system.retryingCnt = 2 := by
  have hrun : run step {} twoRetries = some _ := rfl
  obtain ⟨hlimit, hcounted, -⟩ := retry_quota_holds twoRetries _ hrun
  exact ⟨_, hrun, rfl, rfl, hlimit, hcounted⟩

end TinyReactor.Executor
