import Mathlib.Data.List.Basic
import TinyReactor.Executor.Quota
import TinyReactor.Executor.Returns

/-!
# Refused retries

A claim that finds the counter at the limit is refused, and is taken back one statement later. Until then the
counter counts it like an admitted retry, so that a claim may be refused although retries are left: the counter is
the number of admitted retries plus that of refused claims not yet taken back, and the claim sees only the sum.
-/

namespace TinyReactor.Executor

open Transition Wire

/-- The claim was refused and is not taken back yet. -/
def AttemptPc.takingBack : AttemptPc → Bool
  | .returnClaim _ => true
  | _ => false

/-- The claim was refused and the task is not yet reported as failed. -/
def AttemptPc.refused : AttemptPc → Bool
  | .returnClaim _ => true
  | .reportQuotaFull _ => true
  | _ => false

namespace TaskRun

/-- Retries that were admitted and whose callback is not past its `fetch_sub`. -/
def admittedRetries (record : TaskRun) : ℕ := record.pendingRetries + record.armingCalls

def refusedClaims (record : TaskRun) : ℕ := record.attempts.countP AttemptPc.takingBack

end TaskRun

namespace System

/-- The admitted retries of all tasks but one. -/
def otherRetries (system : System) (index : ℕ) : ℕ := ((system.runs.eraseIdx index).map TaskRun.admittedRetries).sum

/-- The refused claims that stand between their `fetch_add` and their `fetch_sub`. -/
def refusedClaims (system : System) : ℕ := (system.runs.map TaskRun.refusedClaims).sum

/-- The attempt of the task was refused a retry and has not reported it yet. -/
def Refused (system : System) (index attempt : ℕ) : Prop :=
  ∃ record pc, system.runs[index]? = some record ∧ record.attempts[attempt]? = some pc ∧ pc.refused = true

end System

variable {system next : System} {action : Action} {index attempt timer : ℕ} {record : TaskRun}

/-! ## What the counter counts -/

theorem TaskRun.decidingCalls_eq (record : TaskRun) :
    record.decidingCalls = record.armingCalls + record.refusedClaims := by
  unfold decidingCalls armingCalls refusedClaims
  induction record.attempts with
  | nil => rfl
  | cons pc rest ih =>
    rw [List.countP_cons, List.countP_cons, List.countP_cons, ih]
    cases pc <;> simp only [AttemptPc.deciding, AttemptPc.arming, AttemptPc.takingBack, Bool.false_eq_true, if_true,
      if_false] <;> omega

/-- A task whose attempt is at its claim has no retry of its own. -/
theorem TaskRun.InOneHand.admittedRetries_eq_zero (hone : record.InOneHand)
    (hpc : record.attempts[attempt]? = some (.claimRetry timer)) : record.admittedRetries = 0 := by
  have hholds := toNat_le_countP AttemptPc.holdsTask hpc
  change 1 ≤ _ at hholds
  unfold TaskRun.InOneHand at hone
  have hpending : record.pendingRetries = 0 := by
    have hle : record.pendingRetries ≤ record.retryTimers.countP RetryTimer.pending := by
      refine List.countP_mono_left fun entry _ hclaim ↦ ?_
      obtain ⟨delaySeconds, status⟩ := entry
      cases status <;> first | rfl | cases hclaim
    omega
  have harming : record.armingCalls = 0 := by
    refine List.countP_eq_zero.mpr fun pc hmem harms ↦ ?_
    obtain ⟨place, hplace⟩ := List.mem_iff_getElem?.mp hmem
    have hkeeps : pc.holdsTask = true := by
      cases pc <;> first | rfl | cases harms
    obtain rfl := index_unique_of_countP_le_one (by omega) hpc hplace rfl hkeeps
    cases hpc.symm.trans hplace
    cases harms
  rw [admittedRetries, hpending, harming]

/-! ## The claim behind a refusal -/

namespace TaskRun

variable {executor : TaskExecutor} {before after : ℤ} {nowMs : UInt64} {outcome : Outcome} {moved : TaskRun}
  {pc pc' : AttemptPc} {taskAction : TaskAction}

/-- An attempt becomes refused by its own `fetch_add`, which found the counter at the limit. -/
theorem claimRetry_of_attemptStep
    (h : record.attemptStep executor before attempt nowMs outcome pc = some (moved, after))
    (hpc : record.attempts[attempt]? = some pc) (hnot : pc.refused = false)
    (hpc' : moved.attempts[attempt]? = some pc') (hrefused : pc'.refused = true) :
    (∃ timer, pc = .claimRetry timer) ∧ maxConcurrentRetry ≤ before := by
  have hself (entry : AttemptPc) : (record.attempts.set attempt entry)[attempt]? = some entry :=
    List.getElem?_set_self (lt_length_of_getElem? hpc)
  cases attemptMove_of_step h with
  | overQuota timer hquota => exact ⟨⟨timer, rfl⟩, hquota⟩
  | returnClaim timer => cases hnot
  | _ =>
    cases (hself _).symm.trans hpc'
    cases hrefused

/-- The same among all who act on the task: no timer refuses an attempt, and none adds a refused one. -/
theorem claimRetry_of_step (h : record.step executor before taskAction = some (moved, after))
    (hnot : ∀ pc, record.attempts[attempt]? = some pc → pc.refused = false)
    (hpc' : moved.attempts[attempt]? = some pc') (hrefused : pc'.refused = true) :
    ∃ timer nowMs outcome, taskAction = .attempt attempt nowMs outcome ∧
      record.attempts[attempt]? = some (.claimRetry timer) ∧ maxConcurrentRetry ≤ before := by
  have hstays (hsame : record.attempts[attempt]? = some pc') : False := by
    rw [hnot pc' hsame] at hrefused
    cases hrefused
  cases taskMove_of_step h with
  | attempt index nowMs outcome pc hpc hstep =>
    by_cases hindex : index = attempt
    · subst hindex
      obtain ⟨⟨timer, rfl⟩, hquota⟩ := claimRetry_of_attemptStep hstep hpc (hnot pc hpc) hpc' hrefused
      exact ⟨timer, nowMs, outcome, rfl, hpc, hquota⟩
    · obtain ⟨-, new, hattempts, -⟩ := attemptStep_hand hstep
      rw [hattempts, List.getElem?_set_ne hindex] at hpc'
      exact (hstays hpc').elim
  | timer index nowMs entry hentry hstep =>
    rw [(timerStep_hand hstep).1] at hpc'
    exact (hstays hpc').elim
  | retry index entry hentry hstep =>
    obtain ⟨-, status, -, ⟨-, hattempts⟩ | ⟨-, hattempts⟩⟩ := retryStep_hand hstep
    · rw [hattempts] at hpc'
      exact (hstays hpc').elim
    · rw [hattempts] at hpc'
      obtain hold | ⟨-, rfl⟩ := of_getElem?_append_singleton hpc'
      · exact (hstays hold).elim
      · cases hrefused

end TaskRun

theorem claimRetry_of_refused (h : step system action = some next) (hnot : ¬system.Refused index attempt)
    (hrefused : next.Refused index attempt) :
    ∃ record timer nowMs outcome, action = .act index (.attempt attempt nowMs outcome) ∧
      system.runs[index]? = some record ∧ record.attempts[attempt]? = some (.claimRetry timer) ∧
      maxConcurrentRetry ≤ system.retryingCnt := by
  obtain ⟨moved, pc', hmoved, hpc', hclaim⟩ := hrefused
  cases hrecord : system.runs[index]? with
  | none =>
    -- a new task has one attempt, which is queued
    obtain ⟨executor, task, rfl⟩ := step_new h hrecord hmoved
    obtain rfl : pc' = .queued := List.mem_singleton.mp (List.mem_of_getElem? hpc')
    cases hclaim
  | some record =>
    have hrecordNot (pc : AttemptPc) (hpc : record.attempts[attempt]? = some pc) : pc.refused = false :=
      Bool.eq_false_iff.mpr fun hpcRefused ↦ hnot ⟨record, pc, hrecord, hpc, hpcRefused⟩
    obtain hsame | ⟨taskAction, moved', rfl, -⟩ := step_task h hrecord
    · cases hsame.symm.trans hmoved
      rw [hrecordNot pc' hpc'] at hclaim
      cases hclaim
    · unfold step at h
      split at h
      · cases h
      · simp only [hrecord, Option.bind_some, Option.bind_eq_some_iff, Option.map_eq_some_iff] at h
        obtain ⟨executor, -, ⟨after, counter⟩, hstep, rfl⟩ := h
        rw [List.getElem?_set_self (lt_length_of_getElem? hrecord)] at hmoved
        cases hmoved
        obtain ⟨timer, nowMs, outcome, rfl, hpc, hquota⟩ := TaskRun.claimRetry_of_step hstep hrecordNot hpc' hclaim
        exact ⟨record, timer, nowMs, outcome, rfl, rfl, hpc, hquota⟩

/-- The counter is the number of admitted retries plus that of refused claims; at its claim a task has neither. -/
theorem otherRetries_add_refusedClaims {actions : List Action} (hrun : run step {} actions = some system)
    (hrecord : system.runs[index]? = some record) (hpc : record.attempts[attempt]? = some (.claimRetry timer)) :
    (system.otherRetries index + system.refusedClaims : ℤ) = system.retryingCnt := by
  have hcounted := (quotaKept_of_run hrun).counted
  have hother := sum_map_eraseIdx_add TaskRun.admittedRetries hrecord
  rw [(inOneHand_of_run hrun hrecord).admittedRetries_eq_zero hpc, Nat.add_zero] at hother
  have hadmitted : (system.runs.map TaskRun.admittedRetries).sum = system.pendingRetries + system.armingCalls :=
    List.sum_map_add
  have hdeciding : system.decidingCalls = system.armingCalls + system.refusedClaims := by
    rw [System.decidingCalls, funext TaskRun.decidingCalls_eq]
    exact List.sum_map_add
  rw [System.otherRetries, hother, hadmitted, hcounted, hdeciding]
  omega

/-- The attempt stands at the statement that makes its task `FAILED` with "Retry quota full". Its own `fetch_add`
had found the counter at the limit, and at that moment the other admitted retries filled the quota exactly when
the refused claims still in the counter were no more than its excess over the limit. -/
theorem refusal_justified_iff (actions : List Action) (system : System) (index attempt timer : ℕ) (record : TaskRun)
    (hrun : run step {} actions = some system) (hrecord : system.runs[index]? = some record)
    (hpc : record.attempts[attempt]? = some (.reportQuotaFull timer)) :
    ∃ first nowMs outcome rest since claiming timer',
      actions = first ++ .act index (.attempt attempt nowMs outcome) :: rest ∧ run step {} first = some since ∧
      since.runs[index]? = some claiming ∧ claiming.attempts[attempt]? = some (.claimRetry timer') ∧
      maxConcurrentRetry ≤ since.retryingCnt ∧
      (maxConcurrentRetry ≤ since.otherRetries index ↔
        (since.refusedClaims : ℤ) ≤ since.retryingCnt - maxConcurrentRetry) := by
  have hstart : ¬({} : System).Refused index attempt := by
    rintro ⟨record, pc, hnone, -⟩
    cases hnone
  obtain ⟨first, action, rest, since, after, rfl, hfirst, hstep, -, hnot, hrefused⟩ :=
    exists_step_of_run (P := fun system ↦ system.Refused index attempt) hrun hstart ⟨record, _, hrecord, hpc, rfl⟩
  obtain ⟨claiming, timer', nowMs, outcome, rfl, hclaiming, hclaim, hquota⟩ :=
    claimRetry_of_refused hstep hnot hrefused
  refine ⟨first, nowMs, outcome, rest, since, claiming, timer', rfl, hfirst, hclaiming, hclaim, hquota, ?_⟩
  have hcounter := otherRetries_add_refusedClaims hfirst hclaiming hclaim
  omega

/-- The next statements of the first attempt of a task whose function is refused a connection. -/
def statements (index count : ℕ) : List Action :=
  List.replicate count (.act index (.attempt 0 0 (.throws { what := "", code := some .connectionRefused })))

/-- Ten tasks of one executor fill the quota; the others are not started yet. -/
def tenRetries (tasks : ℕ) : List Action :=
  .construct :: List.replicate tasks (.executeTask 0 { funcName := "fib" }) ++
    (List.range 10).flatMap fun index ↦ statements index 10

/-- The eleventh task is refused while ten retries are pending. -/
theorem refusal_justified_iff_eleventh :
    ∃ system record, run step {} (tenRetries 11 ++ statements 10 10) = some system ∧
      system.runs[10]? = some record ∧ record.attempts[0]? = some (.reportQuotaFull 0) ∧
      ∃ first nowMs outcome rest since claiming timer, tenRetries 11 ++ statements 10 10 =
        first ++ .act 10 (.attempt 0 nowMs outcome) :: rest ∧ run step {} first = some since ∧
        since.runs[10]? = some claiming ∧ claiming.attempts[0]? = some (.claimRetry timer) ∧
        maxConcurrentRetry ≤ since.retryingCnt ∧
        (maxConcurrentRetry ≤ since.otherRetries 10 ↔
          (since.refusedClaims : ℤ) ≤ since.retryingCnt - maxConcurrentRetry) := by
  have hrun : run step {} (tenRetries 11 ++ statements 10 10) = some _ := rfl
  exact ⟨_, _, hrun, rfl, rfl, refusal_justified_iff _ _ 10 0 0 _ hrun rfl rfl⟩

/-- The eleventh task is refused and has not taken its claim back when a retry timer fires; the twelfth reaches its
own claim. -/
def crossingRefusals : List Action :=
  tenRetries 12 ++ statements 10 9 ++ [.act 0 (.retry 0), .act 0 (.retry 0)] ++ statements 11 8

/-- The twelfth task is refused although only nine other retries are left. -/
theorem refused_with_room :
    ∃ since claiming final record, run step {} crossingRefusals = some since ∧
      since.runs[11]? = some claiming ∧ claiming.attempts[0]? = some (.claimRetry 0) ∧
      since.otherRetries 11 = 9 ∧ ¬maxConcurrentRetry ≤ since.otherRetries 11 ∧
      run step since (statements 11 3) = some final ∧ final.runs[11]? = some record ∧
      record.task.state = .failed ∧ record.task.errorMsg = "Retry quota full" := by
  have hrun : run step {} crossingRefusals = some _ := rfl
  exact ⟨_, _, _, _, hrun, rfl, rfl, rfl, by decide, rfl, rfl, rfl, rfl⟩

end TinyReactor.Executor
