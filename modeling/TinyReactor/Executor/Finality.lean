import TinyReactor.Executor.Attempts

/-!
# Terminal states

Neither `run_task` nor the callback of an execution timer looks at the state of the task before it
writes it. What the two write is final as long as they stay apart: a callback reports only while no
attempt has made its last report, and an attempt reports only while no callback has.
-/

namespace TinyReactor.Executor

open Transition Wire

namespace TaskRun

/-- The fields of the task that a report sets. -/
def outcome (record : TaskRun) : Report where
  state := record.task.state
  result := record.task.result
  errorMsg := record.task.errorMsg

/-- What the action passes to `update_task_state`, if it calls it. -/
def update? (record : TaskRun) : TaskAction → Option Report
  | .attempt index _ _ => record.attempts[index]?.bind AttemptPc.update?
  | .timer index _ =>
      match record.execTimers[index]? with
      | some { status := .flagged, .. } => some timeoutReport
      | _ => none
  | .retry _ => none

def HasFired (record : TaskRun) : Prop := ∃ timer ∈ record.execTimers, timer.status = .fired

theorem not_hasFired_of_all {record : TaskRun}
    (h : record.execTimers.all (fun timer ↦ timer.status != .fired) = true) : ¬record.HasFired := by
  rintro ⟨timer, hmem, hfired⟩
  have hnot := List.all_eq_true.mp h timer hmem
  rw [hfired] at hnot
  cases hnot

def HasReported (record : TaskRun) (report : Report) : Prop :=
  ∃ pc ∈ record.attempts, pc.reported? = some report

/-- No callback reports after the last report of an attempt, and no attempt reports after a callback.
Only the two ways of reporting a timeout, which agree, may follow each other. -/
def ReportsApart (record : TaskRun) (taskAction : TaskAction) : Prop :=
  match taskAction with
  | .attempt _ _ _ => ∀ report, record.update? taskAction = some report → report ≠ timeoutReport → ¬record.HasFired
  | .timer _ _ => ∀ report, record.update? taskAction ≠ none → record.HasReported report → report = timeoutReport
  | .retry _ => True

/-- The last report was made, by an attempt or by a callback, and the task shows it. -/
structure Settled (report : Report) (record : TaskRun) : Prop where
  hand : record.InOneHand
  shown : record.outcome = report
  maker : record.HasReported report ∨ (report = timeoutReport ∧ record.HasFired)

variable {record moved : TaskRun} {executor : TaskExecutor} {before after : ℤ} {attempt timer : ℕ}
  {nowMs : UInt64} {outcome : Outcome} {pc : AttemptPc} {report : Report} {taskAction : TaskAction}

/-! ## What a step reports -/

theorem attemptStep_outcome
    (h : record.attemptStep executor before attempt nowMs outcome pc = some (moved, after)) :
    moved.outcome = pc.update?.getD record.outcome := by
  cases attemptMove_of_step h <;> rfl

theorem timerStep_outcome {status : TimerStatus} (h : record.timerStep timer nowMs status = some moved) :
    moved.outcome = if status = .flagged then timeoutReport else record.outcome := by
  cases status with
  | fired => cases h
  | cancelled => cases h
  | _ =>
    cases h
    rfl

theorem retryStep_outcome {status : RetryStatus} (h : record.retryStep before timer status = some (moved, after)) :
    moved.outcome = record.outcome := by
  cases status with
  | done => cases h
  | _ =>
    cases h
    rfl

theorem outcome_of_taskStep (h : TaskStep record taskAction moved) :
    moved.outcome = (record.update? taskAction).getD record.outcome := by
  obtain ⟨executor, before, after, h⟩ := h
  cases taskMove_of_step h with
  | attempt index nowMs outcome pc hpc hstep =>
    rw [attemptStep_outcome hstep, update?, hpc, Option.bind_some]
  | timer index nowMs entry hentry htimer =>
    rw [timerStep_outcome htimer, update?, hentry]
    obtain ⟨remaining, status⟩ := entry
    cases status <;> rfl
  | retry index entry hentry hstep =>
    exact retryStep_outcome hstep

/-- An attempt that has made its last report makes no other. -/
theorem update?_eq_none_of_reported (h : pc.reported? = some report) : pc.update? = none := by
  cases pc with
  | cancelTimer timer reported => rfl
  | returned reported => rfl
  | _ => cases h

/-! ## What stays -/

theorem attemptStep_reported (h : record.attemptStep executor before attempt nowMs outcome pc = some (moved, after))
    (hreport : pc.reported? = some report ∨ (pc.update? = some report ∧ report.state ≠ .running)) :
    ∃ pc', moved.attempts = record.attempts.set attempt pc' ∧ pc'.reported? = some report := by
  cases pc with
  | cancelTimer timer reported =>
    cases h
    obtain hreport | ⟨hupdate, -⟩ := hreport
    · exact ⟨_, rfl, hreport⟩
    · cases hupdate
  | refuse | reportSuccess | reportFailure | reportQuotaFull =>
    cases h
    obtain hreport | ⟨hupdate, -⟩ := hreport
    · cases hreport
    · exact ⟨_, rfl, hupdate⟩
  | setRunning timer =>
    obtain hreport | ⟨hupdate, hstate⟩ := hreport
    · cases hreport
    · cases hupdate
      exact absurd rfl hstate
  | returned reported => cases h
  | _ => rcases hreport with hreport | ⟨hupdate, -⟩ <;> contradiction

theorem hasReported_of_taskStep (h : TaskStep record taskAction moved) (hreported : record.HasReported report) :
    moved.HasReported report := by
  obtain ⟨executor, before, after, h⟩ := h
  obtain ⟨pc, hmem, hreport⟩ := hreported
  cases taskMove_of_step h with
  | attempt index nowMs outcome moving hmoving hstep =>
    obtain ⟨place, hplace⟩ := List.mem_iff_getElem?.mp hmem
    by_cases hindex : index = place
    · subst hindex
      obtain rfl : moving = pc := Option.some.inj (hmoving.symm.trans hplace)
      obtain ⟨pc', hattempts, hkept⟩ := attemptStep_reported hstep (.inl hreport)
      refine ⟨pc', ?_, hkept⟩
      rw [hattempts]
      exact List.mem_set (lt_length_of_getElem? hmoving) pc'
    · obtain ⟨-, pc', hattempts, -⟩ := attemptStep_hand hstep
      refine ⟨pc, List.mem_of_getElem? (i := place) ?_, hreport⟩
      rw [hattempts, List.getElem?_set_ne hindex, hplace]
  | timer index nowMs entry hentry htimer =>
    obtain ⟨hattempts, -⟩ := timerStep_hand htimer
    exact ⟨pc, hattempts ▸ hmem, hreport⟩
  | retry index entry hentry hstep =>
    obtain ⟨-, status', -, ⟨-, hattempts⟩ | ⟨-, hattempts⟩⟩ := retryStep_hand hstep
    · exact ⟨pc, hattempts ▸ hmem, hreport⟩
    · exact ⟨pc, hattempts ▸ List.mem_append_left _ hmem, hreport⟩

theorem hasFired_of_taskStep (h : TaskStep record taskAction moved) (hfired : record.HasFired) : moved.HasFired := by
  obtain ⟨entry, hmem, hstatus⟩ := hfired
  obtain ⟨place, hplace⟩ := List.mem_iff_getElem?.mp hmem
  obtain ⟨entry', hentry', rfl | ⟨hnot, -⟩⟩ := execTimers_forward h hplace
  · exact ⟨entry', List.mem_of_getElem? hentry', hstatus⟩
  · exact absurd hstatus hnot

/-! ## Settled tasks -/

/-- The attempt that has made its last report is the only one that still holds the task. -/
theorem update?_eq_none_of_hasReported (hone : record.InOneHand) (hreported : record.HasReported report)
    (h : TaskStep record (.attempt attempt nowMs outcome) moved) :
    record.update? (.attempt attempt nowMs outcome) = none := by
  obtain ⟨executor, before, after, h⟩ := h
  obtain ⟨pc, hpc, hstep⟩ := Option.bind_eq_some_iff.mp h
  obtain ⟨hholds, -⟩ := attemptStep_hand hstep
  obtain ⟨reporter, hmem, hreport⟩ := hreported
  obtain ⟨place, hplace⟩ := List.mem_iff_getElem?.mp hmem
  have hcount : record.attempts.countP AttemptPc.holdsTask ≤ 1 := by
    unfold InOneHand at hone
    omega
  have hsame : attempt = place :=
    index_unique_of_countP_le_one hcount hpc hplace hholds (AttemptPc.holdsTask_of_reported hreport)
  subst hsame
  obtain rfl : pc = reporter := Option.some.inj (hpc.symm.trans hplace)
  rw [update?, hpc, Option.bind_some, update?_eq_none_of_reported hreport]

/-- A step that keeps the reports apart leaves a settled task settled with the same report. -/
theorem settled_of_taskStep (hsettled : record.Settled report) (hapart : record.ReportsApart taskAction)
    (h : TaskStep record taskAction moved) : moved.Settled report := by
  have hmaker : moved.HasReported report ∨ (report = timeoutReport ∧ moved.HasFired) :=
    hsettled.maker.imp (hasReported_of_taskStep h) (.imp_right (hasFired_of_taskStep h))
  refine ⟨inOneHand_of_taskStep h hsettled.hand, ?_, hmaker⟩
  rw [outcome_of_taskStep h]
  cases hupdate : record.update? taskAction with
  | none => exact hsettled.shown
  | some again =>
    -- whoever reports again reports the same timeout
    rw [Option.getD_some]
    cases taskAction with
    | attempt index nowMs outcome =>
      rcases hsettled.maker with hreported | ⟨rfl, hfired⟩
      · rw [update?_eq_none_of_hasReported hsettled.hand hreported h] at hupdate
        cases hupdate
      · by_contra hother
        exact hapart again hupdate hother hfired
    | timer index nowMs =>
      have hagain : again = timeoutReport := by
        simp only [update?] at hupdate
        split at hupdate <;> cases hupdate
        rfl
      rcases hsettled.maker with hreported | ⟨rfl, -⟩
      · rw [hagain, hapart report (by simp [hupdate]) hreported]
      · exact hagain
    | retry index => cases hupdate

/-- A step that reports a terminal state settles the task. -/
theorem settled_of_report (hone : record.InOneHand) (hupdate : record.update? taskAction = some report)
    (hterminal : IsTerminal report.state) (h : TaskStep record taskAction moved) : moved.Settled report := by
  refine ⟨inOneHand_of_taskStep h hone, ?_, ?_⟩
  · rw [outcome_of_taskStep h, hupdate, Option.getD_some]
  obtain ⟨executor, before, after, h⟩ := h
  cases taskMove_of_step h with
  | attempt index nowMs outcome pc hpc hstep =>
    left
    rw [update?, hpc, Option.bind_some] at hupdate
    have hrunning : report.state ≠ .running := by
      rcases hterminal with hstate | hstate | hstate <;> rw [hstate] <;> decide
    obtain ⟨pc', hattempts, hreported⟩ := attemptStep_reported hstep (.inr ⟨hupdate, hrunning⟩)
    refine ⟨pc', ?_, hreported⟩
    rw [hattempts]
    exact List.mem_set (lt_length_of_getElem? hpc) pc'
  | timer index nowMs entry hentry htimer =>
    right
    obtain ⟨remaining, status⟩ := entry
    simp only [update?, hentry] at hupdate
    cases status with
    | flagged =>
      cases hupdate
      cases htimer
      refine ⟨rfl, { remaining := remaining, status := .fired }, List.mem_of_getElem? (i := index) ?_, rfl⟩
      change (record.execTimers.modify index _)[index]? = _
      rw [List.getElem?_modify_eq, hentry]
      rfl
    | _ => cases hupdate
  | retry index => cases hupdate

end TaskRun

/-! ## Runs -/

/-- Once a step has reported a terminal state, the task shows that report for the rest of any run that
keeps the reports of attempts and callbacks apart. -/
theorem terminal_report_final {first rest : List Action} {before after final : System} {index : ℕ}
    {record : TaskRun} {taskAction : TaskAction} {report : Report}
    (hfirst : run step {} first = some before) (hrecord : before.runs[index]? = some record)
    (hreport : record.update? taskAction = some report) (hterminal : IsTerminal report.state)
    (hstep : step before (.act index taskAction) = some after) (hrest : run step after rest = some final)
    (hapart : Meets step (OnTasks TaskRun.ReportsApart) {} (first ++ .act index taskAction :: rest)) :
    ∃ later, final.runs[index]? = some later ∧ later.outcome = report := by
  obtain ⟨reporting, moved, hreporting, htask, hruns⟩ := step_act hstep
  obtain rfl : reporting = record := Option.some.inj (hreporting.symm.trans hrecord)
  have hmoved : after.runs[index]? = some moved := by
    rw [hruns, List.getElem?_set_self (lt_length_of_getElem? hrecord)]
  have hsettled : moved.Settled report :=
    TaskRun.settled_of_report (inOneHand_of_run hfirst hrecord) hreport hterminal htask
  have hmeets : Meets step (OnTasks TaskRun.ReportsApart) after rest := (hapart.append_right hfirst).2 after hstep
  obtain ⟨later, hlater, hfinal⟩ := task_invariant
    (fun _ _ _ hsettled hok htask ↦ TaskRun.settled_of_taskStep hsettled hok htask) hmeets hrest hmoved hsettled
  exact ⟨later, hlater, hfinal.shown⟩

/-- One task whose attempt is inside its function. -/
def callingFunction : List Action :=
  [.construct, .executeTask 0 { funcName := "fib" }] ++
    List.replicate 6 (.act 0 (.attempt 0 0 (.returns .null)))

/-- The attempt's next statement, with a function that returns. -/
def attemptReturns : Action := .act 0 (.attempt 0 0 (.returns .null))

theorem terminal_report_final_success :
    ∃ final later, run step {} (callingFunction ++ [attemptReturns, attemptReturns, attemptReturns]) = some final ∧
      final.runs[0]? = some later ∧ later.outcome = { state := .success } := by
  have hfinal := @terminal_report_final (callingFunction ++ [attemptReturns]) [attemptReturns] _ _ _ 0 _
    (.attempt 0 0 (.returns .null)) _ rfl rfl rfl (.inl rfl) rfl rfl ?_
  · obtain ⟨later, hlater, houtcome⟩ := hfinal
    exact ⟨_, later, rfl, hlater, houtcome⟩
  · refine ⟨trivial, fun next hnext ↦ ?_⟩
    cases hnext
    refine ⟨trivial, fun next hnext ↦ ?_⟩
    cases hnext
    iterate 9
      refine ⟨?_, fun next hnext ↦ ?_⟩
      · intro record hrecord report _ _
        cases hrecord
        exact TaskRun.not_hasFired_of_all rfl
      cases hnext
    trivial

/-- The timer expires during the call and reports `TIMEOUT`; then the function returns. -/
theorem terminal_report_overwritten :
    ∃ before after final later,
      run step {} (callingFunction ++ [.act 0 (.timer 0 0), .act 0 (.timer 0 0)]) = some before ∧
      step before (.act 0 (.timer 0 0)) = some after ∧
      (after.runs[0]?.map TaskRun.outcome) = some timeoutReport ∧
      run step after [attemptReturns, attemptReturns] = some final ∧
      final.runs[0]? = some later ∧ later.outcome.state = .success := by
  exact ⟨_, _, _, _, rfl, rfl, rfl, rfl, rfl, rfl⟩

end TinyReactor.Executor
