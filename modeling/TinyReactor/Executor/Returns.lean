import TinyReactor.Executor.Finality

/-!
# How an attempt ends

`run_task` has no loop: each of its statements leaves fewer of them, and nothing but its own worker moves an
attempt on. A function that ends with a value or with a `std::exception` brings it to its end, where its last
report has made the task terminal or a retry timer has been armed.
-/

namespace TinyReactor.Executor

open Transition Wire

/-- A bound on the statements of `run_task` that are still to come. -/
def AttemptPc.statementsLeft : AttemptPc → ℕ
  | .queued => 11
  | .readClock => 10
  | .armTimer _ _ => 9
  | .setStart _ _ => 8
  | .setRunning _ => 7
  | .findFunction _ => 6
  | .callFunction _ => 5
  | .catchError _ _ => 4
  | .claimRetry _ => 3
  | .returnClaim _ | .reportSuccess _ _ | .reportFailure _ _ => 2
  | .refuse _ | .reportQuotaFull _ | .armRetryTimer _ | .cancelTimer _ _ => 1
  | .returned _ | .escaped _ => 0

/-- The statement is the call of the registered function. -/
def AttemptPc.callsFunction : AttemptPc → Bool
  | .callFunction _ => true
  | _ => false

/-- The function has ended with something that `run_task` expects: a value or a `std::exception`. -/
def Outcome.caught : Outcome → Bool
  | .throwsOther => false
  | _ => true

/-- The attempt's function, if the step calls it, ends in such a way. -/
def TaskRun.EndsCaught (record : TaskRun) : TaskAction → Prop
  | .attempt index _ outcome => ∀ pc ∈ record.attempts[index]?, pc.callsFunction = true → outcome.caught = true
  | _ => True

theorem AttemptPc.statementsLeft_pos {pc : AttemptPc} (hreturned : pc.hasReturned = false)
    (hescaped : pc.isEscaped = false) : 0 < pc.statementsLeft := by
  cases pc with
  | returned reported => cases hreturned
  | escaped timer => cases hescaped
  | _ => simp [AttemptPc.statementsLeft]

/-- The task is in one hand, refusals report a terminal state, and after its last report the task is in one. -/
structure TaskRun.Reporting (record : TaskRun) : Prop where
  hand : record.InOneHand
  refusal : ∀ report, AttemptPc.refuse report ∈ record.attempts → IsTerminal report.state
  terminal : ∀ report, record.HasReported report → IsTerminal record.task.state

namespace TaskRun

variable {record moved : TaskRun} {executor : TaskExecutor} {before after : ℤ} {attempt : ℕ} {nowMs : UInt64}
  {outcome : Outcome} {pc : AttemptPc} {report : Report} {taskAction : TaskAction}

/-! ## One statement -/

/-- As long as the function ends with a value or a `std::exception`, every statement leads on. -/
theorem attemptStep_descends (h : record.attemptStep executor before attempt nowMs outcome pc = some (moved, after))
    (hcaught : pc.callsFunction = true → outcome.caught = true) :
    ∃ pc', moved.attempts = record.attempts.set attempt pc' ∧ pc'.isEscaped = false ∧
      pc'.statementsLeft < pc.statementsLeft := by
  cases attemptMove_of_step h with
  | throwsOther timer houtcome =>
    rw [houtcome] at hcaught
    cases hcaught rfl
  | _ => exact ⟨_, rfl, rfl, by simp [AttemptPc.statementsLeft]⟩

/-- `run_task` never waits. -/
theorem attemptStep_enabled (hleft : 0 < pc.statementsLeft) :
    (record.attemptStep executor before attempt nowMs outcome pc).isSome = true := by
  cases pc with
  | returned reported => cases hleft
  | escaped timer => cases hleft
  | _ => rfl

/-- The last report of an attempt was made before the step, or the step makes it. -/
theorem attemptStep_reported_cases
    (h : record.attemptStep executor before attempt nowMs outcome pc = some (moved, after))
    (hrefusal : ∀ report, pc = .refuse report → IsTerminal report.state) :
    ∃ pc', moved.attempts = record.attempts.set attempt pc' ∧
      (∀ report, pc' = .refuse report → IsTerminal report.state) ∧
      ∀ report, pc'.reported? = some report →
        pc.reported? = some report ∨ (pc.update? = some report ∧ IsTerminal report.state) := by
  have hsuccess : IsTerminal .success := .inl rfl
  have hfailed : IsTerminal .failed := .inr (.inl rfl)
  have htimeout : IsTerminal .timeout := .inr (.inr rfl)
  cases attemptMove_of_step h with
  | insufficient | late =>
    refine ⟨_, rfl, ?_, by rintro _ ⟨⟩⟩
    rintro report ⟨⟩
    assumption
  | refuse refused =>
    refine ⟨_, rfl, by rintro _ ⟨⟩, ?_⟩
    rintro report ⟨⟩
    exact .inr ⟨rfl, hrefusal refused rfl⟩
  | reportSuccess timer result =>
    refine ⟨_, rfl, by rintro _ ⟨⟩, ?_⟩
    rintro report ⟨⟩
    exact .inr ⟨rfl, hsuccess⟩
  | reportQuotaFull | reportFailure =>
    refine ⟨_, rfl, by rintro _ ⟨⟩, ?_⟩
    rintro report ⟨⟩
    exact .inr ⟨rfl, hfailed⟩
  | cancelTimer timer reported => exact ⟨_, rfl, by rintro _ ⟨⟩, fun report hreport ↦ .inl hreport⟩
  | _ => exact ⟨_, rfl, by rintro _ ⟨⟩, by rintro _ ⟨⟩⟩

/-! ## Reports -/

theorem reporting_new (executor : ℕ) (task : Task) : Reporting { executor := executor, task := task } where
  hand := rfl
  refusal report hmem := by
    rw [List.mem_singleton] at hmem
    cases hmem
  terminal report hreported := by
    obtain ⟨pc, hmem, hreport⟩ := hreported
    rw [List.mem_singleton.mp hmem] at hreport
    cases hreport

/-- A step that makes no report leaves the state as it is. -/
theorem state_of_taskStep (h : TaskStep record taskAction moved) :
    moved.task.state = ((record.update? taskAction).getD record.outcome).state := by
  rw [← outcome_of_taskStep h]
  rfl

/-- The timers move no attempt; a retry timer may add one. -/
theorem mem_attempts_of_taskStep (h : TaskStep record taskAction moved)
    (htimer : ∀ index nowMs outcome, taskAction ≠ .attempt index nowMs outcome) (hpc : pc ∈ moved.attempts) :
    pc ∈ record.attempts ∨ pc = .queued := by
  obtain ⟨executor, before, after, hact⟩ := h
  cases taskMove_of_step hact with
  | attempt index nowMs outcome => exact absurd rfl (htimer index nowMs outcome)
  | timer index nowMs entry _ htimer =>
    obtain ⟨hattempts, -⟩ := timerStep_hand htimer
    exact .inl (hattempts ▸ hpc)
  | retry index entry _ hmove =>
    obtain ⟨-, status', -, ⟨-, hattempts⟩ | ⟨-, hattempts⟩⟩ := retryStep_hand hmove
    · exact .inl (hattempts ▸ hpc)
    · rw [hattempts, List.mem_append, List.mem_singleton] at hpc
      exact hpc

/-- A step that makes the task no less terminal and adds no attempt but a queued one. -/
theorem Reporting.of_attempts (h : record.Reporting) (hhand : moved.InOneHand)
    (hattempts : ∀ pc ∈ moved.attempts, pc ∈ record.attempts ∨ pc = .queued)
    (hstate : IsTerminal record.task.state → IsTerminal moved.task.state) : moved.Reporting where
  hand := hhand
  refusal report hreport := by
    obtain hbefore | hnew := hattempts _ hreport
    · exact h.refusal report hbefore
    · cases hnew
  terminal report hreported := by
    obtain ⟨pc, hmem, hreport⟩ := hreported
    obtain hbefore | rfl := hattempts pc hmem
    · exact hstate (h.terminal report ⟨pc, hbefore, hreport⟩)
    · cases hreport

theorem Reporting.taskStep (h : record.Reporting) (hstep : TaskStep record taskAction moved) : moved.Reporting := by
  have hhand := inOneHand_of_taskStep hstep h.hand
  have hstate := state_of_taskStep hstep
  obtain ⟨executor, before, after, hact⟩ := id hstep
  cases taskMove_of_step hact with
  | attempt index nowMs outcome pc hpc hmove =>
    have hmem := List.mem_of_getElem? hpc
    obtain ⟨pc', hattempts, hrefusal, hreported⟩ :=
      attemptStep_reported_cases hmove fun report hreport ↦ h.refusal report (hreport ▸ hmem)
    -- a report that stands before the step stands alone, so the step makes none
    have hold (report : Report) (hstands : record.HasReported report) : IsTerminal moved.task.state := by
      rw [hstate, update?_eq_none_of_hasReported h.hand hstands hstep]
      exact h.terminal report hstands
    refine ⟨hhand, fun report hreport ↦ ?_, ?_⟩
    · rw [hattempts] at hreport
      obtain hbefore | hnew := List.mem_or_eq_of_mem_set hreport
      · exact h.refusal report hbefore
      · exact hrefusal report hnew.symm
    · rintro report ⟨reporter, hreporter, hreport⟩
      rw [hattempts] at hreporter
      obtain hbefore | rfl := List.mem_or_eq_of_mem_set hreporter
      · exact hold report ⟨reporter, hbefore, hreport⟩
      · obtain hstands | ⟨hupdate, hterminal⟩ := hreported report hreport
        · exact hold report ⟨pc, hmem, hstands⟩
        · rw [hstate, update?, hpc, Option.bind_some, hupdate]
          exact hterminal
  | timer index nowMs =>
    refine h.of_attempts hhand (fun pc ↦ mem_attempts_of_taskStep hstep (by simp)) fun hterminal ↦ ?_
    rw [hstate, update?]
    split
    · exact .inr (.inr rfl)
    · exact hterminal
  | retry index =>
    refine h.of_attempts hhand (fun pc ↦ mem_attempts_of_taskStep hstep (by simp)) fun hterminal ↦ ?_
    rw [hstate]
    exact hterminal

/-- The task is `SUCCESS`, `FAILED` or `TIMEOUT`, or a retry timer of it is pending. -/
def Concluded (record : TaskRun) : Prop :=
  IsTerminal record.task.state ∨ ∃ timer ∈ record.retryTimers, timer.pending = true

/-- The statement with which an attempt returns leaves the task concluded. -/
theorem concluded_of_returned (h : record.Reporting) (hstep : TaskStep record (.attempt attempt nowMs outcome) moved)
    {pc' : AttemptPc} (hpc' : moved.attempts[attempt]? = some pc') (hreturned : pc'.hasReturned = true) :
    moved.Concluded := by
  have hreporting := h.taskStep hstep
  obtain ⟨executor, before, after, hact⟩ := hstep
  obtain ⟨pc, hpc, hmove⟩ := Option.bind_eq_some_iff.mp hact
  cases pc' with
  | returned reported =>
    cases reported with
    | some report => exact .inl (hreporting.terminal report ⟨_, List.mem_of_getElem? hpc', rfl⟩)
    | none =>
      right
      obtain ⟨-, pc', hattempts, hcases⟩ := attemptStep_hand hmove
      rw [hattempts, List.getElem?_set_self (lt_length_of_getElem? hpc)] at hpc'
      cases hpc'
      obtain ⟨hholds, -⟩ | ⟨-, hretry⟩ := hcases
      · cases hholds
      · rw [hretry]
        exact ⟨_, List.mem_append_right _ (List.mem_singleton.mpr rfl), rfl⟩
  | _ => cases hreturned

/-! ## Who moves an attempt -/

theorem executor_of_taskStep (h : TaskStep record taskAction moved) : moved.executor = record.executor := by
  obtain ⟨executor, before, after, hact⟩ := h
  cases taskMove_of_step hact with
  | attempt index nowMs outcome pc _ hmove => cases attemptMove_of_step hmove <;> rfl
  | timer index nowMs entry _ htimer =>
    generalize entry.status = status at htimer
    cases status with
    | fired => cases htimer
    | cancelled => cases htimer
    | _ =>
      cases htimer
      rfl
  | retry index entry _ hmove =>
    generalize entry.status = status at hmove
    cases status with
    | done => cases hmove
    | _ =>
      cases hmove
      rfl

/-- An attempt is moved by its own statements only. -/
theorem attempt_of_taskStep (h : TaskStep record taskAction moved) (hpc : record.attempts[attempt]? = some pc) :
    moved.attempts[attempt]? = some pc ∨ ∃ nowMs outcome, taskAction = .attempt attempt nowMs outcome := by
  obtain ⟨executor, before, after, hact⟩ := h
  cases taskMove_of_step hact with
  | attempt index nowMs outcome moving hmoving hmove =>
    by_cases hindex : index = attempt
    · exact .inr ⟨nowMs, outcome, by rw [hindex]⟩
    · obtain ⟨-, pc', hattempts, -⟩ := attemptStep_hand hmove
      left
      rw [hattempts, List.getElem?_set_ne hindex, hpc]
  | timer index nowMs entry _ htimer =>
    obtain ⟨hattempts, -⟩ := timerStep_hand htimer
    exact .inl (hattempts ▸ hpc)
  | retry index entry _ hmove =>
    obtain ⟨-, status', -, ⟨-, hattempts⟩ | ⟨-, hattempts⟩⟩ := retryStep_hand hmove
    · exact .inl (hattempts ▸ hpc)
    · left
      rw [hattempts, List.getElem?_append_left (lt_length_of_getElem? hpc), hpc]

/-- No attempt of the task has let an exception escape. -/
theorem not_escaped_of_taskStep (h : TaskStep record taskAction moved) (hcaught : record.EndsCaught taskAction)
    (hrecord : record.attempts.any AttemptPc.isEscaped = false) :
    moved.attempts.any AttemptPc.isEscaped = false := by
  rw [List.any_eq_false] at hrecord ⊢
  intro escaped hmem
  have htimer (hother : ∀ index nowMs outcome, taskAction ≠ .attempt index nowMs outcome) :
      ¬ escaped.isEscaped = true := by
    obtain hold | rfl := mem_attempts_of_taskStep h hother hmem
    · exact hrecord escaped hold
    · decide
  obtain ⟨executor, before, after, hact⟩ := h
  cases taskMove_of_step hact with
  | attempt index nowMs outcome pc hpc hmove =>
    obtain ⟨pc', hattempts, hpc', -⟩ := attemptStep_descends hmove (hcaught pc hpc)
    rw [hattempts] at hmem
    obtain hold | rfl := List.mem_or_eq_of_mem_set hmem
    · exact hrecord escaped hold
    · simp [hpc']
  | timer index nowMs => exact htimer (by simp)
  | retry index => exact htimer (by simp)

end TaskRun

variable {system next : System} {action : Action} {task attempt : ℕ} {record : TaskRun} {pc : AttemptPc}

/-- The same for the system: whatever moves, the attempt stays or its own statement was executed. -/
theorem attempt_of_step (h : step system action = some next) (hrecord : system.runs[task]? = some record)
    (hpc : record.attempts[attempt]? = some pc) :
    ∃ moved, next.runs[task]? = some moved ∧ moved.executor = record.executor ∧
      (moved.attempts[attempt]? = some pc ∨
        ∃ nowMs outcome, action = .act task (.attempt attempt nowMs outcome)) := by
  obtain hsame | ⟨taskAction, moved, rfl, htask, hmoved⟩ := step_task h hrecord
  · exact ⟨record, hsame, rfl, .inl hpc⟩
  · refine ⟨moved, hmoved, TaskRun.executor_of_taskStep htask, ?_⟩
    obtain hstays | ⟨nowMs, outcome, rfl⟩ := TaskRun.attempt_of_taskStep htask hpc
    · exact .inl hstays
    · exact .inr ⟨nowMs, outcome, rfl⟩

/-- A statement of an attempt whose function ends as `run_task` expects. -/
theorem statement_of_step {nowMs : UInt64} {outcome : Outcome}
    (h : step system (.act task (.attempt attempt nowMs outcome)) = some next)
    (hcaught : OnTasks TaskRun.EndsCaught system (.act task (.attempt attempt nowMs outcome))) :
    ∃ record moved pc pc', system.runs[task]? = some record ∧ record.attempts[attempt]? = some pc ∧
      next.runs[task]? = some moved ∧ moved.attempts[attempt]? = some pc' ∧ pc'.isEscaped = false ∧
      pc'.statementsLeft < pc.statementsLeft ∧ TaskStep record (.attempt attempt nowMs outcome) moved := by
  obtain ⟨record, moved, hrecord, hstep, hruns⟩ := step_act h
  obtain ⟨executor, before, after, hact⟩ := id hstep
  obtain ⟨pc, hpc, hmove⟩ := Option.bind_eq_some_iff.mp hact
  obtain ⟨pc', hattempts, hescaped, hless⟩ := TaskRun.attemptStep_descends hmove (hcaught record hrecord pc hpc)
  refine ⟨record, moved, pc, pc', hrecord, hpc, ?_, ?_, hescaped, hless, hstep⟩
  · rw [hruns, List.getElem?_set_self (lt_length_of_getElem? hrecord)]
  · rw [hattempts, List.getElem?_set_self (lt_length_of_getElem? hpc)]

/-- An attempt that has not ended can always take its next statement. -/
theorem statement_enabled {nowMs : UInt64} {outcome : Outcome} (hrunning : system.terminated = false)
    (hrecord : system.runs[task]? = some record) (hexecutor : record.executor < system.executors.length)
    (hpc : record.attempts[attempt]? = some pc) (hleft : 0 < pc.statementsLeft) :
    (step system (.act task (.attempt attempt nowMs outcome))).isSome = true := by
  unfold step
  rw [if_neg (by simp [hrunning])]
  simp only [hrecord, List.getElem?_eq_getElem hexecutor, Option.bind_some, TaskRun.step, hpc, Option.isSome_map]
  exact TaskRun.attemptStep_enabled hleft

theorem terminated_eq_false_iff : system.terminated = false ↔
    ∀ (task : ℕ) (record : TaskRun), system.runs[task]? = some record →
      record.attempts.any AttemptPc.isEscaped = false := by
  rw [System.terminated, List.any_eq_false]
  constructor
  · intro h task record hrecord
    exact Bool.eq_false_iff.mpr (h record (List.mem_of_getElem? hrecord))
  · intro h record hmem
    obtain ⟨task, hrecord⟩ := List.mem_iff_getElem?.mp hmem
    exact Bool.eq_false_iff.mp (h task record hrecord)

/-- The process lives on as long as the functions end as `run_task` expects. -/
theorem not_terminated_of_step (h : step system action = some next)
    (hcaught : OnTasks TaskRun.EndsCaught system action) : next.terminated = false := by
  have hrunning : system.terminated = false := by
    rw [← Bool.not_eq_true]
    intro hterminated
    unfold step at h
    rw [if_pos hterminated] at h
    cases h
  rw [terminated_eq_false_iff] at hrunning ⊢
  apply tasks_of_step _ _ hcaught h hrunning
  · intro record taskAction moved hrecord hok hstep
    exact TaskRun.not_escaped_of_taskStep hstep hok hrecord
  · exact fun _ _ ↦ rfl

/-- A function that ends otherwise takes the process with it. -/
theorem escapes_of_step {nowMs : UInt64} {outcome : Outcome}
    (h : step system (.act task (.attempt attempt nowMs outcome)) = some next)
    (hrecord : system.runs[task]? = some record) (hpc : record.attempts[attempt]? = some pc)
    (hcalls : pc.callsFunction = true) (huncaught : outcome.caught = false) :
    next.terminated = true ∧ ∃ moved timer, next.runs[task]? = some moved ∧
      moved.attempts[attempt]? = some (.escaped timer) := by
  obtain ⟨record', moved, hrecord', ⟨executor, before, after, hact⟩, hruns⟩ := step_act h
  cases hrecord'.symm.trans hrecord
  have hmoved : next.runs[task]? = some moved := by
    rw [hruns, List.getElem?_set_self (lt_length_of_getElem? hrecord)]
  obtain ⟨timer, hescaped⟩ : ∃ timer, moved.attempts[attempt]? = some (.escaped timer) := by
    obtain ⟨pc', hpc', hmove⟩ := Option.bind_eq_some_iff.mp hact
    cases hpc'.symm.trans hpc
    cases pc with
    | callFunction timer =>
      cases outcome with
      | throwsOther =>
        cases hmove
        exact ⟨timer, List.getElem?_set_self (lt_length_of_getElem? hpc)⟩
      | _ => cases huncaught
    | _ => cases hcalls
  refine ⟨?_, moved, timer, hmoved, hescaped⟩
  rw [System.terminated, List.any_eq_true]
  exact ⟨moved, List.mem_of_getElem? hmoved, List.any_eq_true.mpr ⟨_, List.mem_of_getElem? hescaped, rfl⟩⟩

theorem executors_length_le_of_step (h : step system action = some next) :
    system.executors.length ≤ next.executors.length := by
  unfold step at h
  split at h
  · cases h
  · cases action with
    | construct =>
      cases h
      simp
    | registerFunction executor name =>
      cases h
      simp
    | executeTask executor task =>
      simp only [Option.ite_none_right_eq_some, Option.some.injEq] at h
      obtain ⟨-, rfl⟩ := h
      exact Nat.le_refl _
    | act task taskAction =>
      simp only [Option.bind_eq_some_iff, Option.map_eq_some_iff] at h
      obtain ⟨-, -, -, -, -, -, rfl⟩ := h
      exact Nat.le_refl _

/-- Every task keeps `Reporting`, whatever moves. -/
theorem reporting_of_step (h : step system action = some next)
    (hsystem : ∀ (task : ℕ) record, system.runs[task]? = some record → record.Reporting) :
    ∀ (task : ℕ) record, next.runs[task]? = some record → record.Reporting := by
  refine tasks_of_step ?_ TaskRun.reporting_new (onTasks_true system action) h hsystem
  intro record taskAction moved hreporting _ hstep
  exact hreporting.taskStep hstep

end TinyReactor.Executor
