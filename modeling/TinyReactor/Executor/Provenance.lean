import TinyReactor.Executor.Gates

/-!
# Where a record comes from

`update_task_state` is called from seven places, and what it writes is all that a client ever sees of a task. Every
record was written by a step of the run and has a cause in an earlier one: a result is one that the function of the
task has returned, the text of a failure is that of an exception it has thrown or names the function that is not
there, a refusal follows the test that failed, and a timeout the computation of the remaining time or the callback of
a timer.
-/

namespace TinyReactor.Executor

open Transition Wire

/-- A step of a task that is about to be taken. -/
structure Moment where
  system : System
  record : TaskRun
  action : TaskAction

/-- In the run of `past` from `start`, the task has taken a step of `P`. -/
def Passed (start : System) (past : List Action) (index : ℕ) (P : Moment → Prop) : Prop :=
  ∃ first taskAction rest before record, past = first ++ .act index taskAction :: rest ∧
    run step start first = some before ∧ before.runs[index]? = some record ∧ P ⟨before, record, taskAction⟩

namespace Moment

/-- An attempt executes the statement at `pc`; the clock reads `nowMs`, and a function that is called ends with
`outcome`. -/
def Executes (moment : Moment) (pc : AttemptPc) (nowMs : UInt64) (outcome : Outcome) : Prop :=
  ∃ attempt, moment.action = .attempt attempt nowMs outcome ∧ moment.record.attempts[attempt]? = some pc

/-- The executor has too few resources for the task. -/
def Short (moment : Moment) : Prop :=
  (∃ nowMs outcome, moment.Executes .queued nowMs outcome) ∧
    ∃ executor, moment.system.executors[moment.record.executor]? = some executor ∧
      checkResources executor.availableResources moment.record.task.required = false

/-- The clock is read, and the remaining time computed from it is negative. -/
def Late (moment : Moment) : Prop :=
  ∃ nowMs outcome, moment.Executes .readClock nowMs outcome ∧ remainingTimeout moment.record.task nowMs < 0

/-- The attempt is on its way to the function. -/
def Begins (moment : Moment) : Prop := ∃ timer nowMs outcome, moment.Executes (.setRunning timer) nowMs outcome

/-- The function of the task is not registered. -/
def Unknown (moment : Moment) : Prop :=
  (∃ timer nowMs outcome, moment.Executes (.findFunction timer) nowMs outcome) ∧
    ∃ executor, moment.system.executors[moment.record.executor]? = some executor ∧
      moment.record.task.funcName ∉ executor.functions

/-- The function ends with `outcome`. -/
def Ends (outcome : Outcome) (moment : Moment) : Prop :=
  ∃ timer nowMs, moment.Executes (.callFunction timer) nowMs outcome

/-- The retry quota is used up. -/
def Full (moment : Moment) : Prop :=
  (∃ timer nowMs outcome, moment.Executes (.claimRetry timer) nowMs outcome) ∧
    maxConcurrentRetry ≤ moment.system.retryingCnt

/-- The callback of a timer that has expired comes to its report. -/
def Expires (moment : Moment) : Prop :=
  ∃ timer nowMs entry, moment.action = .timer timer nowMs ∧ moment.record.execTimers[timer]? = some entry ∧
    entry.status = .flagged

end Moment

/-- The function has thrown an error after which a retry is tried. -/
def ThrewRetryable (start : System) (past : List Action) (index : ℕ) : Prop :=
  ∃ error : StdException, isRetryableError (error.code.getD .success) = true ∧
    Passed start past index (Moment.Ends (.throws error))

/-- The reports that can be made of a task, each with what must have happened before. -/
inductive Accounted (start : System) (past : List Action) (index : ℕ) (task : Task) : Report → Prop
  | insufficient (hresources : checkResources defaultResources task.required = false)
      (hshort : Passed start past index Moment.Short) :
      Accounted start past index task { state := .failed, errorMsg := "Insufficient resources" }
  | late (hlate : Passed start past index Moment.Late) : Accounted start past index task timeoutReport
  | expired (hexpired : Passed start past index Moment.Expires) : Accounted start past index task timeoutReport
  | running (hbegun : Passed start past index Moment.Begins) : Accounted start past index task { state := .running }
  | returned (result : Json) (hended : Passed start past index (Moment.Ends (.returns result))) :
      Accounted start past index task { state := .success, result := result }
  | quotaFull (hthrew : ThrewRetryable start past index) (hfull : Passed start past index Moment.Full) :
      Accounted start past index task { state := .failed, errorMsg := "Retry quota full" }
  | threw (error : StdException) (hended : Passed start past index (Moment.Ends (.throws error))) :
      Accounted start past index task { state := .failed, errorMsg := "Execution failed: " ++ error.what }
  | unknown (hunknown : Passed start past index Moment.Unknown) : Accounted start past index task
      { state := .failed, errorMsg := "Execution failed: " ++ ("Unknown function: " ++ task.funcName) }

/-- In the run of `past` from `start`, a step of the task has passed the report to `update_task_state`, and what must
have happened before has happened in the run up to this step. -/
def Reported (start : System) (past : List Action) (index : ℕ) (task : Task) (report : Report) : Prop :=
  ∃ first taskAction rest before record, past = first ++ .act index taskAction :: rest ∧
    run step start first = some before ∧ before.runs[index]? = some record ∧
      record.update? taskAction = some report ∧ Accounted start (first ++ [.act index taskAction]) index task report

/-- What must have happened before an attempt stands where it stands. -/
def AttemptPc.Accounted (start : System) (past : List Action) (index : ℕ) (task : Task) : AttemptPc → Prop
  | .refuse report => Executor.Accounted start past index task report
  | .reportSuccess _ result => Passed start past index (Moment.Ends (.returns result))
  | .catchError _ error =>
      Passed start past index (Moment.Ends (.throws error)) ∨
        (error = { what := "Unknown function: " ++ task.funcName } ∧ Passed start past index Moment.Unknown)
  | .claimRetry _ => ThrewRetryable start past index
  | .returnClaim _ | .reportQuotaFull _ => ThrewRetryable start past index ∧ Passed start past index Moment.Full
  | .reportFailure _ what =>
      Executor.Accounted start past index task { state := .failed, errorMsg := "Execution failed: " ++ what }
  | _ => True

section

variable {start system : System} {past : List Action} {index attempt : ℕ} {task : Task} {report : Report}
  {record moved : TaskRun} {pc : AttemptPc} {nowMs : UInt64} {outcome : Outcome} {P : Moment → Prop}

/-! ## The run goes on -/

theorem Passed.concat (h : Passed start past index P) (action : Action) :
    Passed start (past ++ [action]) index P := by
  obtain ⟨first, taskAction, rest, before, record, rfl, hbefore⟩ := h
  exact ⟨first, taskAction, rest ++ [action], before, record, List.append_assoc .., hbefore⟩

theorem Passed.now {taskAction : TaskAction} (hrun : run step start past = some system)
    (hrecord : system.runs[index]? = some record) (hP : P ⟨system, record, taskAction⟩) :
    Passed start (past ++ [.act index taskAction]) index P :=
  ⟨past, taskAction, [], system, record, rfl, hrun, hrecord, hP⟩

theorem ThrewRetryable.concat (h : ThrewRetryable start past index) (action : Action) :
    ThrewRetryable start (past ++ [action]) index := by
  obtain ⟨error, hcode, hended⟩ := h
  exact ⟨error, hcode, hended.concat action⟩

theorem Accounted.concat (h : Accounted start past index task report) (action : Action) :
    Accounted start (past ++ [action]) index task report := by
  cases h with
  | insufficient hresources hshort => exact .insufficient hresources (hshort.concat action)
  | late hlate => exact .late (hlate.concat action)
  | expired hexpired => exact .expired (hexpired.concat action)
  | running hbegun => exact .running (hbegun.concat action)
  | returned result hended => exact .returned result (hended.concat action)
  | quotaFull hthrew hfull => exact .quotaFull (hthrew.concat action) (hfull.concat action)
  | threw error hended => exact .threw error (hended.concat action)
  | unknown hunknown => exact .unknown (hunknown.concat action)

theorem AttemptPc.Accounted.concat (h : pc.Accounted start past index task) (action : Action) :
    pc.Accounted start (past ++ [action]) index task := by
  cases pc with
  | refuse report | reportFailure timer what => exact Executor.Accounted.concat h action
  | reportSuccess timer result => exact Passed.concat h action
  | catchError timer error => exact h.imp (·.concat action) fun hunknown ↦ ⟨hunknown.1, hunknown.2.concat action⟩
  | claimRetry timer => exact ThrewRetryable.concat h action
  | returnClaim timer | reportQuotaFull timer => exact ⟨h.1.concat action, h.2.concat action⟩
  | _ => trivial

/-! ## One step -/

/-- A report that an attempt makes is accounted for. -/
theorem AttemptPc.Accounted.update (h : pc.Accounted start past index task)
    (hbegins : ∀ timer, pc = .setRunning timer → Passed start past index Moment.Begins)
    (hupdate : pc.update? = some report) : Executor.Accounted start past index task report := by
  cases pc with
  | refuse refused =>
    cases hupdate
    exact h
  | setRunning timer =>
    cases hupdate
    exact .running (hbegins timer rfl)
  | reportSuccess timer result =>
    cases hupdate
    exact .returned result h
  | reportQuotaFull timer =>
    cases hupdate
    exact .quotaFull h.1 h.2
  | reportFailure timer what =>
    cases hupdate
    exact h
  | _ => cases hupdate

/-- A statement of `run_task` leads to another one that is accounted for. -/
theorem attemptStep_accounted {executor : TaskExecutor} {after : ℤ} (hrun : run step start past = some system)
    (hrecord : system.runs[index]? = some record) (hexecutor : system.executors[record.executor]? = some executor)
    (hresources : executor.availableResources = defaultResources) (hrequest : request record.task = request task)
    (hpc : record.attempts[attempt]? = some pc) (h : pc.Accounted start past index task)
    (hstep : record.attemptStep executor system.retryingCnt attempt nowMs outcome pc = some (moved, after)) :
    ∃ pc', moved.attempts = record.attempts.set attempt pc' ∧
      pc'.Accounted start (past ++ [.act index (.attempt attempt nowMs outcome)]) index task := by
  have hnow {P : Moment → Prop} (hP : P ⟨system, record, .attempt attempt nowMs outcome⟩) := Passed.now hrun hrecord hP
  have hat : Moment.Executes ⟨system, record, .attempt attempt nowMs outcome⟩ pc nowMs outcome := ⟨attempt, rfl, hpc⟩
  have hlater := h.concat (.act index (.attempt attempt nowMs outcome))
  cases TaskRun.attemptMove_of_step hstep with
  | insufficient hinsufficient =>
    have hshort := hnow (P := Moment.Short) ⟨⟨nowMs, outcome, hat⟩, executor, hexecutor, hinsufficient⟩
    rw [hresources, required_of_request hrequest] at hinsufficient
    exact ⟨_, rfl, .insufficient hinsufficient hshort⟩
  | late hremaining => exact ⟨_, rfl, .late (hnow ⟨nowMs, outcome, hat, hremaining⟩)⟩
  | unknown timer hname =>
    refine ⟨_, rfl, .inr ⟨?_, hnow ⟨⟨timer, nowMs, outcome, hat⟩, executor, hexecutor, hname⟩⟩⟩
    rw [funcName_of_request hrequest]
  | returns timer result houtcome => exact ⟨_, rfl, hnow ⟨timer, nowMs, houtcome ▸ hat⟩⟩
  | throws timer error houtcome => exact ⟨_, rfl, .inl (hnow ⟨timer, nowMs, houtcome ▸ hat⟩)⟩
  | retryable timer error hcode hcount =>
    refine ⟨_, rfl, ?_⟩
    obtain hended | ⟨rfl, -⟩ := hlater
    · exact ⟨error, hcode, hended⟩
    · cases hcode
  | final timer error hfinal =>
    refine ⟨_, rfl, ?_⟩
    obtain hended | ⟨rfl, hunknown⟩ := hlater
    · exact .threw error hended
    · exact .unknown hunknown
  | overQuota timer hquota => exact ⟨_, rfl, hlater, hnow ⟨⟨timer, nowMs, outcome, hat⟩, hquota⟩⟩
  | returnClaim timer => exact ⟨_, rfl, hlater⟩
  | _ => exact ⟨_, rfl, trivial⟩

end

/-- The task is what the client has sent but for its record, its record was reported, and every attempt is accounted
for. -/
structure TaskRun.AccountedFor (start : System) (past : List Action) (index : ℕ) (task : Task) (record : TaskRun) :
    Prop where
  request : request record.task = request task
  shown : record.outcome = ⟨task.state, task.result, task.errorMsg⟩ ∨
    Reported start past index task record.outcome
  attempts : ∀ pc ∈ record.attempts, pc.Accounted start past index task

section

variable {start system next : System} {past : List Action} {index : ℕ} {task : Task} {record moved : TaskRun}
  {action : Action} {taskAction : TaskAction}

theorem Reported.concat {report : Report} (h : Reported start past index task report) (action : Action) :
    Reported start (past ++ [action]) index task report := by
  obtain ⟨first, taskAction, rest, before, record, rfl, hreported⟩ := h
  exact ⟨first, taskAction, rest ++ [action], before, record, List.append_assoc .., hreported⟩

theorem TaskRun.AccountedFor.concat (h : record.AccountedFor start past index task) (action : Action) :
    record.AccountedFor start (past ++ [action]) index task where
  request := h.request
  shown := h.shown.imp_right fun hshown ↦ hshown.concat action
  attempts pc hmem := (h.attempts pc hmem).concat action

/-- What a step reports is accounted for, by the attempt that makes the report or by the timer that has expired. -/
theorem TaskRun.AccountedFor.report (h : record.AccountedFor start past index task)
    (hrun : run Executor.step start past = some system) (hrecord : system.runs[index]? = some record) {report : Report}
    (hupdate : record.update? taskAction = some report) :
    Accounted start (past ++ [.act index taskAction]) index task report := by
  cases taskAction with
  | attempt attempt nowMs outcome =>
    obtain ⟨pc, hpc, hreport⟩ := Option.bind_eq_some_iff.mp hupdate
    refine ((h.attempts pc (List.mem_of_getElem? hpc)).concat _).update ?_ hreport
    rintro timer rfl
    exact Passed.now hrun hrecord ⟨timer, nowMs, outcome, attempt, rfl, hpc⟩
  | timer timer nowMs =>
    rw [TaskRun.update?] at hupdate
    split at hupdate
    · rename_i entry hentry
      cases hupdate
      exact .expired (Passed.now hrun hrecord ⟨timer, nowMs, _, rfl, hentry, rfl⟩)
    · cases hupdate
  | retry timer => cases hupdate

theorem TaskRun.AccountedFor.act {executor : TaskExecutor} {after : ℤ}
    (h : record.AccountedFor start past index task) (hrun : run Executor.step start past = some system)
    (hrecord : system.runs[index]? = some record) (hexecutor : system.executors[record.executor]? = some executor)
    (hresources : executor.availableResources = defaultResources)
    (hstep : record.step executor system.retryingCnt taskAction = some (moved, after)) :
    moved.AccountedFor start (past ++ [.act index taskAction]) index task := by
  have htask : TaskStep record taskAction moved := ⟨executor, _, after, hstep⟩
  have hshown : moved.outcome = ⟨task.state, task.result, task.errorMsg⟩ ∨
      Reported start (past ++ [.act index taskAction]) index task moved.outcome := by
    rw [TaskRun.outcome_of_taskStep htask]
    cases hupdate : record.update? taskAction with
    | none => exact (h.concat _).shown
    | some report =>
      exact .inr ⟨past, taskAction, [], system, record, rfl, hrun, hrecord, hupdate, h.report hrun hrecord hupdate⟩
  refine ⟨(TaskRun.request_of_taskStep htask).trans h.request, hshown, fun pc hmem ↦ ?_⟩
  by_cases hown : ∃ attempt nowMs outcome, taskAction = .attempt attempt nowMs outcome
  · obtain ⟨attempt, nowMs, outcome, rfl⟩ := hown
    obtain ⟨moving, hmoving, hmove⟩ := Option.bind_eq_some_iff.mp hstep
    obtain ⟨pc', hattempts, haccounted⟩ := attemptStep_accounted hrun hrecord hexecutor hresources h.request hmoving
      (h.attempts moving (List.mem_of_getElem? hmoving)) hmove
    rw [hattempts] at hmem
    rcases List.mem_or_eq_of_mem_set hmem with hold | rfl
    · exact (h.attempts pc hold).concat _
    · exact haccounted
  · rcases TaskRun.mem_attempts_of_taskStep htask (fun index nowMs outcome heq ↦ hown ⟨index, nowMs, outcome, heq⟩)
      hmem with hold | rfl
    · exact (h.attempts pc hold).concat _
    · trivial

theorem accountedFor_of_step (hrun : run step start past = some system) (hkept : GatesKept system)
    (hrecord : system.runs[index]? = some record) (h : record.AccountedFor start past index task)
    (hstep : step system action = some next) :
    ∃ moved, next.runs[index]? = some moved ∧ moved.AccountedFor start (past ++ [action]) index task := by
  by_cases hown : ∃ taskAction, action = .act index taskAction
  · obtain ⟨taskAction, rfl⟩ := hown
    obtain ⟨acting, moved, executor, after, hacting, hexecutor, htask, rfl⟩ := step_act_executor hstep
    cases hacting.symm.trans hrecord
    refine ⟨moved, List.getElem?_set_self (lt_length_of_getElem? hrecord), ?_⟩
    exact h.act hrun hrecord hexecutor (hkept.resources executor (List.mem_of_getElem? hexecutor)) htask
  · rcases step_task hstep hrecord with hsame | ⟨taskAction, -, heq, -⟩
    · exact ⟨record, hsame, h.concat action⟩
    · exact absurd ⟨taskAction, heq⟩ hown

end

/-- Every record of a task, at every moment of every run, is the one it was handed over with, or a step of the run
since then has reported it, after the steps that must come before that report. -/
theorem records_accounted (earlier rest : List Action) (executor : ℕ) (task : Task)
    (before submitted final : System) (hearlier : run step {} earlier = some before)
    (hsubmit : step before (.executeTask executor task) = some submitted)
    (hrest : run step submitted rest = some final) :
    ∃ record, final.runs[before.runs.length]? = some record ∧
      request record.task = request task ∧
      (record.outcome = ⟨task.state, task.result, task.errorMsg⟩ ∨
        Reported submitted rest before.runs.length task record.outcome) := by
  have hkept : GatesKept submitted := (gatesKept_of_run hearlier).step hsubmit
  have hinvariant := history_invariant
    (I := fun past visited ↦ GatesKept visited ∧ ∃ record, visited.runs[before.runs.length]? = some record ∧
      record.AccountedFor submitted past before.runs.length task)
    ⟨hkept, _, getElem?_executeTask hsubmit, rfl, .inl rfl, ?_⟩ ?_ hrest
  · obtain ⟨-, record, hrecord, haccounted⟩ := hinvariant
    exact ⟨record, hrecord, haccounted.request, haccounted.shown⟩
  · intro pc hmem
    obtain rfl := List.mem_singleton.mp hmem
    trivial
  · rintro past state action next hpast ⟨hstate, record, hrecord, haccounted⟩ hnext
    exact ⟨hstate.step hnext, accountedFor_of_step hpast hstate hrecord haccounted hnext⟩

/-- A whole attempt whose function returns `true`. -/
def returnsTrue : List Action := List.replicate 9 (.act 0 (.attempt 0 0 (.returns (.boolean true))))

theorem records_accounted_success :
    ∃ before submitted final record, run step {} [.construct] = some before ∧
      step before (.executeTask 0 { funcName := "fib" }) = some submitted ∧
      run step submitted returnsTrue = some final ∧ final.runs[0]? = some record ∧ record.task.state = .success ∧
      Reported submitted returnsTrue 0 { funcName := "fib" } record.outcome := by
  have hsubmit : step { executors := [.create] } (.executeTask 0 { funcName := "fib" }) =
      some { executors := [.create], runs := [{ executor := 0, task := { funcName := "fib" } }] } := rfl
  have hrun : run step { executors := [.create], runs := [{ executor := 0, task := { funcName := "fib" } }] }
      returnsTrue = some _ := rfl
  obtain ⟨record, hrecord, -, hshown⟩ := records_accounted [.construct] returnsTrue 0 _ _ _ _ rfl hsubmit hrun
  have hstate : record.task.state = .success := by
    obtain rfl := Option.some.inj hrecord
    rfl
  refine ⟨_, _, _, record, rfl, hsubmit, hrun, hrecord, hstate, hshown.resolve_left fun hinitial ↦ ?_⟩
  have hpending : record.task.state = .pending := congrArg Report.state hinitial
  cases hstate.symm.trans hpending

end TinyReactor.Executor
