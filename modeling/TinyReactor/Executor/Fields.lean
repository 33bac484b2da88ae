import TinyReactor.Executor.Finality
import TinyReactor.Transition.Simulation

/-!
# Reports field by field

`update_task_state` assigns `state`, `result`, `error_msg` and `finish_ts` one after the other, and nothing keeps
the worker and the thread of the `io_context` from assigning in turns. Here each assignment is one step; every
other statement is a step of the executor, and none of them reads the four fields. The record of a task shows one
report as long as a call never writes over what the call after it has written.
-/

namespace TinyReactor.Executor

open Transition Wire

/-- The assignment that a call of `update_task_state` makes next (lines 129 to 132). A caller that is not in
`update_task_state` is at the first. -/
inductive Field
  | state
  | result
  | errorMsg
  | finishTs
  deriving DecidableEq, Repr

def Field.after? : Field → Option Field
  | .state => some .result
  | .result => some .errorMsg
  | .errorMsg => some .finishTs
  | .finishTs => none

/-- Who calls `update_task_state` on a task: one of its attempts, or the callback of one of its execution timers. -/
inductive Caller
  | attempt (index : ℕ)
  | timer (index : ℕ)
  deriving DecidableEq, Repr

def TaskAction.caller? : TaskAction → Option Caller
  | .attempt index _ _ => some (.attempt index)
  | .timer index _ => some (.timer index)
  | .retry _ => none

/-- What the clock reads, where the statement asks for it. -/
def TaskAction.nowMs : TaskAction → UInt64
  | .attempt _ nowMs _ | .timer _ nowMs => nowMs
  | .retry _ => 0

/-- One assignment of `update_task_state`. -/
def assign (task : Task) (report : Report) (nowMs : UInt64) : Field → Task
  | .state => { task with state := report.state }
  | .result => { task with result := report.result }
  | .errorMsg => { task with errorMsg := report.errorMsg }
  | .finishTs => { task with finishTs := nowMs.toInt64 }

/-- What the caller passes to `update_task_state`, if it calls it next or is inside. -/
def TaskRun.reportOf? (record : TaskRun) : Caller → Option Report
  | .attempt index => record.attempts[index]?.bind AttemptPc.update?
  | .timer index => record.execTimers[index]?.bind fun timer ↦
      if timer.status = .flagged then some timeoutReport else none

/-- The executors with the assignment that each caller on each task makes next. `latest` records the call that
has assigned the state of a task last, with its arguments; no step reads it. -/
structure FieldSystem where
  system : System := {}
  next : ℕ → Caller → Field := fun _ _ ↦ .state
  latest : ℕ → Option (Caller × Report) := fun _ ↦ none

/-- A call that is about to make an assignment. -/
structure Write where
  index : ℕ
  record : TaskRun
  caller : Caller
  report : Report
  nowMs : UInt64

def System.setTask (system : System) (index : ℕ) (task : Task) : System :=
  { system with runs := system.runs.modify index fun record ↦ { record with task := task } }

namespace FieldSystem

/-- The call that the action continues, if the thread that moves is at or inside `update_task_state`. -/
def write? (fields : FieldSystem) : Action → Option Write
  | .act index taskAction =>
      fields.system.runs[index]?.bind fun record ↦
        taskAction.caller?.bind fun caller ↦
          (record.reportOf? caller).map fun report ↦ ⟨index, record, caller, report, taskAction.nowMs⟩
  | _ => none

/-- The assignment that the call makes. -/
def field (fields : FieldSystem) (write : Write) : Field := fields.next write.index write.caller

def setNext (fields : FieldSystem) (write : Write) (field : Field) : FieldSystem :=
  { fields with
    next := Function.update fields.next write.index
      (Function.update (fields.next write.index) write.caller field) }

/-- The call that assigns the state is the latest. -/
def observe (fields : FieldSystem) (write : Write) : FieldSystem :=
  if fields.field write = .state then
    { fields with latest := Function.update fields.latest write.index (some (write.caller, write.report)) }
  else fields

/-- One step. The thread moves on with the last assignment. -/
def step (fields : FieldSystem) (action : Action) : Option FieldSystem :=
  match fields.write? action with
  | none => (Executor.step fields.system action).map fun system ↦ { fields with system := system }
  | some write =>
      let task := assign write.record.task write.report write.nowMs (fields.field write)
      match (fields.field write).after? with
      | some field =>
          if fields.system.terminated then none
          else some { (fields.observe write).setNext write field with
            system := fields.system.setTask write.index task }
      | none =>
          (Executor.step fields.system action).map fun system ↦
            { fields.setNext write .state with system := system.setTask write.index task }

/-- The arguments of the call that the action begins on the task. -/
def begins? (index : ℕ) (fields : FieldSystem) (action : Action) : Option Report :=
  (fields.write? action).bind fun write ↦
    if write.index = index ∧ fields.field write = .state then some write.report else none

/-- No call on the task is in progress. -/
def Quiet (fields : FieldSystem) (index : ℕ) : Prop := ∀ caller, fields.next index caller = .state

end FieldSystem

/-- The two reports agree in what the assignment writes. -/
def Report.Agrees (report other : Report) : Field → Prop
  | .state => report.state = other.state
  | .result => report.result = other.result
  | .errorMsg => report.errorMsg = other.errorMsg
  | .finishTs => True

theorem Report.Agrees.refl (report : Report) (field : Field) : report.Agrees report field := by
  cases field <;> trivial

theorem Report.eq_of_agrees {report other : Report} (h : ∀ field, report.Agrees other field) : report = other := by
  obtain ⟨state, result, errorMsg⟩ := report
  obtain rfl : state = other.state := h .state
  obtain rfl : result = other.result := h .result
  obtain rfl : errorMsg = other.errorMsg := h .errorMsg
  rfl

/-- A call that has assigned the state, and makes the assignment `next` next, has made this one. -/
def Field.isPast (next : Field) : Field → Bool
  | .state => true
  | .result => next != .result
  | .errorMsg => next != .result && next != .errorMsg
  | .finishTs => next == .state

/-- A call that writes over what the latest call has written already writes the same. -/
def FieldSystem.InOrder (fields : FieldSystem) (action : Action) : Prop :=
  ∀ write caller report, fields.write? action = some write → fields.latest write.index = some (caller, report) →
    write.caller ≠ caller → fields.field write ≠ .state →
    (fields.next write.index caller).isPast (fields.field write) = true →
    write.report.Agrees report (fields.field write)

/-- Only the latest call makes further assignments. -/
def FieldSystem.writesLatest (fields : FieldSystem) (action : Action) : Bool :=
  (fields.write? action).elim true fun write ↦
    fields.field write == .state || (fields.latest write.index).map Prod.fst == some write.caller

theorem FieldSystem.inOrder_of_writesLatest {fields : FieldSystem} {action : Action}
    (h : fields.writesLatest action = true) : fields.InOrder action := by
  intro write caller report hwrite hlatest hne hfield
  rw [writesLatest, hwrite, Option.elim_some, Bool.or_eq_true, beq_iff_eq, beq_iff_eq, hlatest] at h
  rcases h with hstate | hcaller
  · exact absurd hstate hfield
  · exact absurd (Option.some.inj hcaller).symm hne

/-! ## What the steps do -/

namespace TaskRun

variable {record moved : TaskRun} {taskAction : TaskAction} {caller : Caller} {report : Report}

theorem update?_eq (record : TaskRun) (taskAction : TaskAction) :
    record.update? taskAction = taskAction.caller?.bind record.reportOf? := by
  cases taskAction with
  | attempt index nowMs outcome => rfl
  | timer index nowMs =>
    rw [update?, TaskAction.caller?, Option.bind_some, reportOf?]
    cases record.execTimers[index]? with
    | none => rfl
    | some timer =>
      obtain ⟨remaining, status⟩ := timer
      cases status <;> rfl
  | retry index => rfl

/-- A caller at `update_task_state` stays there while others move. -/
theorem reportOf?_of_taskStep (h : TaskStep record taskAction moved) (hother : taskAction.caller? ≠ some caller)
    (hreport : record.reportOf? caller = some report) : moved.reportOf? caller = some report := by
  cases caller with
  | attempt place =>
    obtain ⟨pc, hpc, hupdate⟩ := Option.bind_eq_some_iff.mp hreport
    have hstays : moved.attempts[place]? = some pc := by
      obtain ⟨executor, before, after, h⟩ := h
      cases taskMove_of_step h with
      | attempt index nowMs outcome pc' hpc' hstep =>
        obtain ⟨-, new, hattempts, -⟩ := attemptStep_hand hstep
        rw [hattempts, List.getElem?_set_ne fun heq ↦ hother (by rw [heq]; rfl), hpc]
      | timer index nowMs entry hentry htimer => rw [(timerStep_hand htimer).1, hpc]
      | retry index entry hentry hstep =>
        obtain ⟨-, status, -, ⟨-, hattempts⟩ | ⟨-, hattempts⟩⟩ := retryStep_hand hstep
        · rw [hattempts, hpc]
        · rw [hattempts, List.getElem?_append_left (lt_length_of_getElem? hpc), hpc]
    rw [reportOf?, hstays, Option.bind_some, hupdate]
  | timer place =>
    obtain ⟨entry, hentry, hupdate⟩ := Option.bind_eq_some_iff.mp hreport
    have hflagged : entry.status = .flagged := by
      by_contra hnot
      rw [if_neg hnot] at hupdate
      cases hupdate
    have hstays : moved.execTimers[place]? = some entry := by
      obtain ⟨executor, before, after, h⟩ := h
      cases taskMove_of_step h with
      | attempt index nowMs outcome pc hpc hstep =>
        rcases attemptStep_timers hstep with hsame | ⟨_, remaining, -, harmed⟩ | ⟨timer, _, -, hcancel⟩
        · rw [hsame, hentry]
        · rw [harmed, List.getElem?_append_left (lt_length_of_getElem? hentry), hentry]
        · have hkept : ¬entry.status = .waiting := by
            rw [hflagged]
            decide
          rw [hcancel, cancel, getElem?_modify_of_getElem? hentry, if_neg hkept, ite_self]
      | timer index nowMs expiring hexpiring htimer =>
        obtain ⟨-, status, -, htimers⟩ := timerStep_timers htimer
        rw [htimers, setTimer, getElem?_modify_of_getElem? hentry, if_neg fun heq ↦ hother (by rw [heq]; rfl)]
      | retry index retrying hretrying hstep => rw [retryStep_timers hstep, hentry]
    rw [reportOf?, hstays, Option.bind_some, hupdate]

/-- What an assignment leaves of the record. -/
theorem agrees_assign {other : Report} {field place : Field} {nowMs : UInt64}
    (h : if place = field then report.Agrees other place else record.outcome.Agrees other place) :
    ({ record with task := assign record.task report nowMs field } : TaskRun).outcome.Agrees other place := by
  cases field <;> cases place <;> exact h

end TaskRun

namespace FieldSystem

variable {fields next : FieldSystem} {action : Action} {index : ℕ} {record : TaskRun}

/-- Inversion of a step: a statement of the executor, an assignment that is not the last, or the last one. -/
inductive FieldMove (fields : FieldSystem) (action : Action) : FieldSystem → Prop
  | other {system : System} (hwrite : fields.write? action = none)
      (hstep : Executor.step fields.system action = some system) :
      FieldMove fields action { fields with system := system }
  | assign {write : Write} {after : Field} (hwrite : fields.write? action = some write)
      (hafter : (fields.field write).after? = some after) :
      FieldMove fields action { (fields.observe write).setNext write after with
        system := fields.system.setTask write.index
          (assign write.record.task write.report write.nowMs (fields.field write)) }
  | finish {write : Write} {system : System} (hwrite : fields.write? action = some write)
      (hlast : fields.field write = .finishTs) (hstep : Executor.step fields.system action = some system) :
      FieldMove fields action { fields.setNext write .state with
        system := system.setTask write.index (assign write.record.task write.report write.nowMs .finishTs) }

theorem fieldMove_of_step (h : fields.step action = some next) : FieldMove fields action next := by
  unfold step at h
  cases hwrite : fields.write? action with
  | none =>
    rw [hwrite] at h
    obtain ⟨system, hstep, rfl⟩ := Option.map_eq_some_iff.mp h
    exact .other hwrite hstep
  | some write =>
    rw [hwrite] at h
    dsimp only at h
    cases hafter : (fields.field write).after? with
    | none =>
      have hlast : fields.field write = .finishTs := by
        cases hfield : fields.field write with
        | finishTs => rfl
        | _ =>
          rw [hfield] at hafter
          cases hafter
      rw [hafter, hlast] at h
      obtain ⟨system, hstep, rfl⟩ := Option.map_eq_some_iff.mp h
      exact .finish hwrite hlast hstep
    | some after =>
      rw [hafter] at h
      dsimp only at h
      split at h <;> cases h
      exact .assign hwrite hafter

/-- Where the data of a write come from. -/
theorem write?_eq_some {write : Write} (h : fields.write? action = some write) :
    ∃ taskAction, action = .act write.index taskAction ∧ fields.system.runs[write.index]? = some write.record ∧
      taskAction.caller? = some write.caller ∧ write.record.reportOf? write.caller = some write.report := by
  cases action with
  | act index taskAction =>
    obtain ⟨record, hrecord, hrest⟩ := Option.bind_eq_some_iff.mp h
    obtain ⟨caller, hcaller, hrest⟩ := Option.bind_eq_some_iff.mp hrest
    obtain ⟨report, hreport, rfl⟩ := Option.map_eq_some_iff.mp hrest
    exact ⟨taskAction, rfl, hrecord, hcaller, hreport⟩
  | _ => cases h

theorem write?_eq_none {taskAction : TaskAction} (h : fields.write? (.act index taskAction) = none)
    (hrecord : fields.system.runs[index]? = some record) : record.update? taskAction = none := by
  rw [TaskRun.update?_eq]
  rw [write?, hrecord, Option.bind_some] at h
  cases hcaller : taskAction.caller? with
  | none => rfl
  | some caller =>
    rw [hcaller, Option.bind_some, Option.map_eq_none_iff] at h
    rw [Option.bind_some, h]

theorem begins?_of_none (h : fields.write? action = none) : begins? index fields action = none := by
  rw [begins?, h, Option.bind_none]

theorem begins?_of_write {write : Write} (h : fields.write? action = some write) :
    begins? index fields action =
      if write.index = index ∧ fields.field write = .state then some write.report else none := by
  rw [begins?, h, Option.bind_some]

theorem next_observe (fields : FieldSystem) (write : Write) : (fields.observe write).next = fields.next := by
  unfold observe
  split <;> rfl

theorem next_setNext_self (fields : FieldSystem) (write : Write) (field : Field) :
    (fields.setNext write field).next write.index write.caller = field := by
  simp [setNext]

theorem next_setNext_of_index (fields : FieldSystem) (write : Write) (field : Field) (h : index ≠ write.index) :
    (fields.setNext write field).next index = fields.next index := by
  simp [setNext, h]

theorem getElem?_setTask_self {system : System} {task : Task} (h : system.runs[index]? = some record) :
    (system.setTask index task).runs[index]? = some { record with task := task } := by
  rw [System.setTask, getElem?_modify_of_getElem? h, if_pos rfl]

theorem getElem?_setTask_of_ne {system : System} {task : Task} {other : ℕ} (h : other ≠ index) :
    (system.setTask index task).runs[other]? = system.runs[other]? := by
  rw [System.setTask, List.getElem?_modify_ne _ _ h.symm]

end FieldSystem

/-! ## The executor below -/

/-- A task without what its reports have set. -/
def blankTask (task : Task) : Task :=
  { task with state := .pending, result := .null, errorMsg := "", finishTs := 0 }

def TaskRun.blank (record : TaskRun) : TaskRun := { record with task := blankTask record.task }

def System.blank (system : System) : System := { system with runs := system.runs.map TaskRun.blank }

/-- No statement reads what the reports set. -/
theorem TaskRun.step_blank (record : TaskRun) (executor : TaskExecutor) (retryingCnt : ℤ) (taskAction : TaskAction) :
    (record.blank.step executor retryingCnt taskAction).map (Prod.map blank id) =
      (record.step executor retryingCnt taskAction).map (Prod.map blank id) := by
  cases taskAction with
  | attempt index nowMs outcome =>
    change Option.map _ (record.attempts[index]?.bind _) = Option.map _ (record.attempts[index]?.bind _)
    cases record.attempts[index]? with
    | none => rfl
    | some pc => cases pc <;> rfl
  | timer index nowMs =>
    change Option.map _ (record.execTimers[index]?.bind _) = Option.map _ (record.execTimers[index]?.bind _)
    cases record.execTimers[index]? with
    | none => rfl
    | some timer =>
      obtain ⟨remaining, status⟩ := timer
      cases status <;> rfl
  | retry index =>
    change Option.map _ (record.retryTimers[index]?.bind _) = Option.map _ (record.retryTimers[index]?.bind _)
    cases record.retryTimers[index]? with
    | none => rfl
    | some timer =>
      obtain ⟨delaySeconds, status⟩ := timer
      cases status <;> rfl

theorem System.terminated_blank (system : System) : system.blank.terminated = system.terminated := by
  rw [terminated, terminated, blank, List.any_map]
  rfl

/-- A task moves in the blank system as in the system. -/
theorem System.blank_setRun (system : System) (index : ℕ) (moved : TaskRun) (retryingCnt : ℤ) :
    ({ system with runs := system.runs.set index moved, retryingCnt := retryingCnt } : System).blank =
      { system with runs := (system.runs.map TaskRun.blank).set index moved.blank, retryingCnt := retryingCnt } := by
  simp only [blank, List.map_set]

theorem System.step_blank (system : System) (action : Action) :
    (step system.blank action).map blank = (step system action).map blank := by
  unfold step
  rw [terminated_blank]
  split
  · rfl
  · cases action with
    | construct | registerFunction =>
      simp only [Option.map_some, blank, List.map_map]
      rfl
    | executeTask executor task =>
      change Option.map _ (if executor < system.executors.length then _ else _) =
        Option.map _ (if executor < system.executors.length then _ else _)
      by_cases hlt : executor < system.executors.length
      · rw [if_pos hlt, if_pos hlt]
        simp only [Option.map_some, blank, List.map_append, List.map_map]
        rfl
      · rw [if_neg hlt, if_neg hlt]
    | act index taskAction =>
      dsimp only
      have hrun : system.blank.runs[index]? = system.runs[index]?.map TaskRun.blank := List.getElem?_map ..
      rw [hrun]
      cases system.runs[index]? with
      | none => rfl
      | some record =>
        change Option.map _ (system.executors[record.executor]?.bind _) =
          Option.map _ (system.executors[record.executor]?.bind _)
        cases system.executors[record.executor]? with
        | none => rfl
        | some executor =>
          -- what both sides make of the task after the step, without its report
          let place (moved : TaskRun × ℤ) : System :=
            { system with runs := (system.runs.map TaskRun.blank).set index moved.1, retryingCnt := moved.2 }
          have hplace := congrArg (Option.map place)
            (TaskRun.step_blank record executor system.retryingCnt taskAction)
          simp only [Option.map_map] at hplace
          simp only [Option.bind_some, Option.map_map]
          refine Eq.trans ?_ (hplace.trans ?_)
          · refine congrArg (Option.map · _) (funext fun moved ↦ ?_)
            refine (System.blank_setRun system.blank index moved.1 moved.2).trans ?_
            simp only [blank, List.map_map]
            rfl
          · refine congrArg (Option.map · _) (funext fun moved ↦ ?_)
            exact (System.blank_setRun system index moved.1 moved.2).symm

/-- Assigning a report changes nothing else. -/
theorem System.blank_setTask {system : System} {index : ℕ} {record : TaskRun} {task : Task}
    (hrecord : system.runs[index]? = some record) (htask : blankTask task = blankTask record.task) :
    (system.setTask index task).blank = system.blank := by
  refine congrArg (fun runs ↦ ({ system with runs := runs } : System)) (List.ext_getElem? fun place ↦ ?_)
  rw [List.getElem?_map, List.getElem?_map]
  rcases ne_or_eq place index with hplace | rfl
  · rw [FieldSystem.getElem?_setTask_of_ne hplace]
  · rw [FieldSystem.getElem?_setTask_self hrecord, hrecord, Option.map_some, Option.map_some, TaskRun.blank,
      TaskRun.blank, htask]

theorem blankTask_assign (task : Task) (report : Report) (nowMs : UInt64) (field : Field) :
    blankTask (assign task report nowMs field) = blankTask task := by
  cases field <;> rfl

/-- The step that moves on from `update_task_state` changes nothing of the task but the report. -/
theorem blankTask_of_report {record moved : TaskRun} {taskAction : TaskAction} {report : Report}
    (h : TaskStep record taskAction moved) (hreport : record.update? taskAction = some report) :
    blankTask moved.task = blankTask record.task := by
  obtain ⟨executor, before, after, h⟩ := h
  cases TaskRun.taskMove_of_step h with
  | attempt index nowMs outcome pc hpc hstep =>
    rw [TaskRun.update?, hpc, Option.bind_some] at hreport
    cases TaskRun.attemptMove_of_step hstep with
    | refuse | setRunning | reportSuccess | reportQuotaFull | reportFailure => rfl
    | _ => cases hreport
  | timer index nowMs entry hentry htimer =>
    obtain ⟨remaining, status⟩ := entry
    rw [TaskRun.update?, hentry] at hreport
    cases status with
    | flagged =>
      cases htimer
      rfl
    | _ => cases hreport
  | retry index entry hentry hstep => cases hreport

/-- Up to the reports, a run in which reports are four assignments is a run of the executor: an assignment that is
not the last is no step there. -/
theorem FieldSystem.exists_run {actions : List Action} {final : FieldSystem}
    (hrun : run FieldSystem.step {} actions = some final) :
    ∃ actions', actions'.Sublist actions ∧
      ∃ system, run Executor.step {} actions' = some system ∧ final.system.blank = system.blank := by
  refine exists_run_of_refines (R := fun fields system ↦ fields.system.blank = System.blank system) ?_ hrun rfl
  intro fields action next system hblank hstep
  -- a step of the executor is one of the system that differs in the reports only
  have hanswer {moved : System} (hmoved : Executor.step fields.system action = some moved) :
      ∃ system', Executor.step system action = some system' ∧ moved.blank = system'.blank := by
    have hsame := (System.step_blank system action).symm
    rw [← hblank, System.step_blank, hmoved, Option.map_some] at hsame
    obtain ⟨system', hsystem', heq⟩ := Option.map_eq_some_iff.mp hsame
    exact ⟨system', hsystem', heq.symm⟩
  cases fieldMove_of_step hstep with
  | other hwrite hmoved => exact .inr (hanswer hmoved)
  | assign hwrite hafter =>
    obtain ⟨taskAction, -, hrecord, -, -⟩ := write?_eq_some hwrite
    exact .inl ((System.blank_setTask hrecord (blankTask_assign ..)).trans hblank)
  | @finish write moved hwrite hlast hmoved =>
    obtain ⟨taskAction, rfl, hrecord, hcaller, hreport⟩ := write?_eq_some hwrite
    obtain ⟨before, after, hbefore, htask, hruns⟩ := step_act hmoved
    obtain rfl : before = write.record := Option.some.inj (hbefore.symm.trans hrecord)
    have hafter : moved.runs[write.index]? = some after := by
      rw [hruns, List.getElem?_set_self (lt_length_of_getElem? hbefore)]
    have hupdate : write.record.update? taskAction = some write.report := by
      rw [TaskRun.update?_eq, hcaller, Option.bind_some, hreport]
    have hsame : (moved.setTask write.index (assign write.record.task write.report write.nowMs .finishTs)).blank =
        moved.blank := by
      refine System.blank_setTask hafter ?_
      rw [blankTask_assign, blankTask_of_report htask hupdate]
    obtain ⟨system', hsystem', hmatch⟩ := hanswer hmoved
    exact .inr ⟨system', hsystem', hsame.trans hmatch⟩

namespace FieldSystem

variable {fields next : FieldSystem} {action : Action} {index : ℕ} {record : TaskRun}

/-! ## What the record shows -/

/-- The record shows what the latest call on the task has assigned so far. -/
structure Shown (calls : List Report) (index : ℕ) (caller : Caller) (report : Report) (record : TaskRun)
    (fields : FieldSystem) : Prop where
  made : report ∈ calls
  found : fields.system.runs[index]? = some record
  past : ∀ field, (fields.next index caller).isPast field = true → record.outcome.Agrees report field
  inside : fields.next index caller ≠ .state → record.reportOf? caller = some report

/-- Either no call was made, or the record shows the latest. -/
def LatestShown (index : ℕ) (calls : List Report) (fields : FieldSystem) : Prop :=
  match fields.latest index with
  | none => calls = []
  | some (caller, report) => ∃ record, Shown calls index caller report record fields

variable {calls : List Report} {caller : Caller} {report : Report}

theorem isPast_after {field place : Field} (hfield : field ≠ .state)
    (h : (field.after?.getD .state).isPast place = true) :
    place = field ∨ place = .finishTs ∨ field.isPast place = true := by
  cases field <;> cases place <;> simp_all [Field.after?, Field.isPast]

/-- The record after an assignment that is not the first of its call. -/
theorem Shown.write {write : Write} (h : Shown calls write.index caller report write.record fields)
    (hfield : fields.field write ≠ .state) (hreport : write.record.reportOf? write.caller = some write.report)
    (horder : write.caller ≠ caller → (fields.next write.index caller).isPast (fields.field write) = true →
      write.report.Agrees report (fields.field write))
    (nowMs : UInt64) (hnext : next.next write.index = Function.update (fields.next write.index) write.caller
      ((fields.field write).after?.getD .state))
    (hfound : next.system.runs[write.index]? = some record)
    (houtcome : record.outcome = TaskRun.outcome
      { write.record with task := assign write.record.task write.report nowMs (fields.field write) })
    (hothers : ∀ other report, other ≠ write.caller ∨ (fields.field write).after? ≠ none →
      write.record.reportOf? other = some report → record.reportOf? other = some report) :
    Shown calls write.index caller report record next := by
  rcases eq_or_ne caller write.caller with rfl | hne
  · -- the latest call makes its next assignment
    have hself : next.next write.index write.caller = (fields.field write).after?.getD .state := by
      rw [hnext, Function.update_self]
    have hsame : report = write.report := Option.some.inj ((h.inside hfield).symm.trans hreport)
    refine ⟨h.made, hfound, fun place hpast ↦ ?_, fun hinside ↦ ?_⟩
    · rw [houtcome]
      apply TaskRun.agrees_assign
      split
      · rw [hsame]
        exact .refl write.report place
      · rename_i hplace
        rw [hself] at hpast
        rcases isPast_after hfield hpast with rfl | rfl | hpast
        · exact absurd rfl hplace
        · trivial
        · exact h.past place hpast
    · refine hothers write.caller report (.inr fun hlast ↦ ?_) (h.inside hfield)
      rw [hself, hlast] at hinside
      exact hinside rfl
  · have hother : next.next write.index caller = fields.next write.index caller := by
      rw [hnext, Function.update_of_ne hne]
    refine ⟨h.made, hfound, fun place hpast ↦ ?_, fun hinside ↦ ?_⟩
    · rw [hother] at hpast
      rw [houtcome]
      apply TaskRun.agrees_assign
      split
      · rename_i hplace
        rw [hplace]
        exact horder hne.symm (hplace ▸ hpast)
      · exact h.past place hpast
    · rw [hother] at hinside
      exact hothers caller report (.inl hne) (h.inside hinside)

/-- A statement of the executor that is no assignment. -/
theorem Shown.other {system : System} (h : Shown calls index caller report record fields)
    (hwrite : fields.write? action = none) (hstep : Executor.step fields.system action = some system) :
    ∃ record, Shown calls index caller report record { fields with system := system } := by
  rcases step_task hstep h.found with hsame | ⟨taskAction, moved, rfl, htask, hmoved⟩
  · exact ⟨record, h.made, hsame, h.past, h.inside⟩
  · have hnone := write?_eq_none hwrite h.found
    refine ⟨moved, h.made, hmoved, fun place hpast ↦ ?_, fun hinside ↦ ?_⟩
    · rw [TaskRun.outcome_of_taskStep htask, hnone]
      exact h.past place hpast
    · refine TaskRun.reportOf?_of_taskStep htask (fun heq ↦ ?_) (h.inside hinside)
      rw [TaskRun.update?_eq, heq, Option.bind_some, h.inside hinside] at hnone
      cases hnone

/-- A step on another task. -/
theorem Shown.elsewhere (h : Shown calls index caller report record fields)
    (hfound : next.system.runs[index]? = fields.system.runs[index]?) (hnext : next.next index = fields.next index) :
    Shown calls index caller report record next where
  made := h.made
  found := hfound.trans h.found
  past := by
    rw [hnext]
    exact h.past
  inside := by
    rw [hnext]
    exact h.inside

theorem latestShown_of_some (h : fields.latest index = some (caller, report)) :
    LatestShown index calls fields ↔ ∃ record, Shown calls index caller report record fields := by
  rw [LatestShown, h]

/-- The same calls are the latest before and after, and none was begun. -/
theorem LatestShown.map (h : LatestShown index calls fields) (hlatest : next.latest index = fields.latest index)
    (hshown : ∀ caller report record, fields.latest index = some (caller, report) →
      Shown calls index caller report record fields → ∃ record, Shown calls index caller report record next) :
    LatestShown index calls next := by
  unfold LatestShown at h ⊢
  rw [hlatest]
  cases hlast : fields.latest index with
  | none =>
    rw [hlast] at h
    exact h
  | some last =>
    rw [hlast] at h
    obtain ⟨record, hrecord⟩ := h
    exact hshown last.1 last.2 record hlast hrecord

/-- A call assigns the state and becomes the latest. -/
theorem shown_of_begin {write : Write} (hwrite : fields.write? action = some write)
    (hmade : write.report ∈ calls) :
    Shown calls write.index write.caller write.report
      { write.record with task := assign write.record.task write.report write.nowMs .state }
      { (fields.observe write).setNext write .result with
        system := fields.system.setTask write.index
          (assign write.record.task write.report write.nowMs .state) } := by
  obtain ⟨taskAction, -, hrecord, -, hreport⟩ := write?_eq_some hwrite
  refine ⟨hmade, getElem?_setTask_self hrecord, fun place hpast ↦ ?_, fun _ ↦ hreport⟩
  rw [show (_ : FieldSystem).next write.index write.caller = .result from next_setNext_self ..] at hpast
  cases place with
  | state => rfl
  | _ => cases hpast

/-- An assignment that is not the last of its call. -/
theorem LatestShown.assign {write : Write} {after : Field} (h : LatestShown index calls fields)
    (hok : fields.InOrder action) (hwrite : fields.write? action = some write)
    (hafter : (fields.field write).after? = some after) :
    LatestShown index (calls ++ (begins? index fields action).toList)
      { (fields.observe write).setNext write after with
        system := fields.system.setTask write.index
          (Executor.assign write.record.task write.report write.nowMs (fields.field write)) } := by
  obtain ⟨taskAction, rfl, hrecord, hcaller, hreport⟩ := write?_eq_some hwrite
  rw [begins?_of_write hwrite]
  rcases ne_or_eq index write.index with hindex | rfl
  · rw [if_neg fun hboth ↦ hindex hboth.1.symm, Option.toList_none, List.append_nil]
    have hlatest : (fields.observe write).latest index = fields.latest index := by
      unfold observe
      split
      · exact Function.update_of_ne hindex ..
      · rfl
    refine h.map hlatest fun _ _ record _ hshown ↦ ⟨record, hshown.elsewhere (getElem?_setTask_of_ne hindex) ?_⟩
    rw [← next_observe fields write]
    exact next_setNext_of_index _ write after hindex
  · by_cases hfield : fields.field write = .state
    · rw [if_pos ⟨rfl, hfield⟩, Option.toList_some]
      rw [hfield] at hafter
      cases hafter
      have hlatest : (fields.observe write).latest write.index = some (write.caller, write.report) := by
        rw [observe, if_pos hfield]
        exact Function.update_self ..
      rw [hfield]
      refine (latestShown_of_some ?_).mpr ⟨_, shown_of_begin hwrite ?_⟩
      · exact hlatest
      · exact List.mem_append_right calls List.mem_cons_self
    · rw [if_neg fun hboth ↦ hfield hboth.2, Option.toList_none, List.append_nil, observe, if_neg hfield]
      refine h.map rfl fun caller report record hlatest hshown ↦ ?_
      obtain rfl : record = write.record := Option.some.inj (hshown.found.symm.trans hrecord)
      refine ⟨_, hshown.write hfield hreport (fun hne hpast ↦ ?_) write.nowMs ?_ (getElem?_setTask_self hrecord)
        rfl fun _ _ _ hinside ↦ hinside⟩
      · exact hok write caller report hwrite hlatest hne hfield hpast
      · rw [hafter]
        exact Function.update_self ..

/-- The last assignment of a call, with which the thread moves on. -/
theorem LatestShown.finish {write : Write} {system : System} (h : LatestShown index calls fields)
    (hok : fields.InOrder action) (hwrite : fields.write? action = some write)
    (hlast : fields.field write = .finishTs) (hsystem : Executor.step fields.system action = some system) :
    LatestShown index (calls ++ (begins? index fields action).toList)
      { fields.setNext write .state with
        system := system.setTask write.index
          (Executor.assign write.record.task write.report write.nowMs .finishTs) } := by
  obtain ⟨taskAction, rfl, hrecord, hcaller, hreport⟩ := write?_eq_some hwrite
  have hfield : fields.field write ≠ .state := by
    rw [hlast]
    decide
  rw [begins?_of_write hwrite, if_neg fun hboth ↦ hfield hboth.2, Option.toList_none, List.append_nil]
  obtain ⟨before, moved, hbefore, htask, hruns⟩ := step_act hsystem
  obtain rfl : before = write.record := Option.some.inj (hbefore.symm.trans hrecord)
  rcases ne_or_eq index write.index with hindex | rfl
  · refine h.map rfl fun _ _ record _ hshown ↦ ⟨record, hshown.elsewhere ?_ ?_⟩
    · exact (getElem?_setTask_of_ne hindex).trans (by rw [hruns, List.getElem?_set_ne hindex.symm])
    · exact next_setNext_of_index fields write .state hindex
  · have hmoved : system.runs[write.index]? = some moved := by
      rw [hruns, List.getElem?_set_self (lt_length_of_getElem? hbefore)]
    refine h.map rfl fun caller report record hlatest hshown ↦ ?_
    obtain rfl : record = write.record := Option.some.inj (hshown.found.symm.trans hrecord)
    refine ⟨_, hshown.write hfield hreport (fun hne hpast ↦ ?_) write.nowMs ?_ (getElem?_setTask_self hmoved)
      (by rw [hlast]; rfl) fun other report hother hinside ↦ ?_⟩
    · exact hok write caller report hwrite hlatest hne hfield hpast
    · rw [hlast]
      exact Function.update_self ..
    · have hkept : moved.reportOf? other = some report := by
        refine TaskRun.reportOf?_of_taskStep htask (fun heq ↦ ?_) hinside
        rcases hother with hne | hnone
        · exact hne (Option.some.inj (heq.symm.trans hcaller))
        · rw [hlast] at hnone
          exact hnone rfl
      exact hkept

theorem latestShown_of_step (h : LatestShown index calls fields) (hok : fields.InOrder action)
    (hstep : fields.step action = some next) :
    LatestShown index (calls ++ (begins? index fields action).toList) next := by
  cases fieldMove_of_step hstep with
  | other hwrite hsystem =>
    rw [begins?_of_none hwrite, Option.toList_none, List.append_nil]
    exact h.map rfl fun _ _ _ _ hshown ↦ hshown.other hwrite hsystem
  | assign hwrite hafter => exact h.assign hok hwrite hafter
  | finish hwrite hlast hsystem => exact h.finish hok hwrite hlast hsystem

end FieldSystem

/-- As long as no call writes over what the latest has written, the record of a task on which calls were made and
none is in progress is what one of them was given. -/
theorem record_shows_one_report (actions : List Action) (final : FieldSystem) (index : ℕ) (record : TaskRun)
    (hrun : run FieldSystem.step {} actions = some final) (hok : Meets FieldSystem.step FieldSystem.InOrder {} actions)
    (hrecord : final.system.runs[index]? = some record) (hquiet : final.Quiet index)
    (hmade : collect FieldSystem.step (FieldSystem.begins? index) {} actions ≠ []) :
    record.outcome ∈ collect FieldSystem.step (FieldSystem.begins? index) {} actions := by
  have hshown := collect_invariant (fun _ _ _ _ h hok hstep ↦ FieldSystem.latestShown_of_step h hok hstep) hok
    (show FieldSystem.LatestShown index [] {} from rfl) hrun
  rw [List.nil_append] at hshown
  unfold FieldSystem.LatestShown at hshown
  cases hlatest : final.latest index with
  | none =>
    rw [hlatest] at hshown
    exact absurd hshown hmade
  | some latest =>
    rw [hlatest] at hshown
    obtain ⟨record', hshown⟩ := hshown
    obtain rfl : record' = record := Option.some.inj (hshown.found.symm.trans hrecord)
    have houtcome : record'.outcome = latest.2 := by
      refine Report.eq_of_agrees fun field ↦ hshown.past field ?_
      rw [hquiet latest.1]
      cases field <;> rfl
    rw [houtcome]
    exact hshown.made

/-! ## Two runs -/

/-- A caller that does not move stays where it is in `update_task_state`. -/
theorem FieldSystem.next_of_run {actions : List Action} {fields final : FieldSystem} {index : ℕ} {caller : Caller}
    (hrun : run FieldSystem.step fields actions = some final)
    (hstill : ∀ taskAction, .act index taskAction ∈ actions → taskAction.caller? ≠ some caller) :
    final.next index caller = fields.next index caller := by
  have hok : Meets FieldSystem.step (fun _ action ↦
      ∀ taskAction, action = .act index taskAction → taskAction.caller? ≠ some caller) fields actions :=
    Meets.of_forall_mem fun action hmem _ taskAction heq ↦ hstill taskAction (heq ▸ hmem)
  refine hok.invariant (I := fun visited ↦ visited.next index caller = fields.next index caller) ?_ rfl hrun
  intro visited action next hvisited hother hstep
  rw [← hvisited]
  have hset (write : Write) (field : Field) (hwrite : visited.write? action = some write) (base : FieldSystem) :
      (base.setNext write field).next index caller = base.next index caller := by
    obtain ⟨taskAction, rfl, -, hcaller, -⟩ := write?_eq_some hwrite
    rcases ne_or_eq index write.index with hindex | rfl
    · rw [next_setNext_of_index base write field hindex]
    · refine congrFun (Function.update_self ..) caller |>.trans (Function.update_of_ne ?_ ..)
      rintro rfl
      exact hother taskAction rfl hcaller
  cases fieldMove_of_step hstep with
  | other hwrite hsystem => rfl
  | assign hwrite hafter =>
    refine (hset _ _ hwrite _).trans ?_
    rw [next_observe]
  | finish hwrite hlast hsystem => exact hset _ _ hwrite visited

/-- A task whose function returns 5: `count` steps of the worker, then the execution timer with its callback, then
`rest` steps of the worker. -/
def reportsAfter (count rest : ℕ) : List Action :=
  [.construct, .executeTask 0 { funcName := "fib" }] ++
    List.replicate count (.act 0 (.attempt 0 0 (.returns (.integer 5)))) ++ List.replicate 6 (.act 0 (.timer 0 0)) ++
    List.replicate rest (.act 0 (.attempt 0 0 (.returns (.integer 5))))

theorem quiet_reportsAfter {count rest : ℕ} {final : FieldSystem}
    (hrun : run FieldSystem.step {} (reportsAfter count rest) = some final)
    (hworker : final.next 0 (.attempt 0) = .state) (htimer : final.next 0 (.timer 0) = .state) : final.Quiet 0 := by
  intro caller
  by_cases hattempt : caller = .attempt 0
  · rw [hattempt, hworker]
  by_cases hcallback : caller = .timer 0
  · rw [hcallback, htimer]
  refine FieldSystem.next_of_run hrun fun taskAction hmem heq ↦ ?_
  simp only [reportsAfter, List.mem_append, List.mem_cons, List.mem_replicate, List.not_mem_nil, reduceCtorEq,
    Action.act.injEq, or_false, false_or, true_and] at hmem
  rcases hmem with (⟨-, rfl⟩ | ⟨-, rfl⟩) | ⟨-, rfl⟩
  · exact hattempt (Option.some.inj heq).symm
  · exact hcallback (Option.some.inj heq).symm
  · exact hattempt (Option.some.inj heq).symm

/-- What a test can see of the task of `reportsAfter`: its state, whether it has a result, and who is reporting. -/
def FieldSystem.glance (fields : FieldSystem) : Option (TaskState × Bool) × Field × Field :=
  (fields.system.runs[0]?.map fun record ↦ (record.task.state, record.task.result.eq .null),
    fields.next 0 (.attempt 0), fields.next 0 (.timer 0))

/-- The callback reports after the worker has. -/
theorem record_shows_one_report_late :
    ∃ final record, run FieldSystem.step {} (reportsAfter 14 0) = some final ∧
      final.system.runs[0]? = some record ∧ record.task.state = .timeout ∧
      record.outcome ∈ collect FieldSystem.step (FieldSystem.begins? 0) {} (reportsAfter 14 0) := by
  have hends : (run FieldSystem.step {} (reportsAfter 14 0)).map FieldSystem.glance =
      some (some (.timeout, true), .state, .state) := by
    decide +kernel
  have hlatest : Meets FieldSystem.step (fun fields action ↦ fields.writesLatest action = true) {}
      (reportsAfter 14 0) := by
    decide +kernel
  have hcalls : (collect FieldSystem.step (FieldSystem.begins? 0) {} (reportsAfter 14 0)).length = 3 := by
    decide +kernel
  obtain ⟨final, hrun, hfinal⟩ := Option.map_eq_some_iff.mp hends
  simp only [FieldSystem.glance, Prod.mk.injEq] at hfinal
  obtain ⟨hseen, hworker, htimer⟩ := hfinal
  obtain ⟨record, hrecord, hrest⟩ := Option.map_eq_some_iff.mp hseen
  refine ⟨final, record, hrun, hrecord, (Prod.mk.inj hrest).1, ?_⟩
  refine record_shows_one_report (reportsAfter 14 0) final 0 record hrun ?_ hrecord ?_ ?_
  · exact hlatest.mono fun _ _ ↦ FieldSystem.inOrder_of_writesLatest
  · exact quiet_reportsAfter hrun hworker htimer
  · intro hnone
    rw [hnone] at hcalls
    cases hcalls

/-- The callback reports between the first two assignments of the worker: the task is left with `TIMEOUT` and the
result of the function. -/
theorem record_mixes_reports :
    ∃ final record, run FieldSystem.step {} (reportsAfter 11 3) = some final ∧
      final.system.runs[0]? = some record ∧ final.Quiet 0 ∧
      collect FieldSystem.step (FieldSystem.begins? 0) {} (reportsAfter 11 3) ≠ [] ∧
      record.outcome ∉ collect FieldSystem.step (FieldSystem.begins? 0) {} (reportsAfter 11 3) := by
  have hends : (run FieldSystem.step {} (reportsAfter 11 3)).map FieldSystem.glance =
      some (some (.timeout, false), .state, .state) := by
    decide +kernel
  have hcalls : (collect FieldSystem.step (FieldSystem.begins? 0) {} (reportsAfter 11 3)).length = 3 := by
    decide +kernel
  have hempty : ∀ report ∈ collect FieldSystem.step (FieldSystem.begins? 0) {} (reportsAfter 11 3),
      report.state = .timeout → report.result.eq .null = true := by
    decide +kernel
  obtain ⟨final, hrun, hfinal⟩ := Option.map_eq_some_iff.mp hends
  simp only [FieldSystem.glance, Prod.mk.injEq] at hfinal
  obtain ⟨hseen, hworker, htimer⟩ := hfinal
  obtain ⟨record, hrecord, hrest⟩ := Option.map_eq_some_iff.mp hseen
  obtain ⟨hstate, hresult⟩ := Prod.mk.inj hrest
  refine ⟨final, record, hrun, hrecord, quiet_reportsAfter hrun hworker htimer, ?_, fun hmem ↦ ?_⟩
  · intro hnone
    rw [hnone] at hcalls
    cases hcalls
  · cases hresult.symm.trans (hempty record.outcome hmem hstate)

end TinyReactor.Executor
