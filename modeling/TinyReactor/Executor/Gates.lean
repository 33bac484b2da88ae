import TinyReactor.Executor.Deadline
import TinyReactor.Executor.Returns

/-!
# What stands before the call of a function

Between the moment a task is taken from the pool and the call of its function lie three tests: the resources,
the time left and the lookup of the name. The attempt does not repeat them, so what they have found must still
hold when the function is called. It does, because the executor never writes the part of a task that the client
has set, the table of functions only grows, and no other attempt of the task is under way.
-/

namespace TinyReactor.Executor

open Transition Wire

/-- The part of a task that the client sets and the executor only reads. -/
def request (task : Task) : Task :=
  { task with
    state := .pending, result := .null, errorMsg := "", startTs := 0, finishTs := 0, retryCount := 0
    cancelled := false }

section

variable {task task' : Task} (h : request task = request task')

include h

theorem required_of_request : task.required = task'.required := by
  have hrequired := congrArg Task.required h
  exact hrequired

theorem funcName_of_request : task.funcName = task'.funcName := by
  have hname := congrArg Task.funcName h
  exact hname

theorem remainingTimeout_of_request (nowMs : UInt64) : remainingTimeout task nowMs = remainingTimeout task' nowMs := by
  have hremaining := congrArg (remainingTimeout · nowMs) h
  exact hremaining

end

namespace TaskRun

/-- The timer was armed with the time that `run_task` computes from the clock reading `nowMs`, and that is not
negative. -/
def InTime (record : TaskRun) (timer : ℕ) (nowMs : UInt64) : Prop :=
  ∃ entry, record.execTimers[timer]? = some entry ∧ entry.remaining = remainingTimeout record.task nowMs ∧
    ¬entry.remaining < 0

/-- The same, for the reading that `start_ts` shows. -/
def Started (record : TaskRun) (timer : ℕ) : Prop :=
  ∃ nowMs : UInt64, record.task.startTs = nowMs.toInt64 ∧ record.InTime timer nowMs

/-- Where the time to the deadline fits in an `int64_t`, the deadline had not passed. -/
theorem InTime.le_deadline {record : TaskRun} {timer : ℕ} {nowMs : UInt64} (h : record.InTime timer nowMs)
    (hfits : FitsInt64 (deadline record.task - nowMs.toNat)) : (nowMs.toNat : ℤ) ≤ deadline record.task := by
  obtain ⟨entry, -, hremaining, hleft⟩ := h
  rw [hremaining, Int64.lt_iff_toInt_lt, remainingTimeout_exact hfits, Int64.toInt_zero] at hleft
  omega

end TaskRun

/-- What the tests before the program point have found. -/
def AttemptPc.Gated (executor : TaskExecutor) (record : TaskRun) : AttemptPc → Prop
  | .readClock => checkResources executor.availableResources record.task.required = true
  | .armTimer nowMs remaining =>
      checkResources executor.availableResources record.task.required = true ∧
        remaining = remainingTimeout record.task nowMs ∧ ¬remaining < 0
  | .setStart timer nowMs =>
      checkResources executor.availableResources record.task.required = true ∧ record.InTime timer nowMs
  | .setRunning timer | .findFunction timer =>
      checkResources executor.availableResources record.task.required = true ∧ record.Started timer
  | .callFunction timer =>
      checkResources executor.availableResources record.task.required = true ∧ record.Started timer ∧
        record.task.funcName ∈ executor.functions
  | _ => True

namespace TaskRun

variable {record moved : TaskRun} {executor other : TaskExecutor} {before after : ℤ} {attempt timer : ℕ}
  {nowMs : UInt64} {outcome : Outcome} {pc : AttemptPc} {taskAction : TaskAction}

/-- No step of the executor writes what the client has set. -/
theorem request_of_taskStep (h : TaskStep record taskAction moved) : request moved.task = request record.task := by
  obtain ⟨executor, before, after, hact⟩ := h
  cases taskMove_of_step hact with
  | attempt index nowMs outcome pc _ hmove => cases attemptMove_of_step hmove <;> rfl
  | timer index nowMs entry _ htimer =>
    generalize entry.status = status at htimer
    cases status with
    | fired | cancelled => cases htimer
    | _ =>
      cases htimer
      rfl
  | retry index entry _ hmove =>
    generalize entry.status = status at hmove
    cases status with
    | done => cases hmove
    | _ =>
      cases hmove
      rfl

/-- A step that leaves alone everything the tests have looked at. -/
structure Carries (record moved : TaskRun) : Prop where
  request : request moved.task = request record.task
  startTs : moved.task.startTs = record.task.startTs
  timers : ∀ (timer : ℕ) entry, record.execTimers[timer]? = some entry →
    ∃ entry', moved.execTimers[timer]? = some entry' ∧ entry'.remaining = entry.remaining

theorem InTime.carry (h : record.InTime timer nowMs) (hcarries : Carries record moved) :
    moved.InTime timer nowMs := by
  obtain ⟨entry, hentry, hremaining, hleft⟩ := h
  obtain ⟨entry', hentry', hsame⟩ := hcarries.timers timer entry hentry
  refine ⟨entry', hentry', ?_, by rwa [hsame]⟩
  rw [hsame, hremaining, remainingTimeout_of_request hcarries.request]

theorem Started.carry (h : record.Started timer) (hcarries : Carries record moved) : moved.Started timer := by
  obtain ⟨nowMs, hstart, hinTime⟩ := h
  exact ⟨nowMs, hcarries.startTs.trans hstart, hinTime.carry hcarries⟩

theorem gated_carry (h : pc.Gated executor record) (hcarries : Carries record moved)
    (hresources : other.availableResources = executor.availableResources)
    (hfunctions : ∀ name ∈ executor.functions, name ∈ other.functions) : pc.Gated other moved := by
  have hrequired := required_of_request hcarries.request
  have hname := funcName_of_request hcarries.request
  have hdeadline := remainingTimeout_of_request hcarries.request
  cases pc with
  | readClock =>
    rw [AttemptPc.Gated, hresources, hrequired]
    exact h
  | armTimer nowMs remaining =>
    rw [AttemptPc.Gated, hresources, hrequired, hdeadline]
    exact h
  | setStart timer nowMs =>
    rw [AttemptPc.Gated, hresources, hrequired]
    exact ⟨h.1, h.2.carry hcarries⟩
  | setRunning timer | findFunction timer =>
    rw [AttemptPc.Gated, hresources, hrequired]
    exact ⟨h.1, h.2.carry hcarries⟩
  | callFunction timer =>
    rw [AttemptPc.Gated, hresources, hrequired, hname]
    exact ⟨h.1, h.2.1.carry hcarries, hfunctions _ h.2.2⟩
  | _ => trivial

/-- The callbacks of both kinds of timers carry what the tests have found. -/
theorem carries_of_taskStep (h : TaskStep record taskAction moved)
    (htimer : ∀ index nowMs outcome, taskAction ≠ .attempt index nowMs outcome) : Carries record moved := by
  have hrequest := request_of_taskStep h
  obtain ⟨executor, before, after, h⟩ := h
  cases taskMove_of_step h with
  | attempt index nowMs outcome => exact absurd rfl (htimer index nowMs outcome)
  | timer index nowMs entry hentry hmove =>
    obtain ⟨-, status', -, htimers⟩ := timerStep_timers hmove
    refine ⟨hrequest, ?_, fun place armed harmed ↦ ?_⟩
    · generalize entry.status = status at hmove
      cases status with
      | fired | cancelled => cases hmove
      | _ =>
        cases hmove
        rfl
    · refine ⟨_, by rw [htimers, setTimer, getElem?_modify_of_getElem? harmed], ?_⟩
      split <;> rfl
  | retry index entry hentry hmove =>
    refine ⟨hrequest, ?_, fun place armed harmed ↦ ⟨armed, by rw [retryStep_timers hmove, harmed], rfl⟩⟩
    generalize entry.status = status at hmove
    cases status with
    | done => cases hmove
    | _ =>
      cases hmove
      rfl

/-- Each test leaves what it has found to the statement after it. -/
theorem attemptStep_gated (hgated : pc.Gated executor record)
    (h : record.attemptStep executor before attempt nowMs outcome pc = some (moved, after)) :
    ∃ pc', moved.attempts = record.attempts.set attempt pc' ∧ pc'.Gated executor moved := by
  cases attemptMove_of_step h with
  | accept hresources => exact ⟨_, rfl, hresources⟩
  | inTime hremaining => exact ⟨_, rfl, hgated, rfl, hremaining⟩
  | armTimer startMs remaining =>
    obtain ⟨hresources, hremaining, hleft⟩ := hgated
    refine ⟨_, rfl, hresources, { remaining := remaining }, ?_, hremaining, hleft⟩
    exact List.getElem?_concat_length
  | setStart timer startMs =>
    obtain ⟨hresources, hinTime⟩ := hgated
    exact ⟨_, rfl, hresources, startMs, rfl, hinTime⟩
  | setRunning timer => exact ⟨_, rfl, hgated⟩
  | found timer hname => exact ⟨_, rfl, hgated.1, hgated.2, hname⟩
  | _ => exact ⟨_, rfl, trivial⟩

/-- While an attempt holds the task, every other one has left it. -/
theorem InOneHand.others {index : ℕ} {pc' : AttemptPc} (hone : record.InOneHand)
    (hpc : record.attempts[attempt]? = some pc) (hholds : pc.holdsTask = true) (hne : index ≠ attempt)
    (hpc' : record.attempts[index]? = some pc') : pc' = .returned none := by
  unfold InOneHand at hone
  have hnot : pc'.holdsTask ≠ true := fun hholds' ↦
    hne (index_unique_of_countP_le_one (by omega) hpc' hpc hholds' hholds)
  cases pc' with
  | returned reported =>
    cases reported with
    | none => rfl
    | some report => exact absurd rfl hnot
  | _ => exact absurd rfl hnot

theorem gated_of_step (hone : record.InOneHand) (hgated : ∀ pc ∈ record.attempts, pc.Gated executor record)
    (h : record.step executor before taskAction = some (moved, after)) :
    ∀ pc ∈ moved.attempts, pc.Gated executor moved := by
  have htask : TaskStep record taskAction moved := ⟨executor, before, after, h⟩
  cases taskMove_of_step h with
  | attempt index nowMs outcome pc hpc hstep =>
    obtain ⟨pc', hattempts, hgated'⟩ := attemptStep_gated (hgated pc (List.mem_of_getElem? hpc)) hstep
    obtain ⟨hholds, -⟩ := attemptStep_hand hstep
    intro other hmem
    rw [hattempts] at hmem
    obtain ⟨place, hplace⟩ := List.getElem?_of_mem hmem
    by_cases hsame : place = index
    · subst hsame
      rw [List.getElem?_set_self (lt_length_of_getElem? hpc)] at hplace
      cases hplace
      exact hgated'
    · rw [List.getElem?_set_ne (Ne.symm hsame)] at hplace
      rw [hone.others hpc hholds hsame hplace]
      trivial
  | timer index nowMs entry _ htimer =>
    have hcarries := carries_of_taskStep htask (by simp)
    rw [(timerStep_hand htimer).1]
    exact fun pc hmem ↦ gated_carry (hgated pc hmem) hcarries rfl fun _ hname ↦ hname
  | retry index entry _ hmove =>
    have hcarries := carries_of_taskStep htask (by simp)
    have hold : ∀ pc ∈ record.attempts, pc.Gated executor moved :=
      fun pc hmem ↦ gated_carry (hgated pc hmem) hcarries rfl fun _ hname ↦ hname
    obtain ⟨-, -, -, ⟨-, hattempts⟩ | ⟨-, hattempts⟩⟩ := retryStep_hand hmove
    · rw [hattempts]
      exact hold
    · rw [hattempts]
      exact forall_mem_append_singleton hold trivial

end TaskRun

/-! ## All tasks -/

variable {system next : System} {action : Action} {index : ℕ} {record : TaskRun}

/-- A step of a task, with the executor that the task belongs to. -/
theorem step_act_executor {taskAction : TaskAction} (h : step system (.act index taskAction) = some next) :
    ∃ record moved executor after, system.runs[index]? = some record ∧
      system.executors[record.executor]? = some executor ∧
      record.step executor system.retryingCnt taskAction = some (moved, after) ∧
      next = { system with runs := system.runs.set index moved, retryingCnt := after } := by
  unfold step at h
  split at h
  · cases h
  · simp only [Option.bind_eq_some_iff, Option.map_eq_some_iff] at h
    obtain ⟨record, hrecord, executor, hexecutor, ⟨moved, after⟩, hstep, rfl⟩ := h
    exact ⟨record, moved, executor, after, hrecord, hexecutor, hstep, rfl⟩

/-- Every task is in one hand and belongs to an executor whose tests its attempts have passed. -/
structure GatesKept (system : System) : Prop where
  resources : ∀ executor ∈ system.executors, executor.availableResources = defaultResources
  hand : ∀ record ∈ system.runs, record.InOneHand
  gated : ∀ record ∈ system.runs, ∃ executor, system.executors[record.executor]? = some executor ∧
    ∀ pc ∈ record.attempts, pc.Gated executor record

theorem GatesKept.act {taskAction : TaskAction} (h : GatesKept system)
    (hstep : step system (.act index taskAction) = some next) : GatesKept next := by
  obtain ⟨record, moved, executor, after, hrecord, hexecutor, htask, rfl⟩ := step_act_executor hstep
  have hmem := List.mem_of_getElem? hrecord
  have hmoved : TaskStep record taskAction moved := ⟨executor, _, after, htask⟩
  refine ⟨h.resources, fun other hother ↦ ?_, fun other hother ↦ ?_⟩
  · rcases List.mem_or_eq_of_mem_set hother with hold | rfl
    · exact h.hand other hold
    · exact inOneHand_of_taskStep hmoved (h.hand record hmem)
  · rcases List.mem_or_eq_of_mem_set hother with hold | rfl
    · exact h.gated other hold
    · obtain ⟨executor', hexecutor', hgated⟩ := h.gated record hmem
      cases hexecutor'.symm.trans hexecutor
      have hsame := TaskRun.executor_of_taskStep hmoved
      exact ⟨executor, hsame ▸ hexecutor, TaskRun.gated_of_step (h.hand record hmem) hgated htask⟩

theorem GatesKept.step (h : GatesKept system) (hstep : step system action = some next) : GatesKept next := by
  cases action with
  | act index taskAction => exact h.act hstep
  | construct =>
    unfold Executor.step at hstep
    split at hstep <;> cases hstep
    refine ⟨forall_mem_append_singleton h.resources rfl, h.hand, fun record hmem ↦ ?_⟩
    obtain ⟨executor, hexecutor, hgated⟩ := h.gated record hmem
    exact ⟨executor, by rw [List.getElem?_append_left (lt_length_of_getElem? hexecutor), hexecutor], hgated⟩
  | registerFunction place name =>
    unfold Executor.step at hstep
    split at hstep <;> cases hstep
    refine ⟨fun executor hmem ↦ ?_, h.hand, fun record hmem ↦ ?_⟩
    · obtain ⟨other, hother⟩ := List.getElem?_of_mem hmem
      rw [List.getElem?_modify, Option.map_eq_map, Option.map_eq_some_iff] at hother
      obtain ⟨registering, hregistering, rfl⟩ := hother
      have hresources := h.resources registering (List.mem_of_getElem? hregistering)
      split <;> exact hresources
    · obtain ⟨executor, hexecutor, hgated⟩ := h.gated record hmem
      refine ⟨_, getElem?_modify_of_getElem? hexecutor _ place, fun pc hpc ↦ ?_⟩
      have hcarries : TaskRun.Carries record record := ⟨rfl, rfl, fun _ entry hentry ↦ ⟨entry, hentry, rfl⟩⟩
      split
      · exact TaskRun.gated_carry (hgated pc hpc) hcarries rfl fun _ hname ↦ List.mem_cons_of_mem name hname
      · exact hgated pc hpc
  | executeTask place task =>
    unfold Executor.step at hstep
    split at hstep
    · cases hstep
    · simp only at hstep
      split at hstep
      · rename_i hplace
        cases hstep
        refine ⟨h.resources, forall_mem_append_singleton h.hand rfl, forall_mem_append_singleton h.gated ?_⟩
        refine ⟨_, List.getElem?_eq_getElem hplace, fun pc hpc ↦ ?_⟩
        obtain rfl := List.mem_singleton.mp hpc
        trivial
      · cases hstep

theorem gatesKept_of_run {actions : List Action} (hrun : run step {} actions = some system) : GatesKept system := by
  refine run_invariant (I := GatesKept) (fun _ _ _ h hstep ↦ h.step hstep) ?_ hrun
  exact ⟨List.forall_mem_nil _, List.forall_mem_nil _, List.forall_mem_nil _⟩

/-- Whenever an attempt is about to call a function, in any run: the task asks for no more than the resources of
an executor; the time left that was computed from the clock reading in `start_ts` was not negative, and the
attempt's timer was armed with it, so that the deadline had not passed at that reading unless the time to it
exceeds an `int64_t`; and the name is registered. -/
theorem calls_gated (actions : List Action) (system : System) (index : ℕ) (record : TaskRun) (attempt timer : ℕ)
    (hrun : run step {} actions = some system) (hrecord : system.runs[index]? = some record)
    (hpc : record.attempts[attempt]? = some (.callFunction timer)) :
    checkResources defaultResources record.task.required = true ∧
      (∃ nowMs : UInt64, record.task.startTs = nowMs.toInt64 ∧ record.InTime timer nowMs ∧
        (FitsInt64 (deadline record.task - nowMs.toNat) → (nowMs.toNat : ℤ) ≤ deadline record.task)) ∧
      ∃ executor, system.executors[record.executor]? = some executor ∧
        record.task.funcName ∈ executor.functions := by
  have hkept := gatesKept_of_run hrun
  obtain ⟨executor, hexecutor, hgated⟩ := hkept.gated record (List.mem_of_getElem? hrecord)
  obtain ⟨hresources, ⟨nowMs, hstart, hinTime⟩, hname⟩ := hgated _ (List.mem_of_getElem? hpc)
  rw [hkept.resources executor (List.mem_of_getElem? hexecutor)] at hresources
  exact ⟨hresources, ⟨nowMs, hstart, hinTime, hinTime.le_deadline⟩, executor, hexecutor, hname⟩

/-- A task with two seconds, submitted at the epoch of the clock and started after one. -/
theorem calls_gated_fib :
    ∃ system record, run step {} (.construct :: .executeTask 0 { funcName := "fib", timeoutMs := 2000 } ::
        List.replicate 6 (.act 0 (.attempt 0 1000 .throwsOther))) = some system ∧ system.runs[0]? = some record ∧
      record.attempts[0]? = some (.callFunction 0) ∧ record.InTime 0 1000 ∧ 1000 ≤ deadline record.task := by
  have hrun : run step {} (.construct :: .executeTask 0 { funcName := "fib", timeoutMs := 2000 } ::
      List.replicate 6 (.act 0 (.attempt 0 1000 .throwsOther))) = some _ := rfl
  obtain ⟨-, ⟨nowMs, hstart, hinTime, hdeadline⟩, -⟩ := calls_gated _ _ 0 _ 0 0 hrun rfl rfl
  obtain rfl : (1000 : UInt64) = nowMs := congrArg Int64.toUInt64 hstart
  exact ⟨_, _, hrun, rfl, rfl, hinTime, hdeadline ⟨by decide, by decide⟩⟩

end TinyReactor.Executor
