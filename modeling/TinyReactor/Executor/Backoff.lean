import TinyReactor.Executor.Bounds

/-!
# The backoff schedule

A retry timer is given its delay when it is armed, from the `retry_count` of that moment, and the count is
raised later, by the callback of the timer. Since a task is in one hand, a timer is armed only after every
earlier one has counted its retry, and the delays follow the number of the retry.
-/

namespace TinyReactor.Executor

open Transition Wire

/-- `1 << std::min(task->retry_count, 4u)` in whole numbers. -/
theorem toNat_retryDelay (task : Task) : (retryDelay task).toNat = 2 ^ min task.retryCount.toNat 4 := by
  have hlevel : (min task.retryCount 4).toNat = min task.retryCount.toNat 4 := by
    change (if task.retryCount ≤ 4 then task.retryCount else 4).toNat = _
    have hiff : task.retryCount ≤ 4 ↔ task.retryCount.toNat ≤ 4 := UInt32.le_iff_toNat_le
    rw [Nat.min_def]
    simp only [hiff]
    split <;> rfl
  have hle : min task.retryCount.toNat 4 ≤ 4 := Nat.min_le_right _ _
  rw [retryDelay, UInt32.toNat_shiftLeft, hlevel, UInt32.toNat_one, Nat.mod_eq_of_lt (by omega : _ < 32),
    Nat.shiftLeft_eq, Nat.one_mul]
  exact Nat.mod_eq_of_lt (Nat.lt_of_le_of_lt (Nat.pow_le_pow_right (by decide) hle) (by decide))

namespace TaskRun

/-- The delays of the retry timers follow their number, and only the last timer can be pending. -/
structure BackedOff (task : Task) (record : TaskRun) : Prop where
  within : ∃ retries, record.WithinAllowance task retries
  delays : ∀ (place : ℕ) entry, record.retryTimers[place]? = some entry →
    entry.delaySeconds.toNat = 2 ^ min (task.retryCount.toNat + place) 4
  inTurn : ∀ (place : ℕ) entry, record.retryTimers[place]? = some entry → entry.pending = true →
    place + 1 = record.retryTimers.length

variable {record moved : TaskRun} {executor : TaskExecutor} {before after : ℤ} {attempt timer : ℕ} {nowMs : UInt64}
  {outcome : Outcome} {pc : AttemptPc} {taskAction : TaskAction} {task : Task}

theorem backedOff_new (executor : ℕ) (task : Task) : BackedOff task { executor := executor, task := task } where
  within := ⟨0, withinAllowance_new executor task⟩
  delays place entry hentry := by cases hentry
  inTurn place entry hentry := by cases hentry

/-- While an attempt holds the task, no retry timer of it is pending. -/
theorem InOneHand.none_pending (hone : record.InOneHand) (hpc : record.attempts[attempt]? = some pc)
    (hholds : pc.holdsTask = true) : ∀ entry ∈ record.retryTimers, entry.pending = false := by
  have hpos := toNat_le_countP AttemptPc.holdsTask hpc
  rw [hholds, Bool.toNat_true] at hpos
  unfold InOneHand at hone
  have hzero : record.retryTimers.countP RetryTimer.pending = 0 := by omega
  intro entry hmem
  exact Bool.eq_false_iff.mpr (List.countP_eq_zero.mp hzero entry hmem)

/-- Where no retry timer is pending, `retry_count` has counted all of them. -/
theorem WithinAllowance.retryCount_eq {retries : ℕ} (h : record.WithinAllowance task retries)
    (hnone : ∀ entry ∈ record.retryTimers, entry.pending = false) :
    record.task.retryCount.toNat = task.retryCount.toNat + record.retryTimers.length := by
  rw [h.retryCount, ← h.increments, List.countP_eq_length.mpr]
  intro entry hmem
  have hdone : entry.status = .done := by simpa [RetryTimer.pending] using hnone entry hmem
  rw [hdone]
  rfl

theorem BackedOff.attemptStep (hrecord : record.BackedOff task) (hpc : record.attempts[attempt]? = some pc)
    (h : record.attemptStep executor before attempt nowMs outcome pc = some (moved, after)) :
    moved.BackedOff task := by
  obtain ⟨⟨retries, hwithin⟩, hdelays, hinTurn⟩ := hrecord
  have hmoved := hwithin.attemptStep hpc h
  obtain ⟨hholds, -⟩ := attemptStep_hand h
  have hnone := hwithin.oneHand.none_pending hpc hholds
  obtain ⟨-, -, -, -, -, hsame | ⟨-, harmed⟩⟩ := attemptStep_allowed h
  · refine ⟨⟨retries, hmoved⟩, ?_, ?_⟩ <;> rw [hsame] <;> assumption
  · refine ⟨⟨retries, hmoved⟩, fun place entry hentry ↦ ?_, fun place entry hentry hpending ↦ ?_⟩
    · rw [harmed] at hentry
      obtain hold | ⟨rfl, rfl⟩ := of_getElem?_append_singleton hentry
      · exact hdelays place entry hold
      · rw [toNat_retryDelay, hwithin.retryCount_eq hnone]
    · rw [harmed] at hentry ⊢
      obtain hold | ⟨rfl, rfl⟩ := of_getElem?_append_singleton hentry
      · rw [hnone entry (List.mem_of_getElem? hold)] at hpending
        cases hpending
      · rw [List.length_append, List.length_singleton]

/-- Moving on changes neither the delay of a retry timer nor which of them may be pending. -/
theorem BackedOff.retryStep {entry : RetryTimer} (hrecord : record.BackedOff task)
    (hentry : record.retryTimers[timer]? = some entry)
    (h : record.retryStep before timer entry.status = some (moved, after)) : moved.BackedOff task := by
  obtain ⟨⟨retries, hwithin⟩, hdelays, hinTurn⟩ := hrecord
  obtain ⟨hstatus, status', hretry, -⟩ := retryStep_hand h
  have hplace (place : ℕ) (other : RetryTimer) (hother : moved.retryTimers[place]? = some other) :
      ∃ before, record.retryTimers[place]? = some before ∧ before.delaySeconds = other.delaySeconds ∧
        (other.pending = true → before.pending = true) := by
    rw [hretry, setRetry, modify_eq_set_of_getElem? hentry] at hother
    by_cases hsame : timer = place
    · subst hsame
      rw [List.getElem?_set_self (lt_length_of_getElem? hentry)] at hother
      cases hother
      exact ⟨entry, hentry, rfl, fun _ ↦ bne_iff_ne.mpr hstatus⟩
    · rw [List.getElem?_set_ne hsame] at hother
      exact ⟨other, hother, rfl, id⟩
  refine ⟨⟨_, hwithin.retryStep hentry h⟩, fun place other hother ↦ ?_, fun place other hother hpending ↦ ?_⟩
  · obtain ⟨before, hbefore, hdelay, -⟩ := hplace place other hother
    rw [← hdelay, hdelays place before hbefore]
  · obtain ⟨before, hbefore, -, hwas⟩ := hplace place other hother
    rw [hinTurn place before hbefore (hwas hpending), hretry, setRetry, List.length_modify]

theorem BackedOff.taskStep (hrecord : record.BackedOff task) (h : TaskStep record taskAction moved) :
    moved.BackedOff task := by
  obtain ⟨executor, before, after, h⟩ := h
  cases taskMove_of_step h with
  | attempt index nowMs outcome pc hpc hstep => exact hrecord.attemptStep hpc hstep
  | retry index entry hentry hstep => exact hrecord.retryStep hentry hstep
  | timer index nowMs entry hentry htimer =>
    obtain ⟨⟨retries, hwithin⟩, hdelays, hinTurn⟩ := hrecord
    obtain ⟨-, hretry⟩ := timerStep_hand htimer
    refine ⟨⟨retries, hwithin.timerStep htimer⟩, ?_, ?_⟩ <;> rw [hretry] <;> assumption

end TaskRun

/-- A task that is handed over with `retry_count` `r₀` waits `2 ^ min(r₀ + k, 4)` seconds before its `k`-th retry,
counted from 0, and a retry timer is armed only when every earlier one of the task has handed it to an
attempt. -/
theorem backoff_schedule (rest : List Action) (executor : ℕ) (task : Task) (before submitted final : System)
    (hsubmit : step before (.executeTask executor task) = some submitted)
    (hrest : run step submitted rest = some final) :
    ∃ record, final.runs[before.runs.length]? = some record ∧
      ∀ (place : ℕ) entry, record.retryTimers[place]? = some entry →
        entry.delaySeconds.toNat = 2 ^ min (task.retryCount.toNat + place) 4 ∧
          (place + 1 < record.retryTimers.length → entry.status = .done) := by
  have hok : Meets step (OnTasks fun _ _ ↦ True) submitted rest :=
    Meets.of_forall_mem fun action _ state ↦ onTasks_true state action
  obtain ⟨record, hrecord, -, hdelays, hinTurn⟩ := task_invariant (I := TaskRun.BackedOff task)
    (fun _ _ _ hbacked _ htask ↦ hbacked.taskStep htask) hok hrest (getElem?_executeTask hsubmit)
    (TaskRun.backedOff_new executor task)
  refine ⟨record, hrecord, fun place entry hentry ↦ ⟨hdelays place entry hentry, fun hlater ↦ ?_⟩⟩
  by_contra hpending
  have hlast := hinTurn place entry hentry (bne_iff_ne.mpr hpending)
  omega

theorem backoff_schedule_last :
    ∃ submitted final record, step { executors := [.create] } (.executeTask 0 lastRetry) = some submitted ∧
      run step submitted failsTwice = some final ∧ final.runs[0]? = some record ∧
      ∃ entry, record.retryTimers[0]? = some entry ∧ entry.delaySeconds.toNat = 4 := by
  have hrun : run step { executors := [.create], runs := [{ executor := 0, task := lastRetry }] } failsTwice =
      some _ := rfl
  obtain ⟨record, hrecord, hschedule⟩ :=
    backoff_schedule failsTwice 0 lastRetry { executors := [.create] } _ _ rfl hrun
  obtain ⟨entry, hentry⟩ : ∃ entry, record.retryTimers[0]? = some entry := by
    obtain rfl := Option.some.inj hrecord
    exact ⟨_, rfl⟩
  exact ⟨_, _, record, rfl, hrun, hrecord, entry, hentry, (hschedule 0 entry hentry).1⟩

end TinyReactor.Executor
