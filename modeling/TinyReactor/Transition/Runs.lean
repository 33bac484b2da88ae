import Mathlib.Data.List.Induction
import Mathlib.Logic.Function.Basic

/-!
# Finite runs of step functions

A concurrent program is a step function: an action names the thread that moves and carries every
choice the scheduler or the environment makes there, and the result is absent when the action is
disabled. A run is a list of actions. Everything a proof needs of runs is here: the invariant rule, the
invariant rule for the runs whose steps all meet a condition, and the rule for the runs along which
every visited state keeps a property.
-/

namespace TinyReactor.Transition

variable {σ α : Type*} (step : σ → α → Option σ)

/-- Execute the actions in order; a disabled action ends the attempt with no final state. -/
def run : σ → List α → Option σ
  | state, [] => some state
  | state, action :: rest => (step state action).bind fun next ↦ run next rest

/-- Every action is taken from a state in which `ok` admits it. -/
def Meets (ok : σ → α → Prop) : σ → List α → Prop
  | _, [] => True
  | state, action :: rest => ok state action ∧ ∀ next, step state action = some next → Meets ok next rest

/-- Every state the run visits, the first and the last included, satisfies `P`. -/
def Throughout (P : σ → Prop) : σ → List α → Prop
  | state, [] => P state
  | state, action :: rest => P state ∧ ∀ next, step state action = some next → Throughout P next rest

/-- Some state the run visits satisfies `P`. -/
def Visits (P : σ → Prop) (state : σ) (actions : List α) : Prop :=
  ∃ first second visited, actions = first ++ second ∧ run step state first = some visited ∧ P visited

/-- From every state of `P` the actions can be executed, and they end in a state of `Q`. -/
def Leads (P : σ → Prop) (actions : List α) (Q : σ → Prop) : Prop :=
  ∀ state, P state → ∃ final, run step state actions = some final ∧ Q final

/-- How many steps of the run satisfy `p` in the state they are taken from. -/
def countSteps (p : σ → α → Bool) : σ → List α → ℕ
  | _, [] => 0
  | state, action :: rest =>
      (step state action).elim 0 fun next ↦ (p state action).toNat + countSteps p next rest

/-- What the steps of the run show to an observer, in order. -/
def collect {β : Type*} (f : σ → α → Option β) : σ → List α → List β
  | _, [] => []
  | state, action :: rest =>
      (step state action).elim [] fun next ↦ (f state action).toList ++ collect f next rest

@[simp] theorem run_nil (state : σ) : run step state [] = some state := rfl

theorem run_cons (state : σ) (action : α) (rest : List α) :
    run step state (action :: rest) = (step state action).bind fun next ↦ run step next rest := rfl

variable {step}

theorem run_cons_some {state final : σ} {action : α} {rest : List α}
    (h : run step state (action :: rest) = some final) :
    ∃ next, step state action = some next ∧ run step next rest = some final := by
  simpa only [run_cons, Option.bind_eq_some_iff] using h

theorem run_append (state : σ) (first second : List α) :
    run step state (first ++ second) = (run step state first).bind fun middle ↦ run step middle second := by
  induction first generalizing state with
  | nil => rfl
  | cons action rest ih =>
    rw [List.cons_append, run_cons, run_cons, Option.bind_assoc]
    congr 1
    funext next
    exact ih next

/-- A decidable property can be checked along a given run. -/
instance Throughout.decidable (P : σ → Prop) [DecidablePred P] (state : σ) :
    (actions : List α) → Decidable (Throughout step P state actions)
  | [] => inferInstanceAs (Decidable (P state))
  | action :: rest =>
      match hstep : step state action with
      | none =>
          decidable_of_iff (P state)
            ⟨fun hP ↦ ⟨hP, fun _ hnext ↦ nomatch hstep.symm.trans hnext⟩, fun h ↦ h.1⟩
      | some next =>
          have := Throughout.decidable P next rest
          decidable_of_iff (P state ∧ Throughout step P next rest)
            ⟨fun h ↦ ⟨h.1, fun _ hnext ↦ Option.some.inj (hstep.symm.trans hnext) ▸ h.2⟩,
              fun h ↦ ⟨h.1, h.2 next hstep⟩⟩

instance Meets.decidable (ok : σ → α → Prop) [∀ state action, Decidable (ok state action)] (state : σ) :
    (actions : List α) → Decidable (Meets step ok state actions)
  | [] => .isTrue trivial
  | action :: rest =>
      match hstep : step state action with
      | none =>
          decidable_of_iff (ok state action)
            ⟨fun hok ↦ ⟨hok, fun _ hnext ↦ nomatch hstep.symm.trans hnext⟩, fun h ↦ h.1⟩
      | some next =>
          have := Meets.decidable ok next rest
          decidable_of_iff (ok state action ∧ Meets step ok next rest)
            ⟨fun h ↦ ⟨h.1, fun _ hnext ↦ Option.some.inj (hstep.symm.trans hnext) ▸ h.2⟩,
              fun h ↦ ⟨h.1, h.2 next hstep⟩⟩

theorem Throughout.here {P : σ → Prop} {state : σ} {actions : List α}
    (h : Throughout step P state actions) : P state := by
  cases actions with
  | nil => exact h
  | cons action rest => exact h.1

theorem Throughout.mono {P Q : σ → Prop} (h : ∀ state, P state → Q state) {state : σ} {actions : List α}
    (hP : Throughout step P state actions) : Throughout step Q state actions := by
  induction actions generalizing state with
  | nil => exact h state hP
  | cons action rest ih => exact ⟨h state hP.1, fun next hnext ↦ ih (hP.2 next hnext)⟩

/-- Both ends of each step satisfy what holds throughout. -/
theorem Throughout.meets {P : σ → Prop} {state : σ} {actions : List α} (h : Throughout step P state actions) :
    Meets step (fun state action ↦ P state ∧ ∀ next, step state action = some next → P next) state actions := by
  induction actions generalizing state with
  | nil => trivial
  | cons action rest ih =>
    exact ⟨⟨h.1, fun next hnext ↦ (h.2 next hnext).here⟩, fun next hnext ↦ ih (h.2 next hnext)⟩

/-- The invariant rule for a property that speaks of the number of steps of some kind. -/
theorem countSteps_invariant {p : σ → α → Bool} {ok : σ → α → Prop} {I : ℕ → σ → Prop}
    (hstep : ∀ count state action next, I count state → ok state action → step state action = some next →
      I (count + (p state action).toNat) next)
    {count : ℕ} {state final : σ} {actions : List α} (hok : Meets step ok state actions) (hI : I count state)
    (hrun : run step state actions = some final) : I (count + countSteps step p state actions) final := by
  induction actions generalizing state count with
  | nil =>
    obtain rfl : state = final := by simpa using hrun
    exact hI
  | cons action rest ih =>
    obtain ⟨next, hnext, hrest⟩ := run_cons_some hrun
    have hcount : countSteps step p state (action :: rest) =
        (p state action).toNat + countSteps step p next rest := by
      rw [countSteps, hnext, Option.elim_some]
    rw [hcount, ← Nat.add_assoc]
    exact ih (hok.2 next hnext) (hstep count state action next hI hok.1 hnext) hrest

/-- The invariant rule for a property that speaks of what the steps have shown. -/
theorem collect_invariant {β : Type*} {f : σ → α → Option β} {ok : σ → α → Prop} {I : List β → σ → Prop}
    (hstep : ∀ shown state action next, I shown state → ok state action → step state action = some next →
      I (shown ++ (f state action).toList) next)
    {shown : List β} {state final : σ} {actions : List α} (hok : Meets step ok state actions) (hI : I shown state)
    (hrun : run step state actions = some final) : I (shown ++ collect step f state actions) final := by
  induction actions generalizing state shown with
  | nil =>
    obtain rfl : state = final := by simpa using hrun
    rw [collect, List.append_nil]
    exact hI
  | cons action rest ih =>
    obtain ⟨next, hnext, hrest⟩ := run_cons_some hrun
    rw [collect, hnext, Option.elim_some, ← List.append_assoc]
    exact ih (hok.2 next hnext) (hstep shown state action next hI hok.1 hnext) hrest

/-- A condition met along a run can be traded for one that follows from it together with an invariant. -/
theorem Meets.strengthen {ok ok' : σ → α → Prop} {I : σ → Prop}
    (hstep : ∀ state action next, I state → ok state action → step state action = some next → I next)
    (h : ∀ state action, I state → ok state action → ok' state action) {state : σ} {actions : List α} (hI : I state)
    (hmeets : Meets step ok state actions) : Meets step ok' state actions := by
  induction actions generalizing state with
  | nil => trivial
  | cons action rest ih =>
    refine ⟨h state action hI hmeets.1, fun next hnext ↦ ?_⟩
    exact ih (hstep state action next hI hmeets.1 hnext) (hmeets.2 next hnext)

theorem Meets.mono {ok ok' : σ → α → Prop} (h : ∀ state action, ok state action → ok' state action)
    {state : σ} {actions : List α} (hmeets : Meets step ok state actions) : Meets step ok' state actions :=
  hmeets.strengthen (I := fun _ ↦ True) (fun _ _ _ _ _ _ ↦ trivial) (fun state action _ ↦ h state action) trivial

theorem Meets.and {ok ok' : σ → α → Prop} {state : σ} {actions : List α} (h : Meets step ok state actions)
    (h' : Meets step ok' state actions) :
    Meets step (fun state action ↦ ok state action ∧ ok' state action) state actions := by
  induction actions generalizing state with
  | nil => trivial
  | cons action rest ih => exact ⟨⟨h.1, h'.1⟩, fun next hnext ↦ ih (h.2 next hnext) (h'.2 next hnext)⟩

theorem Meets.of_forall_mem {ok : σ → α → Prop} {state : σ} {actions : List α}
    (h : ∀ action ∈ actions, ∀ state, ok state action) : Meets step ok state actions := by
  induction actions generalizing state with
  | nil => trivial
  | cons action rest ih =>
    rw [List.forall_mem_cons] at h
    exact ⟨h.1 state, fun next _ ↦ ih h.2⟩

/-- The invariant rule for runs whose steps all meet a condition. -/
theorem Meets.invariant {ok : σ → α → Prop} {I : σ → Prop}
    (hstep : ∀ state action next, I state → ok state action → step state action = some next → I next)
    {state final : σ} {actions : List α} (hok : Meets step ok state actions) (hI : I state)
    (hrun : run step state actions = some final) : I final := by
  induction actions generalizing state with
  | nil =>
    obtain rfl : state = final := by simpa using hrun
    exact hI
  | cons action rest ih =>
    obtain ⟨next, hnext, hrest⟩ := run_cons_some hrun
    exact ih (hok.2 next hnext) (hstep state action next hI hok.1 hnext) hrest

theorem Meets.throughout {ok : σ → α → Prop} {I : σ → Prop}
    (hstep : ∀ state action next, I state → ok state action → step state action = some next → I next)
    {state : σ} {actions : List α} (hok : Meets step ok state actions) (hI : I state) :
    Throughout step I state actions := by
  induction actions generalizing state with
  | nil => exact hI
  | cons action rest ih =>
    exact ⟨hI, fun next hnext ↦ ih (hok.2 next hnext) (hstep state action next hI hok.1 hnext)⟩

/-- What every enabled step preserves holds at the end of every run. -/
theorem run_invariant {I : σ → Prop}
    (hstep : ∀ state action next, I state → step state action = some next → I next)
    {state final : σ} {actions : List α} (hI : I state) (hrun : run step state actions = some final) :
    I final := by
  have hok : Meets step (fun _ _ ↦ True) state actions := .of_forall_mem fun _ _ _ ↦ trivial
  exact hok.invariant (fun state action next h _ hnext ↦ hstep state action next h hnext) hI hrun

/-- The invariant rule for runs along which `P` never fails; both ends of each step satisfy `P`. -/
theorem Throughout.invariant {P : σ → Prop} {ok : σ → α → Prop} {I : σ → Prop}
    (hstep : ∀ state action next, I state → P state → P next → ok state action →
      step state action = some next → I next)
    {state final : σ} {actions : List α} (hP : Throughout step P state actions)
    (hok : Meets step ok state actions) (hI : I state) (hrun : run step state actions = some final) :
    I final := by
  induction actions generalizing state with
  | nil =>
    obtain rfl : state = final := by simpa using hrun
    exact hI
  | cons action rest ih =>
    obtain ⟨next, hnext, hrest⟩ := run_cons_some hrun
    have htail := hP.2 next hnext
    exact ih htail (hok.2 next hnext)
      (hstep state action next hI hP.1 htail.here hok.1 hnext) hrest

theorem Meets.append_left {ok : σ → α → Prop} {state : σ} {first second : List α}
    (h : Meets step ok state (first ++ second)) : Meets step ok state first := by
  induction first generalizing state with
  | nil => trivial
  | cons action rest ih => exact ⟨h.1, fun next hnext ↦ ih (h.2 next hnext)⟩

theorem Meets.append_right {ok : σ → α → Prop} {state middle : σ} {first second : List α}
    (h : Meets step ok state (first ++ second)) (hrun : run step state first = some middle) :
    Meets step ok middle second := by
  induction first generalizing state with
  | nil =>
    obtain rfl : state = middle := by simpa using hrun
    exact h
  | cons action rest ih =>
    obtain ⟨next, hnext, hrest⟩ := run_cons_some hrun
    exact ih (h.2 next hnext) hrest

theorem Throughout.append_right {P : σ → Prop} {state middle : σ} {first second : List α}
    (h : Throughout step P state (first ++ second)) (hrun : run step state first = some middle) :
    Throughout step P middle second := by
  induction first generalizing state with
  | nil =>
    obtain rfl : state = middle := by simpa using hrun
    exact h
  | cons action rest ih =>
    obtain ⟨next, hnext, hrest⟩ := run_cons_some hrun
    exact ih (h.2 next hnext) hrest

theorem run_append_some {state final : σ} {first second : List α}
    (h : run step state (first ++ second) = some final) :
    ∃ middle, run step state first = some middle ∧ run step middle second = some final := by
  simpa only [run_append, Option.bind_eq_some_iff] using h

/-- What holds at the end of a run and not at its start became true in one of its steps. -/
theorem exists_step_of_run {P : σ → Prop} {state final : σ} {actions : List α}
    (hrun : run step state actions = some final) (hstart : ¬P state) (hend : P final) :
    ∃ first action rest before after, actions = first ++ action :: rest ∧ run step state first = some before ∧
      step before action = some after ∧ run step after rest = some final ∧ ¬P before ∧ P after := by
  induction actions generalizing state with
  | nil =>
    obtain rfl : state = final := by simpa using hrun
    exact absurd hend hstart
  | cons action rest ih =>
    obtain ⟨next, hnext, hrest⟩ := run_cons_some hrun
    by_cases hP : P next
    · exact ⟨[], action, rest, state, next, rfl, rfl, hnext, hrest, hstart, hP⟩
    · obtain ⟨first, turn, later, before, after, rfl, hfirst, hmoves⟩ := ih hrest hP
      refine ⟨action :: first, turn, later, before, after, rfl, ?_, hmoves⟩
      rw [run_cons, hnext, Option.bind_some, hfirst]

theorem run_concat {state final : σ} {actions : List α} {action : α} {next : σ}
    (hrun : run step state actions = some final) (hstep : step final action = some next) :
    run step state (actions ++ [action]) = some next := by
  rw [run_append, hrun, Option.bind_some, run_cons, hstep]
  rfl

theorem Visits.last {P : σ → Prop} {state final : σ} {actions : List α} (hrun : run step state actions = some final)
    (hP : P final) : Visits step P state actions :=
  ⟨actions, [], final, (List.append_nil actions).symm, hrun, hP⟩

theorem Visits.concat {P Q : σ → Prop} {state : σ} {actions : List α} (h : Visits step P state actions) (action : α)
    (hQ : ∀ visited, P visited → Q visited) : Visits step Q state (actions ++ [action]) := by
  obtain ⟨first, second, visited, rfl, hrun, hP⟩ := h
  exact ⟨first, second ++ [action], visited, List.append_assoc .., hrun, hQ visited hP⟩

/-- The invariant rule for a property that speaks of the run so far. -/
theorem history_invariant {I : List α → σ → Prop} {start final : σ} {actions : List α} (hI : I [] start)
    (hstep : ∀ past state action next, run step start past = some state → I past state →
      step state action = some next → I (past ++ [action]) next)
    (hrun : run step start actions = some final) : I actions final := by
  induction actions using List.reverseRecOn generalizing final with
  | nil =>
    obtain rfl : start = final := by simpa using hrun
    exact hI
  | append_singleton past action ih =>
    obtain ⟨middle, hpast, hlast⟩ := run_append_some hrun
    obtain ⟨next, hnext, hdone⟩ := run_cons_some hlast
    obtain rfl : next = final := by simpa using hdone
    exact hstep past middle action next hpast (ih hpast) hnext

/-! ## Executable blocks of actions -/

section Leads

variable {P Q R : σ → Prop} {action : α} {first second : List α}

theorem Leads.nil (h : ∀ state, P state → Q state) : Leads step P [] Q :=
  fun state hP ↦ ⟨state, rfl, h state hP⟩

theorem Leads.cons (hstep : ∀ state, P state → ∃ next, step state action = some next ∧ Q next)
    (hrest : Leads step Q second R) : Leads step P (action :: second) R := by
  intro state hP
  obtain ⟨next, hnext, hQ⟩ := hstep state hP
  obtain ⟨final, hrun, hR⟩ := hrest next hQ
  refine ⟨final, ?_, hR⟩
  rw [run_cons, hnext, Option.bind_some, hrun]

theorem Leads.append (hfirst : Leads step P first Q) (hsecond : Leads step Q second R) :
    Leads step P (first ++ second) R := by
  intro state hP
  obtain ⟨middle, hrun, hQ⟩ := hfirst state hP
  obtain ⟨final, hrun', hR⟩ := hsecond middle hQ
  refine ⟨final, ?_, hR⟩
  rw [run_append, hrun, Option.bind_some, hrun']

/-- Blocks in a row, when each of them leads from one stage to the next. -/
theorem Leads.rounds {S : ℕ → σ → Prop} {block : ℕ → List α} {rounds : ℕ}
    (hround : ∀ round < rounds, Leads step (S round) (block round) (S (round + 1))) :
    Leads step (S 0) ((List.range rounds).flatMap block) (S rounds) := by
  induction rounds with
  | zero => exact .nil fun _ h ↦ h
  | succ rounds ih =>
    rw [List.range_succ, List.flatMap_append, List.flatMap_singleton]
    apply Leads.append
    · exact ih fun round hlt ↦ hround round (Nat.lt_succ_of_lt hlt)
    · exact hround rounds (Nat.lt_succ_self rounds)

end Leads

end TinyReactor.Transition
