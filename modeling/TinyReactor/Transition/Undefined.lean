import TinyReactor.Transition.Runs

/-!
# Undefined behaviour

A step function that has no next state where the behaviour of a program is undefined says nothing about
what comes after that point. Here something may come: an agent whose next statement is undefined takes the
system to any state whatever. An invariant under which no agent ever gets there makes the executions of
this larger system the runs of the step function, so that what is known of the runs holds of the executions.
-/

namespace TinyReactor.Transition

variable {σ α ι β : Type*}

/-- An action of the program, or what comes of the undefined statement of an agent. -/
inductive Event (σ α ι : Type*)
  | act (action : α)
  | anything (agent : ι) (next : σ)

/-- A function of the actions, with a default for the undefined statements. -/
def Event.onActions (f : σ → α → β) (default : β) (state : σ) : Event σ α ι → β
  | .act action => f state action
  | .anything _ _ => default

/-- The step function of the executions; `undefinedAt` tells whose next statement is undefined. -/
def execute (step : σ → α → Option σ) (undefinedAt : σ → ι → Bool) (state : σ) : Event σ α ι → Option σ
  | .act action => step state action
  | .anything agent next => if undefinedAt state agent then some next else none

variable {step : σ → α → Option σ} {undefinedAt : σ → ι → Bool} {state final : σ} {actions : List α}

/-! ## Executions without undefined behaviour -/

@[simp] theorem act_mem_map {action : α} :
    (.act action : Event σ α ι) ∈ actions.map .act ↔ action ∈ actions := by
  constructor
  · intro hmem
    obtain ⟨other, hother, heq⟩ := List.mem_map.mp hmem
    cases heq
    exact hother
  · exact List.mem_map_of_mem

@[simp] theorem run_execute_map (state : σ) (actions : List α) :
    run (execute step undefinedAt) state (actions.map .act) = run step state actions := by
  induction actions generalizing state with
  | nil => rfl
  | cons action rest ih =>
    rw [List.map_cons, run_cons, run_cons]
    congr 1
    funext next
    exact ih next

theorem countSteps_execute_map (p : σ → α → Bool) (state : σ) (actions : List α) :
    countSteps (execute step undefinedAt) (Event.onActions p false) state (actions.map .act) =
      countSteps step p state actions := by
  induction actions generalizing state with
  | nil => rfl
  | cons action rest ih =>
    rw [List.map_cons, countSteps, countSteps]
    congr 1
    funext next
    rw [ih next]
    rfl

theorem collect_execute_map (f : σ → α → Option β) (state : σ) (actions : List α) :
    collect (execute step undefinedAt) (Event.onActions f none) state (actions.map .act) =
      collect step f state actions := by
  induction actions generalizing state with
  | nil => rfl
  | cons action rest ih =>
    rw [List.map_cons, collect, collect]
    congr 1
    funext next
    rw [ih next]
    rfl

theorem meets_execute_map {ok : σ → α → Prop} :
    Meets (execute step undefinedAt) (Event.onActions ok True) state (actions.map .act) ↔
      Meets step ok state actions := by
  induction actions generalizing state with
  | nil => exact Iff.rfl
  | cons action rest ih => exact and_congr_right fun _ ↦ forall₂_congr fun _ _ ↦ ih

theorem throughout_execute_map {P : σ → Prop} :
    Throughout (execute step undefinedAt) P state (actions.map .act) ↔ Throughout step P state actions := by
  induction actions generalizing state with
  | nil => exact Iff.rfl
  | cons action rest ih => exact and_congr_right fun _ ↦ forall₂_congr fun _ _ ↦ ih

/-- Under an invariant that rules undefined statements out, an execution is a run. -/
theorem exists_actions_of_execute {ok : σ → α → Prop} {I : σ → Prop}
    (hstep : ∀ state action next, I state → ok state action → step state action = some next → I next)
    (hdefined : ∀ state agent, I state → undefinedAt state agent = false) {events : List (Event σ α ι)}
    (hok : Meets (execute step undefinedAt) (Event.onActions ok True) state events) (hI : I state)
    (hrun : run (execute step undefinedAt) state events = some final) :
    ∃ actions : List α, events = actions.map .act := by
  induction events generalizing state with
  | nil => exact ⟨[], rfl⟩
  | cons event rest ih =>
    obtain ⟨next, hnext, hrest⟩ := run_cons_some hrun
    cases event with
    | act action =>
      obtain ⟨actions, rfl⟩ := ih (hok.2 next hnext) (hstep state action next hI hok.1 hnext) hrest
      exact ⟨action :: actions, rfl⟩
    | anything agent claimed =>
      rw [execute, hdefined state agent hI] at hnext
      cases hnext

end TinyReactor.Transition
