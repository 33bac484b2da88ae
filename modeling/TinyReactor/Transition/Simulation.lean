import TinyReactor.Transition.Runs

/-!
# Simulations between systems that emit events

An abstract system is a relation whose steps may carry an event; what an execution shows is the list
of its events. Two ways to transfer an execution from one system to another: forwards, when each step
can be answered as it happens, and backwards, when the answer to a step depends on what comes later.
-/

namespace TinyReactor.Transition

variable {σ τ ε α : Type*}

/-- Finite executions with the events they show. -/
inductive Exec (Step : σ → Option ε → σ → Prop) : σ → List ε → σ → Prop
  | refl (state : σ) : Exec Step state [] state
  | step {state next final : σ} {label : Option ε} {events : List ε} (hstep : Step state label next)
      (hrest : Exec Step next events final) : Exec Step state (label.toList ++ events) final

variable {Step : σ → Option ε → σ → Prop} {Step' : τ → Option ε → τ → Prop} {state middle final : σ}

theorem Exec.single {label : Option ε} (h : Step state label final) : Exec Step state label.toList final := by
  have hexec := Exec.step h (.refl final)
  rwa [List.append_nil] at hexec

theorem Exec.trans {first second : List ε} (hfirst : Exec Step state first middle)
    (hsecond : Exec Step middle second final) : Exec Step state (first ++ second) final := by
  induction hfirst with
  | refl => exact hsecond
  | step hstep _ ih =>
    rw [List.append_assoc]
    exact .step hstep (ih hsecond)

/-- Executions transferred step by step from the end: every abstract state that matches the end of a
step has a predecessor that matches its beginning. -/
theorem Exec.backward {R : σ → τ → Prop}
    (hsim : ∀ state label next target', R next target' → Step state label next →
      ∃ target, Exec Step' target label.toList target' ∧ R state target)
    {events : List ε} (h : Exec Step state events final) {target' : τ} (hR : R final target') :
    ∃ target, Exec Step' target events target' ∧ R state target := by
  induction h with
  | refl => exact ⟨target', .refl target', hR⟩
  | step hstep _ ih =>
    obtain ⟨between, hrest, hbetween⟩ := ih hR
    obtain ⟨target, hfirst, htarget⟩ := hsim _ _ _ between hbetween hstep
    exact ⟨target, hfirst.trans hrest, htarget⟩

/-- What every step preserves, the events shown so far included, holds at the end of every execution. -/
theorem Exec.invariant {I : List ε → σ → Prop}
    (hstep : ∀ shown state label next, I shown state → Step state label next → I (shown ++ label.toList) next)
    {events : List ε} (h : Exec Step state events final) (shown : List ε) (hI : I shown state) :
    I (shown ++ events) final := by
  induction h generalizing shown with
  | refl => rwa [List.append_nil]
  | step hnext _ ih =>
    rw [← List.append_assoc]
    exact ih _ (hstep shown _ _ _ hI hnext)

/-- Runs of a step function that records its events, transferred forwards. -/
theorem run_forward {step : σ → α → Option σ} {history : σ → List ε} {R : σ → τ → Prop}
    (hsim : ∀ state action next target, R state target → step state action = some next →
      ∃ events target', history next = history state ++ events ∧ Exec Step' target events target' ∧ R next target')
    {actions : List α} {target : τ} (hrun : run step state actions = some final)
    (hstart : history state = []) (hR : R state target) :
    ∃ target', Exec Step' target (history final) target' ∧ R final target' := by
  refine run_invariant (I := fun visited ↦ ∃ target', Exec Step' target (history visited) target' ∧ R visited target')
    ?_ ⟨target, hstart ▸ .refl target, hR⟩ hrun
  intro visited action next hvisited hstep
  obtain ⟨between, hexec, hbetween⟩ := hvisited
  obtain ⟨events, target', hhistory, hmore, htarget'⟩ := hsim visited action next between hbetween hstep
  exact ⟨target', hhistory ▸ hexec.trans hmore, htarget'⟩

/-- A refined step function whose every step is a step of the coarser one with the same action, or none at all:
its runs are runs of the coarser one, with some actions left out. -/
theorem exists_run_of_refines {step : σ → α → Option σ} {step' : τ → α → Option τ} {R : σ → τ → Prop}
    (hsim : ∀ state action next target, R state target → step state action = some next →
      R next target ∨ ∃ target', step' target action = some target' ∧ R next target')
    {actions : List α} {target : τ} (hrun : run step state actions = some final) (hR : R state target) :
    ∃ actions', actions'.Sublist actions ∧ ∃ target', run step' target actions' = some target' ∧ R final target' := by
  induction actions generalizing state target with
  | nil =>
    obtain rfl : state = final := by simpa using hrun
    exact ⟨[], .slnil, target, rfl, hR⟩
  | cons action rest ih =>
    obtain ⟨next, hnext, hrest⟩ := run_cons_some hrun
    rcases hsim state action next target hR hnext with hstutter | ⟨middle, hmiddle, hmoved⟩
    · obtain ⟨actions', hsub, target', hrun', hfinal⟩ := ih hrest hstutter
      exact ⟨actions', hsub.cons action, target', hrun', hfinal⟩
    · obtain ⟨actions', hsub, target', hrun', hfinal⟩ := ih hrest hmoved
      refine ⟨action :: actions', hsub.cons_cons action, target', ?_, hfinal⟩
      rw [run_cons, hmiddle, Option.bind_some, hrun']

end TinyReactor.Transition
