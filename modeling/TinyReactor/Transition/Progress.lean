import Mathlib.Algebra.GroupWithZero.Nat
import TinyReactor.Transition.Runs

/-!
# Bounded progress of one thread

A thread makes progress under every schedule of the others when it can always take its next step and needs
only so many steps of its own. Both are said here of finite schedules, so that no fairness is involved: a
schedule has passed the goal, or it has given the thread too few steps and the thread is not stuck. The rule
is a rank that the thread's own steps lower and that nobody else can raise.
-/

namespace TinyReactor.Transition

variable {σ α : Type*} (step : σ → α → Option σ) (ok : σ → α → Prop) (own : α → Bool)

/-- The schedule has passed a state of `Q`, or the thread whose actions are `own` has taken fewer than `bound`
steps and can take another one. -/
def Progressed (bound : ℕ) (Q : σ → Prop) (state : σ) (schedule : List α) (final : σ) : Prop :=
  (∃ first rest middle, schedule = first ++ rest ∧ run step state first = some middle ∧ Q middle) ∨
  (countSteps step (fun _ action ↦ own action) state schedule < bound ∧
    ∃ action, own action = true ∧ ok final action ∧ (step final action).isSome = true)

/-- Every schedule whose steps meet `ok` makes progress towards `Q`. -/
def Within (bound : ℕ) (Q : σ → Prop) (state : σ) : Prop :=
  ∀ schedule final, Meets step ok state schedule → run step state schedule = some final →
    Progressed step ok own bound Q state schedule final

variable {step ok own} {Q : σ → Prop}

theorem Within.mono {bound bound' : ℕ} {state : σ} (h : Within step ok own bound Q state) (hle : bound ≤ bound') :
    Within step ok own bound' Q state := by
  intro schedule final hmeets hrun
  obtain hpassed | ⟨hcount, hready⟩ := h schedule final hmeets hrun
  · exact .inl hpassed
  · exact .inr ⟨Nat.lt_of_lt_of_le hcount hle, hready⟩

theorem Within.imp {bound : ℕ} {Q' : σ → Prop} {state : σ} (h : Within step ok own bound Q state)
    (hQ : ∀ state, Q state → Q' state) : Within step ok own bound Q' state := by
  intro schedule final hmeets hrun
  obtain ⟨first, rest, middle, hsplit, hfirst, hmiddle⟩ | hwaiting := h schedule final hmeets hrun
  · exact .inl ⟨first, rest, middle, hsplit, hfirst, hQ middle hmiddle⟩
  · exact .inr hwaiting

theorem Within.of_goal {bound : ℕ} {state : σ} (hQ : Q state) : Within step ok own bound Q state :=
  fun schedule _ _ _ ↦ .inl ⟨[], schedule, state, rfl, rfl, hQ⟩

theorem Progressed.cons {bound bound' : ℕ} {state next final : σ} {action : α} {schedule : List α}
    (h : Progressed step ok own bound Q next schedule final) (hnext : step state action = some next)
    (hle : bound + (own action).toNat ≤ bound') :
    Progressed step ok own bound' Q state (action :: schedule) final := by
  obtain ⟨first, rest, middle, rfl, hfirst, hQ⟩ | ⟨hcount, hready⟩ := h
  · refine .inl ⟨action :: first, rest, middle, rfl, ?_, hQ⟩
    rw [run_cons, hnext, Option.bind_some, hfirst]
  · refine .inr ⟨?_, hready⟩
    rw [countSteps, hnext, Option.elim_some]
    omega

/-- The rule of ranks: `P rank` holds until the goal, the thread's own steps lower the rank, and the steps of
the others leave it as it is. -/
theorem within_of_rank {P : ℕ → σ → Prop}
    (hready : ∀ rank state, P rank state →
      0 < rank ∧ ∃ action, own action = true ∧ ok state action ∧ (step state action).isSome = true)
    (hown : ∀ rank state action next, P rank state → own action = true → ok state action →
      step state action = some next → Q next ∨ ∃ rank' < rank, P rank' next)
    (hother : ∀ rank state action next, P rank state → own action = false → ok state action →
      step state action = some next → P rank next)
    {rank : ℕ} {state : σ} (hP : P rank state) : Within step ok own rank Q state := by
  intro schedule final hmeets hrun
  induction schedule generalizing state rank with
  | nil =>
    obtain rfl : state = final := by simpa using hrun
    exact .inr (hready rank state hP)
  | cons action schedule ih =>
    obtain ⟨next, hnext, hrest⟩ := run_cons_some hrun
    have hmeets' := hmeets.2 next hnext
    cases howner : own action with
    | true =>
      obtain hQ | ⟨rank', hlt, hP'⟩ := hown rank state action next hP howner hmeets.1 hnext
      · refine .inl ⟨[action], schedule, next, rfl, ?_, hQ⟩
        rw [run_cons, hnext, Option.bind_some, run_nil]
      · apply (ih hP' hmeets' hrest).cons hnext
        rw [howner, Bool.toNat_true]
        exact hlt
    | false =>
      apply (ih (hother rank state action next hP howner hmeets.1 hnext) hmeets' hrest).cons hnext
      rw [howner, Bool.toNat_false]
      exact Nat.le_refl rank

/-- The same for a measure of the state that is zero at the goal. -/
theorem within_of_measure {I : σ → Prop} {m : σ → ℕ}
    (hready : ∀ state, I state → 0 < m state →
      ∃ action, own action = true ∧ ok state action ∧ (step state action).isSome = true)
    (hown : ∀ state action next, I state → own action = true → ok state action → step state action = some next →
      I next ∧ m next < m state)
    (hother : ∀ state action next, I state → own action = false → ok state action → step state action = some next →
      I next ∧ (0 < m state → 0 < m next) ∧ m next ≤ m state)
    {state : σ} (hI : I state) :
    Within step ok own (m state) (fun state ↦ I state ∧ m state = 0) state := by
  by_cases hpos : 0 < m state
  · refine within_of_rank (P := fun rank state ↦ I state ∧ 0 < m state ∧ m state ≤ rank) ?_ ?_ ?_
      ⟨hI, hpos, Nat.le_refl _⟩
    · rintro rank state ⟨hI, hpos, hle⟩
      exact ⟨Nat.lt_of_lt_of_le hpos hle, hready state hI hpos⟩
    · rintro rank state action next ⟨hI, hpos, hle⟩ howner hok hnext
      obtain ⟨hI', hless⟩ := hown state action next hI howner hok hnext
      rcases Nat.eq_zero_or_pos (m next) with hzero | hpos'
      · exact .inl ⟨hI', hzero⟩
      · exact .inr ⟨m next, Nat.lt_of_lt_of_le hless hle, hI', hpos', Nat.le_refl _⟩
    · rintro rank state action next ⟨hI, hpos, hle⟩ howner hok hnext
      obtain ⟨hI', hpos', hless⟩ := hother state action next hI howner hok hnext
      exact ⟨hI', hpos' hpos, Nat.le_trans hless hle⟩
  · exact .of_goal ⟨hI, Nat.eq_zero_of_not_pos hpos⟩

/-- The same for the entry of one thread in a table, which nobody else writes. -/
theorem within_of_entry {τ : Type*} {I : σ → Prop} {e : σ → Option τ} {m : τ → ℕ}
    (hI : ∀ state action next, I state → ok state action → step state action = some next → I next)
    (hready : ∀ state entry, I state → e state = some entry → 0 < m entry →
      ∃ action, own action = true ∧ ok state action ∧ (step state action).isSome = true)
    (hown : ∀ state entry action next, I state → e state = some entry → own action = true → ok state action →
      step state action = some next → ∃ moved, e next = some moved ∧ m moved < m entry)
    (hother : ∀ state entry action next, I state → e state = some entry → own action = false → ok state action →
      step state action = some next → e next = some entry)
    {state : σ} {entry : τ} (hstate : I state) (hentry : e state = some entry) :
    Within step ok own (m entry) (fun state ↦ ∃ entry, e state = some entry ∧ m entry = 0) state := by
  have hmeasure {state : σ} {entry : τ} (hentry : e state = some entry) : (e state).elim 0 m = m entry := by
    rw [hentry, Option.elim_some]
  rw [← hmeasure hentry]
  refine Within.imp (within_of_measure (m := fun state ↦ (e state).elim 0 m)
    (I := fun state ↦ I state ∧ ∃ entry, e state = some entry) ?_ ?_ ?_ ⟨hstate, entry, hentry⟩) ?_
  · rintro state ⟨hstate, entry, hentry⟩ hpos
    exact hready state entry hstate hentry (hmeasure hentry ▸ hpos)
  · rintro state action next ⟨hstate, entry, hentry⟩ howner hok hnext
    obtain ⟨moved, hmoved, hless⟩ := hown state entry action next hstate hentry howner hok hnext
    refine ⟨⟨hI state action next hstate hok hnext, moved, hmoved⟩, ?_⟩
    rw [hmeasure hentry, hmeasure hmoved]
    exact hless
  · rintro state action next ⟨hstate, entry, hentry⟩ howner hok hnext
    have hsame := hother state entry action next hstate hentry howner hok hnext
    refine ⟨⟨hI state action next hstate hok hnext, entry, hsame⟩, ?_⟩
    rw [hmeasure hentry, hmeasure hsame]
    exact ⟨id, Nat.le_refl _⟩
  · rintro state ⟨⟨-, entry, hentry⟩, hzero⟩
    exact ⟨entry, hentry, hmeasure hentry ▸ hzero⟩

/-- The rule of potentials: a step of kind `p` is paid for by the potential `m`, and a step of kind `d` may raise it by
`price`. -/
theorem countSteps_le_of_potential {p d : σ → α → Bool} (price : ℕ) {I : σ → Prop} {m : σ → ℕ}
    (hstep : ∀ state action next, I state → ok state action → step state action = some next →
      I next ∧ m next + (p state action).toNat ≤ m state + price * (d state action).toNat)
    {state final : σ} {actions : List α} (hok : Meets step ok state actions) (hI : I state)
    (hrun : run step state actions = some final) :
    m final + countSteps step p state actions ≤ m state + price * countSteps step d state actions := by
  induction actions generalizing state with
  | nil =>
    obtain rfl : state = final := by simpa using hrun
    exact Nat.le_refl _
  | cons action rest ih =>
    obtain ⟨next, hnext, hrest⟩ := run_cons_some hrun
    obtain ⟨hI', hpaid⟩ := hstep state action next hI hok.1 hnext
    have hlater := ih (hok.2 next hnext) hI' hrest
    have hp : countSteps step p state (action :: rest) = (p state action).toNat + countSteps step p next rest := by
      rw [countSteps, hnext, Option.elim_some]
    have hd : countSteps step d state (action :: rest) = (d state action).toNat + countSteps step d next rest := by
      rw [countSteps, hnext, Option.elim_some]
    rw [hp, hd, Nat.mul_add]
    omega

/-- The same when an action brings the credit for the potential it raises. -/
theorem countSteps_le_of_credit {p : σ → α → Bool} {I : σ → Prop} {m : σ → ℕ} {c : α → ℕ}
    (hstep : ∀ state action next, I state → step state action = some next →
      I next ∧ m next + (p state action).toNat ≤ m state + c action)
    {state final : σ} {actions : List α} (hI : I state) (hrun : run step state actions = some final) :
    m final + countSteps step p state actions ≤ m state + (actions.map c).sum := by
  induction actions generalizing state with
  | nil =>
    obtain rfl : state = final := by simpa using hrun
    exact Nat.le_refl _
  | cons action rest ih =>
    obtain ⟨next, hnext, hrest⟩ := run_cons_some hrun
    obtain ⟨hI', hpaid⟩ := hstep state action next hI hnext
    have hlater := ih hI' hrest
    rw [countSteps, hnext, Option.elim_some, List.map_cons, List.sum_cons]
    omega

/-- Every step uses up a measure, which is raised only by what is credited. -/
theorem length_add_le_of_credit {I : σ → Prop} {m c : σ → ℕ}
    (hstep : ∀ state action next, I state → step state action = some next →
      I next ∧ m next + 1 + c state ≤ m state + c next)
    {state final : σ} {actions : List α} (hI : I state) (hrun : run step state actions = some final) :
    m final + actions.length + c state ≤ m state + c final := by
  induction actions generalizing state with
  | nil =>
    obtain rfl : state = final := by simpa using hrun
    exact Nat.le_refl _
  | cons action rest ih =>
    obtain ⟨next, hnext, hrest⟩ := run_cons_some hrun
    obtain ⟨hI', hpaid⟩ := hstep state action next hI hnext
    have hlater := ih hI' hrest
    rw [List.length_cons]
    omega

end TinyReactor.Transition
