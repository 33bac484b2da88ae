import Mathlib.Logic.Function.Basic

/-!
# Mutexes

A mutex is the identity of the thread that has locked it, if one has. Which program points stand between
lock and unlock is a predicate on program points. Two facts relate the two, and each step of one thread
has to be looked at only once for both: a thread inside is the owner, so two threads are never inside
together, and the owner is inside, so that no thread can wait for itself.
-/

namespace TinyReactor.Transition

variable {τ ρ : Type*}

/-- The thread leaves the mutex alone, locks it when it is free, or unlocks it when it is inside. -/
def LockMove (thread : τ) (owner owner' : Option τ) (inside inside' : Bool) : Prop :=
  (owner' = owner ∧ inside' = inside) ∨ (owner = none ∧ owner' = some thread ∧ inside' = true) ∨
    (inside = true ∧ owner' = none ∧ inside' = false)

/-- Who is inside is the owner. -/
def Exclusive (holds : ρ → Bool) (pcs : τ → ρ) (owner : Option τ) : Prop :=
  ∀ thread, holds (pcs thread) = true → owner = some thread

/-- The owner is inside. -/
def OwnerInside (holds : ρ → Bool) (pcs : τ → ρ) (owner : Option τ) : Prop :=
  ∀ thread, owner = some thread → holds (pcs thread) = true

variable {holds : ρ → Bool} {pcs : τ → ρ} {owner owner' : Option τ} {thread other : τ} {pc' : ρ}

theorem Exclusive.unique (h : Exclusive holds pcs owner) (hthread : holds (pcs thread) = true)
    (hother : holds (pcs other) = true) : thread = other :=
  Option.some.inj ((h thread hthread).symm.trans (h other hother))

variable [DecidableEq τ]

theorem Exclusive.move (h : Exclusive holds pcs owner)
    (hmove : LockMove thread owner owner' (holds (pcs thread)) (holds pc')) :
    Exclusive holds (Function.update pcs thread pc') owner' := by
  intro other
  rcases eq_or_ne other thread with rfl | hne
  · rw [Function.update_self]
    intro hinside
    rcases hmove with ⟨rfl, hsame⟩ | ⟨-, howner, -⟩ | ⟨-, -, houtside⟩
    · exact h other (hsame ▸ hinside)
    · exact howner
    · rw [houtside] at hinside
      cases hinside
  · rw [Function.update_of_ne hne]
    intro hinside
    rcases hmove with ⟨rfl, -⟩ | ⟨hfree, -, -⟩ | ⟨hleaves, -, -⟩
    · exact h other hinside
    · cases hfree.symm.trans (h other hinside)
    · exact absurd (h.unique hinside hleaves) hne

/-- A thread that goes away without unlocking. -/
theorem Exclusive.leave (h : Exclusive holds pcs owner) (houtside : holds pc' = false) :
    Exclusive holds (Function.update pcs thread pc') owner := by
  intro other
  rcases eq_or_ne other thread with rfl | hne
  · rw [Function.update_self, houtside]
    rintro ⟨⟩
  · rw [Function.update_of_ne hne]
    exact h other

theorem OwnerInside.move (h : OwnerInside holds pcs owner)
    (hmove : LockMove thread owner owner' (holds (pcs thread)) (holds pc')) :
    OwnerInside holds (Function.update pcs thread pc') owner' := by
  intro other howner
  rcases hmove with ⟨rfl, hsame⟩ | ⟨-, hlocked, hinside⟩ | ⟨-, hfree, -⟩
  · rcases eq_or_ne other thread with rfl | hne
    · rw [Function.update_self, hsame]
      exact h other howner
    · rw [Function.update_of_ne hne]
      exact h other howner
  · obtain rfl : thread = other := Option.some.inj (hlocked.symm.trans howner)
    rw [Function.update_self, hinside]
  · cases hfree.symm.trans howner

end TinyReactor.Transition
