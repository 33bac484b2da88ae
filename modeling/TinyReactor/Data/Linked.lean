import Mathlib.Data.List.Basic

/-!
# Singly linked lists in a store

Cells have names, and `next` reads the pointer in a cell: there is no such cell, the pointer is null, or it
is the name of another cell. A list of names is linked when each cell points to the one after it and the
last one to null. Following the pointers from its first cell then visits exactly the list.
-/

namespace TinyReactor.Data

variable {ι : Type*} (next : ι → Option (Option ι))

/-- The cells visited from a pointer on until null is met, in at most `fuel` rounds. -/
def follow : ℕ → Option ι → Option (List ι)
  | _, none => some []
  | 0, some _ => none
  | fuel + 1, some cell => (next cell).bind fun after ↦ (follow fuel after).map (cell :: ·)

/-- The second cell is met on the way from the first. -/
inductive Reaches : ι → ι → Prop
  | refl (cell : ι) : Reaches cell cell
  | step {cell after last : ι} (hnext : next cell = some (some after)) (h : Reaches after last) : Reaches cell last

/-- Each cell points to the one after it, and the last one to null. -/
def Linked (cells : List ι) : Prop :=
  ∀ (place : ℕ) (cell : ι), cells[place]? = some cell → next cell = some cells[place + 1]?

variable {next} {cell last : ι} {cells : List ι}

theorem Linked.head (h : Linked next (cell :: cells)) : next cell = some cells.head? := by
  rw [List.head?_eq_getElem?]
  exact h 0 cell rfl

theorem Linked.tail (h : Linked next (cell :: cells)) : Linked next cells :=
  fun place other hplace ↦ h (place + 1) other hplace

theorem Linked.drop (h : Linked next cells) (count : ℕ) : Linked next (cells.drop count) := by
  intro place other hplace
  rw [List.getElem?_drop] at hplace ⊢
  exact h (count + place) other hplace

theorem follow_of_linked {fuel : ℕ} (h : Linked next cells) (hfuel : cells.length ≤ fuel) :
    follow next fuel cells.head? = some cells := by
  induction cells generalizing fuel with
  | nil => cases fuel <;> rfl
  | cons cell cells ih =>
    obtain ⟨fuel, rfl⟩ := Nat.exists_eq_succ_of_ne_zero (Nat.ne_of_gt (Nat.zero_lt_of_lt hfuel))
    rw [List.head?_cons, follow, h.head, Option.bind_some, ih h.tail (Nat.le_of_succ_le_succ hfuel)]
    rfl

theorem Reaches.concat {after : ι} (h : Reaches next cell last) (hnext : next last = some (some after)) :
    Reaches next cell after := by
  induction h with
  | refl cell => exact .step hnext (.refl after)
  | step hfirst _ ih => exact .step hfirst (ih hnext)

/-- A pointer that is not null and stays as it is keeps the way. -/
theorem Reaches.mono {next' : ι → Option (Option ι)} (h : Reaches next cell last)
    (hkeeps : ∀ cell after, next cell = some (some after) → next' cell = some (some after)) :
    Reaches next' cell last := by
  induction h with
  | refl cell => exact .refl cell
  | step hnext _ ih => exact .step (hkeeps _ _ hnext) ih

theorem Linked.reaches_iff (h : Linked next (cell :: cells)) : Reaches next cell last ↔ last ∈ cell :: cells := by
  induction cells generalizing cell with
  | nil =>
    rw [List.mem_singleton]
    refine ⟨fun hreaches ↦ ?_, ?_⟩
    · cases hreaches with
      | refl => rfl
      | step hnext => cases h.head.symm.trans hnext
    · rintro rfl
      exact .refl last
  | cons after rest ih =>
    rw [List.mem_cons, ← ih h.tail]
    refine ⟨fun hreaches ↦ ?_, ?_⟩
    · cases hreaches with
      | refl => exact .inl rfl
      | step hnext hrest =>
        cases h.head.symm.trans hnext
        exact .inr hrest
    · rintro (rfl | hrest)
      · exact .refl last
      · exact .step h.head hrest

end TinyReactor.Data
