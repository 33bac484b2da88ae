import Mathlib.Algebra.BigOperators.Group.Finset.Basic
import Mathlib.Algebra.GroupWithZero.Nat
import Mathlib.Data.List.Basic

/-!
# Tables of threads kept as lists

Threads that are created while the program runs are entries of a list: the index is the identity of
the thread, a step replaces its entry, and a new thread is appended. Counting the threads at some
program point is `List.countP`; the lemmas below say how the count moves when one thread moves.
They are stated without subtraction so that `omega` can combine several of them.
-/

namespace TinyReactor.Transition

variable {α : Type*} {table : List α} {index : ℕ} {old new : α}

theorem lt_length_of_getElem? (h : table[index]? = some old) : index < table.length := by
  obtain ⟨hlt, _⟩ := List.getElem?_eq_some_iff.mp h
  exact hlt

theorem getElem?_modify_of_getElem? (h : table[index]? = some old) (f : α → α) (place : ℕ) :
    (table.modify place f)[index]? = some (if place = index then f old else old) := by
  rw [List.getElem?_modify, h]
  rfl

theorem modify_eq_set_of_getElem? (h : table[index]? = some old) (f : α → α) :
    table.modify index f = table.set index (f old) := by
  rw [List.modify_eq_set_getElem?, h]
  rfl

theorem of_getElem?_append_singleton {entry : α} (h : (table ++ [new])[index]? = some entry) :
    table[index]? = some entry ∨ (index = table.length ∧ entry = new) := by
  have hlt := lt_length_of_getElem? h
  rw [List.length_append, List.length_singleton] at hlt
  rcases Nat.lt_or_ge index table.length with hold | hlast
  · exact .inl (by rwa [List.getElem?_append_left hold] at h)
  · rw [List.getElem?_append_right hlast] at h
    exact .inr ⟨by omega, List.mem_singleton.mp (List.mem_of_getElem? h)⟩

theorem toNat_le_countP (p : α → Bool) (h : table[index]? = some old) :
    (p old).toNat ≤ table.countP p := by
  cases hp : p old with
  | false => exact Nat.zero_le _
  | true => exact List.countP_pos_iff.mpr ⟨old, List.mem_of_getElem? h, hp⟩

/-- One thread moving from `old` to `new` moves every count by what the two entries weigh. -/
theorem countP_set_of_getElem? (p : α → Bool) (h : table[index]? = some old) (new : α) :
    (table.set index new).countP p = table.countP p + (p new).toNat - (p old).toNat := by
  have hle := toNat_le_countP p h
  obtain ⟨hlt, rfl⟩ := List.getElem?_eq_some_iff.mp h
  rw [List.countP_set hlt]
  cases hold : p table[index] <;> cases hnew : p new <;> simp_all

theorem countP_append_singleton (p : α → Bool) :
    (table ++ [new]).countP p = table.countP p + (p new).toNat := by
  cases hnew : p new <;> simp [List.countP_append, hnew]

/-- The same for a total of weights. -/
theorem sum_map_set_of_getElem? (f : α → ℕ) (h : table[index]? = some old) (new : α) :
    ((table.set index new).map f).sum + f old = (table.map f).sum + f new := by
  induction table generalizing index with
  | nil => simp at h
  | cons head tail ih =>
    cases index with
    | zero =>
      obtain rfl : head = old := by simpa using h
      simp only [List.set_cons_zero, List.map_cons, List.sum_cons]
      omega
    | succ index =>
      have hrest := ih (by simpa using h)
      simp only [List.set_cons_succ, List.map_cons, List.sum_cons]
      omega

/-- A total is bounded by the entries that weigh something. -/
theorem sum_map_le_mul_countP {f : α → ℕ} {p : α → Bool} (bound : ℕ)
    (h : ∀ entry, f entry ≤ bound * (p entry).toNat) (table : List α) : (table.map f).sum ≤ bound * table.countP p := by
  induction table with
  | nil => exact Nat.zero_le _
  | cons head tail ih =>
    have hhead := h head
    rw [List.map_cons, List.sum_cons, List.countP_cons, Nat.mul_add]
    cases hp : p head with
    | false =>
      rw [hp, Bool.toNat_false, Nat.mul_zero] at hhead
      simp only [Bool.false_eq_true, if_false]
      omega
    | true =>
      rw [hp, Bool.toNat_true] at hhead
      simp only [if_true]
      omega

/-- A total is that of one entry and that of the others. -/
theorem sum_map_eraseIdx_add (f : α → ℕ) (h : table[index]? = some old) :
    ((table.eraseIdx index).map f).sum + f old = (table.map f).sum := by
  induction table generalizing index with
  | nil => cases h
  | cons head tail ih =>
    cases index with
    | zero =>
      obtain rfl : head = old := Option.some.inj h
      rw [List.eraseIdx_cons_zero, List.map_cons, List.sum_cons, Nat.add_comm]
    | succ index =>
      rw [List.eraseIdx_cons_succ, List.map_cons, List.map_cons, List.sum_cons, List.sum_cons, ← ih h]
      omega

theorem forall_mem_append_singleton {P : α → Prop} (hall : ∀ entry ∈ table, P entry) (hnew : P new) :
    ∀ entry ∈ table ++ [new], P entry := by
  intro entry hmem
  rcases List.mem_append.mp hmem with hold | hlast
  · exact hall entry hold
  · rw [List.mem_singleton.mp hlast]
    exact hnew

/-- Two different threads cannot both be counted when the count is at most one. -/
theorem index_unique_of_countP_le_one {p : α → Bool} (hcount : table.countP p ≤ 1) {i j : ℕ} {a b : α}
    (hi : table[i]? = some a) (hj : table[j]? = some b) (ha : p a = true) (hb : p b = true) : i = j := by
  induction table generalizing i j with
  | nil => simp at hi
  | cons head tail ih =>
    have hzero {k : ℕ} {c : α} (hk : tail[k]? = some c) (hc : p c = true) : 0 < tail.countP p :=
      List.countP_pos_iff.mpr ⟨c, List.mem_of_getElem? hk, hc⟩
    rw [List.countP_cons] at hcount
    cases i with
    | zero =>
      cases j with
      | zero => rfl
      | succ j =>
        obtain rfl : head = a := by simpa using hi
        have := hzero (by simpa using hj) hb
        simp only [ha, if_true] at hcount
        omega
    | succ i =>
      cases j with
      | zero =>
        obtain rfl : head = b := by simpa using hj
        have := hzero (by simpa using hi) ha
        simp only [hb, if_true] at hcount
        omega
      | succ j =>
        have := ih (by omega) (by simpa using hi) (by simpa using hj)
        omega

/-! ## The entry of one thread -/

/-- Whether thread `index` exists and satisfies `p`, as a number. -/
def entryCount (p : α → Bool) (table : List α) (index : ℕ) : ℕ :=
  table[index]?.elim 0 fun entry ↦ (p entry).toNat

theorem entryCount_of_getElem? (p : α → Bool) (h : table[index]? = some old) :
    entryCount p table index = (p old).toNat := by
  rw [entryCount, h, Option.elim_some]

theorem entryCount_le_one (p : α → Bool) : entryCount p table index ≤ 1 := by
  unfold entryCount
  cases table[index]? with
  | none => exact Nat.zero_le 1
  | some entry => exact Bool.toNat_le (p entry)

@[simp] theorem entryCount_set_self (p : α → Bool) (h : table[index]? = some old) :
    entryCount p (table.set index new) index = (p new).toNat := by
  rw [entryCount, List.getElem?_set_self (lt_length_of_getElem? h), Option.elim_some]

@[simp] theorem entryCount_set_of_ne (p : α → Bool) {other : ℕ} (h : index ≠ other) :
    entryCount p (table.set index new) other = entryCount p table other := by
  rw [entryCount, entryCount, List.getElem?_set_ne h]

theorem entryCount_append_self (p : α → Bool) :
    entryCount p (table ++ [new]) table.length = (p new).toNat := by
  simp [entryCount]

theorem entryCount_append_of_ne (p : α → Bool) (h : index ≠ table.length) :
    entryCount p (table ++ [new]) index = entryCount p table index := by
  rcases Nat.lt_or_gt_of_ne h with hlt | hgt
  · rw [entryCount, entryCount, List.getElem?_append_left hlt]
  · have hlength : (table ++ [new]).length ≤ index := by
      rw [List.length_append, List.length_singleton]
      exact hgt
    rw [entryCount, entryCount, List.getElem?_eq_none hlength, List.getElem?_eq_none (Nat.le_of_lt hgt)]

/-! ## Threads kept as a function -/

/-- What a thread keeps when it moves, every thread keeps. -/
theorem apply_update_of_eq {ι β : Type*} [DecidableEq ι] (f : α → β) {entries : ι → α} {thread : ι}
    (h : f new = f (entries thread)) (other : ι) : f (Function.update entries thread new other) = f (entries other) := by
  rcases eq_or_ne other thread with rfl | hne
  · rw [Function.update_self, h]
  · rw [Function.update_of_ne hne]

/-- Nothing comes to be held by two threads when one moves and nobody else holds what it holds then. -/
theorem holder_unique_update {ι τ : Type*} [DecidableEq ι] {H : α → τ → Prop} {entries : ι → α} {thread : ι}
    (h : ∀ holder other held, holder ≠ thread → other ≠ thread → H (entries holder) held →
      H (entries other) held → holder = other)
    (hnew : ∀ held, H new held → ∀ other, other ≠ thread → ¬H (entries other) held)
    {holder other : ι} {held : τ} (hholder : H (Function.update entries thread new holder) held)
    (hother : H (Function.update entries thread new other) held) : holder = other := by
  by_cases hne : holder = thread <;> by_cases hne' : other = thread
  · rw [hne, hne']
  · rw [hne, Function.update_self] at hholder
    rw [Function.update_of_ne hne'] at hother
    exact absurd hother (hnew held hholder other hne')
  · rw [Function.update_of_ne hne] at hholder
    rw [hne', Function.update_self] at hother
    exact absurd hholder (hnew held hother holder hne)
  · rw [Function.update_of_ne hne] at hholder
    rw [Function.update_of_ne hne'] at hother
    exact h holder other held hne hne' hholder hother

/-- A total over a set of threads, when the entry of one of them is replaced. -/
theorem sum_update_add {ι : Type*} [DecidableEq ι] (f : α → ℕ) {threads : Finset ι} {entries : ι → α} {thread : ι}
    (hthread : thread ∈ threads) (new : α) :
    ∑ other ∈ threads, f (Function.update entries thread new other) + f (entries thread) =
      ∑ other ∈ threads, f (entries other) + f new := by
  have hothers : ∑ other ∈ threads.erase thread, f (Function.update entries thread new other) =
      ∑ other ∈ threads.erase thread, f (entries other) := by
    apply Finset.sum_congr rfl
    intro other hother
    rw [Function.update_of_ne (Finset.ne_of_mem_erase hother)]
  rw [← Finset.add_sum_erase threads _ hthread, ← Finset.add_sum_erase threads (fun other ↦ f (entries other)) hthread,
    hothers, Function.update_self]
  omega

end TinyReactor.Transition
