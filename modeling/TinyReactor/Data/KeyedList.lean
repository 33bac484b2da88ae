import Mathlib.Data.List.Basic
import Mathlib.Data.List.Perm.Basic
import Mathlib.Order.Lattice

/-!
# Ordered association lists

The contents of an ordered map (`std::map`, or any map read in key order) as a list of entries with
strictly increasing keys. Such a list is determined by the map, so two maps are equal exactly when
their lists are.
-/

namespace TinyReactor.Data

variable {κ ν : Type*} [LinearOrder κ]

/-- Insert an entry, or replace the value of its key. -/
def insertKey (key : κ) (value : ν) : List (κ × ν) → List (κ × ν)
  | [] => [(key, value)]
  | entry :: rest =>
      if key < entry.1 then (key, value) :: entry :: rest
      else if key = entry.1 then (key, value) :: rest
      else entry :: insertKey key value rest

/-- Insert the entries one after another. -/
def insertAll (entries : List (κ × ν)) (map : List (κ × ν)) : List (κ × ν) :=
  entries.foldl (fun acc entry ↦ insertKey entry.1 entry.2 acc) map

/-- Keys strictly increase. -/
def Ordered (map : List (κ × ν)) : Prop :=
  map.Pairwise fun left right ↦ left.1 < right.1

theorem insertKey_of_forall_lt {key : κ} {map : List (κ × ν)} (h : ∀ entry ∈ map, entry.1 < key)
    (value : ν) : insertKey key value map = map ++ [(key, value)] := by
  induction map with
  | nil => rfl
  | cons entry rest ih =>
    have hlt := h entry (List.mem_cons_self ..)
    rw [insertKey, if_neg hlt.asymm, if_neg hlt.ne', ih fun e he ↦ h e (List.mem_cons_of_mem _ he)]
    rfl

theorem mem_insertKey {key : κ} {value : ν} {map : List (κ × ν)} {entry : κ × ν}
    (h : entry ∈ insertKey key value map) : entry = (key, value) ∨ entry ∈ map := by
  induction map with
  | nil => exact .inl (List.mem_singleton.mp h)
  | cons first rest ih =>
    rw [insertKey] at h
    split at h
    · exact List.mem_cons.mp h
    · split at h
      · rcases List.mem_cons.mp h with rfl | hrest
        · exact .inl rfl
        · exact .inr (List.mem_cons_of_mem _ hrest)
      · rcases List.mem_cons.mp h with rfl | hrest
        · exact .inr (List.mem_cons_self ..)
        · rcases ih hrest with heq | hmem
          · exact .inl heq
          · exact .inr (List.mem_cons_of_mem _ hmem)

theorem ordered_insertKey {map : List (κ × ν)} (h : Ordered map) (key : κ) (value : ν) :
    Ordered (insertKey key value map) := by
  induction map with
  | nil => exact List.pairwise_singleton _ _
  | cons first rest ih =>
    obtain ⟨hfirst, hrest⟩ := List.pairwise_cons.mp h
    rw [insertKey]
    split
    · rename_i hlt
      refine List.pairwise_cons.mpr ⟨fun entry hentry ↦ ?_, h⟩
      rcases List.mem_cons.mp hentry with rfl | hmem
      · exact hlt
      · exact hlt.trans (hfirst entry hmem)
    · split
      · rename_i heq
        refine List.pairwise_cons.mpr ⟨fun entry hentry ↦ ?_, hrest⟩
        rw [heq]
        exact hfirst entry hentry
      · rename_i hge hne
        refine List.pairwise_cons.mpr ⟨fun entry hentry ↦ ?_, ih hrest⟩
        rcases mem_insertKey hentry with rfl | hmem
        · exact lt_of_le_of_ne (not_lt.mp hge) (Ne.symm hne)
        · exact hfirst entry hmem

/-- Entries that come in key order are appended. -/
theorem insertAll_of_ordered {entries map : List (κ × ν)} (h : Ordered (map ++ entries)) :
    insertAll entries map = map ++ entries := by
  induction entries generalizing map with
  | nil => simp [insertAll]
  | cons entry rest ih =>
    have hlt : ∀ e ∈ map, e.1 < entry.1 := fun e he ↦
      (List.pairwise_append.mp h).2.2 e he entry (List.mem_cons_self ..)
    rw [insertAll, List.foldl_cons, insertKey_of_forall_lt hlt, ← insertAll, ih]
    · simp
    · simpa using h

/-- Insertions of different keys commute. -/
theorem insertKey_comm {key other : κ} (hne : key ≠ other) (value value' : ν) {map : List (κ × ν)}
    (h : Ordered map) :
    insertKey key value (insertKey other value' map) = insertKey other value' (insertKey key value map) := by
  induction map with
  | nil =>
    rcases lt_or_gt_of_ne hne with hlt | hgt
    · simp [insertKey, hlt, hlt.asymm, hlt.ne']
    · simp [insertKey, hgt, hgt.asymm, hgt.ne']
  | cons first rest ih =>
    have ih := ih (List.pairwise_cons.mp h).2
    rcases lt_trichotomy key first.1 with hk | hk | hk <;>
      rcases lt_trichotomy other first.1 with ho | ho | ho
    all_goals
      simp only [insertKey]
      grind [insertKey]

/-- The order in which entries of different keys are inserted does not matter. -/
theorem insertAll_perm {entries entries' : List (κ × ν)} (hperm : entries.Perm entries')
    (hkeys : entries.Pairwise fun left right ↦ left.1 ≠ right.1) {map : List (κ × ν)} (h : Ordered map) :
    insertAll entries map = insertAll entries' map := by
  induction hperm generalizing map with
  | nil => rfl
  | cons entry hperm ih =>
    exact ih (List.pairwise_cons.mp hkeys).2 (ordered_insertKey h _ _)
  | swap first second rest =>
    have hne : first.1 ≠ second.1 := ((List.pairwise_cons.mp hkeys).1 first (List.mem_cons_self ..)).symm
    simp only [insertAll, List.foldl_cons, insertKey_comm hne _ _ h]
  | trans hfirst hsecond ihfirst ihsecond =>
    rw [ihfirst hkeys h]
    exact ihsecond (hfirst.pairwise hkeys fun h ↦ h.symm) h

theorem perm_insertKey {key : κ} {map : List (κ × ν)} (h : ∀ entry ∈ map, entry.1 ≠ key) (value : ν) :
    (insertKey key value map).Perm ((key, value) :: map) := by
  induction map with
  | nil => rfl
  | cons first rest ih =>
    rw [List.forall_mem_cons] at h
    rw [insertKey, if_neg h.1.symm]
    split
    · rfl
    · exact ((ih h.2).cons first).trans (List.Perm.swap _ _ _)

/-- Insertion of new keys adds the entries. -/
theorem perm_insertAll {entries map : List (κ × ν)}
    (h : (map ++ entries).Pairwise fun left right ↦ left.1 ≠ right.1) :
    (insertAll entries map).Perm (map ++ entries) := by
  induction entries generalizing map with
  | nil => simp [insertAll]
  | cons entry rest ih =>
    have hnew : ∀ e ∈ map, e.1 ≠ entry.1 := fun e he ↦
      (List.pairwise_append.mp h).2.2 e he entry (List.mem_cons_self ..)
    have hmoved : (insertKey entry.1 entry.2 map ++ rest).Perm (map ++ entry :: rest) :=
      ((perm_insertKey hnew entry.2).append_right rest).trans List.perm_middle.symm
    rw [insertAll, List.foldl_cons, ← insertAll]
    exact (ih (hmoved.symm.pairwise h fun h ↦ h.symm)).trans hmoved

theorem ordered_insertAll (entries : List (κ × ν)) {map : List (κ × ν)} (h : Ordered map) :
    Ordered (insertAll entries map) := by
  induction entries generalizing map with
  | nil => exact h
  | cons entry rest ih => exact ih (ordered_insertKey h entry.1 entry.2)

/-- Two maps with the same entries are the same list. -/
theorem eq_of_perm_of_ordered {map map' : List (κ × ν)} (hperm : map.Perm map') (h : Ordered map)
    (h' : Ordered map') : map = map' := by
  refine List.Perm.eq_of_pairwise ?_ h h' hperm
  intro left right _ _ hlt hgt
  exact absurd hgt hlt.asymm

/-! ## Lookup -/

theorem lookup_cons_eq_ite {κ ν : Type*} [DecidableEq κ] (key : κ) (first : κ × ν) (rest : List (κ × ν)) :
    (first :: rest).lookup key = if key = first.1 then some first.2 else rest.lookup key := by
  obtain ⟨firstKey, value⟩ := first
  rw [List.lookup_cons]
  by_cases hkey : key = firstKey
  · rw [if_pos hkey, beq_iff_eq.mpr hkey]
  · rw [if_neg hkey, beq_eq_false_iff_ne.mpr hkey]

theorem lookup_insertKey (key other : κ) (value : ν) (map : List (κ × ν)) :
    (insertKey key value map).lookup other = if other = key then some value else map.lookup other := by
  induction map with
  | nil => exact lookup_cons_eq_ite other (key, value) []
  | cons first rest ih =>
    rw [insertKey]
    split
    · exact lookup_cons_eq_ite other (key, value) _
    · split
      · rename_i heq
        rw [lookup_cons_eq_ite, lookup_cons_eq_ite, ← heq]
        split <;> rfl
      · rename_i hne
        rw [lookup_cons_eq_ite, lookup_cons_eq_ite, ih]
        by_cases hother : other = key
        · rw [if_pos hother, if_neg (hother ▸ hne), if_pos hother]
        · rw [if_neg hother, if_neg hother]

/-- Entries of other keys are not seen. -/
theorem lookup_insertAll_of_forall_ne {key : κ} {entries : List (κ × ν)} (h : ∀ entry ∈ entries, entry.1 ≠ key)
    (map : List (κ × ν)) : (insertAll entries map).lookup key = map.lookup key := by
  induction entries generalizing map with
  | nil => rfl
  | cons entry rest ih =>
    rw [List.forall_mem_cons] at h
    rw [insertAll, List.foldl_cons, ← insertAll, ih h.2, lookup_insertKey, if_neg h.1.symm]

theorem lookup_insertAll {key : κ} {entries : List (κ × ν)}
    (hkeys : entries.Pairwise fun left right ↦ left.1 ≠ right.1) (map : List (κ × ν)) :
    (insertAll entries map).lookup key = (entries.lookup key).or (map.lookup key) := by
  induction entries generalizing map with
  | nil => rfl
  | cons entry rest ih =>
    obtain ⟨hentry, hrest⟩ := List.pairwise_cons.mp hkeys
    rw [insertAll, List.foldl_cons, ← insertAll, lookup_cons_eq_ite]
    by_cases hkey : key = entry.1
    · subst hkey
      rw [lookup_insertAll_of_forall_ne fun other hother ↦ (hentry other hother).symm, lookup_insertKey, if_pos rfl,
        if_pos rfl, Option.some_or]
    · rw [ih hrest, lookup_insertKey, if_neg hkey, if_neg hkey]

/-! ## Values transformed under their keys -/

/-- Transform the values and drop the entries whose value has no image. -/
def filterMapValues {κ ν ν' : Type*} (f : ν → Option ν') (map : List (κ × ν)) : List (κ × ν') :=
  map.filterMap fun entry ↦ (f entry.2).map fun value ↦ (entry.1, value)

section

variable {κ ν ν' ν'' : Type*} {f : ν → Option ν'} {map : List (κ × ν)}

theorem mem_filterMapValues {entry : κ × ν'} :
    entry ∈ filterMapValues f map ↔ ∃ value, (entry.1, value) ∈ map ∧ f value = some entry.2 := by
  obtain ⟨key, image⟩ := entry
  simp only [filterMapValues, List.mem_filterMap, Option.map_eq_some_iff, Prod.mk.injEq, Prod.exists]
  constructor
  · rintro ⟨key', value, hmem, image', himage, rfl, rfl⟩
    exact ⟨value, hmem, himage⟩
  · rintro ⟨value, hmem, himage⟩
    exact ⟨key, value, hmem, image, himage, rfl, rfl⟩

theorem filterMapValues_filterMapValues (g : ν' → Option ν'') :
    filterMapValues g (filterMapValues f map) = filterMapValues (fun value ↦ (f value).bind g) map := by
  rw [filterMapValues, filterMapValues, List.filterMap_filterMap]
  apply List.filterMap_congr
  intro entry _
  simp only
  cases f entry.2 with
  | none => rfl
  | some value => rfl

theorem filterMapValues_some (g : ν → ν') :
    filterMapValues (fun value ↦ some (g value)) map = map.map fun entry ↦ (entry.1, g entry.2) := by
  rw [← List.filterMap_eq_map]
  rfl

theorem filterMapValues_congr {g : ν → Option ν'} (h : ∀ entry ∈ map, f entry.2 = g entry.2) :
    filterMapValues f map = filterMapValues g map := by
  apply List.filterMap_congr
  intro entry hentry
  rw [h entry hentry]

theorem filterMapValues_eq_nil_iff (h : ∀ entry ∈ map, (f entry.2).isSome) :
    filterMapValues f map = [] ↔ map = [] := by
  cases map with
  | nil => exact iff_of_true rfl rfl
  | cons entry rest =>
    obtain ⟨image, himage⟩ := Option.isSome_iff_exists.mp (h entry (List.mem_cons_self ..))
    simp [filterMapValues, himage]

/-- A relation of the keys is kept. -/
theorem pairwise_filterMapValues {r : κ → κ → Prop} (h : map.Pairwise fun left right ↦ r left.1 right.1) :
    (filterMapValues f map).Pairwise fun left right ↦ r left.1 right.1 := by
  refine h.filterMap _ fun left right hlt left' hleft right' hright ↦ ?_
  obtain ⟨_, _, rfl⟩ := Option.map_eq_some_iff.mp hleft
  obtain ⟨_, _, rfl⟩ := Option.map_eq_some_iff.mp hright
  exact hlt

end

section

variable {κ ν ν' : Type*} [DecidableEq κ]

theorem lookup_filter_key (p : κ → Bool) (key : κ) (map : List (κ × ν)) :
    (map.filter fun entry ↦ p entry.1).lookup key = if p key then map.lookup key else none := by
  induction map with
  | nil => split <;> rfl
  | cons first rest ih =>
    rw [List.filter_cons, lookup_cons_eq_ite]
    by_cases hkey : key = first.1
    · subst hkey
      by_cases hp : p first.1 = true
      · rw [if_pos hp, if_pos hp, lookup_cons_eq_ite, if_pos rfl, if_pos rfl]
      · rw [if_neg hp, if_neg hp, ih, if_neg hp]
    · rw [if_neg hkey, ← ih]
      by_cases hp : p first.1 = true
      · rw [if_pos hp, lookup_cons_eq_ite, if_neg hkey]
      · rw [if_neg hp]

theorem lookup_map_key (f : κ → ν → ν') (key : κ) (map : List (κ × ν)) :
    (map.map fun entry ↦ (entry.1, f entry.1 entry.2)).lookup key = (map.lookup key).map (f key) := by
  induction map with
  | nil => rfl
  | cons first rest ih =>
    rw [List.map_cons, lookup_cons_eq_ite, lookup_cons_eq_ite, ih]
    by_cases hkey : key = first.1
    · rw [if_pos hkey, if_pos hkey, hkey]
      rfl
    · rw [if_neg hkey, if_neg hkey]

end

/-- It does not matter whether the values are transformed before or after they are inserted. -/
theorem filterMapValues_insertAll {ν' : Type*} (f : ν → Option ν') {entries : List (κ × ν)}
    (hkeys : entries.Pairwise fun left right ↦ left.1 ≠ right.1) :
    filterMapValues f (insertAll entries []) = insertAll (filterMapValues f entries) [] := by
  have hkeys' : (filterMapValues f entries).Pairwise fun left right ↦ left.1 ≠ right.1 :=
    pairwise_filterMapValues hkeys
  have hperm : (insertAll entries []).Perm entries := perm_insertAll hkeys
  have hperm' : (insertAll (filterMapValues f entries) []).Perm (filterMapValues f entries) := perm_insertAll hkeys'
  apply eq_of_perm_of_ordered
  · exact (hperm.filterMap _).trans hperm'.symm
  · exact pairwise_filterMapValues (ordered_insertAll entries List.Pairwise.nil)
  · exact ordered_insertAll _ List.Pairwise.nil

end TinyReactor.Data
