import Mathlib.Logic.Function.Iterate
import TinyReactor.Wire.Inverse

/-!
# Repeated conversion

A payload that travels from task to message and back loses its null and binary members, its arrays become objects,
and an object that lost all its members is null, which the next journey loses in turn. The losses work their way up
one level for each journey, so after as many as the value has levels nothing changes any more.
-/

namespace TinyReactor.Wire

open Data

/-- One journey of a payload. -/
def roundTrip (j : Json) : Json := structToJson (jsonToStruct j)

namespace Json

/-! ## Levels and pruning -/

mutual

/-- The number of nested array and object levels. -/
def depth : Json → ℕ
  | .array items => depthItems items + 1
  | .object members => depthMembers members + 1
  | _ => 0

def depthItems : List Json → ℕ
  | [] => 0
  | item :: items => max item.depth (depthItems items)

def depthMembers : List (String × Json) → ℕ
  | [] => 0
  | (_, value) :: members => max value.depth (depthMembers members)

end

/-- An object, unless there is nothing in it. -/
def nonEmpty? (members : List (String × Json)) : Option Json :=
  if members = [] then none else some (.object members)

mutual

/-- What pruning leaves of a member value, if anything. -/
def pruneMember : Json → Option Json
  | .null | .binary _ => none
  | .array items => nonEmpty? (insertAll (pruneItems 0 items) [])
  | .object members => nonEmpty? (pruneMembers members)
  | value => some value

/-- What is left of the items of an array, keyed by their indices. -/
def pruneItems (index : ℕ) : List Json → List (String × Json)
  | [] => []
  | item :: items =>
      (item.pruneMember.map fun value ↦ (toString index, value)).toList ++ pruneItems (index + 1) items

def pruneMembers : List (String × Json) → List (String × Json)
  | [] => []
  | (key, value) :: members => (value.pruneMember.map fun value ↦ (key, value)).toList ++ pruneMembers members

end

/-- The whole value pruned: null if nothing is left, and any other primitive gets the empty key. -/
def prune : Json → Json
  | .null | .binary _ => .null
  | .array items => (pruneMember (.array items)).getD .null
  | .object members => (pruneMember (.object members)).getD .null
  | value => .object [("", value)]

/-! ## Entries -/

/-- The items of an array under their indices. -/
def indexed (index : ℕ) : List Json → List (String × Json)
  | [] => []
  | item :: items => (toString index, item) :: indexed (index + 1) items

/-- The entries of an array or an object, in key order. -/
def children : Json → List (String × Json)
  | .array items => insertAll (indexed 0 items) []
  | .object members => members
  | _ => []

/-- What `items()` iterates over, in key order. -/
def entries : Json → List (String × Json)
  | .null => []
  | .array items => children (.array items)
  | .object members => members
  | value => [("", value)]

/-- Arrays and objects. -/
def IsContainer : Json → Prop
  | .array _ | .object _ => True
  | _ => False

theorem mem_indexed {index : ℕ} {items : List Json} {entry : String × Json} (h : entry ∈ indexed index items) :
    entry.2 ∈ items ∧ ∃ place, index ≤ place ∧ entry.1 = toString place := by
  induction items generalizing index with
  | nil => cases h
  | cons item items ih =>
    rcases List.mem_cons.mp h with rfl | hrest
    · exact ⟨List.mem_cons_self .., index, Nat.le_refl index, rfl⟩
    · obtain ⟨hmem, place, hle, hkey⟩ := ih hrest
      exact ⟨List.mem_cons_of_mem _ hmem, place, Nat.le_of_succ_le hle, hkey⟩

theorem toString_nat_injective {left right : ℕ} (h : toString left = toString right) : left = right := by
  have hdigits : Nat.toDigits 10 left = Nat.toDigits 10 right := by
    rw [← Nat.toList_repr, ← Nat.toList_repr]
    exact congrArg String.toList h
  rw [← Nat.ofDigitChars_ten_toDigits (n := left), hdigits, Nat.ofDigitChars_ten_toDigits]

theorem indexed_keys (index : ℕ) (items : List Json) :
    (indexed index items).Pairwise fun left right ↦ left.1 ≠ right.1 := by
  induction items generalizing index with
  | nil => exact List.Pairwise.nil
  | cons item items ih =>
    refine List.pairwise_cons.mpr ⟨fun entry hentry heq ↦ ?_, ih (index + 1)⟩
    obtain ⟨-, place, hle, hkey⟩ := mem_indexed hentry
    have hplace : index = place := toString_nat_injective (heq.trans hkey)
    omega

theorem mem_children_array {items : List Json} {entry : String × Json} (h : entry ∈ children (.array items)) :
    entry.2 ∈ items := by
  have hperm : (insertAll (indexed 0 items) []).Perm (indexed 0 items) := perm_insertAll (indexed_keys 0 items)
  exact (mem_indexed (hperm.mem_iff.mp h)).1

/-- Induction over the nesting, for arrays and objects alike. -/
theorem children_induction {P : Json → Prop} (h : ∀ j, (∀ entry ∈ children j, P entry.2) → P j) (j : Json) : P j := by
  apply h
  intro entry hentry
  have hsize : sizeOf entry.2 < sizeOf j := by
    cases j with
    | array items =>
      have hmem := List.sizeOf_lt_of_mem (mem_children_array hentry)
      simp only [array.sizeOf_spec]
      omega
    | object members =>
      have hmem : sizeOf entry < sizeOf members := List.sizeOf_lt_of_mem hentry
      obtain ⟨key, value⟩ := entry
      simp only [object.sizeOf_spec, Prod.mk.sizeOf_spec] at hmem ⊢
      omega
    | _ => cases hentry
  exact children_induction h entry.2
termination_by sizeOf j

theorem ordered_children {j : Json} (h : j.WellFormed) : Ordered j.children := by
  cases j with
  | array items => exact ordered_insertAll _ List.Pairwise.nil
  | object members =>
    rw [WellFormed] at h
    exact h.1
  | _ => exact List.Pairwise.nil

theorem wellFormed_children {j : Json} (h : j.WellFormed) {entry : String × Json} (hentry : entry ∈ j.children) :
    entry.2.WellFormed := by
  cases j with
  | array items =>
    rw [WellFormed, itemsWellFormed_iff] at h
    exact h entry.2 (mem_children_array hentry)
  | object members =>
    rw [WellFormed, membersWellFormed_iff] at h
    exact h.2 entry hentry
  | _ => cases hentry

theorem exact_children {j : Json} (h : j.Exact) {entry : String × Json} (hentry : entry ∈ j.children) :
    entry.2.Exact := by
  cases j with
  | array items =>
    rw [Exact, itemsExact_iff] at h
    exact h entry.2 (mem_children_array hentry)
  | object members =>
    rw [Exact, membersExact_iff] at h
    exact h entry hentry
  | _ => cases hentry

theorem depth_le_depthItems {items : List Json} {item : Json} (h : item ∈ items) :
    item.depth ≤ depthItems items := by
  induction items with
  | nil => cases h
  | cons first items ih =>
    rw [depthItems]
    rcases List.mem_cons.mp h with rfl | hrest
    · exact Nat.le_max_left _ _
    · exact Nat.le_trans (ih hrest) (Nat.le_max_right _ _)

theorem depth_le_depthMembers {members : List (String × Json)} {member : String × Json} (h : member ∈ members) :
    member.2.depth ≤ depthMembers members := by
  induction members with
  | nil => cases h
  | cons first members ih =>
    rw [depthMembers]
    rcases List.mem_cons.mp h with rfl | hrest
    · exact Nat.le_max_left _ _
    · exact Nat.le_trans (ih hrest) (Nat.le_max_right _ _)

/-- A child has fewer levels. -/
theorem depth_children {j : Json} {entry : String × Json} (hentry : entry ∈ j.children) :
    entry.2.depth < j.depth := by
  cases j with
  | array items =>
    rw [depth]
    exact Nat.lt_succ_of_le (depth_le_depthItems (mem_children_array hentry))
  | object members =>
    rw [depth]
    exact Nat.lt_succ_of_le (depth_le_depthMembers hentry)
  | _ => cases hentry

theorem depth_pos {j : Json} (h : j.IsContainer) : 0 < j.depth := by
  cases j with
  | array items =>
    rw [depth]
    exact Nat.succ_pos _
  | object members =>
    rw [depth]
    exact Nat.succ_pos _
  | _ => cases h

/-! ## Pruning by entries -/

theorem pruneItems_eq (index : ℕ) (items : List Json) :
    pruneItems index items = filterMapValues pruneMember (indexed index items) := by
  induction items generalizing index with
  | nil => rw [pruneItems]; rfl
  | cons item items ih =>
    rw [pruneItems, ih, indexed, filterMapValues, filterMapValues, List.filterMap_cons]
    cases item.pruneMember with
    | none => rfl
    | some value => rfl

theorem pruneMembers_eq (members : List (String × Json)) :
    pruneMembers members = filterMapValues pruneMember members := by
  induction members with
  | nil => rw [pruneMembers]; rfl
  | cons member members ih =>
    obtain ⟨key, value⟩ := member
    rw [pruneMembers, ih, filterMapValues, filterMapValues, List.filterMap_cons]
    cases value.pruneMember with
    | none => rfl
    | some value => rfl

theorem pruneMember_of_isContainer {j : Json} (h : j.IsContainer) :
    j.pruneMember = nonEmpty? (filterMapValues pruneMember j.children) := by
  cases j with
  | array items =>
    rw [pruneMember, pruneItems_eq, children, filterMapValues_insertAll _ (indexed_keys 0 items)]
  | object members => rw [pruneMember, pruneMembers_eq, children]
  | _ => cases h

theorem nonEmpty?_eq_some {members : List (String × Json)} {j : Json} (h : nonEmpty? members = some j) :
    members ≠ [] ∧ j = .object members := by
  unfold nonEmpty? at h
  split at h
  · cases h
  · rename_i hne
    cases h
    exact ⟨hne, rfl⟩

theorem pruneMember_of_not_isContainer {j left : Json} (h : ¬j.IsContainer) (hleft : j.pruneMember = some left) :
    left = j ∧ j.Faithful := by
  cases j with
  | array items => exact absurd trivial h
  | object members => exact absurd trivial h
  | null => cases hleft
  | binary bytes => cases hleft
  | _ =>
    cases hleft
    exact ⟨rfl, trivial⟩

/-- A member value that a journey brings back. -/
structure Survives (j : Json) : Prop where
  wellFormed : j.WellFormed
  exact : j.Exact
  faithful : j.Faithful

theorem survives_object {members : List (String × Json)} (hne : members ≠ []) (hordered : Ordered members)
    (h : ∀ member ∈ members, member.2.Survives) : Survives (.object members) := by
  constructor
  · rw [WellFormed, membersWellFormed_iff]
    exact ⟨hordered, fun member hmember ↦ (h member hmember).wellFormed⟩
  · rw [Exact, membersExact_iff]
    exact fun member hmember ↦ (h member hmember).exact
  · rw [Faithful, faithfulMembers_iff]
    exact ⟨hne, fun member hmember ↦ (h member hmember).faithful⟩

/-- What pruning leaves of a member value survives. -/
theorem survives_of_pruneMember {j left : Json} (hwf : j.WellFormed) (hexact : j.Exact)
    (hleft : j.pruneMember = some left) : left.Survives := by
  induction j using children_induction generalizing left with
  | h j ih =>
    by_cases hcontainer : j.IsContainer
    · rw [pruneMember_of_isContainer hcontainer] at hleft
      obtain ⟨hne, rfl⟩ := nonEmpty?_eq_some hleft
      refine survives_object hne (pairwise_filterMapValues (ordered_children hwf)) fun member hmember ↦ ?_
      obtain ⟨value, hvalue, hpruned⟩ := mem_filterMapValues.mp hmember
      exact ih _ hvalue (wellFormed_children hwf hvalue) (exact_children hexact hvalue) hpruned
    · obtain ⟨rfl, hfaithful⟩ := pruneMember_of_not_isContainer hcontainer hleft
      exact ⟨hwf, hexact, hfaithful⟩

/-- An object, or null when there is nothing in it. -/
def ofMembers (members : List (String × Json)) : Json := if members = [] then .null else .object members

theorem nonEmpty?_getD (members : List (String × Json)) : (nonEmpty? members).getD .null = ofMembers members := by
  unfold nonEmpty? ofMembers
  split <;> rfl

theorem prune_eq (j : Json) : j.prune = ofMembers (filterMapValues pruneMember j.entries) := by
  cases j with
  | null => rfl
  | binary bytes => rfl
  | array items =>
    have hcontainer : IsContainer (.array items) := trivial
    rw [prune, pruneMember_of_isContainer hcontainer, nonEmpty?_getD, entries]
  | object members =>
    have hcontainer : IsContainer (.object members) := trivial
    rw [prune, pruneMember_of_isContainer hcontainer, nonEmpty?_getD, entries, children]
  | _ => rfl

/-- `items()` of an array or an object are its children; of another value there is at most one, the value itself. -/
theorem mem_entries {j : Json} {entry : String × Json} (h : entry ∈ j.entries) :
    entry ∈ j.children ∨ entry = ("", j) ∧ ¬j.IsContainer := by
  cases j with
  | null => cases h
  | array items => exact .inl h
  | object members => exact .inl h
  | _ => exact .inr ⟨List.mem_singleton.mp h, id⟩

theorem ordered_entries {j : Json} (h : j.WellFormed) : Ordered j.entries := by
  cases j with
  | null => exact List.Pairwise.nil
  | array items => exact ordered_children h
  | object members => exact ordered_children h
  | _ => exact List.pairwise_singleton _ _

theorem depth_entries {j : Json} {entry : String × Json} (h : entry ∈ j.entries) :
    entry.2.depth + 1 ≤ max 1 j.depth := by
  rcases mem_entries h with hchild | ⟨rfl, hnot⟩
  · exact Nat.le_trans (depth_children hchild) (Nat.le_max_right _ _)
  · cases j with
    | array items => exact absurd trivial hnot
    | object members => exact absurd trivial hnot
    | _ => exact Nat.le_max_left _ _

/-- The pruned value is a payload that a journey brings back. -/
theorem prune_faithful {j : Json} (hwf : j.WellFormed) (hexact : j.Exact) :
    j.prune.WellFormed ∧ j.prune.Exact ∧ j.prune.FaithfulPayload := by
  have hmembers : ∀ member ∈ filterMapValues pruneMember j.entries, member.2.Survives := by
    intro member hmember
    obtain ⟨value, hvalue, hpruned⟩ := mem_filterMapValues.mp hmember
    rcases mem_entries hvalue with hchild | ⟨heq, -⟩
    · exact survives_of_pruneMember (wellFormed_children hwf hchild) (exact_children hexact hchild) hpruned
    · obtain rfl : value = j := congrArg Prod.snd heq
      exact survives_of_pruneMember hwf hexact hpruned
  rw [prune_eq, ofMembers]
  split
  · exact ⟨trivial, trivial, trivial⟩
  · rename_i hne
    obtain ⟨hwf', hexact', hfaithful⟩ :=
      survives_object hne (pairwise_filterMapValues (ordered_entries hwf)) hmembers
    rw [Faithful] at hfaithful
    exact ⟨hwf', hexact', hfaithful⟩

end Json

/-! ## One journey by entries -/

open Json

theorem insertItems_eq (fields : Struct) (index : ℕ) (items : List Json) :
    insertItems fields index items =
      insertAll ((indexed index items).map fun entry ↦ (entry.1, valueOfJson entry.2)) fields := by
  induction items generalizing fields index with
  | nil => rw [insertItems]; rfl
  | cons item items ih =>
    rw [insertItems, ih]
    rfl

theorem jsonToStruct_eq {j : Json} (h : j.WellFormed) :
    jsonToStruct j = j.entries.map fun entry ↦ (entry.1, valueOfJson entry.2) := by
  cases j with
  | null => rfl
  | array items =>
    rw [jsonToStruct, insertItems_eq, entries, children, ← filterMapValues_some, ← filterMapValues_some,
      filterMapValues_insertAll _ (indexed_keys 0 items)]
  | object members => exact insertMembers_of_ordered (ordered_children h)
  | _ => rfl

/-- A journey brings back what it brings back of the entries. -/
theorem roundTrip_eq {j : Json} (h : j.WellFormed) : roundTrip j = ofMembers (returnedMembers j.entries) := by
  rw [roundTrip, jsonToStruct_eq h, structToJson_of_ordered (ordered_map (ordered_entries h)), keptMembers_map]
  rfl

theorem roundTrip_ofMembers {members : List (String × Json)} (h : Ordered members) :
    roundTrip (ofMembers members) = ofMembers (returnedMembers members) := by
  unfold ofMembers
  split
  · rename_i hnil
    rw [hnil]
    rfl
  · exact structToJson_insertMembers h

/-- What becomes of a member in one journey of the value it belongs to, if it is still there. -/
def journey (member : Option Json) : Option Json := member.bind fun value ↦ jsonOfValue? (valueOfJson value)

/-- The members after some journeys. -/
def membersAfter (journeys : ℕ) (members : List (String × Json)) : List (String × Json) :=
  filterMapValues (fun value ↦ journey^[journeys] (some value)) members

theorem returnedMembers_membersAfter (journeys : ℕ) (members : List (String × Json)) :
    returnedMembers (membersAfter journeys members) = membersAfter (journeys + 1) members := by
  have hstep : ∀ value : Json, (journey^[journeys] (some value)).bind (fun value ↦ jsonOfValue? (valueOfJson value)) =
      journey^[journeys + 1] (some value) := by
    intro value
    rw [Function.iterate_succ_apply']
    rfl
  simp only [membersAfter, ← hstep]
  exact filterMapValues_filterMapValues fun value ↦ jsonOfValue? (valueOfJson value)

theorem ordered_membersAfter {members : List (String × Json)} (h : Ordered members) (journeys : ℕ) :
    Ordered (membersAfter journeys members) := pairwise_filterMapValues h

/-- The journeys of a value are the journeys of its entries. -/
theorem iterate_roundTrip {j : Json} (h : j.WellFormed) (journeys : ℕ) :
    roundTrip^[journeys + 1] j = ofMembers (membersAfter (journeys + 1) j.entries) := by
  induction journeys with
  | zero => exact roundTrip_eq h
  | succ journeys ih =>
    rw [Function.iterate_succ_apply', ih, roundTrip_ofMembers (ordered_membersAfter (ordered_entries h) _),
      returnedMembers_membersAfter]

/-! ## The journeys of a member -/

theorem journey_ofMembers {members : List (String × Json)} (h : Ordered members) :
    journey (some (ofMembers members)) = if members = [] then none else some (ofMembers (returnedMembers members)) := by
  rw [← roundTrip_ofMembers h]
  unfold ofMembers
  split
  · rfl
  · rfl

theorem journey_of_isContainer {j : Json} (h : j.IsContainer) : journey (some j) = some (roundTrip j) := by
  cases j with
  | array items => rfl
  | object members => rfl
  | _ => cases h

theorem entries_of_isContainer {j : Json} (h : j.IsContainer) : j.entries = j.children := by
  cases j with
  | array items => rfl
  | object members => rfl
  | _ => cases h

/-- An array or an object that has lost all its members is lost one journey later. -/
theorem iterate_journey_of_isContainer {j : Json} (hwf : j.WellFormed) (hcontainer : j.IsContainer) (journeys : ℕ) :
    journey^[journeys + 2] (some j) =
      if membersAfter (journeys + 1) j.children = [] then none
      else some (ofMembers (membersAfter (journeys + 2) j.children)) := by
  have hordered := ordered_membersAfter (ordered_children hwf)
  induction journeys with
  | zero =>
    have hfirst : journey (some j) = some (ofMembers (membersAfter 1 j.children)) := by
      rw [journey_of_isContainer hcontainer, ← entries_of_isContainer hcontainer]
      exact congrArg some (roundTrip_eq hwf)
    rw [Function.iterate_succ_apply', Function.iterate_one, hfirst, journey_ofMembers (hordered 1),
      returnedMembers_membersAfter]
  | succ journeys ih =>
    rw [Function.iterate_succ_apply', ih]
    split
    · rename_i hnil
      have hnil' : membersAfter (journeys + 2) j.children = [] := by
        rw [← returnedMembers_membersAfter, hnil]
        rfl
      rw [if_pos hnil']
      rfl
    · rw [journey_ofMembers (hordered _), returnedMembers_membersAfter]

/-- A primitive is lost at once, or it is what it is after one journey. -/
theorem journey_of_not_isContainer {j : Json} (h : ¬j.IsContainer) :
    journey (journey (some j)) = journey (some j) ∧ journey (some j) = journey j.pruneMember := by
  cases j with
  | array items => exact absurd trivial h
  | object members => exact absurd trivial h
  | _ => exact ⟨rfl, rfl⟩

theorem isSome_journey_of_pruneMember {j left : Json} (h : j.pruneMember = some left) :
    (jsonOfValue? (valueOfJson left)).isSome := by
  by_cases hcontainer : j.IsContainer
  · rw [pruneMember_of_isContainer hcontainer] at h
    obtain ⟨-, rfl⟩ := nonEmpty?_eq_some h
    rfl
  · obtain ⟨rfl, hfaithful⟩ := pruneMember_of_not_isContainer hcontainer h
    cases left with
    | null => cases hfaithful
    | binary bytes => cases hfaithful
    | _ => rfl

/-- Pruning, seen through one more journey, which only makes doubles of all numbers. -/
theorem returnedMembers_pruned (members : List (String × Json)) :
    returnedMembers (filterMapValues pruneMember members) =
      filterMapValues (fun value ↦ journey value.pruneMember) members :=
  filterMapValues_filterMapValues fun value ↦ jsonOfValue? (valueOfJson value)

theorem returnedMembers_pruned_eq_nil_iff (members : List (String × Json)) :
    returnedMembers (filterMapValues pruneMember members) = [] ↔ filterMapValues pruneMember members = [] := by
  refine filterMapValues_eq_nil_iff (f := fun value ↦ jsonOfValue? (valueOfJson value)) fun entry hentry ↦ ?_
  obtain ⟨value, -, hpruned⟩ := mem_filterMapValues.mp hentry
  exact isSome_journey_of_pruneMember hpruned

/-- After more journeys than a member has levels, it is what pruning leaves of it. -/
theorem iterate_journey {j : Json} (hwf : j.WellFormed) {journeys : ℕ} (hmany : j.depth < journeys) :
    journey^[journeys] (some j) = journey j.pruneMember := by
  induction j using children_induction generalizing journeys with
  | h j ih =>
    by_cases hcontainer : j.IsContainer
    · have hpos := depth_pos hcontainer
      obtain ⟨earlier, rfl⟩ : ∃ earlier, journeys = earlier + 2 := ⟨journeys - 2, by omega⟩
      -- the members have fewer levels, so they are pruned one journey before
      have hmembers : ∀ later, earlier + 1 ≤ later →
          membersAfter later j.children = returnedMembers (filterMapValues pruneMember j.children) := by
        intro later hlater
        rw [returnedMembers_pruned]
        refine filterMapValues_congr fun entry hentry ↦ ?_
        have hdepth := depth_children hentry
        exact ih entry hentry (wellFormed_children hwf hentry) (by omega)
      have hordered : Ordered (filterMapValues pruneMember j.children) := pairwise_filterMapValues (ordered_children hwf)
      have hpruned : journey j.pruneMember =
          if filterMapValues pruneMember j.children = [] then none
          else some (ofMembers (returnedMembers (filterMapValues pruneMember j.children))) := by
        rw [pruneMember_of_isContainer hcontainer, nonEmpty?]
        split
        · rfl
        · rename_i hne
          have hobject := journey_ofMembers hordered
          rw [if_neg hne] at hobject
          rw [← hobject, ofMembers, if_neg hne]
      rw [iterate_journey_of_isContainer hwf hcontainer, hmembers _ (Nat.le_refl _), hmembers _ (Nat.le_succ _),
        hpruned]
      simp only [returnedMembers_pruned_eq_nil_iff]
    · obtain ⟨hfixed, hpruned⟩ := journey_of_not_isContainer hcontainer
      obtain ⟨earlier, rfl⟩ : ∃ earlier, journeys = earlier + 1 := ⟨journeys - 1, by omega⟩
      rw [Function.iterate_succ_apply, Function.iterate_fixed hfixed, hpruned]

/-! ## The limit -/

/-- After as many journeys as a value has levels it is the pruned value, seen through one more journey. -/
theorem iterate_roundTrip_eq {j : Json} (hwf : j.WellFormed) {journeys : ℕ} (hmany : max 1 j.depth ≤ journeys) :
    roundTrip^[journeys] j = roundTrip j.prune := by
  obtain ⟨earlier, rfl⟩ : ∃ earlier, journeys = earlier + 1 := ⟨journeys - 1, by omega⟩
  have hordered : Ordered (filterMapValues pruneMember j.entries) := pairwise_filterMapValues (ordered_entries hwf)
  have hmembers : membersAfter (earlier + 1) j.entries =
      returnedMembers (filterMapValues pruneMember j.entries) := by
    rw [returnedMembers_pruned]
    refine filterMapValues_congr fun entry hentry ↦ ?_
    have hdepth := depth_entries hentry
    have hwf' : entry.2.WellFormed := by
      rcases mem_entries hentry with hchild | ⟨rfl, -⟩
      · exact wellFormed_children hwf hchild
      · exact hwf
    exact iterate_journey hwf' (by omega)
  rw [iterate_roundTrip hwf, hmembers, prune_eq, roundTrip_ofMembers hordered]

/-- Repeated conversion of a value reaches a fixed point after as many journeys as it has levels, and at least one,
and that is the pruned value. -/
theorem roundTrip_erodes (j : Json) (hwf : j.WellFormed) (hexact : j.Exact) :
    roundTrip (roundTrip^[max 1 j.depth] j) = roundTrip^[max 1 j.depth] j ∧
      (roundTrip^[max 1 j.depth] j).eq j.prune = true := by
  obtain ⟨hwf', hexact', hfaithful⟩ := prune_faithful hwf hexact
  have hlimit := iterate_roundTrip_eq hwf (Nat.le_refl (max 1 j.depth))
  have hlater := iterate_roundTrip_eq hwf (Nat.le_succ (max 1 j.depth))
  constructor
  · rw [Function.iterate_succ_apply'] at hlater
    rw [hlater, hlimit]
  · rw [hlimit]
    exact (roundTrip_eq_iff hwf' hexact').mpr hfaithful

/-- A list in an object that also holds an object which empties from within. -/
def eroding : Json :=
  .object [("flags", .array [.boolean true, .null]), ("inner", .object [("gone", .object [])])]

theorem roundTrip_erodes_threeLevels :
    eroding.WellFormed ∧ eroding.Exact ∧ eroding.depth = 3 ∧
      eroding.prune.eq (.object [("flags", .object [("0", .boolean true)])]) = true ∧
      (roundTrip^[3] eroding).eq eroding.prune = true := by
  have hwf : eroding.WellFormed := by
    have hkeys : "flags" < "inner" := by decide
    simp only [eroding, WellFormed, MembersWellFormed, ItemsWellFormed, and_true, true_and]
    exact ⟨List.pairwise_pair.mpr hkeys, List.pairwise_singleton _ _, List.Pairwise.nil⟩
  have hexact : eroding.Exact := by simp [eroding, Exact, MembersExact, ItemsExact]
  have hdepth : eroding.depth = 3 := by decide
  have herodes := (roundTrip_erodes eroding hwf hexact).2
  rw [hdepth] at herodes
  exact ⟨hwf, hexact, hdepth, by decide, herodes⟩

end TinyReactor.Wire
