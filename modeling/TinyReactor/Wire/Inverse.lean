import TinyReactor.Wire.RoundTrip

/-!
# Where the two conversions are inverse

`JsonToStruct` and `StructToJson` undo each other on one sublanguage of both formats: members that are booleans,
numbers, strings or non-empty objects of such. Each direction is an induction over the value that is sent first.
-/

namespace TinyReactor.Wire

open Data

namespace Value

/-! ## Equality of messages -/

mutual

/-- Equality of messages, with numbers compared by value. -/
def eq : Value → Value → Bool
  | .unset, .unset => true
  | .null, .null => true
  | .number left, .number right => left.eq right
  | .string left, .string right => left == right
  | .bool left, .bool right => left == right
  | .struct left, .struct right => eqFields left right
  | .list left, .list right => eqValues left right
  | _, _ => false

def eqFields : Struct → Struct → Bool
  | [], [] => true
  | (leftKey, left) :: lefts, (rightKey, right) :: rights =>
      leftKey == rightKey && left.eq right && eqFields lefts rights
  | _, _ => false

def eqValues : List Value → List Value → Bool
  | [], [] => true
  | left :: lefts, right :: rights => left.eq right && eqValues lefts rights
  | _, _ => false

end

/-! ## Domains -/

mutual

/-- The maps of all nested structs are read in key order. -/
def WellFormed : Value → Prop
  | .struct fields => Ordered fields ∧ FieldsWellFormed fields
  | .list values => ValuesWellFormed values
  | _ => True

def FieldsWellFormed : Struct → Prop
  | [] => True
  | (_, value) :: fields => value.WellFormed ∧ FieldsWellFormed fields

def ValuesWellFormed : List Value → Prop
  | [] => True
  | value :: values => value.WellFormed ∧ ValuesWellFormed values

end

mutual

/-- Every nested number is finite. -/
def Finite : Value → Prop
  | .number value => value.IsFinite
  | .struct fields => FieldsFinite fields
  | .list values => ValuesFinite values
  | _ => True

def FieldsFinite : Struct → Prop
  | [] => True
  | (_, value) :: fields => value.Finite ∧ FieldsFinite fields

def ValuesFinite : List Value → Prop
  | [] => True
  | value :: values => value.Finite ∧ ValuesFinite values

end

mutual

/-- A boolean, a number, a string or a non-empty struct, and so is every value in it. -/
def Faithful : Value → Prop
  | .bool _ | .number _ | .string _ => True
  | .struct fields => fields ≠ [] ∧ FaithfulFields fields
  | .unset | .null | .list _ => False

def FaithfulFields : Struct → Prop
  | [] => True
  | (_, value) :: fields => value.Faithful ∧ FaithfulFields fields

end

theorem eqFields_length {left right : Struct} (h : eqFields left right = true) : left.length = right.length := by
  induction left generalizing right with
  | nil => cases right with
    | nil => rfl
    | cons field rest => simp [eqFields] at h
  | cons field rest ih => cases right with
    | nil => simp [eqFields] at h
    | cons field' rest' =>
      simp only [eqFields, Bool.and_eq_true] at h
      simp [ih h.2]

end Value

/-- A struct as a protobuf map holds it, read in key order, with finite numbers throughout. -/
structure Struct.IsPayload (fields : Struct) : Prop where
  ordered : Ordered fields
  wellFormed : Value.FieldsWellFormed fields
  finite : Value.FieldsFinite fields

/-! ## From JSON and back -/

/-- Any JSON value comes back equal exactly when it is a faithful payload. -/
theorem roundTrip_eq_iff {j : Json} (hwf : j.WellFormed) (hexact : j.Exact) :
    (structToJson (jsonToStruct j)).eq j = true ↔ j.FaithfulPayload := by
  cases j with
  | null => exact payload_eq_iff ⟨.inl rfl, hwf, hexact⟩
  | object members => exact payload_eq_iff ⟨.inr ⟨members, rfl⟩, hwf, hexact⟩
  | array items =>
    -- an array comes back as an object, or as null
    simp only [jsonToStruct, structToJson, assignFields_eq, assignAll_null, Json.FaithfulPayload, iff_false]
    split <;> simp [Json.eq]
  | binary bytes =>
    simp [jsonToStruct, structToJson, insertKey, valueOfJson, assignFields, jsonOfValue?, Json.eq,
      Json.FaithfulPayload]
  | _ =>
    -- any other primitive comes back as an object with the empty key
    simp [jsonToStruct, structToJson, insertKey, valueOfJson, assignFields, jsonOfValue?, Json.assign, Json.eq,
      Json.FaithfulPayload]

/-! ## From structs and back -/

/-- The fields of a struct that come back, with the values they come back with. -/
def returnedFields (fields : Struct) : Struct :=
  (keptMembers fields).map fun member ↦ (member.1, valueOfJson member.2)

theorem returnedFields_length_le (fields : Struct) : (returnedFields fields).length ≤ fields.length := by
  rw [returnedFields, List.length_map]
  exact List.length_filterMap_le _ _

/-- A struct comes back as its returned fields. -/
theorem jsonToStruct_structToJson {fields : Struct} (h : Ordered fields) :
    jsonToStruct (structToJson fields) = returnedFields fields := by
  rw [structToJson_of_ordered h, returnedFields]
  split
  · rename_i hnil
    rw [hnil]
    rfl
  · exact insertMembers_of_ordered (ordered_keptMembers h)

/-- Inside another struct it does too, unless there are none: then null is what comes back. -/
theorem valueOfJson_structToJson {fields : Struct} (h : Ordered fields) :
    valueOfJson (structToJson fields) =
      if returnedFields fields = [] then .null else .struct (returnedFields fields) := by
  rw [structToJson_of_ordered h]
  simp only [returnedFields, List.map_eq_nil_iff]
  split
  · rw [valueOfJson]
  · rw [valueOfJson, insertMembers_of_ordered (ordered_keptMembers h)]

/-- If the first field is lost, fewer fields come back than were sent. -/
theorem eqFields_returned_cons {key : String} {value : Value} {fields : Struct} :
    Value.eqFields (returnedFields ((key, value) :: fields)) ((key, value) :: fields) = true ↔
      (∃ j, jsonOfValue? value = some j ∧ (valueOfJson j).eq value = true) ∧
        Value.eqFields (returnedFields fields) fields = true := by
  cases hvalue : jsonOfValue? value with
  | none =>
    have hreturned : returnedFields ((key, value) :: fields) = returnedFields fields := by
      simp [returnedFields, keptMembers, hvalue]
    rw [hreturned]
    constructor
    · intro h
      have hlength := Value.eqFields_length h
      have hle := returnedFields_length_le fields
      rw [List.length_cons] at hlength
      omega
    · rintro ⟨⟨j, hsome, -⟩, -⟩
      cases hsome
  | some j =>
    have hreturned : returnedFields ((key, value) :: fields) = (key, valueOfJson j) :: returnedFields fields := by
      simp [returnedFields, keptMembers, hvalue]
    rw [hreturned]
    simp [Value.eqFields]

mutual

/-- The value of a field comes back equal exactly when it is faithful. -/
theorem value_returned_eq_iff : ∀ value : Value, value.WellFormed → value.Finite →
    ((∃ j, jsonOfValue? value = some j ∧ (valueOfJson j).eq value = true) ↔ value.Faithful)
  | .unset, _, _ => by simp [jsonOfValue?, Value.Faithful]
  | .null, _, _ => by simp [jsonOfValue?, Value.Faithful]
  | .list values, _, _ => by simp [jsonOfValue?, Value.Faithful]
  | .bool value, _, _ => by simp [jsonOfValue?, valueOfJson, Value.eq, Value.Faithful]
  | .string value, _, _ => by simp [jsonOfValue?, valueOfJson, Value.eq, Value.Faithful]
  | .number value, _, hfinite => by
    simp only [Value.Finite] at hfinite
    simp only [jsonOfValue?, Value.Faithful, iff_true]
    exact ⟨_, rfl, by rw [valueOfJson, Value.eq]; exact Binary64.eq_self_of_isFinite hfinite⟩
  | .struct fields, hwf, hfinite => by
    simp only [Value.WellFormed] at hwf
    simp only [Value.Finite] at hfinite
    have hstruct := valueOfJson_structToJson hwf.1
    rw [structToJson] at hstruct
    simp only [jsonOfValue?, Value.Faithful, Option.some.injEq, exists_eq_left', hstruct]
    rw [← eqFields_returned_iff fields hwf.2 hfinite]
    constructor
    · intro heq
      split at heq
      · simp [Value.eq] at heq
      · rename_i hne
        rw [Value.eq] at heq
        refine ⟨?_, heq⟩
        rintro rfl
        exact hne rfl
    · rintro ⟨hne, heq⟩
      have hlength := Value.eqFields_length heq
      rw [if_neg fun hnil ↦ hne (List.length_eq_zero_iff.mp (by rw [← hlength, hnil]; rfl)), Value.eq]
      exact heq

/-- The fields of a struct all come back equal exactly when all their values are faithful. -/
theorem eqFields_returned_iff : ∀ fields : Struct, Value.FieldsWellFormed fields → Value.FieldsFinite fields →
    (Value.eqFields (returnedFields fields) fields = true ↔ Value.FaithfulFields fields)
  | [], _, _ => by simp [returnedFields, keptMembers, Value.eqFields, Value.FaithfulFields]
  | (key, value) :: fields, hwf, hfinite => by
    simp only [Value.FieldsWellFormed] at hwf
    simp only [Value.FieldsFinite] at hfinite
    rw [eqFields_returned_cons, value_returned_eq_iff value hwf.1 hfinite.1,
      eqFields_returned_iff fields hwf.2 hfinite.2, Value.FaithfulFields]

end

/-- Each composition of the two conversions returns its argument exactly on the faithful sublanguage. -/
theorem conversions_inverse_iff (j : Json) (fields : Struct) (hwf : j.WellFormed) (hexact : j.Exact)
    (hfields : fields.IsPayload) :
    ((structToJson (jsonToStruct j)).eq j = true ↔ j.FaithfulPayload) ∧
      (Value.eqFields (jsonToStruct (structToJson fields)) fields = true ↔ Value.FaithfulFields fields) := by
  refine ⟨roundTrip_eq_iff hwf hexact, ?_⟩
  rw [jsonToStruct_structToJson hfields.ordered]
  exact eqFields_returned_iff fields hfields.wellFormed hfields.finite

/-- A struct with a struct in it. -/
def nestedFields : Struct := [("config", .struct [("key1", .string "value1")]), ("flag", .bool true)]

theorem isPayload_nestedFields : nestedFields.IsPayload where
  ordered := List.pairwise_pair.mpr (by decide)
  wellFormed := by simp [nestedFields, Value.FieldsWellFormed, Value.WellFormed, Ordered]
  finite := by simp [nestedFields, Value.FieldsFinite, Value.Finite]

theorem conversions_inverse_nested :
    (structToJson (jsonToStruct nestedParams)).eq nestedParams = true ∧
      Value.eqFields (jsonToStruct (structToJson nestedFields)) nestedFields = true := by
  obtain ⟨hjson, hstruct⟩ := conversions_inverse_iff nestedParams nestedFields isPayload_nestedParams.wellFormed
    isPayload_nestedParams.exact isPayload_nestedFields
  refine ⟨hjson.mpr ?_, hstruct.mpr ?_⟩
  · simp [nestedParams, Json.FaithfulPayload, Json.FaithfulMembers, Json.Faithful]
  · simp [nestedFields, Value.FaithfulFields, Value.Faithful]

end TinyReactor.Wire
