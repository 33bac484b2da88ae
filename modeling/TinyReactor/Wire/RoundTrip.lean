import TinyReactor.Wire.Conversion

/-!
# What the wire conversion keeps

A payload comes back equal exactly when it is null or a non-empty object all of whose members are
faithful: `StructToJson` has no case for the null and list kinds, arrays travel as structs keyed by
their indices, and an object that loses all its members comes back as null. All other fields of a
task are copied.
-/

namespace TinyReactor.Wire

open Data

mutual

/-- A member value that comes back equal. -/
def Json.Faithful : Json → Prop
  | .boolean _ | .integer _ | .unsigned _ | .float _ | .string _ => True
  | .object members => members ≠ [] ∧ Json.FaithfulMembers members
  | .null | .binary _ | .array _ => False

def Json.FaithfulMembers : List (String × Json) → Prop
  | [] => True
  | (_, value) :: members => value.Faithful ∧ Json.FaithfulMembers members

end

/-- A payload that comes back equal. -/
def Json.FaithfulPayload : Json → Prop
  | .null => True
  | .object members => members ≠ [] ∧ Json.FaithfulMembers members
  | _ => False

theorem Json.faithfulMembers_iff {members : List (String × Json)} :
    Json.FaithfulMembers members ↔ ∀ member ∈ members, member.2.Faithful := by
  induction members with
  | nil => simp [Json.FaithfulMembers]
  | cons member members ih => rw [Json.FaithfulMembers, ih, List.forall_mem_cons]

/-- The payloads tasks carry: null, or an object, with ordered keys and exact numbers throughout. -/
structure Json.IsPayload (j : Json) : Prop where
  shape : j = .null ∨ ∃ members, j = .object members
  wellFormed : j.WellFormed
  exact : j.Exact

/-! ## Members -/

/-- The members of an object that come back, with the values they come back with. -/
def returnedMembers (members : List (String × Json)) : List (String × Json) :=
  members.filterMap fun member ↦
    (jsonOfValue? (valueOfJson member.2)).map fun value ↦ (member.1, value)

theorem keptMembers_map (members : List (String × Json)) :
    keptMembers (members.map fun member ↦ (member.1, valueOfJson member.2)) = returnedMembers members := by
  simp only [keptMembers, returnedMembers, List.filterMap_map]
  rfl

theorem returnedMembers_length_le (members : List (String × Json)) :
    (returnedMembers members).length ≤ members.length := List.length_filterMap_le _ _

theorem ordered_map {members : List (String × Json)} (h : Ordered members) :
    Ordered (members.map fun member ↦ (member.1, valueOfJson member.2)) :=
  List.pairwise_map.mpr h

theorem ordered_keptMembers {fields : Struct} (h : Ordered fields) : Ordered (keptMembers fields) :=
  pairwise_filterMapValues h

theorem insertMembers_of_ordered {members : List (String × Json)} (h : Ordered members) :
    insertMembers [] members = members.map fun member ↦ (member.1, valueOfJson member.2) := by
  rw [insertMembers_eq, insertAll_of_ordered] <;> simp [ordered_map h]

theorem structToJson_of_ordered {fields : Struct} (h : Ordered fields) :
    structToJson fields = if keptMembers fields = [] then .null else .object (keptMembers fields) := by
  have hkept : insertAll (keptMembers fields) [] = keptMembers fields := by
    rw [insertAll_of_ordered] <;> simp [ordered_keptMembers h]
  rw [structToJson, assignFields_eq, assignAll_null, hkept]

/-- An object comes back as the object of its returned members, or as null when there are none. -/
theorem structToJson_insertMembers {members : List (String × Json)} (h : Ordered members) :
    structToJson (insertMembers [] members) =
      if returnedMembers members = [] then .null else .object (returnedMembers members) := by
  rw [insertMembers_of_ordered h, structToJson_of_ordered (ordered_map h), keptMembers_map]

/-- If the first member is lost, fewer members come back than were sent. -/
theorem eqMembers_returned_cons {key : String} {value : Json} {members : List (String × Json)} :
    Json.eqMembers (returnedMembers ((key, value) :: members)) ((key, value) :: members) = true ↔
      (∃ returned, jsonOfValue? (valueOfJson value) = some returned ∧ returned.eq value = true) ∧
        Json.eqMembers (returnedMembers members) members = true := by
  cases hvalue : jsonOfValue? (valueOfJson value) with
  | none =>
    have hreturned : returnedMembers ((key, value) :: members) = returnedMembers members := by
      simp [returnedMembers, hvalue]
    rw [hreturned]
    constructor
    · intro h
      have hlength := Json.eqMembers_length h
      have hle := returnedMembers_length_le members
      rw [List.length_cons] at hlength
      omega
    · rintro ⟨⟨returned, hsome, -⟩, -⟩
      cases hsome
  | some returned =>
    have hreturned : returnedMembers ((key, value) :: members) = (key, returned) :: returnedMembers members := by
      simp [returnedMembers, hvalue]
    rw [hreturned]
    simp [Json.eqMembers]

/-! ## The induction over the value -/

mutual

/-- A member value comes back equal exactly when it is faithful. -/
theorem returned_eq_iff : ∀ value : Json, value.WellFormed → value.Exact →
    ((∃ returned, jsonOfValue? (valueOfJson value) = some returned ∧ returned.eq value = true) ↔
      value.Faithful)
  | .null, _, _ => by simp [valueOfJson, jsonOfValue?, Json.Faithful]
  | .boolean value, _, _ => by simp [valueOfJson, jsonOfValue?, Json.Faithful, Json.eq]
  | .integer value, _, _ => by
    simp only [valueOfJson, jsonOfValue?, Json.Faithful, iff_true]
    exact ⟨_, rfl, by rw [Json.eq]; exact Binary64.eq_self_of_isFinite (Binary64.isFinite_ofInt _ _)⟩
  | .unsigned value, _, _ => by
    simp only [valueOfJson, jsonOfValue?, Json.Faithful, iff_true]
    exact ⟨_, rfl, by rw [Json.eq]; exact Binary64.eq_self_of_isFinite (Binary64.isFinite_ofInt _ _)⟩
  | .float value, _, hexact => by
    simp only [Json.Exact] at hexact
    simp only [valueOfJson, jsonOfValue?, Json.Faithful, iff_true]
    exact ⟨_, rfl, by rw [Json.eq]; exact Binary64.eq_self_of_isFinite hexact⟩
  | .string value, _, _ => by simp [valueOfJson, jsonOfValue?, Json.Faithful, Json.eq]
  | .binary bytes, _, _ => by simp [valueOfJson, jsonOfValue?, Json.Faithful]
  | .array items, _, _ => by
    -- an array comes back as an object, or as null
    simp only [valueOfJson, jsonOfValue?, Json.Faithful, iff_false, Option.some.injEq]
    rintro ⟨returned, rfl, heq⟩
    rw [assignFields_eq, assignAll_null] at heq
    split at heq <;> simp [Json.eq] at heq
  | .object members, hwf, hexact => by
    simp only [Json.WellFormed] at hwf
    simp only [Json.Exact] at hexact
    have hobject := structToJson_insertMembers hwf.1
    rw [structToJson] at hobject
    simp only [valueOfJson, jsonOfValue?, Json.Faithful, Option.some.injEq, exists_eq_left', hobject]
    rw [← eqMembers_returned_iff members hwf.2 hexact]
    constructor
    · intro heq
      split at heq
      · simp [Json.eq] at heq
      · rename_i hne
        rw [Json.eq] at heq
        refine ⟨?_, heq⟩
        rintro rfl
        exact hne rfl
    · rintro ⟨hne, heq⟩
      have hlength := Json.eqMembers_length heq
      rw [if_neg fun hnil ↦ hne (List.length_eq_zero_iff.mp (by rw [← hlength, hnil]; rfl)), Json.eq]
      exact heq

/-- The members of an object all come back equal exactly when all are faithful. -/
theorem eqMembers_returned_iff : ∀ members : List (String × Json), Json.MembersWellFormed members →
    Json.MembersExact members →
    (Json.eqMembers (returnedMembers members) members = true ↔ Json.FaithfulMembers members)
  | [], _, _ => by simp [returnedMembers, Json.eqMembers, Json.FaithfulMembers]
  | (key, value) :: members, hwf, hexact => by
    simp only [Json.MembersWellFormed] at hwf
    simp only [Json.MembersExact] at hexact
    rw [eqMembers_returned_cons, returned_eq_iff value hwf.1 hexact.1,
      eqMembers_returned_iff members hwf.2 hexact.2, Json.FaithfulMembers]

end

/-- A payload comes back equal exactly when it is a faithful one. -/
theorem payload_eq_iff {j : Json} (h : j.IsPayload) :
    (structToJson (jsonToStruct j)).eq j = true ↔ j.FaithfulPayload := by
  obtain ⟨rfl | ⟨members, rfl⟩, hwf, hexact⟩ := h
  · simp [jsonToStruct, structToJson, assignFields, Json.eq, Json.FaithfulPayload]
  · -- at the top an object travels as it does inside another one
    have hmember := returned_eq_iff (.object members) hwf hexact
    simpa only [valueOfJson, jsonOfValue?, Option.some.injEq, exists_eq_left', Json.Faithful,
      jsonToStruct, structToJson, Json.FaithfulPayload] using hmember

/-! ## Tasks -/

/-- The two tasks have the same 16 wire fields, JSON compared with `operator==`. -/
structure Task.AgreesOnWire (left right : Task) : Prop where
  taskId : left.taskId = right.taskId
  clientId : left.clientId = right.clientId
  priority : left.priority = right.priority
  state : left.state = right.state
  funcName : left.funcName = right.funcName
  funcParams : left.funcParams.eq right.funcParams = true
  required : left.required = right.required
  shard : left.shard = right.shard
  timeoutMs : left.timeoutMs = right.timeoutMs
  maxRetry : left.maxRetry = right.maxRetry
  retryCount : left.retryCount = right.retryCount
  submitTs : left.submitTs = right.submitTs
  startTs : left.startTs = right.startTs
  finishTs : left.finishTs = right.finishTs
  result : left.result.eq right.result = true
  errorMsg : left.errorMsg = right.errorMsg

/-- Everything but the two payloads is always kept. -/
theorem agreesOnWire_iff (task : Task) :
    (taskFromProto (taskToProto task)).AgreesOnWire task ↔
      (structToJson (jsonToStruct task.funcParams)).eq task.funcParams = true ∧
        (structToJson (jsonToStruct task.result)).eq task.result = true := by
  constructor
  · intro h
    exact ⟨h.funcParams, h.result⟩
  · rintro ⟨hparams, hresult⟩
    constructor
    case state => exact state_roundtrip task.state
    case funcParams => exact hparams
    case result => exact hresult
    all_goals rfl

/-- A task survives the wire exactly when both its payloads are faithful. -/
theorem task_roundtrip_agrees_iff (task : Task) (hparams : task.funcParams.IsPayload)
    (hresult : task.result.IsPayload) :
    (taskFromProto (taskToProto task)).AgreesOnWire task ↔
      task.funcParams.FaithfulPayload ∧ task.result.FaithfulPayload := by
  rw [agreesOnWire_iff, payload_eq_iff hparams, payload_eq_iff hresult]

/-- The nested parameters of the serialisation tests. -/
def nestedParams : Json :=
  .object [("config", .object [("key1", .string "value1"), ("key2", .integer 42)]), ("n", .integer 10)]

theorem isPayload_nestedParams : nestedParams.IsPayload where
  shape := .inr ⟨_, rfl⟩
  wellFormed := by
    have houter : "config" < "n" := by decide
    have hinner : "key1" < "key2" := by decide
    simp only [nestedParams, Json.WellFormed, Json.MembersWellFormed, and_true]
    exact ⟨List.pairwise_pair.mpr houter, List.pairwise_pair.mpr hinner⟩
  exact := by
    simp only [nestedParams, Json.Exact, Json.MembersExact, and_true, true_and]
    exact ⟨Binary64.toRat?_ofInt_of_lt _ (by decide), Binary64.toRat?_ofInt_of_lt _ (by decide)⟩

theorem isPayload_null : Json.IsPayload .null := ⟨.inl rfl, trivial, trivial⟩

theorem task_roundtrip_agrees_nested :
    (taskFromProto (taskToProto { funcParams := nestedParams })).AgreesOnWire { funcParams := nestedParams } := by
  refine (task_roundtrip_agrees_iff _ isPayload_nestedParams isPayload_null).mpr ⟨?_, trivial⟩
  simp [nestedParams, Json.FaithfulPayload, Json.FaithfulMembers, Json.Faithful]

/-- A member that is null is lost on the way. -/
theorem task_roundtrip_loses_null :
    Json.IsPayload (.object [("flag", .null)]) ∧
      ¬ (taskFromProto (taskToProto { funcParams := .object [("flag", .null)] })).AgreesOnWire
        { funcParams := .object [("flag", .null)] } := by
  refine ⟨⟨.inr ⟨_, rfl⟩, ?_, ?_⟩, fun h ↦ ?_⟩
  · simp [Json.WellFormed, Json.MembersWellFormed, Ordered]
  · simp [Json.Exact, Json.MembersExact]
  · exact absurd h.funcParams (by decide)

end TinyReactor.Wire
