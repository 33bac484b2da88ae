import TinyReactor.Wire.Task

/-!
# Conversion between tasks and protobuf messages

`JsonToStruct`, `StructToJson`, `TaskToProto` and `TaskFromProto` of `src/common/src/utils.cpp`,
over the messages of `task.proto` and `google.protobuf.Struct`. A protobuf map is read in key order
here; `structToJson_perm` shows that the order of the iteration does not matter.
-/

namespace TinyReactor.Wire

open Data

/-- `google.protobuf.Value`; `unset` is a value whose `kind` was never set. -/
inductive Value
  | unset
  | null
  | number (value : Binary64)
  | string (value : String)
  | bool (value : Bool)
  | struct (fields : List (String × Value))
  | list (values : List Value)

/-- `google.protobuf.Struct`: the map `fields`. -/
abbrev Struct := List (String × Value)

/-! ## JSON payloads -/

mutual

/-- The body of the loop in `JsonToStruct`: the `Value` made of one item. -/
def valueOfJson : Json → Value
  | .boolean value => .bool value
  | .integer value => .number (Json.doubleOfInt64 value)
  | .unsigned value => .number (Json.doubleOfUInt64 value)
  | .float value => .number value
  | .string value => .string value
  | .null => .null
  | .array items => .struct (insertItems [] 0 items)
  | .object members => .struct (insertMembers [] members)
  -- no branch sets the kind of a binary value
  | .binary _ => .unset

/-- The loop over `items()` of an array, whose keys are the decimal indices. -/
def insertItems (fields : Struct) (index : ℕ) : List Json → Struct
  | [] => fields
  | item :: items =>
      insertItems (insertKey (toString index) (valueOfJson item) fields) (index + 1) items

/-- The loop over `items()` of an object. -/
def insertMembers (fields : Struct) : List (String × Json) → Struct
  | [] => fields
  | (key, value) :: members => insertMembers (insertKey key (valueOfJson value) fields) members

end

/-- `JsonToStruct`. `items()` of a null value is empty and of any other primitive it has one entry
with the empty key. -/
def jsonToStruct : Json → Struct
  | .null => []
  | .array items => insertItems [] 0 items
  | .object members => insertMembers [] members
  | value => insertKey "" (valueOfJson value) []

mutual

/-- The right-hand side of the assignment in `StructToJson`, if the kind has a case. -/
def jsonOfValue? : Value → Option Json
  | .bool value => some (.boolean value)
  | .number value => some (.float value)
  | .string value => some (.string value)
  | .struct fields => some (assignFields .null fields)
  | .unset | .null | .list _ => none

/-- The loop of `StructToJson`. -/
def assignFields (j : Json) : Struct → Json
  | [] => j
  | (key, value) :: fields =>
      match jsonOfValue? value with
      | some member => assignFields (j.assign key member) fields
      | none => assignFields j fields

end

/-- `StructToJson`. -/
def structToJson (fields : Struct) : Json := assignFields .null fields

/-! ## Messages -/

/-- The protobuf message `Resource`; absent scalars are zero. -/
structure PbResource where
  cpuCore : Binary64 := .finite 0 isBinary64_zero
  memMb : UInt64 := 0

structure PbShard where
  shardId : UInt32 := 0
  totalShards : UInt32 := 0

/-- The protobuf message `Task`. The enumeration is open, so its state is any `int32`; a
sub-message that was never set reads as its default instance. -/
structure PbTask where
  taskId : String := ""
  clientId : String := ""
  priority : UInt32 := 0
  state : Int32 := 0
  funcName : String := ""
  funcParams : Option Struct := none
  required : Option PbResource := none
  shard : Option PbShard := none
  timeoutMs : UInt32 := 0
  maxRetry : UInt32 := 0
  retryCount : UInt32 := 0
  submitTs : Int64 := 0
  startTs : Int64 := 0
  finishTs : Int64 := 0
  result : Option Struct := none
  errorMsg : String := ""

/-- `TaskToProto`. -/
def taskToProto (task : Task) : PbTask where
  taskId := task.taskId
  clientId := task.clientId
  priority := task.priority
  state := Int32.ofNat task.state.code.toNat
  funcName := task.funcName
  funcParams := some (jsonToStruct task.funcParams)
  required := some { cpuCore := task.required.cpuCore, memMb := task.required.memMb }
  shard := some { shardId := task.shard.shardId, totalShards := task.shard.totalShards }
  timeoutMs := task.timeoutMs
  maxRetry := task.maxRetry
  retryCount := task.retryCount
  submitTs := task.submitTs
  startTs := task.startTs
  finishTs := task.finishTs
  result := some (jsonToStruct task.result)
  errorMsg := task.errorMsg

/-- `TaskFromProto`. The state is cast to `std::uint8_t`. -/
def taskFromProto (proto : PbTask) : Task where
  taskId := proto.taskId
  clientId := proto.clientId
  priority := proto.priority
  state := ⟨UInt8.ofInt proto.state.toInt⟩
  funcName := proto.funcName
  funcParams := structToJson (proto.funcParams.getD [])
  required := { cpuCore := (proto.required.getD {}).cpuCore, memMb := (proto.required.getD {}).memMb }
  shard := { shardId := (proto.shard.getD {}).shardId, totalShards := (proto.shard.getD {}).totalShards }
  timeoutMs := proto.timeoutMs
  maxRetry := proto.maxRetry
  retryCount := proto.retryCount
  submitTs := proto.submitTs
  startTs := proto.startTs
  finishTs := proto.finishTs
  result := structToJson (proto.result.getD [])
  errorMsg := proto.errorMsg

/-- The state survives the two casts. -/
theorem state_roundtrip (state : TaskState) :
    (⟨UInt8.ofInt (Int32.ofNat state.code.toNat).toInt⟩ : TaskState) = state := by
  have hlt := state.code.toNat_lt
  have hcast : (Int32.ofNat state.code.toNat).toInt = (state.code.toNat : ℤ) :=
    Int32.toInt_ofNat_of_lt (by omega)
  have hcode : UInt8.ofInt (state.code.toNat : ℤ) = state.code := by
    apply UInt8.toNat_inj.mp
    simp only [UInt8.ofInt, UInt8.toNat_ofNat']
    omega
  rw [hcast, hcode]

/-! ## The loops as folds -/

theorem insertMembers_eq (fields : Struct) (members : List (String × Json)) :
    insertMembers fields members =
      insertAll (members.map fun member ↦ (member.1, valueOfJson member.2)) fields := by
  induction members generalizing fields with
  | nil => rw [insertMembers]; rfl
  | cons member members ih =>
    obtain ⟨key, value⟩ := member
    rw [insertMembers, ih]
    rfl

/-- The members `StructToJson` assigns: one for each field whose kind has a case. -/
def keptMembers (fields : Struct) : List (String × Json) :=
  fields.filterMap fun field ↦ (jsonOfValue? field.2).map fun member ↦ (field.1, member)

/-- Assign members to a value that is null or an object. -/
def assignAll (members : List (String × Json)) (j : Json) : Json :=
  members.foldl (fun acc member ↦ acc.assign member.1 member.2) j

theorem assignFields_eq (j : Json) (fields : Struct) :
    assignFields j fields = assignAll (keptMembers fields) j := by
  induction fields generalizing j with
  | nil => rw [assignFields]; rfl
  | cons field fields ih =>
    obtain ⟨key, value⟩ := field
    rw [assignFields]
    cases h : jsonOfValue? value with
    | none => simp only [ih, keptMembers, List.filterMap_cons, h, Option.map_none]
    | some member => simp only [ih, keptMembers, List.filterMap_cons, h, Option.map_some]; rfl

theorem assignAll_object (entries members : List (String × Json)) :
    assignAll entries (.object members) = .object (insertAll entries members) := by
  induction entries generalizing members with
  | nil => rfl
  | cons entry entries ih =>
    rw [assignAll, insertAll, List.foldl_cons, List.foldl_cons]
    exact ih _

/-- Nothing assigned leaves null; otherwise the members form an object. -/
theorem assignAll_null (entries : List (String × Json)) :
    assignAll entries .null = if entries = [] then .null else .object (insertAll entries []) := by
  cases entries with
  | nil => rfl
  | cons entry entries =>
    rw [if_neg (List.cons_ne_nil entry entries), assignAll, List.foldl_cons]
    exact assignAll_object entries _

/-- The result of `StructToJson` does not depend on the order in which the map is read. -/
theorem structToJson_perm {fields fields' : Struct} (hperm : fields.Perm fields')
    (hkeys : fields.Pairwise fun left right ↦ left.1 ≠ right.1) :
    structToJson fields = structToJson fields' := by
  have hkept : (keptMembers fields).Perm (keptMembers fields') := hperm.filterMap _
  have hkeptKeys : (keptMembers fields).Pairwise fun left right ↦ left.1 ≠ right.1 :=
    pairwise_filterMapValues hkeys
  have hnil : keptMembers fields = [] ↔ keptMembers fields' = [] := by
    rw [← List.length_eq_zero_iff, hkept.length_eq, List.length_eq_zero_iff]
  simp only [structToJson, assignFields_eq, assignAll_null, hnil,
    insertAll_perm hkept hkeptKeys List.Pairwise.nil]

end TinyReactor.Wire
