import TinyReactor.Wire.Task

/-!
# The JSON form of a task

`to_json` and `from_json` of `src/common/include/task.hpp`, with what `NLOHMANN_DEFINE_TYPE_INTRUSIVE` generates for
the two nested records. Encoder and decoder are two lists of the same keys. A number is converted to the type of its
member by a `static_cast`, which checks no range.
-/

namespace TinyReactor.Wire

open Data

/-- How reading a JSON value fails: with an `out_of_range` or a `type_error` of the library, or not at all. The
last is the conversion of a `double` that the integer type cannot hold, whose behaviour is undefined. -/
inductive Failure
  | outOfRange (message : String)
  | typeError (message : String)
  | undefined
  deriving DecidableEq, Repr

namespace Json

def typeName : Json → String
  | .null => "null"
  | .boolean _ => "boolean"
  | .integer _ | .unsigned _ | .float _ => "number"
  | .string _ => "string"
  | .binary _ => "binary"
  | .array _ => "array"
  | .object _ => "object"

def missingKey (key : String) : Failure :=
  .outOfRange ("[json.exception.out_of_range.403] key '" ++ key ++ "' not found")

/-- `j.at(key)`. -/
def atKey (j : Json) (key : String) : Except Failure Json :=
  match j with
  | .object members => (members.lookup key).elim (.error (missingKey key)) .ok
  | other => .error (.typeError ("[json.exception.type_error.304] cannot use at() with " ++ other.typeName))

end Json

def wrongType (expected : String) (j : Json) : Failure :=
  .typeError ("[json.exception.type_error.302] type must be " ++ expected ++ ", but is " ++ j.typeName)

/-! ## Members -/

/-- An integer type of C++: its least value and its width. -/
structure IntegerType where
  low : ℤ
  bits : ℕ
  deriving DecidableEq, Repr

namespace IntegerType

def uint8 : IntegerType := ⟨0, 8⟩
def uint32 : IntegerType := ⟨0, 32⟩
def uint64 : IntegerType := ⟨0, 64⟩
def int32 : IntegerType := ⟨-2 ^ 31, 32⟩
def int64 : IntegerType := ⟨-2 ^ 63, 64⟩

/-- The type has the value. -/
def Fits (type : IntegerType) (value : ℤ) : Prop := type.low ≤ value ∧ value < type.low + 2 ^ type.bits

instance (type : IntegerType) (value : ℤ) : Decidable (type.Fits value) :=
  inferInstanceAs (Decidable (_ ∧ _))

/-- What `static_cast` makes of a double: the fraction is dropped, and the type has to have the rest. -/
def truncate? (type : IntegerType) (value : Binary64) : Option ℤ :=
  value.toRat?.bind fun rational ↦
    if type.Fits (rational.num.tdiv rational.den) then some (rational.num.tdiv rational.den) else none

end IntegerType

/-- `get_arithmetic_value` for an integer type. -/
def getArithmeticValue {α : Type} (type : IntegerType) (cast : ℤ → α) : Json → Except Failure α
  | .integer value => .ok (cast value.toInt)
  | .unsigned value => .ok (cast value.toNat)
  | .float value => (type.truncate? value).elim (.error .undefined) fun whole ↦ .ok (cast whole)
  | other => .error (wrongType "number" other)

def getUInt64 (j : Json) : Except Failure UInt64 := getArithmeticValue .uint64 UInt64.ofInt j

def getInt64 (j : Json) : Except Failure Int64 := getArithmeticValue .int64 Int64.ofInt j

/-- An enumeration is read as its underlying type. -/
def getTaskState (j : Json) : Except Failure TaskState :=
  (getArithmeticValue .uint8 UInt8.ofInt j).map TaskState.mk

/-- The integer types that the library does not use itself also take a boolean. -/
def getUInt32 : Json → Except Failure UInt32
  | .boolean value => .ok value.toUInt32
  | other => getArithmeticValue .uint32 UInt32.ofInt other

def getInt32 : Json → Except Failure Int32
  | .boolean value => .ok value.toInt32
  | other => getArithmeticValue .int32 Int32.ofInt other

def getDouble : Json → Except Failure Binary64
  | .integer value => .ok (Json.doubleOfInt64 value)
  | .unsigned value => .ok (Json.doubleOfUInt64 value)
  | .float value => .ok value
  | other => .error (wrongType "number" other)

def getString : Json → Except Failure String
  | .string value => .ok value
  | other => .error (wrongType "string" other)

def getJson (j : Json) : Except Failure Json := .ok j

/-! ## Records -/

/-- A statement `j.at(key).get_to(record.member)`. -/
structure Reader (ρ : Type) where
  key : String
  getTo : Json → ρ → Except Failure ρ

namespace Reader

variable {ρ σ α : Type}

def member (key : String) (get : Json → Except Failure α) (set : ρ → α → ρ) : Reader ρ where
  key := key
  getTo j record := (get j).map (set record)

def read (reader : Reader ρ) (j : Json) (record : ρ) : Except Failure ρ :=
  (j.atKey reader.key).bind fun value ↦ reader.getTo value record

end Reader

/-- The statements one after another. -/
def readAll {ρ : Type} : List (Reader ρ) → Json → ρ → Except Failure ρ
  | [], _, record => .ok record
  | reader :: readers, j, record => (reader.read j record).bind fun next ↦ readAll readers j next

/-- A nested record is read in place. -/
def Reader.nested {ρ σ : Type} (key : String) (readers : List (Reader σ)) (get : ρ → σ) (set : ρ → σ → ρ) :
    Reader ρ where
  key := key
  getTo j record := (readAll readers j (get record)).map (set record)

def resourceReaders : List (Reader Resource) :=
  [.member "cpu_core" getDouble fun resource value ↦ { resource with cpuCore := value },
    .member "mem_mb" getUInt64 fun resource value ↦ { resource with memMb := value }]

def shardReaders : List (Reader Shard) :=
  [.member "shard_id" getUInt32 fun shard value ↦ { shard with shardId := value },
    .member "total_shards" getUInt32 fun shard value ↦ { shard with totalShards := value }]

def requiredReader : Reader Task :=
  .nested "required" resourceReaders Task.required fun task value ↦ { task with required := value }

def shardReader : Reader Task :=
  .nested "shard" shardReaders Task.shard fun task value ↦ { task with shard := value }

def taskReaders : List (Reader Task) :=
  [.member "task_id" getString fun task value ↦ { task with taskId := value },
    .member "client_id" getString fun task value ↦ { task with clientId := value },
    .member "priority" getUInt32 fun task value ↦ { task with priority := value },
    .member "state" getTaskState fun task value ↦ { task with state := value },
    .member "func_name" getString fun task value ↦ { task with funcName := value },
    .member "func_params" getJson fun task value ↦ { task with funcParams := value },
    requiredReader,
    shardReader,
    .member "timeout_ms" getUInt32 fun task value ↦ { task with timeoutMs := value },
    .member "max_retry" getUInt32 fun task value ↦ { task with maxRetry := value },
    .member "retry_count" getUInt32 fun task value ↦ { task with retryCount := value },
    .member "submit_ts" getInt64 fun task value ↦ { task with submitTs := value },
    .member "start_ts" getInt64 fun task value ↦ { task with startTs := value },
    .member "finish_ts" getInt64 fun task value ↦ { task with finishTs := value },
    .member "result" getJson fun task value ↦ { task with result := value },
    .member "error_msg" getString fun task value ↦ { task with errorMsg := value }]

/-- `from_json`; `target` is the task that is written, and `cancelled` is the member no statement writes. -/
def fromJson (j : Json) (target : Task) : Except Failure Task := readAll taskReaders j target

def resourceMembers (resource : Resource) : List (String × Json) :=
  [("cpu_core", .float resource.cpuCore), ("mem_mb", .unsigned resource.memMb)]

def shardMembers (shard : Shard) : List (String × Json) :=
  [("shard_id", .unsigned shard.shardId.toUInt64), ("total_shards", .unsigned shard.totalShards.toUInt64)]

/-- The assignments `j[key] = record.member` that the macro makes, starting from null. -/
def recordToJson (members : List (String × Json)) : Json :=
  members.foldl (fun j member ↦ j.assign member.1 member.2) .null

def resourceToJson (resource : Resource) : Json := recordToJson (resourceMembers resource)

def shardToJson (shard : Shard) : Json := recordToJson (shardMembers shard)

/-- The initializer list in `to_json`. -/
def taskMembers (task : Task) : List (String × Json) :=
  [("task_id", .string task.taskId),
    ("client_id", .string task.clientId),
    ("priority", .unsigned task.priority.toUInt64),
    ("state", .unsigned task.state.code.toUInt64),
    ("func_name", .string task.funcName),
    ("func_params", task.funcParams),
    ("required", resourceToJson task.required),
    ("shard", shardToJson task.shard),
    ("timeout_ms", .unsigned task.timeoutMs.toUInt64),
    ("max_retry", .unsigned task.maxRetry.toUInt64),
    ("retry_count", .unsigned task.retryCount.toUInt64),
    ("submit_ts", .integer task.submitTs),
    ("start_ts", .integer task.startTs),
    ("finish_ts", .integer task.finishTs),
    ("result", task.result),
    ("error_msg", .string task.errorMsg)]

/-- `to_json`: a list of pairs of a string and a value becomes an object. -/
def toJson (task : Task) : Json := .object (insertAll (taskMembers task) [])

def resourceKeys : List String := ["cpu_core", "mem_mb"]

def shardKeys : List String := ["shard_id", "total_shards"]

def taskKeys : List String :=
  ["task_id", "client_id", "priority", "state", "func_name", "func_params", "required", "shard", "timeout_ms",
    "max_retry", "retry_count", "submit_ts", "start_ts", "finish_ts", "result", "error_msg"]

/-! ## What was written is read back -/

theorem getString_string (value : String) : getString (.string value) = .ok value := rfl

theorem getJson_eq (value : Json) : getJson value = .ok value := rfl

theorem getDouble_float (value : Binary64) : getDouble (.float value) = .ok value := rfl

theorem getInt64_integer (value : Int64) : getInt64 (.integer value) = .ok value :=
  congrArg Except.ok (Int64.ofInt_toInt value)

theorem getUInt64_unsigned (value : UInt64) : getUInt64 (.unsigned value) = .ok value := by
  apply congrArg Except.ok
  apply UInt64.toNat_inj.mp
  have hlt := value.toNat_lt
  simp only [UInt64.ofInt, UInt64.toNat_ofNat']
  omega

theorem getUInt32_unsigned (value : UInt32) : getUInt32 (.unsigned value.toUInt64) = .ok value := by
  apply congrArg Except.ok
  apply UInt32.toNat_inj.mp
  have hlt := value.toNat_lt
  simp only [UInt32.ofInt, UInt32.toUInt64_toNat, UInt32.toNat_ofNat']
  omega

theorem getTaskState_unsigned (state : TaskState) : getTaskState (.unsigned state.code.toUInt64) = .ok state := by
  have hcode : UInt8.ofInt (state.code.toUInt64.toNat : ℤ) = state.code := by
    apply UInt8.toNat_inj.mp
    have hlt := state.code.toNat_lt
    simp only [UInt8.ofInt, UInt8.toNat_toUInt64, UInt8.toNat_ofNat']
    omega
  obtain ⟨code⟩ := state
  exact congrArg (fun code ↦ Except.ok (TaskState.mk code)) hcode

theorem Json.atKey_insertAll (entries : List (String × Json)) (hkeys : (entries.map Prod.fst).Nodup) {key : String}
    {value : Json} (h : entries.lookup key = some value) :
    (Json.object (insertAll entries [])).atKey key = .ok value := by
  rw [atKey, lookup_insertAll (List.pairwise_map.mp hkeys), h]
  rfl

section

variable {ρ σ α : Type} {readers : List (Reader ρ)} {effects : List (ρ → ρ)} {j value : Json} {record : ρ}
  {key : String}

/-- What each statement does to whatever record it is given. -/
def Reads (readers : List (Reader ρ)) (j : Json) (effects : List (ρ → ρ)) : Prop :=
  List.Forall₂ (fun reader effect ↦ ∀ record, reader.read j record = .ok (effect record)) readers effects

/-- The statements make what `restored` says of whatever record they are given. -/
def Restores (readers : List (Reader ρ)) (j : Json) (restored : ρ → ρ) : Prop :=
  ∃ effects, Reads readers j effects ∧
    ∀ target, effects.foldl (fun record effect ↦ effect record) target = restored target

theorem Reads.readAll (h : Reads readers j effects) (record : ρ) :
    Wire.readAll readers j record = .ok (effects.foldl (fun record effect ↦ effect record) record) := by
  induction h generalizing record with
  | nil => rfl
  | cons hread _ ih =>
    rw [Wire.readAll, hread record]
    exact ih _

theorem Reads.accepts (h : Reads readers j effects) {reader : Reader ρ} (hmem : reader ∈ readers) (record : ρ) :
    ∃ next, reader.read j record = .ok next := by
  induction h with
  | nil => cases hmem
  | cons hread _ ih =>
    obtain rfl | hlater := List.mem_cons.mp hmem
    · exact ⟨_, hread record⟩
    · exact ih hlater

theorem Restores.readAll {restored : ρ → ρ} (h : Restores readers j restored) (target : ρ) :
    Wire.readAll readers j target = .ok (restored target) := by
  obtain ⟨effects, hreads, hrestored⟩ := h
  rw [hreads.readAll, hrestored]

theorem Restores.accepts {restored : ρ → ρ} (h : Restores readers j restored) {reader : Reader ρ}
    (hmem : reader ∈ readers) (record : ρ) : ∃ next, reader.read j record = .ok next := by
  obtain ⟨effects, hreads, -⟩ := h
  exact hreads.accepts hmem record

theorem Reader.read_member {get : Json → Except Failure α} {set : ρ → α → ρ} {read : α} (hread : get value = .ok read)
    (hvalue : j.atKey key = .ok value) (record : ρ) :
    (Reader.member key get set).read j record = .ok (set record read) := by
  simp only [Reader.read, Reader.member, hvalue, hread, Except.bind, Except.map]

theorem Reader.read_nested {nested : List (Reader σ)} {get : ρ → σ} {set : ρ → σ → ρ} {read : σ}
    (hread : ∀ target, Wire.readAll nested value target = .ok read) (hvalue : j.atKey key = .ok value) (record : ρ) :
    (Reader.nested key nested get set).read j record = .ok (set record read) := by
  simp only [Reader.read, Reader.nested, hvalue, hread, Except.bind, Except.map]

end

theorem nodup_resourceKeys : resourceKeys.Nodup := by decide

theorem nodup_shardKeys : shardKeys.Nodup := by decide

theorem nodup_taskKeys : taskKeys.Nodup := by decide

theorem restores_resource (resource : Resource) :
    Restores resourceReaders (resourceToJson resource) fun _ ↦ resource := by
  have hat {key : String} {value : Json} (h : (resourceMembers resource).lookup key = some value) :
      (resourceToJson resource).atKey key = .ok value :=
    Json.atKey_insertAll (resourceMembers resource) nodup_resourceKeys h
  refine ⟨_, .cons (Reader.read_member (getDouble_float resource.cpuCore) (hat rfl)) (.cons
    (Reader.read_member (getUInt64_unsigned resource.memMb) (hat rfl)) .nil), fun _ ↦ rfl⟩

theorem restores_shard (shard : Shard) : Restores shardReaders (shardToJson shard) fun _ ↦ shard := by
  have hat {key : String} {value : Json} (h : (shardMembers shard).lookup key = some value) :
      (shardToJson shard).atKey key = .ok value :=
    Json.atKey_insertAll (shardMembers shard) nodup_shardKeys h
  refine ⟨_, .cons (Reader.read_member (getUInt32_unsigned shard.shardId) (hat rfl)) (.cons
    (Reader.read_member (getUInt32_unsigned shard.totalShards) (hat rfl)) .nil), fun _ ↦ rfl⟩

theorem atKey_toJson {task : Task} {key : String} {value : Json} (h : (taskMembers task).lookup key = some value) :
    (toJson task).atKey key = .ok value :=
  Json.atKey_insertAll (taskMembers task) nodup_taskKeys h

theorem restores_task (task : Task) :
    Restores taskReaders (toJson task) fun target ↦ { task with cancelled := target.cancelled } := by
  have hrequired := (restores_resource task.required).readAll
  have hshard := (restores_shard task.shard).readAll
  refine ⟨_, .cons (Reader.read_member (getString_string task.taskId) (atKey_toJson rfl)) <|
    .cons (Reader.read_member (getString_string task.clientId) (atKey_toJson rfl)) <|
    .cons (Reader.read_member (getUInt32_unsigned task.priority) (atKey_toJson rfl)) <|
    .cons (Reader.read_member (getTaskState_unsigned task.state) (atKey_toJson rfl)) <|
    .cons (Reader.read_member (getString_string task.funcName) (atKey_toJson rfl)) <|
    .cons (Reader.read_member (getJson_eq task.funcParams) (atKey_toJson rfl)) <|
    .cons (Reader.read_nested hrequired (atKey_toJson rfl)) <|
    .cons (Reader.read_nested hshard (atKey_toJson rfl)) <|
    .cons (Reader.read_member (getUInt32_unsigned task.timeoutMs) (atKey_toJson rfl)) <|
    .cons (Reader.read_member (getUInt32_unsigned task.maxRetry) (atKey_toJson rfl)) <|
    .cons (Reader.read_member (getUInt32_unsigned task.retryCount) (atKey_toJson rfl)) <|
    .cons (Reader.read_member (getInt64_integer task.submitTs) (atKey_toJson rfl)) <|
    .cons (Reader.read_member (getInt64_integer task.startTs) (atKey_toJson rfl)) <|
    .cons (Reader.read_member (getInt64_integer task.finishTs) (atKey_toJson rfl)) <|
    .cons (Reader.read_member (getJson_eq task.result) (atKey_toJson rfl)) <|
    .cons (Reader.read_member (getString_string task.errorMsg) (atKey_toJson rfl)) .nil, fun _ ↦ rfl⟩

end TinyReactor.Wire
