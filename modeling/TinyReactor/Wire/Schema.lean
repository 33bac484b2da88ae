import TinyReactor.Wire.Keys
import TinyReactor.Wire.Narrowing

/-!
# The documents that `from_json` accepts

The statements of `from_json` and of the nested records come down to eighteen values, each at a path of keys. A
document is refused with the failure of the first of them that is not there or that its member does not take. Nothing
else in the document matters, and of the task that is written only `cancelled` is left.
-/

namespace TinyReactor.Wire

open Data

/-- The type of a member, as far as it decides what is read into it. -/
inductive MemberType
  | any
  | string
  | double
  | integer (type : IntegerType) (takesBoolean : Bool)
  deriving DecidableEq, Repr

namespace Json

def isString : Json → Bool
  | .string _ => true
  | _ => false

def isBoolean : Json → Bool
  | .boolean _ => true
  | _ => false

def isNumber : Json → Bool
  | .integer _ | .unsigned _ | .float _ => true
  | _ => false

/-- Only the conversion of a double can be undefined. -/
def converts (type : IntegerType) : Json → Bool
  | .float value => (type.truncate? value).isSome
  | _ => true

/-- `at` along a path of keys. -/
def atPath (j : Json) : List String → Except Failure Json
  | [] => .ok j
  | key :: path => (j.atKey key).bind fun value ↦ value.atPath path

end Json

def MemberType.refusal? (j : Json) : MemberType → Option Failure
  | .any => none
  | .string => if j.isString then none else some (wrongType "string" j)
  | .double => if j.isNumber then none else some (wrongType "number" j)
  | .integer type takesBoolean =>
    if takesBoolean && j.isBoolean then none
    else if !j.isNumber then some (wrongType "number" j)
    else if j.converts type then none else some .undefined

/-- A value that is read: where it is and what it is read into. -/
structure Leaf where
  path : List String
  type : MemberType
  deriving DecidableEq, Repr

namespace Leaf

def defect? (j : Json) (leaf : Leaf) : Option Failure :=
  match j.atPath leaf.path with
  | .error failure => some failure
  | .ok value => leaf.type.refusal? value

def under (key : String) (leaf : Leaf) : Leaf := { leaf with path := key :: leaf.path }

end Leaf

def uint32Type : MemberType := .integer .uint32 true

def int64Type : MemberType := .integer .int64 false

def resourceLeaves : List Leaf := [⟨["cpu_core"], .double⟩, ⟨["mem_mb"], .integer .uint64 false⟩]

def shardLeaves : List Leaf := [⟨["shard_id"], uint32Type⟩, ⟨["total_shards"], uint32Type⟩]

/-- The values that the statements of `from_json` read, statement by statement. -/
def statementLeaves : List (List Leaf) :=
  [[⟨["task_id"], .string⟩], [⟨["client_id"], .string⟩], [⟨["priority"], uint32Type⟩],
    [⟨["state"], .integer .uint8 false⟩], [⟨["func_name"], .string⟩], [⟨["func_params"], .any⟩],
    resourceLeaves.map (Leaf.under "required"), shardLeaves.map (Leaf.under "shard"),
    [⟨["timeout_ms"], uint32Type⟩], [⟨["max_retry"], uint32Type⟩], [⟨["retry_count"], uint32Type⟩],
    [⟨["submit_ts"], int64Type⟩], [⟨["start_ts"], int64Type⟩], [⟨["finish_ts"], int64Type⟩], [⟨["result"], .any⟩],
    [⟨["error_msg"], .string⟩]]

def taskLeaves : List Leaf := statementLeaves.flatten

def firstDefect? (leaves : List Leaf) (j : Json) : Option Failure := leaves.findSome? fun leaf ↦ leaf.defect? j

/-- The documents have the same values at the paths, or fail to have one in the same way. -/
def AgreeOn (leaves : List Leaf) (j j' : Json) : Prop := ∀ leaf ∈ leaves, j.atPath leaf.path = j'.atPath leaf.path

/-! ## One value -/

def failure? {α : Type} : Except Failure α → Option Failure
  | .error failure => some failure
  | .ok _ => none

section

variable {ρ σ α β : Type} {j j' : Json} {key : String} {leaves : List Leaf}

theorem failure?_eq_some_iff {reading : Except Failure α} {failure : Failure} :
    failure? reading = some failure ↔ reading = .error failure := by
  cases reading with
  | error found => simp only [failure?, Option.some.injEq, Except.error.injEq]
  | ok read => simp only [failure?, reduceCtorEq]

theorem failure?_map (reading : Except Failure α) (f : α → β) : failure? (reading.map f) = failure? reading := by
  cases reading <;> rfl

theorem failure?_getString (j : Json) : failure? (getString j) = MemberType.string.refusal? j := by
  cases j <;> rfl

theorem failure?_getJson (j : Json) : failure? (getJson j) = MemberType.any.refusal? j := rfl

theorem failure?_getDouble (j : Json) : failure? (getDouble j) = MemberType.double.refusal? j := by
  cases j <;> rfl

theorem failure?_getArithmeticValue (type : IntegerType) (cast : ℤ → α) (j : Json) :
    failure? (getArithmeticValue type cast j) = (MemberType.integer type false).refusal? j := by
  cases j with
  | float value =>
    cases htruncate : type.truncate? value with
    | none => simp [getArithmeticValue, MemberType.refusal?, Json.isNumber, Json.converts, htruncate, failure?]
    | some whole => simp [getArithmeticValue, MemberType.refusal?, Json.isNumber, Json.converts, htruncate, failure?]
  | _ => rfl

theorem failure?_getTaskState (j : Json) :
    failure? (getTaskState j) = (MemberType.integer .uint8 false).refusal? j := by
  rw [getTaskState, failure?_map]
  exact failure?_getArithmeticValue .uint8 UInt8.ofInt j

theorem failure?_getUInt32 (j : Json) : failure? (getUInt32 j) = uint32Type.refusal? j := by
  cases j with
  | boolean value => rfl
  | float value => exact failure?_getArithmeticValue .uint32 UInt32.ofInt (.float value)
  | _ => rfl

/-! ## What a reading depends on -/

/-- A reading that fails as the first of the values does, and depends on nothing else. -/
structure Follows (leaves : List Leaf) (reading : Json → ρ → Except Failure ρ) : Prop where
  failure : ∀ j record, failure? (reading j record) = firstDefect? leaves j
  congr : ∀ j j' record, AgreeOn leaves j j' → reading j record = reading j' record

theorem AgreeOn.mono {leaves' : List Leaf} (hsubset : leaves ⊆ leaves') (h : AgreeOn leaves' j j') :
    AgreeOn leaves j j' := by
  intro leaf hmem
  exact h leaf (hsubset hmem)

theorem AgreeOn.firstDefect? (h : AgreeOn leaves j j') : firstDefect? leaves j = Wire.firstDefect? leaves j' := by
  induction leaves with
  | nil => rfl
  | cons leaf leaves ih =>
    have hleaf : leaf.defect? j = leaf.defect? j' := by
      rw [Leaf.defect?, Leaf.defect?, h leaf List.mem_cons_self]
    have hrest := ih (h.mono (List.subset_cons_self _ _))
    simp only [Wire.firstDefect?, List.findSome?_cons, hleaf] at hrest ⊢
    rw [hrest]

theorem Json.atPath_singleton (j : Json) (key : String) : j.atPath [key] = j.atKey key := by
  rw [atPath]
  cases j.atKey key <;> rfl

theorem Reader.follows_member {get : Json → Except Failure α} (set : ρ → α → ρ) {type : MemberType} (key : String)
    (hget : ∀ j, failure? (get j) = type.refusal? j) :
    Follows [⟨[key], type⟩] (Reader.member key get set).read := by
  refine ⟨fun j record ↦ ?_, fun j j' record hagree ↦ ?_⟩
  · rw [firstDefect?, List.findSome?_singleton, Leaf.defect?, Json.atPath_singleton, Reader.read]
    change failure? ((j.atKey key).bind fun value ↦ (get value).map (set record)) = _
    cases j.atKey key with
    | error failure => rfl
    | ok value => exact (failure?_map _ _).trans (hget value)
  · have hat := hagree _ (List.mem_singleton.mpr rfl)
    rw [Json.atPath_singleton, Json.atPath_singleton] at hat
    exact Reader.read_congr hat record

theorem firstDefect?_under (hne : leaves ≠ []) (j : Json) (key : String) :
    firstDefect? (leaves.map (Leaf.under key)) j =
      match j.atKey key with
      | .error failure => some failure
      | .ok value => firstDefect? leaves value := by
  obtain ⟨first, rest, rfl⟩ := List.exists_cons_of_ne_nil hne
  have hdefect (leaf : Leaf) : (leaf.under key).defect? j =
      match j.atKey key with
      | .error failure => some failure
      | .ok value => leaf.defect? value := by
    rw [Leaf.defect?, Leaf.under, Json.atPath]
    cases j.atKey key <;> rfl
  rw [firstDefect?, List.findSome?_map]
  cases hat : j.atKey key with
  | error failure => simp only [List.findSome?_cons, Function.comp, hdefect, hat]
  | ok value => simp only [firstDefect?, Function.comp_def, hdefect, hat]

theorem Reader.read_nested_eq (nested : List (Reader σ)) (get : ρ → σ) (set : ρ → σ → ρ) (key : String) (j : Json)
    (record : ρ) : (Reader.nested key nested get set).read j record =
      (j.atKey key).bind fun value ↦ (readAll nested value (get record)).map (set record) := rfl

/-- If the nested record is not found the first of its values already shows it. -/
theorem Reader.follows_nested {nested : List (Reader σ)} (get : ρ → σ) (set : ρ → σ → ρ) (key : String)
    (hne : leaves ≠ []) (h : Follows leaves (readAll nested)) :
    Follows (leaves.map (Leaf.under key)) (Reader.nested key nested get set).read := by
  have hfailure (j : Json) (record : ρ) : failure? ((Reader.nested key nested get set).read j record) =
      firstDefect? (leaves.map (Leaf.under key)) j := by
    rw [firstDefect?_under hne, read_nested_eq]
    cases j.atKey key with
    | error failure => rfl
    | ok value => exact (failure?_map _ _).trans (h.failure value _)
  refine ⟨hfailure, fun j j' record hagree ↦ ?_⟩
  have hsame := (hfailure j record).trans (hagree.firstDefect?.trans (hfailure j' record).symm)
  rw [read_nested_eq, read_nested_eq] at hsame ⊢
  cases hat : j.atKey key with
  | error failure =>
    rw [hat] at hsame
    exact (failure?_eq_some_iff.mp hsame.symm).symm
  | ok value =>
    cases hat' : j'.atKey key with
    | error failure =>
      rw [hat'] at hsame
      rw [← hat]
      exact failure?_eq_some_iff.mp hsame
    | ok value' =>
      have hvalues : AgreeOn leaves value value' := by
        intro leaf hmem
        have hleaf : (j.atKey key).bind (fun value ↦ value.atPath leaf.path) =
          (j'.atKey key).bind fun value ↦ value.atPath leaf.path := hagree _ (List.mem_map_of_mem hmem)
        rw [hat, hat'] at hleaf
        exact hleaf
      exact congrArg (Except.map (set record)) (h.congr value value' (get record) hvalues)

theorem follows_readAll {readers : List (Reader ρ)} {groups : List (List Leaf)}
    (h : List.Forall₂ (fun reader leaves ↦ Follows leaves (Reader.read reader)) readers groups) :
    Follows groups.flatten (readAll readers) := by
  induction h with
  | nil => exact ⟨fun _ _ ↦ rfl, fun _ _ _ _ ↦ rfl⟩
  | @cons reader leaves readers groups hreader _ ih =>
    refine ⟨fun j record ↦ ?_, fun j j' record hagree ↦ ?_⟩
    · have hfirst := hreader.failure j record
      rw [List.flatten_cons, firstDefect?, List.findSome?_append, readAll]
      change _ = (firstDefect? leaves j).or (firstDefect? groups.flatten j)
      rw [← hfirst]
      cases reader.read j record with
      | error failure => rfl
      | ok next => exact ih.failure j next
    · rw [List.flatten_cons] at hagree
      rw [readAll, readAll, hreader.congr _ _ _ (hagree.mono (List.subset_append_left _ _))]
      congr 1
      funext next
      exact ih.congr _ _ _ (hagree.mono (List.subset_append_right _ _))

end

theorem follows_resource : Follows resourceLeaves (readAll resourceReaders) :=
  follows_readAll (.cons (Reader.follows_member _ "cpu_core" failure?_getDouble) <|
    .cons (Reader.follows_member _ "mem_mb" (failure?_getArithmeticValue .uint64 UInt64.ofInt)) .nil)

theorem follows_shard : Follows shardLeaves (readAll shardReaders) :=
  follows_readAll (.cons (Reader.follows_member _ "shard_id" failure?_getUInt32) <|
    .cons (Reader.follows_member _ "total_shards" failure?_getUInt32) .nil)

theorem follows_fromJson : Follows taskLeaves fromJson := by
  have hint64 := failure?_getArithmeticValue .int64 Int64.ofInt
  exact follows_readAll (
    .cons (Reader.follows_member _ "task_id" failure?_getString) <|
    .cons (Reader.follows_member _ "client_id" failure?_getString) <|
    .cons (Reader.follows_member _ "priority" failure?_getUInt32) <|
    .cons (Reader.follows_member _ "state" failure?_getTaskState) <|
    .cons (Reader.follows_member _ "func_name" failure?_getString) <|
    .cons (Reader.follows_member _ "func_params" failure?_getJson) <|
    .cons (Reader.follows_nested _ _ "required" (List.cons_ne_nil _ _) follows_resource) <|
    .cons (Reader.follows_nested _ _ "shard" (List.cons_ne_nil _ _) follows_shard) <|
    .cons (Reader.follows_member _ "timeout_ms" failure?_getUInt32) <|
    .cons (Reader.follows_member _ "max_retry" failure?_getUInt32) <|
    .cons (Reader.follows_member _ "retry_count" failure?_getUInt32) <|
    .cons (Reader.follows_member _ "submit_ts" hint64) <|
    .cons (Reader.follows_member _ "start_ts" hint64) <|
    .cons (Reader.follows_member _ "finish_ts" hint64) <|
    .cons (Reader.follows_member _ "result" failure?_getJson) <|
    .cons (Reader.follows_member _ "error_msg" failure?_getString) .nil)

/-! ## What is left of the task that is written -/

section

variable {ρ σ α : Type} {readers : List (Reader ρ)} {j : Json} {record final : ρ} {key : String}

/-- A statement that succeeds once sets the same value in whatever record it is given. -/
theorem readAll_member_uniform {get : Json → Except Failure α} {set : ρ → α → ρ}
    (h : readAll (.member key get set :: readers) j record = .ok final) :
    ∃ read, (∀ other, (Reader.member key get set).read j other = .ok (set other read)) ∧
      readAll readers j (set record read) = .ok final := by
  obtain ⟨next, hread, hrest⟩ := exists_read_of_bind h
  obtain ⟨value, hat, hget⟩ := exists_read_of_bind hread
  obtain ⟨read, hvalue, rfl⟩ := exists_read_of_map hget
  exact ⟨read, Reader.read_member hvalue hat, hrest⟩

/-- The readers set every member of the record. -/
def Overwrites (readers : List (Reader ρ)) : Prop :=
  ∀ j record final, readAll readers j record = .ok final → ∀ other, readAll readers j other = .ok final

theorem readAll_nested_uniform {nested : List (Reader σ)} {get : ρ → σ} {set : ρ → σ → ρ}
    (hnested : Overwrites nested) (h : readAll (.nested key nested get set :: readers) j record = .ok final) :
    ∃ read, (∀ other, (Reader.nested key nested get set).read j other = .ok (set other read)) ∧
      readAll readers j (set record read) = .ok final := by
  obtain ⟨next, hread, hrest⟩ := exists_read_of_bind h
  obtain ⟨value, hat, hget⟩ := exists_read_of_bind hread
  obtain ⟨read, hvalue, rfl⟩ := exists_read_of_map hget
  exact ⟨read, Reader.read_nested (hnested value _ read hvalue) hat, hrest⟩

end

theorem overwrites_resource : Overwrites resourceReaders := by
  intro j record final h other
  obtain ⟨_, hcpuCore, h⟩ := readAll_member_uniform h
  obtain ⟨_, hmemMb, h⟩ := readAll_member_uniform h
  rw [← h]
  exact Reads.readAll (.cons hcpuCore (.cons hmemMb .nil)) other

theorem overwrites_shard : Overwrites shardReaders := by
  intro j record final h other
  obtain ⟨_, hshardId, h⟩ := readAll_member_uniform h
  obtain ⟨_, htotalShards, h⟩ := readAll_member_uniform h
  rw [← h]
  exact Reads.readAll (.cons hshardId (.cons htotalShards .nil)) other

theorem fromJson_overwrites {j : Json} {target task : Task} (h : fromJson j target = .ok task) (other : Task) :
    fromJson j other = .ok { task with cancelled := other.cancelled } := by
  obtain ⟨_, htaskId, h⟩ := readAll_member_uniform h
  obtain ⟨_, hclientId, h⟩ := readAll_member_uniform h
  obtain ⟨_, hpriority, h⟩ := readAll_member_uniform h
  obtain ⟨_, hstate, h⟩ := readAll_member_uniform h
  obtain ⟨_, hfuncName, h⟩ := readAll_member_uniform h
  obtain ⟨_, hfuncParams, h⟩ := readAll_member_uniform h
  obtain ⟨_, hrequired, h⟩ := readAll_nested_uniform overwrites_resource h
  obtain ⟨_, hshard, h⟩ := readAll_nested_uniform overwrites_shard h
  obtain ⟨_, htimeoutMs, h⟩ := readAll_member_uniform h
  obtain ⟨_, hmaxRetry, h⟩ := readAll_member_uniform h
  obtain ⟨_, hretryCount, h⟩ := readAll_member_uniform h
  obtain ⟨_, hsubmitTs, h⟩ := readAll_member_uniform h
  obtain ⟨_, hstartTs, h⟩ := readAll_member_uniform h
  obtain ⟨_, hfinishTs, h⟩ := readAll_member_uniform h
  obtain ⟨_, hresult, h⟩ := readAll_member_uniform h
  obtain ⟨_, herrorMsg, h⟩ := readAll_member_uniform h
  have hread := Reads.readAll (.cons htaskId <| .cons hclientId <| .cons hpriority <| .cons hstate <|
    .cons hfuncName <| .cons hfuncParams <| .cons hrequired <| .cons hshard <| .cons htimeoutMs <|
    .cons hmaxRetry <| .cons hretryCount <| .cons hsubmitTs <| .cons hstartTs <| .cons hfinishTs <|
    .cons hresult <| .cons herrorMsg .nil) other
  rw [← Except.ok.inj h]
  exact hread

/-- For every document: `from_json` fails exactly with the failure of the first of the eighteen values that is missing
or not taken; if it succeeds it does so whatever it writes to, and leaves only `cancelled` of that; and it depends on
nothing in the document but the eighteen values. -/
theorem fromJson_decides (j : Json) (target : Task) :
    (∀ failure, fromJson j target = .error failure ↔ firstDefect? taskLeaves j = some failure) ∧
      (∀ task, fromJson j target = .ok task → ∀ other,
        fromJson j other = .ok { task with cancelled := other.cancelled }) ∧
      ∀ j', AgreeOn taskLeaves j j' → fromJson j target = fromJson j' target := by
  refine ⟨fun failure ↦ ?_, fun task h other ↦ fromJson_overwrites h other, fun j' ↦
    follows_fromJson.congr j j' target⟩
  rw [← follows_fromJson.failure j target, failure?_eq_some_iff]

/-- The first statement of the nested record is the one that fails. -/
example : firstDefect? taskLeaves ((toJson {}).assign "shard" (.string "0/4")) =
    some (.typeError "[json.exception.type_error.304] cannot use at() with string") := by
  rfl

end TinyReactor.Wire
