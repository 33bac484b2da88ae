import TinyReactor.Wire.Conversion
import TinyReactor.Wire.JsonForm

/-!
# Integers that do not fit

Both decoders store the integers of their input by a `static_cast` to the type of the member. The cast keeps the
residue modulo the number of values of the type, so that an integer survives exactly when the type has it. From a
protobuf message only the state can be out of range, its enumeration being open; from a JSON document every integer
can, since the library keeps each in 64 bits.
-/

namespace TinyReactor.Wire

open Data

namespace IntegerType

/-- What `static_cast` makes of an integer: the value of the type with the same residue. -/
def residue (type : IntegerType) (value : ℤ) : ℤ := type.low + (value - type.low) % 2 ^ type.bits

theorem residue_eq_self_iff (type : IntegerType) (value : ℤ) : type.residue value = value ↔ type.Fits value := by
  have hpos : (0 : ℤ) < 2 ^ type.bits := by positivity
  unfold residue Fits
  constructor
  · intro heq
    have hnonneg := Int.emod_nonneg (value - type.low) hpos.ne'
    have hlt := Int.emod_lt_of_pos (value - type.low) hpos
    omega
  · rintro ⟨hlow, hhigh⟩
    rw [Int.emod_eq_of_lt (by omega) (by omega)]
    omega

theorem toNat_ofInt_uint8 (value : ℤ) : ((UInt8.ofInt value).toNat : ℤ) = uint8.residue value := by
  simp only [UInt8.ofInt, UInt8.toNat_ofNat', residue, uint8]
  omega

theorem toNat_ofInt_uint32 (value : ℤ) : ((UInt32.ofInt value).toNat : ℤ) = uint32.residue value := by
  simp only [UInt32.ofInt, UInt32.toNat_ofNat', residue, uint32]
  omega

theorem toNat_ofInt_uint64 (value : ℤ) : ((UInt64.ofInt value).toNat : ℤ) = uint64.residue value := by
  simp only [UInt64.ofInt, UInt64.toNat_ofNat', residue, uint64]
  omega

theorem toInt_ofInt_int64 (value : ℤ) : (Int64.ofInt value).toInt = int64.residue value := by
  rw [Int64.toInt_ofInt, Int.bmod_def]
  simp only [residue, int64, Int64.size]
  omega

end IntegerType

/-- An integer member of a task: where the JSON form has it, and its type and value. -/
structure IntegerField where
  path : List String
  type : IntegerType
  ofTask : Task → ℤ
  ofProto : PbTask → ℤ

def integerFields : List IntegerField :=
  [⟨["priority"], .uint32, fun task ↦ task.priority.toNat, fun proto ↦ proto.priority.toNat⟩,
    ⟨["state"], .uint8, fun task ↦ task.state.code.toNat, fun proto ↦ proto.state.toInt⟩,
    ⟨["required", "mem_mb"], .uint64, fun task ↦ task.required.memMb.toNat,
      fun proto ↦ (proto.required.getD {}).memMb.toNat⟩,
    ⟨["shard", "shard_id"], .uint32, fun task ↦ task.shard.shardId.toNat,
      fun proto ↦ (proto.shard.getD {}).shardId.toNat⟩,
    ⟨["shard", "total_shards"], .uint32, fun task ↦ task.shard.totalShards.toNat,
      fun proto ↦ (proto.shard.getD {}).totalShards.toNat⟩,
    ⟨["timeout_ms"], .uint32, fun task ↦ task.timeoutMs.toNat, fun proto ↦ proto.timeoutMs.toNat⟩,
    ⟨["max_retry"], .uint32, fun task ↦ task.maxRetry.toNat, fun proto ↦ proto.maxRetry.toNat⟩,
    ⟨["retry_count"], .uint32, fun task ↦ task.retryCount.toNat, fun proto ↦ proto.retryCount.toNat⟩,
    ⟨["submit_ts"], .int64, fun task ↦ task.submitTs.toInt, fun proto ↦ proto.submitTs.toInt⟩,
    ⟨["start_ts"], .int64, fun task ↦ task.startTs.toInt, fun proto ↦ proto.startTs.toInt⟩,
    ⟨["finish_ts"], .int64, fun task ↦ task.finishTs.toInt, fun proto ↦ proto.finishTs.toInt⟩]

namespace Json

/-- The value at the end of a path of keys. -/
def follow? (j : Json) : List String → Option Json
  | [] => some j
  | key :: path => (j.atKey key).toOption.bind fun value ↦ value.follow? path

/-- The integer that a number is; a literal that 64 bits cannot hold is kept as a double. -/
def integer? : Json → Option ℤ
  | .integer value => some value.toInt
  | .unsigned value => some value.toNat
  | .float value => value.toRat?.bind fun rational ↦ if rational.den = 1 then some rational.num else none
  | _ => none

end Json

/-- The integer that the document carries for a member. -/
def IntegerField.carried? (field : IntegerField) (j : Json) : Option ℤ := (j.follow? field.path).bind Json.integer?

/-! ## One member -/

theorem exists_read_of_bind {α β : Type} {reading : Except Failure α} {f : α → Except Failure β} {result : β}
    (h : reading.bind f = .ok result) : ∃ read, reading = .ok read ∧ f read = .ok result := by
  cases reading with
  | error failure => cases h
  | ok read => exact ⟨read, rfl, h⟩

theorem exists_read_of_map {α β : Type} {reading : Except Failure α} {f : α → β} {result : β}
    (h : reading.map f = .ok result) : ∃ read, reading = .ok read ∧ f read = result := by
  cases reading with
  | error failure => cases h
  | ok read => exact ⟨read, rfl, Except.ok.inj h⟩

theorem getArithmeticValue_residue {α : Type} {type : IntegerType} {cast : ℤ → α} (uncast : α → ℤ)
    (hcast : ∀ value, uncast (cast value) = type.residue value) {j : Json} {read : α} {value : ℤ}
    (hvalue : j.integer? = some value) (hread : getArithmeticValue type cast j = .ok read) :
    uncast read = type.residue value := by
  cases j with
  | integer number =>
    cases hread
    cases hvalue
    exact hcast _
  | unsigned number =>
    cases hread
    cases hvalue
    exact hcast _
  | float number =>
    -- a double that is an integer is its own truncation
    obtain ⟨rational, hrational, hwhole⟩ := Option.bind_eq_some_iff.mp hvalue
    obtain ⟨hden, hnum⟩ := Option.ite_none_right_eq_some.mp hwhole
    obtain rfl := Option.some.inj hnum
    have htruncate : type.truncate? number = if type.Fits rational.num then some rational.num else none := by
      rw [IntegerType.truncate?, hrational, Option.bind_some, hden, Nat.cast_one, Int.tdiv_one]
    rw [getArithmeticValue, htruncate] at hread
    by_cases hfits : type.Fits rational.num
    · rw [if_pos hfits] at hread
      cases hread
      exact hcast _
    · rw [if_neg hfits] at hread
      cases hread
  | _ => cases hvalue

theorem getUInt32_residue {j : Json} {read : UInt32} {value : ℤ} (hread : getUInt32 j = .ok read)
    (hvalue : j.integer? = some value) : (read.toNat : ℤ) = IntegerType.uint32.residue value := by
  cases j with
  | boolean flag => cases hvalue
  | _ => exact getArithmeticValue_residue (fun read ↦ read.toNat) IntegerType.toNat_ofInt_uint32 hvalue hread

theorem getUInt64_residue {j : Json} {read : UInt64} {value : ℤ} (hread : getUInt64 j = .ok read)
    (hvalue : j.integer? = some value) : (read.toNat : ℤ) = IntegerType.uint64.residue value :=
  getArithmeticValue_residue (fun read ↦ read.toNat) IntegerType.toNat_ofInt_uint64 hvalue hread

theorem getInt64_residue {j : Json} {read : Int64} {value : ℤ} (hread : getInt64 j = .ok read)
    (hvalue : j.integer? = some value) : read.toInt = IntegerType.int64.residue value :=
  getArithmeticValue_residue Int64.toInt IntegerType.toInt_ofInt_int64 hvalue hread

theorem getTaskState_residue {j : Json} {read : TaskState} {value : ℤ} (hread : getTaskState j = .ok read)
    (hvalue : j.integer? = some value) : (read.code.toNat : ℤ) = IntegerType.uint8.residue value := by
  obtain ⟨code, hcode, rfl⟩ := exists_read_of_map hread
  exact getArithmeticValue_residue (fun code ↦ code.toNat) IntegerType.toNat_ofInt_uint8 hvalue hcode

/-! ## All members -/

section

variable {ρ σ α : Type} {readers : List (Reader ρ)} {reader : Reader ρ} {j : Json} {record final : ρ} {key : String}

/-- The first statement finds its key, reads the value there and sets the member; the others go on from that. -/
theorem readAll_cons_ok {reading : Json → Except Failure α} {set : α → ρ}
    (hgetTo : ∀ value, reader.getTo value record = (reading value).map set)
    (h : readAll (reader :: readers) j record = .ok final) :
    ∃ value read, (∀ path, j.follow? (reader.key :: path) = value.follow? path) ∧ reading value = .ok read ∧
      readAll readers j (set read) = .ok final := by
  obtain ⟨next, hread, hrest⟩ := exists_read_of_bind h
  obtain ⟨value, hat, hget⟩ := exists_read_of_bind hread
  rw [hgetTo] at hget
  obtain ⟨read, hvalue, rfl⟩ := exists_read_of_map hget
  refine ⟨value, read, fun path ↦ ?_, hvalue, hrest⟩
  rw [Json.follow?, hat]
  rfl

theorem readAll_member_ok {get : Json → Except Failure α} {set : ρ → α → ρ}
    (h : readAll (.member key get set :: readers) j record = .ok final) :
    ∃ value read, j.follow? [key] = some value ∧ get value = .ok read ∧
      readAll readers j (set record read) = .ok final := by
  obtain ⟨value, read, hpath, hvalue, hrest⟩ := readAll_cons_ok (fun _ ↦ rfl) h
  exact ⟨value, read, hpath [], hvalue, hrest⟩

theorem readAll_nested_ok {nested : List (Reader σ)} {get : ρ → σ} {set : ρ → σ → ρ}
    (h : readAll (.nested key nested get set :: readers) j record = .ok final) :
    ∃ value read, (∀ path, j.follow? (key :: path) = value.follow? path) ∧
      readAll nested value (get record) = .ok read ∧ readAll readers j (set record read) = .ok final :=
  readAll_cons_ok (fun _ ↦ rfl) h

end

/-- The member of the decoded task is the residue of the integer that the document carries. -/
def IntegerField.Narrowed (field : IntegerField) (j : Json) (task : Task) : Prop :=
  ∀ value, field.carried? j = some value → field.ofTask task = field.type.residue value

theorem IntegerField.Narrowed.of_found {field : IntegerField} {j found : Json} {task : Task}
    (hfound : j.follow? field.path = some found)
    (h : ∀ value, found.integer? = some value → field.ofTask task = field.type.residue value) :
    field.Narrowed j task := by
  intro value hvalue
  rw [carried?, hfound, Option.bind_some] at hvalue
  exact h value hvalue

theorem memMb_of_readAll {j : Json} {target resource : Resource}
    (h : readAll resourceReaders j target = .ok resource) :
    ∃ found, j.follow? ["mem_mb"] = some found ∧ getUInt64 found = .ok resource.memMb := by
  obtain ⟨_, _, -, -, h⟩ := readAll_member_ok h
  obtain ⟨found, memMb, hfound, hmemMb, h⟩ := readAll_member_ok h
  obtain rfl := Except.ok.inj h
  exact ⟨found, hfound, hmemMb⟩

theorem members_of_readAll_shard {j : Json} {target shard : Shard} (h : readAll shardReaders j target = .ok shard) :
    (∃ found, j.follow? ["shard_id"] = some found ∧ getUInt32 found = .ok shard.shardId) ∧
      ∃ found, j.follow? ["total_shards"] = some found ∧ getUInt32 found = .ok shard.totalShards := by
  obtain ⟨found, shardId, hfound, hshardId, h⟩ := readAll_member_ok h
  obtain ⟨found', totalShards, hfound', htotalShards, h⟩ := readAll_member_ok h
  obtain rfl := Except.ok.inj h
  exact ⟨⟨found, hfound, hshardId⟩, found', hfound', htotalShards⟩

theorem narrowed_of_fromJson {j : Json} {target task : Task} (h : fromJson j target = .ok task) :
    ∀ field ∈ integerFields, field.Narrowed j task := by
  obtain ⟨_, _, -, -, h⟩ := readAll_member_ok h
  obtain ⟨_, _, -, -, h⟩ := readAll_member_ok h
  obtain ⟨_, priority, hpriority, hpriority', h⟩ := readAll_member_ok h
  obtain ⟨_, state, hstate, hstate', h⟩ := readAll_member_ok h
  obtain ⟨_, _, -, -, h⟩ := readAll_member_ok h
  obtain ⟨_, _, -, -, h⟩ := readAll_member_ok h
  obtain ⟨_, required, hrequired, hrequired', h⟩ := readAll_nested_ok h
  obtain ⟨_, shard, hshard, hshard', h⟩ := readAll_nested_ok h
  obtain ⟨_, timeoutMs, htimeoutMs, htimeoutMs', h⟩ := readAll_member_ok h
  obtain ⟨_, maxRetry, hmaxRetry, hmaxRetry', h⟩ := readAll_member_ok h
  obtain ⟨_, retryCount, hretryCount, hretryCount', h⟩ := readAll_member_ok h
  obtain ⟨_, submitTs, hsubmitTs, hsubmitTs', h⟩ := readAll_member_ok h
  obtain ⟨_, startTs, hstartTs, hstartTs', h⟩ := readAll_member_ok h
  obtain ⟨_, finishTs, hfinishTs, hfinishTs', h⟩ := readAll_member_ok h
  obtain ⟨_, _, -, -, h⟩ := readAll_member_ok h
  obtain ⟨_, _, -, -, h⟩ := readAll_member_ok h
  obtain ⟨_, hmemMb, hmemMb'⟩ := memMb_of_readAll hrequired'
  obtain ⟨⟨_, hshardId, hshardId'⟩, _, htotalShards, htotalShards'⟩ := members_of_readAll_shard hshard'
  -- the sixteen updates are kept as one equation: only the members read are computed from it
  have hmembers : (priority, state, required, shard, timeoutMs, maxRetry, retryCount, submitTs, startTs, finishTs) =
      (task.priority, task.state, task.required, task.shard, task.timeoutMs, task.maxRetry, task.retryCount,
        task.submitTs, task.startTs, task.finishTs) := by
    rw [← Except.ok.inj h]
  clear h
  cases hmembers
  simp only [integerFields, List.forall_mem_cons, List.not_mem_nil, false_implies, implies_true, and_true]
  exact ⟨.of_found hpriority fun _ ↦ getUInt32_residue hpriority',
    .of_found hstate fun _ ↦ getTaskState_residue hstate',
    .of_found ((hrequired _).trans hmemMb) fun _ ↦ getUInt64_residue hmemMb',
    .of_found ((hshard _).trans hshardId) fun _ ↦ getUInt32_residue hshardId',
    .of_found ((hshard _).trans htotalShards) fun _ ↦ getUInt32_residue htotalShards',
    .of_found htimeoutMs fun _ ↦ getUInt32_residue htimeoutMs',
    .of_found hmaxRetry fun _ ↦ getUInt32_residue hmaxRetry',
    .of_found hretryCount fun _ ↦ getUInt32_residue hretryCount',
    .of_found hsubmitTs fun _ ↦ getInt64_residue hsubmitTs',
    .of_found hstartTs fun _ ↦ getInt64_residue hstartTs',
    .of_found hfinishTs fun _ ↦ getInt64_residue hfinishTs'⟩

/-- Of a message only the state is cast. -/
theorem taskFromProto_keeps_iff (proto : PbTask) :
    (∀ field ∈ integerFields, field.ofTask (taskFromProto proto) = field.ofProto proto) ↔
      0 ≤ proto.state.toInt ∧ proto.state.toInt ≤ 255 := by
  have hcast : (((taskFromProto proto).state.code.toNat : ℕ) : ℤ) = IntegerType.uint8.residue proto.state.toInt :=
    IntegerType.toNat_ofInt_uint8 proto.state.toInt
  have hfits := IntegerType.residue_eq_self_iff .uint8 proto.state.toInt
  simp only [IntegerType.Fits, IntegerType.uint8] at hfits
  simp only [integerFields, List.forall_mem_cons, List.not_mem_nil, false_implies, implies_true, and_true]
  constructor
  · rintro ⟨-, hstate, -⟩
    have := hfits.mp (hcast.symm.trans hstate)
    omega
  · intro hrange
    exact ⟨rfl, hcast.trans (hfits.mpr (by omega)), rfl, rfl, rfl, rfl, rfl, rfl, rfl, rfl, rfl⟩

/-- A decoded task has the integers of its input exactly when they fit: for a message this is a matter of the
state, for an accepted document of every integer that it carries. -/
theorem decoding_keeps_integers_iff (proto : PbTask) (j : Json) (target : Task) :
    ((∀ field ∈ integerFields, field.ofTask (taskFromProto proto) = field.ofProto proto) ↔
        0 ≤ proto.state.toInt ∧ proto.state.toInt ≤ 255) ∧
      ∀ task, fromJson j target = .ok task →
        ((∀ field ∈ integerFields, ∀ value, field.carried? j = some value → field.ofTask task = value) ↔
          ∀ field ∈ integerFields, ∀ value, field.carried? j = some value → field.type.Fits value) := by
  refine ⟨taskFromProto_keeps_iff proto, fun task htask ↦ ?_⟩
  refine forall₂_congr fun field hmem ↦ forall₂_congr fun value hvalue ↦ ?_
  rw [narrowed_of_fromJson htask field hmem value hvalue, IntegerType.residue_eq_self_iff]

/-- The form of the default task with another priority. -/
def priorityForm (priority : UInt64) : Json := (toJson {}).assign "priority" (.unsigned priority)

/-- The state 256 becomes `PENDING`, and the priority `2 ^ 32` becomes zero. -/
theorem decoding_changes_integers :
    (taskFromProto { state := 256 }).state = .pending ∧
      (¬∀ field ∈ integerFields, field.ofTask (taskFromProto { state := 256 }) = field.ofProto { state := 256 }) ∧
      ∃ task, fromJson (priorityForm 4294967296) {} = .ok task ∧ task.priority = 0 ∧
        ∃ field ∈ integerFields, field.carried? (priorityForm 4294967296) = some 4294967296 ∧
          field.ofTask task = 0 := by
  refine ⟨by decide, fun hkept ↦ ?_, _, rfl, rfl, _, List.mem_cons_self, rfl, rfl⟩
  rw [taskFromProto_keeps_iff] at hkept
  exact absurd hkept.2 (by decide)

end TinyReactor.Wire
