import TinyReactor.Wire.Json

/-!
# Tasks

The records of `src/common/include/task.hpp` with their default member initialisers.
-/

namespace TinyReactor.Wire

open Data

/-- `enum class TaskState : std::uint8_t`. A fixed underlying type makes every `uint8_t` a value of
the enumeration; the named ones are below. -/
structure TaskState where
  code : UInt8
  deriving DecidableEq, Repr

namespace TaskState

def pending : TaskState := ⟨0⟩
def running : TaskState := ⟨1⟩
def success : TaskState := ⟨2⟩
def failed : TaskState := ⟨3⟩
def timeout : TaskState := ⟨4⟩
def cancelled : TaskState := ⟨5⟩

end TaskState

theorem isBinary64_zero : IsBinary64 0 := ⟨0, 0, by decide, by decide, by decide, by simp⟩

structure Resource where
  cpuCore : Binary64 := .finite 0 isBinary64_zero
  memMb : UInt64 := 0

structure Shard where
  shardId : UInt32 := 0
  totalShards : UInt32 := 1

/-- A task. `cancelled` is the value of the flag behind the `shared_ptr`; it is local to the process
and no conversion reads it. -/
structure Task where
  taskId : String := ""
  clientId : String := ""
  priority : UInt32 := 0
  state : TaskState := .pending
  cancelled : Bool := false
  funcName : String := ""
  funcParams : Json := .null
  required : Resource := {}
  shard : Shard := {}
  timeoutMs : UInt32 := 30000
  maxRetry : UInt32 := 3
  retryCount : UInt32 := 0
  submitTs : Int64 := 0
  startTs : Int64 := 0
  finishTs : Int64 := 0
  result : Json := .null
  errorMsg : String := ""

end TinyReactor.Wire
