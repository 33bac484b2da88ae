import TinyReactor.ApiServer.Model
import TinyReactor.GrpcClient.Model

/-!
# Synchronous calls to the server

`submit_task_sync` of `src/common/src/grpc_client.cpp` on one side and `AsyncServer` on the other, with gRPC between
them. A call sends the message of its task and blocks; the server's queues deliver the message to a registered
context, and what the context passes to `Finish` goes back to the call that the message came from. At any time a call
may be given up with a status that is not `OK`: the deadline of five seconds, a lost connection, a cancellation.
Requests of other clients reach the same server.
-/

namespace TinyReactor.Rpc

open Wire

/-- `submit_task_sync`, with what `SubmitTask` of the stub returns and what it leaves in `resp`. -/
def submitTaskSync (stub : Bool) (status : GrpcClient.Status) (resp : ApiServer.TaskResponse) :
    Except GrpcClient.Status Task :=
  if !stub then .error ⟨.unavailable, "channel not created / connection refused"⟩
  else if !status.ok then .error status
  else .ok (taskFromProto (resp.task.getD {}))

/-- Where a call stands in `SubmitTask`: its request is on the way, a context has it, the response is on the way
back, or `submit_task_sync` has returned or thrown. -/
inductive CallPc
  | sent
  | served (tag : ApiServer.ContextId)
  | answered (response : ApiServer.TaskResponse)
  | returned (result : Except GrpcClient.Status Task)

def CallPc.isSent : CallPc → Bool
  | .sent => true
  | _ => false

def CallPc.isReturned : CallPc → Bool
  | .returned _ => true
  | _ => false

/-- A call of `submit_task_sync`. -/
structure Call where
  task : Task
  pc : CallPc := .sent

/-- A thread calls `submit_task_sync`; without a stub it throws at once. -/
def Call.enter (stub : Bool) (task : Task) : Call where
  task := task
  pc := if stub then .sent else .returned (submitTaskSync false {} {})

/-- The response of the context arrives at the call that it serves. -/
def Call.answer (tag : ApiServer.ContextId) (response : ApiServer.TaskResponse) (call : Call) : Call :=
  match call.pc with
  | .served serving => if serving = tag then { call with pc := .answered response } else call
  | _ => call

/-- The server and the calls of all its clients. -/
structure Network where
  server : ApiServer.AsyncServer
  calls : List Call := []

/-- What happens next. `accept` is a return of `Next` with the request of a call, `server` any other step of the
server. -/
inductive Action
  | call (stub : Bool) (task : Task)
  | accept (index driver : ℕ) (op : ApiServer.Op)
  | server (action : ApiServer.Action)
  | reply (index : ℕ)
  | fail (index : ℕ) (status : GrpcClient.Status)

/-- The response that the step passes to `Finish`, with the context that does so. -/
def finishing? (server : ApiServer.AsyncServer) :
    ApiServer.Action → Option (ApiServer.ContextId × ApiServer.TaskResponse)
  | .proceed driver =>
      match server.drivers[driver]? with
      | some (.proceed _ tag true) =>
          match server.contexts[tag]? with
          | some (some context) =>
              if context.status = .create then some (tag, (ApiServer.onSubmitTask context).response) else none
          | _ => none
      | _ => none
  | _ => none

/-- One step. -/
def step (network : Network) : Action → Option Network
  | .call stub task => some { network with calls := network.calls ++ [.enter stub task] }
  | .accept index driver op =>
      network.calls[index]?.bind fun call ↦
        if call.pc.isSent && op.kind == .request then
          (ApiServer.step network.server (.deliver driver op true (taskToProto call.task))).map fun server ↦
            { server, calls := network.calls.set index { call with pc := .served op.tag } }
        else none
  | .server action =>
      (ApiServer.step network.server action).map fun server ↦
        match finishing? network.server action with
        | some (tag, response) => { server, calls := network.calls.map (Call.answer tag response) }
        | none => { network with server }
  | .reply index =>
      network.calls[index]?.bind fun call ↦
        match call.pc with
        | .answered response =>
            some { network with
              calls := network.calls.set index { call with pc := .returned (submitTaskSync true {} response) } }
        | _ => none
  | .fail index status =>
      network.calls[index]?.bind fun call ↦
        if !call.pc.isReturned && !status.ok then
          some { network with
            calls := network.calls.set index { call with pc := .returned (submitTaskSync true status {}) } }
        else none

end TinyReactor.Rpc
