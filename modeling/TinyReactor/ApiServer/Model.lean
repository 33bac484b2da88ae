import TinyReactor.Transition.Runs
import TinyReactor.Transition.ThreadTable
import TinyReactor.Wire.Conversion

/-!
# The asynchronous API server

`AsyncCallContext` and `AsyncServer` of `src/api-server`: call contexts that delete and replace
themselves as the completion queues deliver their events. gRPC is the environment. Each
`RequestSubmitTask` and each `Finish` leaves one operation outstanding on the queue of its context;
the queue later delivers one event for it, with an `ok` flag. A request fails only after the
server was shut down; a `Finish` may fail at any time, when the client has gone.

A context is named by the order of its creation. A call of `Proceed` is one step of the thread that
drives the queue, separate from the call of `Next` that delivered the event.
-/

namespace TinyReactor.ApiServer

open Wire

abbrev ContextId := ℕ

/-- The protobuf message `TaskResponse`. -/
structure TaskResponse where
  task : Option PbTask := none

/-- `AsyncServer::SubmitTaskFunc`: what the callback makes of the request and the response object. -/
abbrev SubmitTaskFunc := PbTask → TaskResponse → TaskResponse

inductive CallStatus
  | create
  | finish
  | rearm
  deriving DecidableEq, Repr

/-- `AsyncCallContext`, on the completion queue `cq`. -/
structure CallContext where
  cq : ℕ
  status : CallStatus := .create
  request : PbTask := {}
  response : TaskResponse := {}

inductive OpKind
  | request
  | finish
  deriving DecidableEq, Repr

/-- An operation started on a queue whose event has not been delivered. -/
structure Op where
  tag : ContextId
  cq : ℕ
  kind : OpKind
  deriving DecidableEq, Repr

/-- Program points of `DriveCompletionQueue`: in `Next`, in `Proceed` for a delivered event, or
returned. `draining` tells the second loop from the first. -/
inductive DriverPc
  | next (draining : Bool)
  | proceed (draining : Bool) (tag : ContextId) (ok : Bool)
  | returned
  deriving DecidableEq, Repr

/-- Program points of `Shutdown`, up to the joins. -/
inductive ShutdownPc
  | notCalled
  | setFlag
  | stopServer
  | stopQueue (cq : ℕ)
  | join
  deriving DecidableEq, Repr

/-- The members of `AsyncServer`, the heap of contexts (a deleted one leaves `none`), and the
queues' outstanding operations. `answers` records each response passed to `Finish` with the
request it answers; no step reads it. -/
structure AsyncServer where
  submitTask : Option SubmitTaskFunc := none
  contexts : List (Option CallContext) := []
  outstanding : List Op := []
  drivers : List DriverPc := []
  shutdownFlag : Bool := false
  serverStopped : Bool := false
  queuesStopped : List Bool := []
  shutdown : ShutdownPc := .notCalled
  answers : List (PbTask × TaskResponse) := []

namespace AsyncServer

/-- The constructor of `AsyncCallContext`, which calls `RequestNext`. -/
def newContext (server : AsyncServer) (cq : ℕ) : AsyncServer :=
  { server with
    contexts := server.contexts ++ [some { cq := cq }]
    outstanding := server.outstanding ++ [⟨server.contexts.length, cq, .request⟩] }

/-- The loop of `Run` that creates the contexts. -/
def createContexts (server : AsyncServer) (cqCount : ℕ) : ℕ → AsyncServer
  | 0 => server
  | count + 1 => (createContexts server cqCount count).newContext (count % cqCount)

/-- `Run` with `cqCount` completion queues and `count` initial contexts. -/
def start (submitTask : Option SubmitTaskFunc) (cqCount count : ℕ) : AsyncServer :=
  createContexts
    { submitTask := submitTask
      drivers := List.replicate cqCount (.next false)
      queuesStopped := List.replicate cqCount false } cqCount count

def setDriver (server : AsyncServer) (driver : ℕ) (pc : DriverPc) : AsyncServer :=
  { server with drivers := server.drivers.set driver pc }

/-- `delete this`. -/
def deleteContext (server : AsyncServer) (tag : ContextId) : AsyncServer :=
  { server with contexts := server.contexts.set tag none }

end AsyncServer

/-- `AsyncServer::OnSubmitTask`: the request is copied and marked as successful. -/
def onSubmitTask (context : CallContext) : CallContext :=
  { context with response := { task := some { context.request with state := 2 } } }

/-- `AsyncCallContext::Proceed(ok)` for the context `tag`. -/
def proceed (server : AsyncServer) (tag : ContextId) (context : CallContext) (ok : Bool) : AsyncServer :=
  if ok then
    match context.status with
    | .create =>
        let served := onSubmitTask context
        { server with
          contexts := server.contexts.set tag (some { served with status := .finish })
          outstanding := server.outstanding ++ [⟨tag, context.cq, .finish⟩]
          answers := server.answers ++ [(context.request, served.response)] }
    | .finish => (server.deleteContext tag).newContext context.cq
    | .rearm => server
  else server.deleteContext tag

/-- What the environment schedules. `deliver` is a return of `Next` with an event, `closed` one
without. -/
inductive Action
  | deliver (driver : ℕ) (op : Op) (ok : Bool) (request : PbTask)
  | proceed (driver : ℕ)
  | closed (driver : ℕ)
  | callShutdown
  | shutdown

/-- The request that the event of a successful `RequestSubmitTask` leaves in its context. -/
def receive (kind : OpKind) (ok : Bool) (request : PbTask) (context : CallContext) : CallContext :=
  if kind = .request ∧ ok = true then { context with request := request } else context

/-- Can the queue deliver this event now? A request fails only once the server is stopped. -/
def deliverable (server : AsyncServer) (driver : ℕ) (op : Op) (ok : Bool) : Bool :=
  op ∈ server.outstanding && op.cq == driver &&
    (op.kind == .finish || ok || server.serverStopped || server.queuesStopped[driver]?.getD false)

def step (server : AsyncServer) : Action → Option AsyncServer
  | .deliver driver op ok request =>
      match server.drivers[driver]? with
      | some (.next draining) =>
          if deliverable server driver op ok then
            some { server with
              drivers := server.drivers.set driver (.proceed draining op.tag ok)
              outstanding := server.outstanding.erase op
              contexts := server.contexts.modify op.tag (Option.map (receive op.kind ok request)) }
          else none
      | _ => none
  | .proceed driver =>
      match server.drivers[driver]? with
      | some (.proceed draining tag ok) =>
          -- a deleted context has no behaviour
          match server.contexts[tag]? with
          | some (some context) => some ((proceed server tag context ok).setDriver driver (.next draining))
          | _ => none
      | _ => none
  | .closed driver =>
      match server.drivers[driver]? with
      | some (.next draining) =>
          if server.queuesStopped[driver]?.getD false && server.outstanding.all (fun op ↦ op.cq != driver) then
            some (server.setDriver driver (if draining then .returned else .next true))
          else none
      | _ => none
  | .callShutdown =>
      if server.shutdown = .notCalled then some { server with shutdown := .setFlag } else none
  | .shutdown =>
      match server.shutdown with
      | .setFlag => some { server with shutdownFlag := true, shutdown := .stopServer }
      -- the call of gRPC waits for pending calls; it may return at any time here
      | .stopServer => some { server with serverStopped := true, shutdown := .stopQueue 0 }
      | .stopQueue cq =>
          if cq < server.queuesStopped.length then
            some { server with queuesStopped := server.queuesStopped.set cq true, shutdown := .stopQueue (cq + 1) }
          else some { server with shutdown := .join }
      | .notCalled | .join => none

end TinyReactor.ApiServer
