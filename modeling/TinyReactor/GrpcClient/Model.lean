import TinyReactor.Transition.Runs
import TinyReactor.Wire.Conversion

/-!
# The asynchronous gRPC client

`src/common/include/grpc_client.hpp` and `src/common/src/grpc_client.cpp`: the four asynchronous client
methods, the tags they leave behind on the completion queue, the `CompleteRpc` thread and the destructor.
Of gRPC only the contract of its completion queue is used: a unary `StartCall()` posts no event, and every
`StartCall(tag)`, `Read` and `Finish` posts one, in any order between the operations. Dereferencing a null
pointer, handling an event of a deleted tag and an exception that leaves `CompleteRpc` end the process. User
callbacks return. A client method makes at most one tag, so that the index of the call names the tag.
-/

namespace TinyReactor.GrpcClient

open Wire

/-- `grpc::StatusCode`. -/
inductive StatusCode
  | ok
  | cancelled
  | unknown
  | invalidArgument
  | deadlineExceeded
  | notFound
  | alreadyExists
  | permissionDenied
  | resourceExhausted
  | failedPrecondition
  | aborted
  | outOfRange
  | unimplemented
  | internal
  | unavailable
  | dataLoss
  | unauthenticated
  deriving DecidableEq, Repr

/-- `grpc::Status`. -/
structure Status where
  code : StatusCode := .ok
  message : String := ""
  deriving DecidableEq, Repr

def Status.ok (status : Status) : Bool := status.code == .ok

/-- What the tags read of their response messages: the task of a `TaskResponse` or a `TaskResult`, the
message itself for a query, and the flag of a `CancelResponse`. -/
structure Response where
  task : Option PbTask := none
  success : Bool := false

/-- What a promise is completed with; the exception is a `GrpcError`. -/
inductive Completion
  | task (value : Task)
  | bool (value : Bool)
  | exception (status : Status)

/-! ## Tags -/

/-- `Step` of the three tags for unary calls. -/
inductive UnaryStep
  | launch
  | finish
  deriving DecidableEq, Repr

/-- `Step` of `AsyncListenTag`. -/
inductive ListenStep
  | start
  | read
  | finish
  | done
  deriving DecidableEq, Repr

/-- The class of a tag with its `step_`. -/
inductive Machine
  | submit (step : UnaryStep)
  | cancel (step : UnaryStep)
  | query (step : UnaryStep)
  | listen (step : ListenStep)
  deriving DecidableEq, Repr

/-- An operation that posts an event for the tag it was started with. -/
inductive OpKind
  | startCall
  | read
  | finish
  deriving DecidableEq, Repr

/-- A tag. `promise` names the promise that the tag completes, if its class has one, and `callback` tells
whether a callback was given; `finishes` counts the `Finish` operations started on `reader`. -/
structure Tag where
  machine : Machine
  status : Status := {}
  response : Response := {}
  promise : Option ℕ := none
  callback : Bool := false
  once : Bool := false
  finishes : ℕ := 0
  deleted : Bool := false

/-- What one call of `ProceedImpl` does: the tag afterwards, the operation it starts, the completion of
its promise and the calls of the callback, in order. -/
structure Outcome where
  tag : Tag
  started : Option OpKind := none
  completion : Option Completion := none
  notified : List (Task × Status) := []
  assertionFailed : Bool := false

/-- What gRPC reports for an operation: `ok`, and what it has written for the tag before. -/
structure Event where
  ok : Bool
  status : Status := {}
  response : Response := {}

/-- A moved-from task: strings are empty and JSON values null. -/
def movedFrom (task : Task) : Task :=
  { task with
    taskId := "", clientId := "", cancelled := false, funcName := "", funcParams := .null, result := .null,
    errorMsg := "" }

namespace Tag

/-- What gRPC has written through the pointers given to the operation. -/
def receive (tag : Tag) (op : OpKind) (event : Event) : Tag :=
  match op, tag.machine with
  | .startCall, _ => tag
  | .read, _ => { tag with response := event.response }
  | .finish, .listen _ => { tag with status := event.status }
  | .finish, _ => { tag with status := event.status, response := event.response }

/-- `reader->Finish(.., this)` with `step_` already set. -/
def startFinish (tag : Tag) (machine : Machine) : Outcome where
  tag := { tag with machine, finishes := tag.finishes + 1 }
  started := some .finish

/-- `SetResult` of `AsyncSubmitTag` and of `AsyncQueryTag`, which has no callback. The callback is given
the task after it was moved into the promise. -/
def setResult (tag : Tag) : Outcome :=
  if tag.once then { tag }
  else if tag.status.ok then
    let task := taskFromProto (tag.response.task.getD {})
    { tag := { tag with once := true }, completion := some (.task task)
      notified := if tag.callback then [(movedFrom task, tag.status)] else [] }
  else
    { tag := { tag with once := true }, completion := some (.exception tag.status)
      notified := if tag.callback then [({}, tag.status)] else [] }

/-- `promise.set_value(status.ok() && response.success())`. -/
def setSuccess (tag : Tag) : Outcome where
  tag := tag
  completion := some (.bool (tag.status.ok && tag.response.success))

end Tag

/-- `delete this` at the end of a branch. -/
def Outcome.delete (outcome : Outcome) : Outcome :=
  { outcome with tag := { outcome.tag with deleted := true } }

namespace Tag

/-- `AsyncSubmitTag::ProceedImpl`. -/
def proceedSubmit (tag : Tag) (ok : Bool) : UnaryStep → Outcome
  | .launch =>
      let status := if ok then tag.status else ⟨.internal, "StartCall failed"⟩
      { tag with status }.startFinish (.submit .finish)
  | .finish =>
      let status := if ok then tag.status else ⟨.internal, "Finish cq !ok"⟩
      { tag with status }.setResult.delete

/-- `ProceedImpl` of `AsyncCancelTag` and `AsyncQueryTag`, which differ in how they complete the promise. -/
def proceedUnary (tag : Tag) (ok : Bool) (finish : Machine) (resolve : Tag → Outcome) : UnaryStep → Outcome
  | .launch =>
      if ok then tag.startFinish finish
      else (resolve { tag with status := ⟨.internal, "cq !ok"⟩ }).delete
  | .finish => (resolve tag).delete

/-- `AsyncCancelTag::ProceedImpl`. -/
def proceedCancel (tag : Tag) (ok : Bool) : UnaryStep → Outcome :=
  tag.proceedUnary ok (.cancel .finish) setSuccess

/-- `AsyncQueryTag::ProceedImpl`. -/
def proceedQuery (tag : Tag) (ok : Bool) : UnaryStep → Outcome :=
  tag.proceedUnary ok (.query .finish) setResult

/-- `AsyncListenTag::TransitionToFinish`. -/
def transitionToFinish (tag : Tag) (code : StatusCode) : Outcome :=
  let status := if code = .ok then tag.status else ⟨code, "stream aborted"⟩
  { tag with status }.startFinish (.listen .finish)

/-- `AsyncListenTag::ProceedImpl`. -/
def proceedListen (tag : Tag) (ok : Bool) : ListenStep → Outcome
  | .start =>
      if ok then { tag := { tag with machine := .listen .read }, started := some .read }
      else tag.transitionToFinish .cancelled
  | .read =>
      if ok then
        match tag.response.task with
        | some task =>
            { tag := { tag with response := {} }, started := some .read
              notified := if tag.callback then [(taskFromProto task, {})] else [] }
        | none => tag.transitionToFinish .ok
      else tag.transitionToFinish .cancelled
  | .finish =>
      Outcome.delete
        { tag := { tag with machine := .listen .done }
          notified := if tag.callback && !tag.status.ok then [({}, tag.status)] else [] }
  | .done => { tag, assertionFailed := true }

/-- `Proceed`. -/
def proceed (tag : Tag) (ok : Bool) : Outcome :=
  match tag.machine with
  | .submit step => tag.proceedSubmit ok step
  | .cancel step => tag.proceedCancel ok step
  | .query step => tag.proceedQuery ok step
  | .listen step => tag.proceedListen ok step

end Tag

/-! ## The client -/

inductive CallKind
  | submit
  | cancel
  | query
  | listen
  deriving DecidableEq, Repr

/-- Where a thread stands in the client method it has called. A future is named by its promise. -/
inductive CallPc
  | enter
  -- at `StartCall`, with the future that `submit_task_async` has already taken
  | start (future : Option ℕ)
  -- at `Finish(.., tag.release())`
  | finish
  -- at `tag->promise.get_future()`
  | getFuture
  | returned (future : Option ℕ)
  deriving DecidableEq, Repr

def CallPc.isReturned : CallPc → Bool
  | .returned _ => true
  | _ => false

/-- A call of a client method, with the tag it has made. -/
structure Call where
  kind : CallKind
  callback : Bool := false
  pc : CallPc := .enter
  tag : Option Tag := none

/-- An operation on `cq_`, for the tag of the call. -/
structure Op where
  call : ℕ
  kind : OpKind
  deriving DecidableEq, Repr

/-- Where the thread of `CompleteRpc` stands: at the test of `shutdown_`, at `AsyncNext`, or at `Proceed`
with the event in hand. -/
inductive CompleterPc
  | test
  | next
  | proceed (op : Op) (event : Event)
  | returned

/-- Where the destructor stands. -/
inductive DestructorPc
  | idle
  | shutdownQueue
  | join
  | finished
  deriving DecidableEq, Repr

/-- The client. `stub` tells that `stub_` is not null, `promises` holds every promise with its completion
and `notified` the calls of user callbacks with the call they belong to. -/
structure Client where
  stub : Bool
  shutdown : Bool := false
  calls : List Call := []
  promises : List (Option Completion) := []
  outstanding : List Op := []
  queueShutdown : Bool := false
  completer : CompleterPc := .test
  destructor : DestructorPc := .idle
  notified : List (ℕ × Task × Status) := []
  crashed : Bool := false

/-- The client after its constructor. -/
def Client.create (stub : Bool) : Client := { stub }

/-- What `AsyncNext` returns. -/
inductive NextStatus
  | gotEvent (op : Op) (event : Event)
  | shutdown
  | timeout

/-- Who moves: a new call of a client method, the thread of a call, `CompleteRpc` (with the result of
`AsyncNext` where it calls it) or the destructor. -/
inductive Action
  | call (kind : CallKind) (callback : Bool)
  | advance (index : ℕ)
  | complete (status : NextStatus)
  | destroy

namespace Client

def crash (client : Client) : Client := { client with crashed := true }

/-- A call moves on, and an operation may be started for its tag. -/
def update (client : Client) (index : ℕ) (call : Call) (started : Option OpKind) : Client :=
  { client with
    calls := client.calls.set index call
    outstanding := client.outstanding ++ (started.map (Op.mk index)).toList }

/-- `make_unique<..Tag>`, `Prepare..` on the stub, up to `StartCall`. -/
def newTag (client : Client) (index : ℕ) (call : Call) (machine : Machine) : Client :=
  { client.update index
      { call with pc := .start none, tag := some { machine, promise := some client.promises.length } } none with
    promises := client.promises ++ [none] }

/-- The first part of a client method. Only `submit_task_async` tests `stub_`. -/
def enter (client : Client) (index : ℕ) (call : Call) : Client :=
  match call.kind, client.stub with
  | .submit, false =>
      { client.update index { call with pc := .returned (some client.promises.length) } none with
        promises := client.promises ++
          [some (.exception ⟨.unavailable, "stub_ is null (channel create failed or moved)"⟩)]
        notified := client.notified ++
          if call.callback then [(index, {}, ⟨.unavailable, "stub_ null"⟩)] else [] }
  | .submit, true =>
      { client.update index
          { call with
            pc := .start (some client.promises.length)
            tag := some
              { machine := .submit .launch, promise := some client.promises.length, callback := call.callback } }
          none with
        promises := client.promises ++ [none] }
  | .cancel, true => client.newTag index call (.cancel .launch)
  | .query, true => client.newTag index call (.query .launch)
  | .listen, true =>
      client.update index
        { call with pc := .start none, tag := some { machine := .listen .start, callback := call.callback } } none
  | _, false => client.crash

/-- One statement of `submit_task_async`, `cancel_task_async`, `query_status_async` or `listen_results`. -/
def advance (client : Client) (index : ℕ) (call : Call) : Option Client :=
  match call.pc with
  | .enter => some (client.enter index call)
  | .start future =>
      match call.kind with
      | .submit => some (client.update index { call with pc := .returned future } none)
      | .cancel | .query => some (client.update index { call with pc := .finish } none)
      | .listen => some (client.update index { call with pc := .returned none } (some .startCall))
  | .finish =>
      let tag := call.tag.map fun tag ↦ { tag with finishes := tag.finishes + 1 }
      some (client.update index { call with pc := .getFuture, tag } (some .finish))
  -- `tag` was released by the statement before and is null
  | .getFuture => some client.crash
  | .returned _ => none

/-- `set_value` or `set_exception`, if any; a promise that is already completed throws. -/
def fulfil (promises : List (Option Completion)) (promise : Option ℕ) (completion : Option Completion) :
    Option (List (Option Completion)) :=
  match completion with
  | none => some promises
  | some completion =>
      promise.bind fun promise ↦
        match promises[promise]? with
        | some none => some (promises.set promise (some completion))
        | _ => none

/-- The tag whose event `CompleteRpc` has in hand, unless it is gone. -/
def liveTag (client : Client) (index : ℕ) : Option (Call × Tag) :=
  client.calls[index]?.bind fun call ↦
    call.tag.bind fun tag ↦ if tag.deleted then none else some (call, tag)

/-- `static_cast<IAsyncTag*>(tag)->Proceed(ok)`. -/
def proceed (client : Client) (op : Op) (event : Event) : Client :=
  match client.liveTag op.call with
  | none => client.crash
  | some (call, tag) =>
      let outcome := (tag.receive op.kind event).proceed event.ok
      match fulfil client.promises tag.promise outcome.completion with
      | none => client.crash
      | some promises =>
          if outcome.assertionFailed then client.crash
          else
            { client.update op.call { call with tag := some outcome.tag } outcome.started with
              promises
              notified := client.notified ++ outcome.notified.map (Prod.mk op.call)
              completer := .test }

/-- `CompleteRpc`. -/
def complete (client : Client) (status : NextStatus) : Option Client :=
  match client.completer with
  | .test => some { client with completer := if client.shutdown then .returned else .next }
  | .next =>
      match status with
      | .gotEvent op event =>
          if op ∈ client.outstanding then
            some { client with outstanding := client.outstanding.erase op, completer := .proceed op event }
          else none
      -- reported only when the queue is shut down and every event was delivered
      | .shutdown =>
          if client.queueShutdown ∧ client.outstanding = [] then some { client with completer := .returned }
          else none
      | .timeout => some { client with completer := .test }
  | .proceed op event => some (client.proceed op event)
  | .returned => none

/-- `~GrpcClient`, which runs when no client method is running any more. -/
def destroy (client : Client) : Option Client :=
  match client.destructor with
  | .idle =>
      if ∀ call ∈ client.calls, call.pc.isReturned = true then
        some { client with shutdown := true, destructor := .shutdownQueue }
      else none
  | .shutdownQueue => some { client with queueShutdown := true, destructor := .join }
  | .join =>
      match client.completer with
      | .returned => some { client with destructor := .finished }
      | _ => none
  | .finished => none

end Client

/-- One step of the client. -/
def step (client : Client) (action : Action) : Option Client :=
  if client.crashed then none
  else
    match action with
    | .call kind callback =>
        if client.destructor = .idle then
          some { client with calls := client.calls ++ [{ kind, callback }] }
        else none
    | .advance index => client.calls[index]?.bind (client.advance index)
    | .complete status => client.complete status
    | .destroy => client.destroy

end TinyReactor.GrpcClient
