import TinyReactor.GrpcClient.Model

/-!
# The two observers of a submission

`AsyncSubmitTag` completes a promise and calls a callback with the same result. Both are served from one local
`Task`, which is moved into the promise before the callback is given it. Tasks are objects here: the member
`cancelled` is a pointer, and a move leaves it null.
-/

namespace TinyReactor.GrpcClient

open Wire

/-- A `Task` with the pointer to its flag; `value.cancelled` is the flag, and false where there is none. -/
structure TaskObject where
  value : Task
  flagged : Bool := true

/-- What `std::move` leaves of a task. -/
def TaskObject.movedFrom (object : TaskObject) : TaskObject where
  value := GrpcClient.movedFrom object.value
  flagged := false

/-- What the future and the callback of a submission have been given, in order. -/
structure Observers where
  future : List (Except Status TaskObject) := []
  callback : List (TaskObject × Status) := []

namespace Observers

def append (first second : Observers) : Observers where
  future := first.future ++ second.future
  callback := first.callback ++ second.callback

@[simp] theorem append_empty (observers : Observers) : observers.append {} = observers := by
  simp [append]

@[simp] theorem empty_append (observers : Observers) : append {} observers = observers := rfl

end Observers

namespace Tag

/-- `SetResult` of `AsyncSubmitTag`, as its two observers see it. -/
def observe (tag : Tag) : Observers :=
  if tag.once then {}
  else if tag.status.ok then
    let task : TaskObject := { value := taskFromProto (tag.response.task.getD {}) }
    { future := [.ok task]
      callback := if tag.callback then [(task.movedFrom, tag.status)] else [] }
  else
    { future := [.error tag.status]
      callback := if tag.callback then [({ value := {} }, tag.status)] else [] }

/-- `ProceedImpl` of `AsyncSubmitTag`, as its two observers see it. -/
def observeSubmit (tag : Tag) (ok : Bool) : UnaryStep → Observers
  | .launch => {}
  | .finish =>
      let status := if ok then tag.status else ⟨.internal, "Finish cq !ok"⟩
      { tag with status }.observe

/-- The operation whose event a submission waits for. -/
def awaited : UnaryStep → OpKind
  | .launch => .startCall
  | .finish => .finish

/-- The events that are delivered to a submission until it deletes itself. -/
def deliver (tag : Tag) : List Event → Observers
  | [] => {}
  | event :: events =>
      match tag.deleted, tag.machine with
      | false, .submit step =>
          let received := tag.receive (awaited step) event
          (received.observeSubmit event.ok step).append ((received.proceed event.ok).tag.deliver events)
      | _, _ => {}

end Tag

/-- What a promise holds when it was completed with the object. -/
def Completion.ofObserved : Except Status TaskObject → Completion
  | .ok object => .task object.value
  | .error status => .exception status

/-- The observers see what `Proceed` reports, but for the pointers. -/
theorem Tag.proceedSubmit_observed (tag : Tag) (ok : Bool) (step : UnaryStep) :
    (tag.proceedSubmit ok step).completion = (tag.observeSubmit ok step).future.head?.map Completion.ofObserved ∧
      (tag.proceedSubmit ok step).notified =
        (tag.observeSubmit ok step).callback.map fun call ↦ (call.1.value, call.2) := by
  cases step with
  | launch => exact ⟨rfl, rfl⟩
  | finish =>
    simp only [proceedSubmit, observeSubmit]
    generalize ({ tag with status := if ok then tag.status else ⟨.internal, "Finish cq !ok"⟩ } : Tag) = finished
    simp only [Outcome.delete, setResult, observe]
    split
    · exact ⟨rfl, rfl⟩
    · split
      · refine ⟨rfl, ?_⟩
        split <;> rfl
      · refine ⟨rfl, ?_⟩
        split <;> rfl

/-- The tag that `submit_task_async` makes when it is given a callback. -/
def submission (promise : ℕ) : Tag := { machine := .submit .launch, promise := some promise, callback := true }

/-- The status that a submission ends with. -/
def finalStatus (finish : Event) : Status := if finish.ok then finish.status else ⟨.internal, "Finish cq !ok"⟩

/-- Future and callback were given the same outcome, once each: the task of the response, or a status code. -/
def Observers.Agree (observers : Observers) (response : Response) (status : Status) : Prop :=
  ∃ result object, observers.future = [result] ∧ observers.callback = [(object, status)] ∧
    (status.ok = true →
      result = .ok { value := taskFromProto (response.task.getD {}) } ∧ result = .ok object) ∧
    (status.ok = false → ∃ error, result = .error error ∧ error.code = status.code)

theorem Tag.deliver_of_deleted {tag : Tag} (h : tag.deleted = true) (events : List Event) :
    tag.deliver events = {} := by
  cases events with
  | nil => rfl
  | cons event events => rw [deliver, h]

/-- The first event starts `Finish`, the second serves the observers, and there is no third. -/
theorem deliver_submission (promise : ℕ) (launch finish : Event) (rest : List Event) :
    (submission promise).deliver (launch :: finish :: rest) =
      ({ submission promise with status := finalStatus finish, response := finish.response } : Tag).observe := by
  have hlaunch : (submission promise).deliver (launch :: finish :: rest) =
      ((submission promise).proceed launch.ok).tag.deliver (finish :: rest) := rfl
  have hfinish : ((submission promise).proceed launch.ok).tag.deliver (finish :: rest) =
      (Tag.observe
        { submission promise with
          machine := .submit .finish, finishes := 1, status := finalStatus finish
          response := finish.response }).append
        ((((submission promise).proceed launch.ok).tag.receive .finish finish).proceed finish.ok |>.tag.deliver rest) :=
    rfl
  rw [hlaunch, hfinish, Tag.deliver_of_deleted rfl, Observers.append_empty]
  rfl

theorem not_agree_of_ok {status : Status} {response : Response} (hok : status.ok = true) (promise : ℕ) :
    ¬(({ submission promise with status, response } : Tag).observe).Agree response status := by
  rintro ⟨result, object, -, hcallback, hsame, -⟩
  obtain ⟨rfl, hobject⟩ := hsame hok
  obtain rfl := Except.ok.inj hobject
  simp only [Tag.observe, submission, hok, Bool.false_eq_true, if_false, if_true] at hcallback
  -- the callback's task has lost the pointer that the promise's has
  have hflags : [false] = [true] :=
    congrArg (List.map fun call : TaskObject × Status ↦ call.1.flagged) hcallback
  cases hflags

theorem agree_of_not_ok {status : Status} {response : Response} (hok : status.ok = false) (promise : ℕ) :
    (({ submission promise with status, response } : Tag).observe).Agree response status := by
  simp only [Tag.observe, submission, hok, Bool.false_eq_true, if_false, if_true]
  refine ⟨_, _, rfl, rfl, ?_, fun _ ↦ ⟨status, rfl, rfl⟩⟩
  rw [hok]
  exact Bool.noConfusion

/-- Whatever the two events report, the promise is completed once and the callback called once. They are given the
same outcome exactly when the submission has failed: the task of an `OK` status is moved into the promise before
the callback sees it. -/
theorem submit_observers_agree_iff (promise : ℕ) (launch finish : Event) (rest : List Event) :
    ((submission promise).deliver (launch :: finish :: rest)).future.length = 1 ∧
      ((submission promise).deliver (launch :: finish :: rest)).callback.length = 1 ∧
      (((submission promise).deliver (launch :: finish :: rest)).Agree finish.response (finalStatus finish) ↔
        finish.ok = false ∨ finish.status.ok = false) := by
  have hstatus : (finalStatus finish).ok = false ↔ finish.ok = false ∨ finish.status.ok = false := by
    unfold finalStatus
    cases finish.ok with
    | false => exact iff_of_true rfl (.inl rfl)
    | true => simp
  rw [deliver_submission, ← hstatus]
  cases hok : (finalStatus finish).ok with
  | true =>
    refine ⟨?_, ?_, iff_of_false (not_agree_of_ok hok promise) Bool.noConfusion⟩
    · simp [Tag.observe, submission, hok]
    · simp [Tag.observe, submission, hok]
  | false =>
    refine ⟨?_, ?_, iff_of_true (agree_of_not_ok hok promise) rfl⟩
    · simp [Tag.observe, submission, hok]
    · simp [Tag.observe, submission, hok]

/-- The server accepts the task. -/
def accepted : Event := { ok := true, response := { task := some { taskId := "1" } } }

/-- The future has the identifier of the accepted task, and the callback an empty one and no flag. -/
theorem submit_observers_differ :
    ¬((submission 0).deliver [{ ok := true }, accepted]).Agree accepted.response {} ∧
      ∃ promised given,
        (submission 0).deliver [{ ok := true }, accepted] =
          { future := [.ok promised], callback := [(given, {})] } ∧
        promised.value.taskId = "1" ∧ promised.flagged = true ∧ given.value.taskId = "" ∧ given.flagged = false := by
  refine ⟨?_, _, _, rfl, rfl, rfl, rfl, rfl⟩
  rw [deliver_submission]
  exact not_agree_of_ok rfl 0

end TinyReactor.GrpcClient
