import TinyReactor.ApiServer.Answers
import TinyReactor.Rpc.Model

/-!
# Calls and their answers

A context that has the request of a call holds it until its thread handles the event, and no other request can reach
it meanwhile: the event in hand is the only one of the context. So the response that comes back to a call is made of
its own task, however many clients there are and in whatever order the queues, `Shutdown` and the deadlines move.
-/

namespace TinyReactor.Rpc

open Transition Wire ApiServer

variable {server next : AsyncServer} {action : ApiServer.Action} {tag : ContextId} {task : Task} {driver : ℕ}

/-! ## The context of a call -/

/-- A thread has the request of the task in hand, for a context that has not answered. -/
structure Serves (server : AsyncServer) (tag : ContextId) (task : Task) (driver : ℕ) (draining : Bool) : Prop where
  hand : server.drivers[driver]? = some (.proceed draining tag true)
  context : ∃ context, server.contexts[tag]? = some (some context) ∧ context.status = .create ∧
    context.request = taskToProto task

/-- The step of the thread that has the request in hand passes the echo of the request to `Finish`. -/
theorem Serves.finishing {draining : Bool} (h : Serves server tag task driver draining) :
    finishing? server (.proceed driver) = some (tag, echo (taskToProto task)) := by
  obtain ⟨context, hcontext, hstatus, hrequest⟩ := h.context
  simp [finishing?, h.hand, hcontext, hstatus, onSubmitTask, echo, hrequest]

/-- Only a thread with the event of a registration in hand answers. -/
theorem hand_of_finishing {response : TaskResponse} (h : finishing? server action = some (tag, response)) :
    ∃ driver draining, action = .proceed driver ∧ server.drivers[driver]? = some (.proceed draining tag true) := by
  unfold finishing? at h
  split at h
  · rename_i driver
    split at h
    · rename_i draining handled hdriver
      split at h
      · simp only [Option.ite_none_right_eq_some, Option.some.injEq, Prod.mk.injEq] at h
        obtain ⟨-, rfl, -⟩ := h
        exact ⟨driver, draining, rfl, hdriver⟩
      · cases h
    · cases h
  · cases h

theorem Serves.ready {draining : Bool} (h : Serves server tag task driver draining) :
    (ApiServer.step server (.proceed driver)).isSome = true := by
  obtain ⟨context, hcontext, -⟩ := h.context
  simp [ApiServer.step, h.hand, hcontext]

/-- Nothing else touches the thread or the context. -/
theorem Serves.step {draining : Bool} (h : Serves server tag task driver draining) (hbalanced : Balanced server)
    (hstep : ApiServer.step server action = some next) (hother : action ≠ .proceed driver) :
    Serves next tag task driver draining := by
  obtain ⟨context, hcontext, hstatus, hrequest⟩ := h.context
  cases move_of_step hstep with
  | deliver draining' hdriver hdeliver =>
    rename_i moving op ok request
    obtain ⟨hmem, -⟩ := of_deliverable hdeliver
    have htag : op.tag ≠ tag := hbalanced.not_outstanding h.hand hmem
    have hmoving : moving ≠ driver := by
      rintro rfl
      cases hdriver.symm.trans h.hand
    refine ⟨?_, context, ?_, hstatus, hrequest⟩
    · rw [List.getElem?_set_ne hmoving, h.hand]
    · exact (List.getElem?_modify_ne _ _ htag).trans hcontext
  | proceed draining' handled ok context' hdriver hlive =>
    rename_i moving
    have hmoving : moving ≠ driver := by
      rintro rfl
      exact hother rfl
    have htag : handled ≠ tag := by
      rintro rfl
      exact hmoving (hbalanced.handler_unique hdriver h.hand)
    have hlt := lt_length_of_getElem? hcontext
    refine ⟨?_, context, ?_, hstatus, hrequest⟩
    · rw [AsyncServer.setDriver, List.getElem?_set_ne hmoving]
      unfold ApiServer.proceed
      split
      · split <;> exact h.hand
      · exact h.hand
    · change (ApiServer.proceed server handled context' ok).contexts[tag]? = _
      unfold ApiServer.proceed
      split
      · split
        · rw [List.getElem?_set_ne htag, hcontext]
        · rw [AsyncServer.newContext, AsyncServer.deleteContext, List.getElem?_append_left (by simpa using hlt),
            List.getElem?_set_ne htag, hcontext]
        · exact hcontext
      · rw [AsyncServer.deleteContext, List.getElem?_set_ne htag, hcontext]
  | drain hdriver | finish hdriver =>
    rename_i moving _ _
    have hmoving : moving ≠ driver := by
      rintro rfl
      cases hdriver.symm.trans h.hand
    refine ⟨?_, context, hcontext, hstatus, hrequest⟩
    rw [AsyncServer.setDriver, List.getElem?_set_ne hmoving, h.hand]
  | _ => exact ⟨h.hand, context, hcontext, hstatus, hrequest⟩

/-! ## The calls -/

/-- What a call waits for, and what it has got. -/
def Call.Consistent (server : AsyncServer) (call : Call) : Prop :=
  match call.pc with
  | .sent => True
  | .served tag => ∃ driver draining, Serves server tag call.task driver draining
  | .answered response => response = echo (taskToProto call.task)
  | .returned (.ok result) => result = taskFromProto { taskToProto call.task with state := 2 }
  | .returned (.error status) => status.ok = false

/-- The server is in order, every call is consistent with it, and no context serves two calls. -/
structure Matched (network : Network) : Prop where
  balanced : Balanced network.server
  homed : Homed network.server
  requested : ∀ tag, ∃ requests, Requested tag requests network.server
  consistent : ∀ call ∈ network.calls, call.Consistent network.server
  exclusive : ∀ (index other : ℕ) (call call' : Call) tag, network.calls[index]? = some call →
    network.calls[other]? = some call' → call.pc = .served tag → call'.pc = .served tag → index = other

theorem matched_start (submitTask : Option SubmitTaskFunc) (cqCount count : ℕ) :
    Matched { server := .start submitTask cqCount count } where
  balanced := balanced_start submitTask cqCount count
  homed := homed_start submitTask cqCount count
  requested tag := ⟨[], requested_start submitTask cqCount count tag⟩
  consistent _ h := by cases h
  exclusive _ _ _ _ _ h := by cases h

/-- A call whose context does not answer in this step. -/
theorem Call.Consistent.step {call : Call} (h : call.Consistent server) (hbalanced : Balanced server)
    (hstep : ApiServer.step server action = some next)
    (hother : ∀ tag response, finishing? server action = some (tag, response) → call.pc ≠ .served tag) :
    call.Consistent next := by
  unfold Call.Consistent at h ⊢
  split
  · trivial
  · rename_i tag hpc
    simp only [hpc] at h
    obtain ⟨driver, draining, hserves⟩ := h
    refine ⟨driver, draining, hserves.step hbalanced hstep ?_⟩
    rintro rfl
    exact hother tag _ hserves.finishing hpc
  all_goals
    rename_i hpc
    simpa only [hpc] using h

/-! ## Steps -/

variable {network : Network} {index : ℕ} {call : Call} {pc : CallPc}

/-- The server moves, and no context of a call answers. -/
theorem Matched.serverStep (h : Matched network) (hstep : ApiServer.step network.server action = some next)
    (hother : ∀ tag response, finishing? network.server action = some (tag, response) →
      ∀ call ∈ network.calls, call.pc ≠ .served tag) : Matched { network with server := next } where
  balanced := h.balanced.step (stepAnyOk_of_step hstep)
  homed := h.homed.step hstep
  requested tag := by
    obtain ⟨requests, hrequested⟩ := h.requested tag
    exact ⟨_, hrequested.step h.balanced h.homed hstep⟩
  consistent call hcall := (h.consistent call hcall).step h.balanced hstep fun tag response hfinishing ↦
    hother tag response hfinishing call hcall
  exclusive := h.exclusive

/-- One call moves on. -/
theorem Matched.setCall (h : Matched network) (hcall : network.calls[index]? = some call)
    (hconsistent : Call.Consistent network.server { call with pc })
    (hfresh : ∀ tag, pc = .served tag → ∀ call' ∈ network.calls, call'.pc ≠ .served tag) :
    Matched { network with calls := network.calls.set index { call with pc } } where
  balanced := h.balanced
  homed := h.homed
  requested := h.requested
  consistent call' hcall' := by
    obtain hold | rfl := List.mem_or_eq_of_mem_set hcall'
    · exact h.consistent call' hold
    · exact hconsistent
  exclusive first second call' call'' tag hfirst hsecond hserved hserved' := by
    have hlt := lt_length_of_getElem? hcall
    rcases eq_or_ne index first with rfl | hne <;> rcases eq_or_ne index second with rfl | hne'
    · rfl
    · rw [List.getElem?_set_self hlt, Option.some.injEq] at hfirst
      rw [List.getElem?_set_ne hne'] at hsecond
      rw [← hfirst] at hserved
      exact absurd hserved' (hfresh tag hserved call'' (List.mem_of_getElem? hsecond))
    · rw [List.getElem?_set_ne hne] at hfirst
      rw [List.getElem?_set_self hlt, Option.some.injEq] at hsecond
      rw [← hsecond] at hserved'
      exact absurd hserved (hfresh tag hserved' call' (List.mem_of_getElem? hfirst))
    · rw [List.getElem?_set_ne hne] at hfirst
      rw [List.getElem?_set_ne hne'] at hsecond
      exact h.exclusive first second call' call'' tag hfirst hsecond hserved hserved'

theorem Matched.enter (h : Matched network) (stub : Bool) (task : Task) :
    Matched { network with calls := network.calls ++ [.enter stub task] } where
  balanced := h.balanced
  homed := h.homed
  requested := h.requested
  consistent call hcall := by
    rcases List.mem_append.mp hcall with hold | hnew
    · exact h.consistent call hold
    · obtain rfl := List.mem_singleton.mp hnew
      cases stub with
      | true => trivial
      | false => rfl
  exclusive first second call call' tag hfirst hsecond hserved hserved' := by
    have hnot {place : ℕ} {call : Call} (hserved : call.pc = .served tag)
        (hplace : (network.calls ++ [.enter stub task])[place]? = some call) : network.calls[place]? = some call := by
      obtain hold | ⟨-, rfl⟩ := of_getElem?_append_singleton hplace
      · exact hold
      · cases stub <;> cases hserved
    exact h.exclusive first second call call' tag (hnot hserved hfirst) (hnot hserved' hsecond) hserved hserved'

/-- The request of a call is delivered to a context that waits for one. -/
theorem Matched.accept (h : Matched network) {op : Op} (hcall : network.calls[index]? = some call)
    (hkind : op.kind = .request)
    (hstep : ApiServer.step network.server (.deliver driver op true (taskToProto call.task)) = some next) :
    Matched { server := next, calls := network.calls.set index { call with pc := .served op.tag } } := by
  have hmoved := h.serverStep hstep fun tag response hfinishing ↦ by cases hfinishing
  cases move_of_step hstep with
  | deliver draining hdriver hdeliver =>
    obtain ⟨hmem, -⟩ := of_deliverable hdeliver
    obtain ⟨context, hcontext⟩ : ∃ context, network.server.contexts[op.tag]? = some (some context) := by
      apply getElem?_of_live
      rw [← h.balanced.pending]
      have hops : 0 < network.server.outstanding.countP fun other ↦ other.tag == op.tag :=
        List.countP_pos_iff.mpr ⟨op, hmem, beq_self_eq_true _⟩
      exact Nat.lt_of_lt_of_le hops (Nat.le_add_right _ _)
    obtain ⟨requests, hrequested⟩ := h.requested op.tag
    have hstatus := (hrequested.kind op hmem rfl context hcontext).mp hkind
    refine hmoved.setCall hcall ⟨driver, draining, ?_, ?_⟩ ?_
    · exact List.getElem?_set_self (lt_length_of_getElem? hdriver)
    · refine ⟨receive op.kind true (taskToProto call.task) context, ?_, ?_, ?_⟩
      · simp [hcontext]
      · rw [receive_status, hstatus]
      · simp [receive, hkind]
    · rintro tag ⟨⟩ call' hcall' hserved
      have hconsistent := h.consistent call' hcall'
      simp only [Call.Consistent, hserved] at hconsistent
      obtain ⟨other, draining', hserves⟩ := hconsistent
      exact h.balanced.not_outstanding hserves.hand hmem rfl

theorem Call.answer_of_ne {response : TaskResponse} (h : call.pc ≠ .served tag) : call.answer tag response = call := by
  unfold Call.answer
  split
  · rename_i serving hpc
    rw [if_neg]
    rintro rfl
    exact h hpc
  · rfl

theorem Call.answer_of_eq {response : TaskResponse} (h : call.pc = .served tag) :
    call.answer tag response = { call with pc := .answered response } := by
  simp [Call.answer, h]

/-- The context that answers serves at most one call, and what it passes to `Finish` is the echo of its task. -/
theorem Matched.answer (h : Matched network) {response : TaskResponse}
    (hfinishing : finishing? network.server action = some (tag, response))
    (hstep : ApiServer.step network.server action = some next) :
    Matched { server := next, calls := network.calls.map (Call.answer tag response) } := by
  have hanswer (call : Call) (hcall : call ∈ network.calls) :
      (call.answer tag response).Consistent next ∧ ∀ serving, (call.answer tag response).pc = .served serving →
        call.pc = .served serving := by
    have hconsistent := h.consistent call hcall
    by_cases hserved : call.pc = .served tag
    · simp only [Call.Consistent, hserved] at hconsistent
      obtain ⟨driver, draining, hserves⟩ := hconsistent
      obtain ⟨other, draining', rfl, hother⟩ := hand_of_finishing hfinishing
      obtain rfl := h.balanced.handler_unique hserves.hand hother
      cases hserves.finishing.symm.trans hfinishing
      rw [Call.answer_of_eq hserved]
      exact ⟨rfl, fun serving hserving ↦ by cases hserving⟩
    · rw [Call.answer_of_ne hserved]
      refine ⟨hconsistent.step h.balanced hstep fun tag' response' hfinishing' ↦ ?_, fun serving hserving ↦ hserving⟩
      cases hfinishing.symm.trans hfinishing'
      exact hserved
  refine ⟨h.balanced.step (stepAnyOk_of_step hstep), h.homed.step hstep, fun tag' ↦ ?_, fun call hcall ↦ ?_, ?_⟩
  · obtain ⟨requests, hrequested⟩ := h.requested tag'
    exact ⟨_, hrequested.step h.balanced h.homed hstep⟩
  · obtain ⟨before, hbefore, rfl⟩ := List.mem_map.mp hcall
    exact (hanswer before hbefore).1
  · intro first second call call' serving hfirst hsecond hserved hserved'
    rw [List.getElem?_map, Option.map_eq_some_iff] at hfirst hsecond
    obtain ⟨before, hbefore, rfl⟩ := hfirst
    obtain ⟨before', hbefore', rfl⟩ := hsecond
    exact h.exclusive first second before before' serving hbefore hbefore'
      ((hanswer before (List.mem_of_getElem? hbefore)).2 serving hserved)
      ((hanswer before' (List.mem_of_getElem? hbefore')).2 serving hserved')

theorem Matched.step {action : Action} {after : Network} (h : Matched network) (hstep : step network action = some after) :
    Matched after := by
  cases action with
  | call stub task =>
    cases hstep
    exact h.enter stub task
  | accept index driver op =>
    obtain ⟨call, hcall, hstep⟩ := Option.bind_eq_some_iff.mp hstep
    rw [Option.ite_none_right_eq_some, Bool.and_eq_true, beq_iff_eq] at hstep
    obtain ⟨⟨-, hkind⟩, hstep⟩ := hstep
    obtain ⟨server, hserver, rfl⟩ := Option.map_eq_some_iff.mp hstep
    exact h.accept hcall hkind hserver
  | server action =>
    obtain ⟨server, hserver, rfl⟩ := Option.map_eq_some_iff.mp hstep
    split
    · rename_i tag response hfinishing
      exact h.answer hfinishing hserver
    · rename_i hnone
      refine h.serverStep hserver fun tag response hfinishing ↦ ?_
      cases hnone.symm.trans hfinishing
  | reply index =>
    obtain ⟨call, hcall, hstep⟩ := Option.bind_eq_some_iff.mp hstep
    split at hstep
    · rename_i response hpc
      cases hstep
      have hconsistent := h.consistent call (List.mem_of_getElem? hcall)
      simp only [Call.Consistent, hpc] at hconsistent
      subst hconsistent
      exact h.setCall hcall rfl fun tag hserved ↦ by cases hserved
    · cases hstep
  | fail index status =>
    obtain ⟨call, hcall, hstep⟩ := Option.bind_eq_some_iff.mp hstep
    rw [Option.ite_none_right_eq_some, Bool.and_eq_true, Bool.not_eq_true', Bool.not_eq_true'] at hstep
    obtain ⟨⟨-, hstatus⟩, hstep⟩ := hstep
    cases hstep
    refine h.setCall hcall ?_ fun tag hserved ↦ ?_
    · simp [Call.Consistent, submitTaskSync, hstatus]
    · simp [submitTaskSync, hstatus] at hserved

/-! ## Runs -/

/-- What a client reads in the answer: its own task, marked as successful, with the payloads that survive the
conversions and a new cancellation flag. -/
def answerOf (task : Task) : Task :=
  { task with
    state := .success, cancelled := false
    funcParams := structToJson (jsonToStruct task.funcParams)
    result := structToJson (jsonToStruct task.result) }

theorem taskFromProto_echo (task : Task) : taskFromProto { taskToProto task with state := 2 } = answerOf task := rfl

/-- In every run of the server and of any number of calls of `submit_task_sync`, with requests of other clients,
`Shutdown` and failures at any time: a call that returns a task returns the answer to its own task; one that throws
carries a status that is not `OK`; no context ever serves two calls at once; and a call that is being served is
answered by the next statement of one thread of the server, which can take it. -/
theorem calls_get_own_answers (submitTask : Option SubmitTaskFunc) (cqCount count : ℕ) {actions : List Action}
    {final : Network} (hrun : run step { server := .start submitTask cqCount count } actions = some final) :
    (∀ call ∈ final.calls, ∀ result, call.pc = .returned (.ok result) → result = answerOf call.task) ∧
      (∀ call ∈ final.calls, ∀ status, call.pc = .returned (.error status) → status.ok = false) ∧
      (∀ (index other : ℕ) (call call' : Call) tag, final.calls[index]? = some call →
        final.calls[other]? = some call' → call.pc = .served tag → call'.pc = .served tag → index = other) ∧
      ∀ (index : ℕ) call tag, final.calls[index]? = some call → call.pc = .served tag →
        ∃ driver after, step final (.server (.proceed driver)) = some after ∧
          after.calls[index]? = some { call with pc := .answered (echo (taskToProto call.task)) } := by
  have hmatched : Matched final := run_invariant (fun _ _ _ ↦ Matched.step) (matched_start submitTask cqCount count) hrun
  refine ⟨fun call hcall result hpc ↦ ?_, fun call hcall status hpc ↦ ?_, hmatched.exclusive,
    fun index call tag hcall hpc ↦ ?_⟩
  · have hconsistent := hmatched.consistent call hcall
    simp only [Call.Consistent, hpc] at hconsistent
    rw [hconsistent, taskFromProto_echo]
  · have hconsistent := hmatched.consistent call hcall
    simpa only [Call.Consistent, hpc] using hconsistent
  · have hconsistent := hmatched.consistent call (List.mem_of_getElem? hcall)
    simp only [Call.Consistent, hpc] at hconsistent
    obtain ⟨driver, draining, hserves⟩ := hconsistent
    obtain ⟨next, hnext⟩ := Option.isSome_iff_exists.mp hserves.ready
    refine ⟨driver, { server := next, calls := final.calls.map (Call.answer tag (echo (taskToProto call.task))) }, ?_, ?_⟩
    · simp only [step, hnext, Option.map_some, hserves.finishing]
    · rw [List.getElem?_map, hcall, Option.map_some, Call.answer_of_eq hpc]

/-- Two calls that the contexts take in the other order, on one queue. -/
def crossingCalls : List Action :=
  [.call true { taskId := "a" }, .call true { taskId := "b" }, .accept 1 0 ⟨0, 0, .request⟩, .server (.proceed 0),
    .accept 0 0 ⟨1, 0, .request⟩, .server (.proceed 0), .reply 0, .reply 1]

theorem calls_get_own_answers_crossing : ∃ final first second,
    run step { server := .start none 1 2 } crossingCalls = some final ∧
      final.calls = [⟨{ taskId := "a" }, .returned (.ok first)⟩, ⟨{ taskId := "b" }, .returned (.ok second)⟩] ∧
      first = answerOf { taskId := "a" } ∧ second = answerOf { taskId := "b" } := by
  have hrun : run step { server := .start none 1 2 } crossingCalls = some _ := rfl
  refine ⟨_, _, _, hrun, rfl, ?_, ?_⟩
  · exact (calls_get_own_answers none 1 2 hrun).1 _ (.head _) _ rfl
  · exact (calls_get_own_answers none 1 2 hrun).1 _ (.tail _ (.head _)) _ rfl

end TinyReactor.Rpc
