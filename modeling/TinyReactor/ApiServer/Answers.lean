import TinyReactor.ApiServer.Lifecycle

/-!
# The answers of the server

`SetSubmitTaskHandler` stores a function, and `OnSubmitTask` never calls it: every request is answered with its own
copy, marked as successful. A context serves one request in its life and holds it alone, so the answers are never
mixed up, and a client gets the answer of the registered function exactly where that function is this echo.
-/

namespace TinyReactor.ApiServer

open Transition Wire

/-- The request that the step delivers to the context `tag`. -/
def received (tag : ContextId) (_ : AsyncServer) : Action → Option PbTask
  | .deliver _ op ok request => if op.tag = tag ∧ op.kind = .request ∧ ok = true then some request else none
  | _ => none

/-- A copy of the request, marked as successful. -/
def echo (request : PbTask) : TaskResponse := { task := some { request with state := 2 } }

variable {server next : AsyncServer} {action : Action} {tag : ContextId} {context : CallContext} {driver : ℕ}
  {requests : List PbTask}

/-! ## The only event of a context -/

section Balanced

variable (h : Balanced server) {draining ok : Bool}

include h

theorem Balanced.pending_le_one (tag : ContextId) : server.pending tag ≤ 1 := by
  rw [h.pending]
  exact entryCount_le_one Option.isSome

/-- While an event of the context is being handled it has no other. -/
theorem Balanced.not_outstanding (hdriver : server.drivers[driver]? = some (.proceed draining tag ok)) {op : Op}
    (hop : op ∈ server.outstanding) : op.tag ≠ tag := by
  intro htag
  have hone := h.pending_le_one tag
  have hops : 0 < server.outstanding.countP fun op ↦ op.tag == tag :=
    List.countP_pos_iff.mpr ⟨op, hop, beq_iff_eq.mpr htag⟩
  have hhandles := toNat_le_countP (DriverPc.handles tag) hdriver
  rw [DriverPc.handles, beq_self_eq_true, Bool.toNat_true] at hhandles
  rw [AsyncServer.pending] at hone
  omega

/-- One thread handles the event of a context. -/
theorem Balanced.handler_unique {other : ℕ} {draining' ok' : Bool}
    (hdriver : server.drivers[driver]? = some (.proceed draining tag ok))
    (hother : server.drivers[other]? = some (.proceed draining' tag ok')) : driver = other := by
  have hcount : server.drivers.countP (DriverPc.handles tag) ≤ 1 :=
    Nat.le_trans (Nat.le_add_left _ _) (h.pending_le_one tag)
  exact index_unique_of_countP_le_one hcount hdriver hother (beq_self_eq_true tag) (beq_self_eq_true tag)

/-- An outstanding operation is the only one of its context. -/
theorem Balanced.not_mem_erase {op other : Op} (hop : op ∈ server.outstanding)
    (hother : other ∈ server.outstanding.erase op) : other.tag ≠ op.tag := by
  intro htag
  have hone := h.pending_le_one op.tag
  have hperm := (List.perm_cons_erase hop).countP_eq fun other ↦ other.tag == op.tag
  have hrest : 0 < (server.outstanding.erase op).countP fun other ↦ other.tag == op.tag :=
    List.countP_pos_iff.mpr ⟨other, hother, beq_iff_eq.mpr htag⟩
  rw [List.countP_cons_of_pos (by simp)] at hperm
  rw [AsyncServer.pending, hperm] at hone
  omega

end Balanced

/-! ## The request of a context -/

/-- The requests that the context received so far: none before the event of its registration, and when that is being
handled, the one it holds. -/
structure Requested (tag : ContextId) (requests : List PbTask) (server : AsyncServer) : Prop where
  new : server.contexts.length ≤ tag → requests = []
  kind : ∀ op ∈ server.outstanding, op.tag = tag → ∀ context, server.contexts[tag]? = some (some context) →
    (op.kind = .request ↔ context.status = .create)
  waiting : ∀ op ∈ server.outstanding, op.tag = tag → op.kind = .request → requests = []
  handled : ∀ (driver : ℕ) draining context, server.drivers[driver]? = some (.proceed draining tag true) →
    server.contexts[tag]? = some (some context) → context.status = .create → requests = [context.request]

theorem Requested.newContext (h : Requested tag requests server) (hhomed : Homed server) (cq : ℕ) :
    Requested tag requests (server.newContext cq) where
  new hle := by
    rw [AsyncServer.newContext, List.length_append, List.length_singleton] at hle
    exact h.new (Nat.le_of_succ_le hle)
  kind op hop htag context hcontext := by
    rcases List.mem_append.mp hop with hold | hnew
    · rcases of_getElem?_append_singleton hcontext with hbefore | ⟨rfl, -⟩
      · exact h.kind op hold htag context hbefore
      · have hlt := (hhomed.outstanding op hold).1
        rw [htag] at hlt
        exact absurd hlt (Nat.lt_irrefl _)
    · obtain rfl := List.mem_singleton.mp hnew
      rcases of_getElem?_append_singleton hcontext with hbefore | ⟨-, heq⟩
      · have hlt := lt_length_of_getElem? hbefore
        exact absurd htag.symm (Nat.ne_of_lt hlt)
      · cases heq
        exact iff_of_true rfl rfl
  waiting op hop htag hkind := by
    rcases List.mem_append.mp hop with hold | hnew
    · exact h.waiting op hold htag hkind
    · obtain rfl := List.mem_singleton.mp hnew
      exact h.new (Nat.le_of_eq htag)
  handled driver draining context hdriver hcontext hstatus := by
    rcases of_getElem?_append_singleton hcontext with hbefore | ⟨rfl, -⟩
    · exact h.handled driver draining context hdriver hbefore hstatus
    · have hlt := (hhomed.drivers driver draining _ true hdriver).1
      exact absurd hlt (Nat.lt_irrefl _)

theorem requested_start (submitTask : Option SubmitTaskFunc) (cqCount count : ℕ) (tag : ContextId) :
    Requested tag [] (AsyncServer.start submitTask cqCount count) := by
  have hhomed := homed_start submitTask cqCount
  unfold AsyncServer.start at hhomed ⊢
  induction count with
  | zero =>
    refine ⟨fun _ ↦ rfl, fun op hop ↦ ?_, fun _ _ _ _ ↦ rfl, fun driver draining context _ hcontext ↦ ?_⟩
    · cases hop
    · cases hcontext
  | succ count ih => exact ih.newContext (hhomed count) (count % cqCount)

theorem receive_status (kind : OpKind) (ok : Bool) (request : PbTask) (context : CallContext) :
    (receive kind ok request context).status = context.status := by
  unfold receive
  split <;> rfl

/-- An event of another context. -/
theorem Requested.delivered_other (h : Requested tag requests server) {draining ok : Bool} {op : Op}
    {request : PbTask} (htag : op.tag ≠ tag) :
    Requested tag requests (server.delivered driver draining op ok request) := by
  have hcontexts : (server.delivered driver draining op ok request).contexts[tag]? = server.contexts[tag]? :=
    List.getElem?_modify_ne _ _ htag
  constructor
  case new =>
    rw [AsyncServer.delivered, List.length_modify]
    exact h.new
  case kind =>
    intro other hother
    rw [hcontexts]
    exact h.kind other (List.mem_of_mem_erase hother)
  case waiting =>
    intro other hother
    exact h.waiting other (List.mem_of_mem_erase hother)
  case handled =>
    intro other draining' context hother
    rw [hcontexts]
    rcases eq_or_ne driver other with rfl | hne
    · have hlt := lt_length_of_getElem? hother
      rw [AsyncServer.delivered, List.length_set] at hlt
      rw [AsyncServer.delivered, List.getElem?_set_self hlt] at hother
      cases hother
      exact absurd rfl htag
    · rw [AsyncServer.delivered, List.getElem?_set_ne hne] at hother
      exact h.handled other draining' context hother

/-- The event of the only operation of the context. If it is that of the registration, it brings the request. -/
theorem Requested.delivered_self (hbalanced : Balanced server) (hhomed : Homed server) {draining ok : Bool} {op : Op}
    {request : PbTask} (h : Requested op.tag requests server)
    (hdriver : server.drivers[driver]? = some (.next draining)) (hmem : op ∈ server.outstanding) :
    Requested op.tag (requests ++ (received op.tag server (.deliver driver op ok request)).toList)
      (server.delivered driver draining op ok request) := by
  constructor
  case new =>
    intro hle
    rw [AsyncServer.delivered, List.length_modify] at hle
    exact absurd (hhomed.outstanding op hmem).1 (Nat.not_lt.mpr hle)
  case kind =>
    intro other hother htag
    exact absurd htag (hbalanced.not_mem_erase hmem hother)
  case waiting =>
    intro other hother htag
    exact absurd htag (hbalanced.not_mem_erase hmem hother)
  case handled =>
    intro other draining' context hother hcontext hstatus
    rw [AsyncServer.delivered, List.getElem?_modify_eq] at hcontext
    obtain ⟨entry, hentry, hmoved⟩ := Option.map_eq_some_iff.mp hcontext
    obtain ⟨old, rfl, rfl⟩ := Option.map_eq_some_iff.mp hmoved
    rcases eq_or_ne driver other with rfl | hne
    · rw [AsyncServer.delivered, List.getElem?_set_self (lt_length_of_getElem? hdriver)] at hother
      cases hother
      rw [receive_status] at hstatus
      have hkind := (h.kind op hmem rfl old hentry).mpr hstatus
      simp [h.waiting op hmem rfl hkind, received, receive, hkind]
    · rw [AsyncServer.delivered, List.getElem?_set_ne hne] at hother
      exact absurd rfl (hbalanced.not_outstanding hother hmem)

theorem Requested.deleteContext (h : Requested tag requests server) (deleted : ContextId) :
    Requested tag requests (server.deleteContext deleted) := by
  have hkept (context : CallContext)
      (hcontext : (server.deleteContext deleted).contexts[tag]? = some (some context)) :
      server.contexts[tag]? = some (some context) := by
    rw [AsyncServer.deleteContext, List.getElem?_set] at hcontext
    split at hcontext
    · split at hcontext <;> cases hcontext
    · exact hcontext
  constructor
  case new =>
    rw [AsyncServer.deleteContext, List.length_set]
    exact h.new
  case kind => exact fun op hop htag context hcontext ↦ h.kind op hop htag context (hkept context hcontext)
  case waiting => exact h.waiting
  case handled =>
    exact fun driver draining context hdriver hcontext ↦ h.handled driver draining context hdriver (hkept context hcontext)

/-- A context that has answered its request waits for the event of its `Finish`. -/
theorem Requested.answer (h : Requested tag requests server) (hbalanced : Balanced server) {draining ok : Bool}
    {handled : ContextId} {served : CallContext}
    (hdriver : server.drivers[driver]? = some (.proceed draining handled ok))
    (hlive : server.contexts[handled]? = some (some context)) (hserved : served.status = .finish)
    (hcontexts : next.contexts = server.contexts.set handled (some served))
    (hops : next.outstanding = server.outstanding ++ [⟨handled, context.cq, .finish⟩])
    (hdrivers : next.drivers = server.drivers) : Requested tag requests next := by
  have hself : next.contexts[handled]? = some (some served) := by
    rw [hcontexts, List.getElem?_set_self (lt_length_of_getElem? hlive)]
  have hother (hne : handled ≠ tag) : next.contexts[tag]? = server.contexts[tag]? := by
    rw [hcontexts, List.getElem?_set_ne hne]
  constructor
  case new =>
    rw [hcontexts, List.length_set]
    exact h.new
  case kind =>
    intro op hop htag context' hcontext'
    rw [hops] at hop
    rcases List.mem_append.mp hop with hold | hnew
    · have hne : handled ≠ tag := fun heq ↦ hbalanced.not_outstanding hdriver hold (htag.trans heq.symm)
      rw [hother hne] at hcontext'
      exact h.kind op hold htag context' hcontext'
    · obtain rfl := List.mem_singleton.mp hnew
      subst htag
      rw [hself] at hcontext'
      cases hcontext'
      exact iff_of_false (by simp) (by simp [hserved])
  case waiting =>
    intro op hop htag hkind
    rw [hops] at hop
    rcases List.mem_append.mp hop with hold | hnew
    · exact h.waiting op hold htag hkind
    · obtain rfl := List.mem_singleton.mp hnew
      cases hkind
  case handled =>
    intro driver' draining' context' hdriver' hcontext' hstatus
    rw [hdrivers] at hdriver'
    rcases eq_or_ne handled tag with rfl | hne
    · rw [hself] at hcontext'
      cases hcontext'
      rw [hserved] at hstatus
      cases hstatus
    · rw [hother hne] at hcontext'
      exact h.handled driver' draining' context' hdriver' hcontext' hstatus

theorem Requested.setDriver (h : Requested tag requests server) {pc : DriverPc} (hpc : ∀ tag, pc.handles tag = false) :
    Requested tag requests (server.setDriver driver pc) := by
  refine ⟨h.new, h.kind, h.waiting, fun other draining context hother ↦ ?_⟩
  rcases eq_or_ne driver other with rfl | hne
  · have hlt := lt_length_of_getElem? hother
    rw [AsyncServer.setDriver, List.length_set] at hlt
    rw [AsyncServer.setDriver, List.getElem?_set_self hlt, Option.some.injEq] at hother
    have hhandles := hpc tag
    rw [hother, DriverPc.handles, beq_self_eq_true] at hhandles
    cases hhandles
  · rw [AsyncServer.setDriver, List.getElem?_set_ne hne] at hother
    exact h.handled other draining context hother

theorem Requested.proceed (h : Requested tag requests server) (hbalanced : Balanced server) (hhomed : Homed server)
    {draining ok : Bool} {handled : ContextId}
    (hdriver : server.drivers[driver]? = some (.proceed draining handled ok))
    (hlive : server.contexts[handled]? = some (some context)) :
    Requested tag requests (proceed server handled context ok) := by
  cases ok with
  | false => exact h.deleteContext handled
  | true =>
    cases hstatus : context.status with
    | create =>
      simp only [ApiServer.proceed, hstatus]
      exact h.answer hbalanced hdriver hlive rfl rfl rfl rfl
    | finish =>
      simp only [ApiServer.proceed, hstatus]
      exact (h.deleteContext handled).newContext (hhomed.deleteContext hlive) context.cq
    | rearm => exact absurd hstatus (hbalanced.status handled context hlive)

theorem Requested.step (h : Requested tag requests server) (hbalanced : Balanced server) (hhomed : Homed server)
    (hstep : step server action = some next) :
    Requested tag (requests ++ (received tag server action).toList) next := by
  cases move_of_step hstep with
  | deliver draining hdriver hdeliver =>
    rename_i driver op ok request
    by_cases htag : op.tag = tag
    · subst htag
      exact h.delivered_self hbalanced hhomed hdriver (of_deliverable hdeliver).1
    · rw [received, if_neg fun hall ↦ htag hall.1, Option.toList_none, List.append_nil]
      exact h.delivered_other htag
  | proceed draining handled ok context hdriver hlive =>
    change Requested tag (requests ++ []) _
    rw [List.append_nil]
    exact (h.proceed hbalanced hhomed hdriver hlive).setDriver fun _ ↦ rfl
  | drain | finish =>
    change Requested tag (requests ++ []) _
    rw [List.append_nil]
    exact h.setDriver fun _ ↦ rfl
  | _ =>
    change Requested tag (requests ++ []) _
    rw [List.append_nil]
    exact ⟨h.new, h.kind, h.waiting, h.handled⟩

/-! ## Answers -/

theorem requested_of_run {submitTask : Option SubmitTaskFunc} {cqCount count : ℕ} {actions : List Action}
    (hrun : run step (AsyncServer.start submitTask cqCount count) actions = some server) (tag : ContextId) :
    Requested tag (collect step (received tag) (AsyncServer.start submitTask cqCount count) actions) server := by
  have hok : Meets step (fun _ _ ↦ True) (AsyncServer.start submitTask cqCount count) actions :=
    Meets.of_forall_mem fun _ _ _ ↦ trivial
  have hinvariant := collect_invariant (f := received tag)
    (I := fun shown visited ↦ Balanced visited ∧ Homed visited ∧ Requested tag shown visited)
    (fun shown visited action next hvisited _ hstep ↦ ?_) hok
    ⟨balanced_start submitTask cqCount count, homed_start submitTask cqCount count,
      requested_start submitTask cqCount count tag⟩ hrun
  · exact hinvariant.2.2
  · obtain ⟨hbalanced, hhomed, hrequested⟩ := hvisited
    exact ⟨hbalanced.step (stepAnyOk_of_step hstep), hhomed.step hstep, hrequested.step hbalanced hhomed hstep⟩

/-- In every run, when a context answers, exactly one request was ever delivered to it, and the response it passes to
`Finish` is what the registered handler makes of that request and an empty response if and only if that is the copy
of the request marked as successful. -/
theorem answer_eq_handler_iff (handler : SubmitTaskFunc) (cqCount count : ℕ) (actions : List Action)
    (server next : AsyncServer) (driver : ℕ) (draining : Bool) (tag : ContextId) (context : CallContext)
    (hrun : run step (AsyncServer.start (some handler) cqCount count) actions = some server)
    (hdriver : server.drivers[driver]? = some (.proceed draining tag true))
    (hcontext : server.contexts[tag]? = some (some context)) (hstatus : context.status = .create)
    (hnext : step server (.proceed driver) = some next) :
    ∃ request response,
      collect step (received tag) (AsyncServer.start (some handler) cqCount count) actions = [request] ∧
      next.answers = server.answers ++ [(request, response)] ∧
      (response = handler request {} ↔ handler request {} = echo request) := by
  refine ⟨context.request, echo context.request, ?_, ?_, eq_comm⟩
  · exact (requested_of_run hrun tag).handled driver draining context hdriver hcontext hstatus
  · simp only [step, hdriver, hcontext, Option.some.injEq] at hnext
    subst hnext
    simp only [proceed, hstatus]
    rfl

/-- The handler of the unit test, which computes the echo itself. -/
def echoHandler : SubmitTaskFunc := fun request _ ↦ echo request

/-- Two requests cross: the second one reaches its context while the first waits to be handled, and is answered
before it. -/
def crossingRequests : List Action :=
  [.deliver 0 ⟨0, 0, .request⟩ true { taskId := "first" }, .deliver 1 ⟨1, 1, .request⟩ true { taskId := "second" },
    .proceed 1]

theorem answer_eq_echoHandler :
    ∃ server next, run step (AsyncServer.start (some echoHandler) 2 2) crossingRequests = some server ∧
      step server (.proceed 0) = some next ∧ server.answers.length = 1 ∧
      ∃ request response, request.taskId = "first" ∧
        collect step (received 0) (AsyncServer.start (some echoHandler) 2 2) crossingRequests = [request] ∧
        next.answers = server.answers ++ [(request, response)] ∧ response = echoHandler request {} := by
  refine ⟨_, _, rfl, rfl, rfl, ?_⟩
  obtain ⟨request, response, hreceived, hanswers, hiff⟩ :=
    answer_eq_handler_iff echoHandler 2 2 crossingRequests _ _ 0 false 0 _ rfl rfl rfl rfl rfl
  have hfirst : collect step (received 0) (AsyncServer.start (some echoHandler) 2 2) crossingRequests =
      [{ taskId := "first" }] := rfl
  obtain rfl : { taskId := "first" } = request := List.singleton_injective (hfirst.symm.trans hreceived)
  exact ⟨_, response, rfl, hreceived, hanswers, hiff.mpr rfl⟩

/-- A request reaches the only context. -/
def firstRequest : List Action := [.deliver 0 ⟨0, 0, .request⟩ true { taskId := "job" }]

/-- A handler that leaves the response as it is. -/
def silentHandler : SubmitTaskFunc := fun _ response ↦ response

/-- The client of a server with this handler gets its request back all the same. -/
theorem answer_ne_silentHandler :
    ∃ server next request response,
      run step (AsyncServer.start (some silentHandler) 1 1) firstRequest = some server ∧
      step server (.proceed 0) = some next ∧ next.answers = [(request, response)] ∧
      response.task.isSome = true ∧ response ≠ silentHandler request {} := by
  refine ⟨_, _, _, _, rfl, rfl, rfl, rfl, fun heq ↦ ?_⟩
  cases congrArg (Option.isSome ∘ TaskResponse.task) heq

end TinyReactor.ApiServer
