import TinyReactor.ApiServer.Answers
import TinyReactor.ApiServer.Capacity
import TinyReactor.Transition.Progress

/-!
# `Shutdown` comes to its end

`Shutdown` joins the threads of the queues, and each of them returns when `Next` finds its queue closed and empty. A
closed queue still takes operations: handling a call starts its `Finish`, and handling the `Finish` registers a new
context. So the queues run empty only because every call that is answered brings a bounded number of events. The
potential below counts them. It holds for every state of the server, not only while it is being shut down; what
`Shutdown` adds is that no thread waits for ever. The call of gRPC that stops the server waits itself, for the calls
that are pending; it is a single step here, and what is shown of the wait is that the thread of a pending call is not
blocked.
-/

namespace TinyReactor.ApiServer

open Transition Wire

/-! ## Steps to come -/

/-- The events and calls of `Proceed` that a context is good for if no further call is answered. -/
def CallStatus.work : CallStatus → ℕ
  | .create => 2
  | .finish => 4
  | .rearm => 0

/-- The thread in `Next` may still take an event, and return twice without one. -/
def DriverPc.work : DriverPc → ℕ
  | .next draining => 3 - draining.toNat
  | .proceed draining _ _ => 2 - draining.toNat
  | .returned => 0

/-- The statements of `Shutdown` that are left, with the call itself. -/
def ShutdownPc.work (cqCount : ℕ) : ShutdownPc → ℕ
  | .notCalled => cqCount + 4
  | .setFlag => cqCount + 3
  | .stopServer => cqCount + 2
  | .stopQueue cq => cqCount - cq + 1
  | .join => 0

def contextWork (entry : Option CallContext) : ℕ := entry.elim 0 fun context ↦ context.status.work

namespace AsyncServer

def contextsWork (server : AsyncServer) : ℕ := (server.contexts.map contextWork).sum

def driversWork (server : AsyncServer) : ℕ := (server.drivers.map DriverPc.work).sum

def work (server : AsyncServer) : ℕ :=
  server.contextsWork + server.driversWork + server.shutdown.work server.queuesStopped.length

end AsyncServer

variable {server next : AsyncServer} {action : Action} {tag : ContextId} {context : CallContext} {driver : ℕ}

theorem contextsWork_newContext (cq : ℕ) : (server.newContext cq).contextsWork = server.contextsWork + 2 := by
  simp [AsyncServer.contextsWork, AsyncServer.newContext, contextWork, CallStatus.work]

theorem contextsWork_set (hlive : server.contexts[tag]? = some (some context)) (entry : Option CallContext) :
    ((server.contexts.set tag entry).map contextWork).sum + context.status.work =
      server.contextsWork + contextWork entry :=
  sum_map_set_of_getElem? contextWork hlive entry

theorem contextsWork_delivered {draining ok : Bool} {op : Op} {request : PbTask} :
    (server.delivered driver draining op ok request).contextsWork = server.contextsWork := by
  have hkeeps (entry : Option CallContext) :
      contextWork (entry.map (receive op.kind ok request)) = contextWork entry := by
    cases entry with
    | none => rfl
    | some context =>
      change (receive op.kind ok request context).status.work = context.status.work
      unfold receive
      split <;> rfl
  simp only [AsyncServer.contextsWork, AsyncServer.delivered]
  cases hentry : server.contexts[op.tag]? with
  | none => rw [List.modify_eq_self (List.getElem?_eq_none_iff.mp hentry)]
  | some entry =>
    have hset := sum_map_set_of_getElem? contextWork hentry (entry.map (receive op.kind ok request))
    rw [hkeeps] at hset
    rw [modify_eq_set_of_getElem? hentry]
    omega

theorem driversWork_setDriver {pc : DriverPc} (hdriver : server.drivers[driver]? = some pc) (pc' : DriverPc) :
    ((server.drivers.set driver pc').map DriverPc.work).sum + pc.work = server.driversWork + pc'.work :=
  sum_map_set_of_getElem? DriverPc.work hdriver pc'

/-- `Proceed` lowers the work of its context by two, or it answers a call. -/
theorem contextsWork_proceed (h : Balanced server) (hlive : server.contexts[tag]? = some (some context)) (ok : Bool) :
    (proceed server tag context ok).contextsWork + 2 + 4 * server.answers.length ≤
      server.contextsWork + 4 * (proceed server tag context ok).answers.length := by
  have hdeleted := contextsWork_set hlive none
  have hwork : 2 ≤ context.status.work := by
    cases hstatus : context.status with
    | create => exact Nat.le_refl 2
    | finish => exact (by decide : 2 ≤ 4)
    | rearm => exact absurd hstatus (h.status tag context hlive)
  change (server.deleteContext tag).contextsWork + _ = _ + 0 at hdeleted
  cases ok with
  | false =>
    change (server.deleteContext tag).contextsWork + 2 + _ ≤ _ + 4 * server.answers.length
    omega
  | true =>
    cases hstatus : context.status with
    | create =>
      have hanswered := contextsWork_set hlive (some { onSubmitTask context with status := .finish })
      rw [hstatus] at hanswered
      simp only [proceed, hstatus, if_true, AsyncServer.contextsWork, List.length_append, List.length_singleton] at *
      change _ + 2 = _ + 4 at hanswered
      omega
    | finish =>
      have hnew : ((server.deleteContext tag).newContext context.cq).contextsWork = _ := contextsWork_newContext _
      rw [hstatus] at hdeleted
      simp only [proceed, hstatus, if_true]
      change _ ≤ _ + 4 * server.answers.length
      change _ + 4 = _ at hdeleted
      omega
    | rearm => exact absurd hstatus (h.status tag context hlive)

theorem proceed_frame (server : AsyncServer) (tag : ContextId) (context : CallContext) (ok : Bool) :
    (proceed server tag context ok).drivers = server.drivers ∧
      (proceed server tag context ok).queuesStopped = server.queuesStopped ∧
      (proceed server tag context ok).shutdown = server.shutdown := by
  unfold proceed
  split
  · split <;> exact ⟨rfl, rfl, rfl⟩
  · exact ⟨rfl, rfl, rfl⟩

theorem driverWork_proceed (draining : Bool) (tag : ContextId) (ok : Bool) :
    (DriverPc.proceed draining tag ok).work + 1 = (DriverPc.next draining).work := by
  cases draining <;> rfl

/-- Every step uses up some of the work, and an answer is paid with four. -/
theorem work_step (h : Balanced server) (hstep : step server action = some next) :
    next.work + 1 + 4 * server.answers.length ≤ server.work + 4 * next.answers.length := by
  cases move_of_step hstep with
  | deliver draining hdriver hdeliver =>
    rename_i driver op ok request
    have hcontexts : (server.delivered driver draining op ok request).contextsWork = _ := contextsWork_delivered
    have hdrivers := driversWork_setDriver hdriver (.proceed draining op.tag ok)
    have hless := driverWork_proceed draining op.tag ok
    change (server.delivered driver draining op ok request).work + 1 + _ ≤ server.work + 4 * server.answers.length
    change (server.delivered driver draining op ok request).driversWork + _ = _ at hdrivers
    simp only [AsyncServer.work, AsyncServer.delivered] at *
    omega
  | proceed draining handled ok context hdriver hlive =>
    obtain ⟨hsame, hqueues, hshutdown⟩ := proceed_frame server handled context ok
    have hcontexts := contextsWork_proceed h hlive ok
    have hdrivers := driversWork_setDriver hdriver (.next draining)
    have hless := driverWork_proceed draining handled ok
    simp only [AsyncServer.work, AsyncServer.setDriver, AsyncServer.driversWork, hsame, hqueues, hshutdown,
      AsyncServer.contextsWork] at *
    omega
  | drain hdriver =>
    have hdrivers := driversWork_setDriver hdriver (.next true)
    simp only [AsyncServer.work, AsyncServer.setDriver, AsyncServer.driversWork, AsyncServer.contextsWork] at *
    change _ + 3 = _ + 2 at hdrivers
    omega
  | finish hdriver =>
    have hdrivers := driversWork_setDriver hdriver .returned
    simp only [AsyncServer.work, AsyncServer.setDriver, AsyncServer.driversWork, AsyncServer.contextsWork] at *
    change _ + 2 = _ + 0 at hdrivers
    omega
  | callShutdown hshutdown | setFlag hshutdown | stopServer hshutdown | join cq hshutdown hge =>
    simp only [AsyncServer.work, AsyncServer.contextsWork, AsyncServer.driversWork, hshutdown, ShutdownPc.work]
    omega
  | stopQueue cq hshutdown hlt =>
    simp only [AsyncServer.work, AsyncServer.contextsWork, AsyncServer.driversWork, hshutdown, ShutdownPc.work,
      List.length_set]
    omega

theorem contextsWork_le (server : AsyncServer) : server.contextsWork ≤ 4 * server.capacity := by
  apply sum_map_le_mul_countP
  intro entry
  cases entry with
  | none => exact Nat.zero_le _
  | some context =>
    change context.status.work ≤ 4
    cases context.status <;> decide

theorem driversWork_le (server : AsyncServer) : server.driversWork ≤ 3 * server.drivers.length := by
  rw [← List.countP_true]
  apply sum_map_le_mul_countP
  intro pc
  cases pc with
  | returned => exact Nat.zero_le 3
  | _ => exact Nat.le_trans (Nat.sub_le _ _) (by decide)

/-! ## Closed queues -/

/-- `Shutdown` has closed the queue `cq`, if there is one. -/
def ShutdownPc.Passed (cq : ℕ) : ShutdownPc → Prop
  | .stopQueue upcoming => cq < upcoming
  | .join => True
  | _ => False

/-- Each queue has a thread and all contexts are on queues; `Shutdown` closes them in order. -/
structure Closing (cqCount : ℕ) (server : AsyncServer) : Prop where
  drivers : server.drivers.length = cqCount
  queues : server.queuesStopped.length = cqCount
  placed : ∀ cq, server.Occupied cq → cq < cqCount
  closed : ∀ cq < cqCount, server.shutdown.Passed cq → server.closed cq = true

variable {cqCount count : ℕ}

theorem Closing.newContext (h : Closing cqCount server) {cq : ℕ} (hcq : cq < cqCount) :
    Closing cqCount (server.newContext cq) where
  drivers := h.drivers
  queues := h.queues
  placed := by
    rintro _ ⟨tag, context, hcontext, rfl⟩
    rcases of_getElem?_append_singleton hcontext with hold | ⟨-, hnew⟩
    · exact h.placed _ ⟨tag, context, hold, rfl⟩
    · cases hnew
      exact hcq
  closed := h.closed

theorem closing_start (submitTask : Option SubmitTaskFunc) (hcq : 0 < cqCount) (count : ℕ) :
    Closing cqCount (AsyncServer.start submitTask cqCount count) := by
  unfold AsyncServer.start
  induction count with
  | zero =>
    refine ⟨List.length_replicate, List.length_replicate, ?_, fun cq hlt hpassed ↦ ?_⟩
    · rintro _ ⟨tag, context, hcontext, rfl⟩
      cases hcontext
    · cases hpassed
  | succ count ih => exact ih.newContext (Nat.mod_lt count hcq)

theorem length_drivers_step (hstep : step server action = some next) :
    next.drivers.length = server.drivers.length := by
  cases move_of_step hstep with
  | proceed draining tag ok context =>
    rw [AsyncServer.setDriver, List.length_set, (proceed_frame server tag context ok).1]
  | deliver | drain | finish => exact List.length_set ..
  | _ => rfl

/-- What `Shutdown` has passed it has closed, and no other step opens a queue or moves `Shutdown`. -/
theorem queues_step (hstep : step server action = some next) :
    next.queuesStopped = server.queuesStopped ∧ (∀ cq < server.queuesStopped.length,
        next.shutdown.Passed cq → server.shutdown.Passed cq) ∨
      ∃ upcoming < server.queuesStopped.length, server.shutdown = .stopQueue upcoming ∧
        next.shutdown = .stopQueue (upcoming + 1) ∧
        next.queuesStopped = server.queuesStopped.set upcoming true := by
  cases move_of_step hstep with
  | proceed draining tag ok context hdriver hlive =>
    obtain ⟨-, hqueues, hshutdown⟩ := proceed_frame server tag context ok
    refine .inl ⟨hqueues, fun cq _ hpassed ↦ ?_⟩
    rw [AsyncServer.setDriver, hshutdown] at hpassed
    exact hpassed
  | deliver | drain | finish => exact .inl ⟨rfl, fun _ _ hpassed ↦ hpassed⟩
  | callShutdown hshutdown | setFlag hshutdown => exact .inl ⟨rfl, fun _ _ hpassed ↦ hpassed.elim⟩
  | stopServer hshutdown => exact .inl ⟨rfl, fun cq _ hpassed ↦ absurd hpassed (Nat.not_lt_zero cq)⟩
  | stopQueue cq hshutdown hlt => exact .inr ⟨cq, hlt, hshutdown, rfl, rfl⟩
  | join cq hshutdown hge =>
    refine .inl ⟨rfl, fun other hlt _ ↦ ?_⟩
    rw [hshutdown]
    exact Nat.lt_of_lt_of_le hlt hge

theorem Closing.step (h : Closing cqCount server) (hstep : step server action = some next) : Closing cqCount next := by
  have hlength : next.queuesStopped.length = server.queuesStopped.length := by
    obtain ⟨hsame, -⟩ | ⟨_, -, -, -, hset⟩ := queues_step hstep
    · rw [hsame]
    · rw [hset, List.length_set]
  refine ⟨(length_drivers_step hstep).trans h.drivers, hlength.trans h.queues, fun cq hoccupied ↦ ?_,
    fun cq hlt hpassed ↦ ?_⟩
  · exact h.placed cq (occupied_of_step (stepAnyOk_of_step hstep) hoccupied)
  · obtain ⟨hsame, hback⟩ | ⟨upcoming, hbound, hbefore, hafter, hset⟩ := queues_step hstep
    · rw [AsyncServer.closed, hsame]
      exact h.closed cq hlt (hback cq (h.queues ▸ hlt) hpassed)
    · rw [AsyncServer.closed, hset]
      rcases eq_or_ne upcoming cq with rfl | hne
      · rw [List.getElem?_set_self hbound, Option.getD_some]
      · rw [List.getElem?_set_ne hne]
        apply h.closed cq hlt
        rw [hafter] at hpassed
        rw [hbefore]
        change cq < upcoming + 1 at hpassed
        change cq < upcoming
        omega

/-! ## No thread waits for ever -/

/-- The thread that takes the step, if it is one of a queue. -/
def Action.driver? : Action → Option ℕ
  | .deliver driver _ _ _ | .proceed driver | .closed driver => some driver
  | .callShutdown | .shutdown => none

/-- The thread can go on, and needs no call from a client for it. -/
def AsyncServer.CanMove (server : AsyncServer) (driver : ℕ) : Prop :=
  ∃ action : Action, action.driver? = some driver ∧ (∀ op request, action ≠ .deliver driver op true request) ∧
    (step server action).isSome = true

theorem canMove_proceed (h : Balanced server) {draining ok : Bool}
    (hdriver : server.drivers[driver]? = some (.proceed draining tag ok)) : server.CanMove driver := by
  have hhandles := toNat_le_countP (DriverPc.handles tag) hdriver
  rw [DriverPc.handles, beq_self_eq_true, Bool.toNat_true] at hhandles
  have hpending : 0 < server.live tag := by
    rw [← h.pending]
    exact Nat.lt_of_lt_of_le hhandles (Nat.le_add_left _ _)
  obtain ⟨context, hlive⟩ := getElem?_of_live hpending
  refine ⟨.proceed driver, rfl, by simp, ?_⟩
  simp only [step, hdriver, hlive, Option.isSome_some]

/-- On a closed queue `Next` delivers what is outstanding, or returns without an event. -/
theorem canMove_next {draining : Bool} (hdriver : server.drivers[driver]? = some (.next draining))
    (hclosed : server.closed driver = true) : server.CanMove driver := by
  rw [AsyncServer.closed] at hclosed
  by_cases hempty : server.outstanding.all (fun op ↦ op.cq != driver) = true
  · refine ⟨.closed driver, rfl, by simp, ?_⟩
    simp only [step, hdriver, hempty, hclosed, Bool.and_true, if_true, Option.isSome_some]
  · rw [List.all_eq_true] at hempty
    push Not at hempty
    obtain ⟨op, hop, hcq⟩ := hempty
    have hown : (op.cq == driver) = true := by simpa using hcq
    have hdeliver : deliverable server driver op false = true := by
      simp only [deliverable, hop, hown, hclosed, decide_true, Bool.and_true, Bool.or_true]
    refine ⟨.deliver driver op false {}, rfl, by simp, ?_⟩
    simp only [step, hdriver, hdeliver, if_true, Option.isSome_some]

theorem returned_or_canMove (h : Balanced server) (hclosing : Closing cqCount server)
    (hshutdown : server.shutdown = .join) {pc : DriverPc} (hdriver : server.drivers[driver]? = some pc) :
    pc = .returned ∨ server.CanMove driver := by
  cases pc with
  | returned => exact .inl rfl
  | proceed draining tag ok => exact .inr (canMove_proceed h hdriver)
  | next draining =>
    have hlt := lt_length_of_getElem? hdriver
    rw [hclosing.drivers] at hlt
    exact .inr (canMove_next hdriver (hclosing.closed driver hlt (by rw [hshutdown]; trivial)))

/-- The thread of a call whose `Finish` is outstanding, or in its hands, is not blocked. -/
theorem canMove_of_finish (hbalanced : Balanced server) (hhomed : Homed server) (hdrained : Drained server)
    (hclosing : Closing cqCount server) {requests : List PbTask} (hrequested : Requested tag requests server)
    (hlive : server.contexts[tag]? = some (some context)) (hstatus : context.status = .finish) :
    server.CanMove context.cq := by
  have hoccupied : server.Occupied context.cq := ⟨tag, context, hlive, rfl⟩
  have hlt := hclosing.placed context.cq hoccupied
  rw [← hclosing.drivers] at hlt
  have hdriver := List.getElem?_eq_getElem hlt
  cases hpc : server.drivers[context.cq] with
  | returned => exact absurd hoccupied (hdrained context.cq (hpc ▸ hdriver))
  | proceed draining handled ok => exact canMove_proceed hbalanced (hpc ▸ hdriver)
  | next draining =>
    rw [hpc] at hdriver
    obtain ⟨op, hop, htag, hcq⟩ | ⟨_, _, hproceed⟩ := own_queue hbalanced hhomed hlive
    · have hkind : op.kind = .finish := by
        have hrequest := hrequested.kind op hop htag context hlive
        cases hkind : op.kind with
        | finish => rfl
        | request => cases (hrequest.mp hkind).symm.trans hstatus
      have hdeliver : deliverable server context.cq op false = true := by
        simp only [deliverable, hop, hcq, hkind, decide_true, beq_self_eq_true, Bool.and_true, Bool.true_or]
      refine ⟨.deliver context.cq op false {}, rfl, by simp, ?_⟩
      simp only [step, hdriver, hdeliver, if_true, Option.isSome_some]
    · cases hdriver.symm.trans hproceed

/-- Threads that have returned have left no context and no operation. -/
theorem empty_of_returned (hbalanced : Balanced server) (hdrained : Drained server)
    (hclosing : Closing cqCount server) (hreturned : ∀ pc ∈ server.drivers, pc = .returned) :
    server.capacity = 0 ∧ server.outstanding = [] := by
  have hdead (tag : ContextId) (context : CallContext) : server.contexts[tag]? ≠ some (some context) := by
    intro hlive
    have hlt := hclosing.placed context.cq ⟨tag, context, hlive, rfl⟩
    rw [← hclosing.drivers] at hlt
    have hthread := hreturned _ (List.getElem_mem hlt)
    exact hdrained context.cq (hthread ▸ List.getElem?_eq_getElem hlt) ⟨tag, context, hlive, rfl⟩
  constructor
  · rw [AsyncServer.capacity, List.countP_eq_zero]
    intro entry hentry hsome
    obtain ⟨tag, htag⟩ := List.mem_iff_getElem?.mp hentry
    obtain ⟨context, rfl⟩ := Option.isSome_iff_exists.mp hsome
    exact hdead tag context htag
  · rw [List.eq_nil_iff_forall_not_mem]
    intro op hop
    have hops : 0 < server.outstanding.countP fun other ↦ other.tag == op.tag :=
      List.countP_pos_iff.mpr ⟨op, hop, beq_self_eq_true _⟩
    have hlive : 0 < server.live op.tag := by
      rw [← hbalanced.pending]
      exact Nat.lt_of_lt_of_le hops (Nat.le_add_right _ _)
    obtain ⟨context, hcontext⟩ := getElem?_of_live hlive
    exact hdead op.tag context hcontext

/-- What a run from the state of `Run` keeps. -/
structure Orderly (cqCount count : ℕ) (server : AsyncServer) : Prop where
  balanced : Balanced server
  homed : Homed server
  drained : Drained server
  closing : Closing cqCount server
  capacity : server.capacity ≤ count

theorem Orderly.step (h : Orderly cqCount count server) (hstep : step server action = some next) :
    Orderly cqCount count next where
  balanced := h.balanced.step (stepAnyOk_of_step hstep)
  homed := h.homed.step hstep
  drained := h.drained.step h.balanced h.homed (stepAnyOk_of_step hstep)
  closing := h.closing.step hstep
  capacity := by
    have hcapacity := capacity_step hstep
    have hle := h.capacity
    omega

theorem orderly_start (submitTask : Option SubmitTaskFunc) (hcq : 0 < cqCount) (count : ℕ) :
    Orderly cqCount count (AsyncServer.start submitTask cqCount count) :=
  ⟨balanced_start submitTask cqCount count, homed_start submitTask cqCount count,
    drained_start submitTask cqCount count, closing_start submitTask hcq count,
    Nat.le_of_eq (AsyncServer.capacity_start submitTask cqCount count)⟩

theorem work_le (h : Orderly cqCount count server) (hcalled : server.shutdown ≠ .notCalled) :
    server.work ≤ 4 * count + 4 * cqCount + 3 := by
  have hcontexts := contextsWork_le server
  have hdrivers := driversWork_le server
  have hcapacity := h.capacity
  have hshutdown : server.shutdown.work cqCount ≤ cqCount + 3 := by
    cases hpc : server.shutdown with
    | notCalled => exact absurd hpc hcalled
    | _ =>
      simp only [ShutdownPc.work]
      omega
  rw [h.closing.drivers] at hdrivers
  rw [AsyncServer.work, h.closing.queues]
  omega

/-- From the call of `Shutdown` on, in every order of events, the threads take a number of steps that is bounded by
the numbers of contexts and queues and by the calls that are still answered. All the while the thread of a call that
is being finished is not blocked; once `Shutdown` joins, neither is any thread that has not returned, even if no
client calls any more. When all have returned every context is deleted and no operation is left. -/
theorem shutdown_drains (submitTask : Option SubmitTaskFunc) (cqCount count : ℕ) (actions rest : List Action)
    (server final : AsyncServer) (hcq : 0 < cqCount)
    (hrun : run step (AsyncServer.start submitTask cqCount count) actions = some server)
    (hcalled : server.shutdown ≠ .notCalled) (hrest : run step server rest = some final) :
    rest.length + 4 * server.answers.length ≤ 4 * count + 4 * cqCount + 3 + 4 * final.answers.length ∧
      (∀ (tag : ContextId) context, final.contexts[tag]? = some (some context) → context.status = .finish →
        final.CanMove context.cq) ∧
      (final.shutdown = .join → ∀ driver pc, final.drivers[driver]? = some pc →
        pc = .returned ∨ final.CanMove driver) ∧
      ((∀ pc ∈ final.drivers, pc = .returned) → final.capacity = 0 ∧ final.outstanding = []) := by
  have hserver : Orderly cqCount count server :=
    run_invariant (fun _ _ _ h hstep ↦ h.step hstep) (orderly_start submitTask hcq count) hrun
  have hfinal : Orderly cqCount count final := run_invariant (fun _ _ _ h hstep ↦ h.step hstep) hserver hrest
  have hwhole : run step (AsyncServer.start submitTask cqCount count) (actions ++ rest) = some final := by
    rw [run_append, hrun, Option.bind_some, hrest]
  refine ⟨?_, fun tag context hlive hstatus ↦ ?_, fun hjoin driver pc hdriver ↦ ?_, fun hreturned ↦ ?_⟩
  · have hwork := length_add_le_of_credit (I := Orderly cqCount count) (m := AsyncServer.work)
      (c := fun visited ↦ 4 * visited.answers.length)
      (fun _ _ _ h hstep ↦ ⟨h.step hstep, work_step h.balanced hstep⟩) hserver hrest
    have hbound := work_le hserver hcalled
    omega
  · exact canMove_of_finish hfinal.balanced hfinal.homed hfinal.drained hfinal.closing
      (requested_of_run hwhole tag) hlive hstatus
  · exact returned_or_canMove hfinal.balanced hfinal.closing hjoin hdriver
  · exact empty_of_returned hfinal.balanced hfinal.drained hfinal.closing hreturned

/-- `Shutdown` is called while the event of a `Finish` is in the hands of the thread. -/
def calledAfterFinish : List Action :=
  [.deliver 0 ⟨0, 0, .request⟩ true {}, .proceed 0, .deliver 0 ⟨0, 0, .finish⟩ true {}, .callShutdown]

def finishInHand : AsyncServer :=
  { contexts := [some { cq := 0, status := .finish, response := { task := some { state := 2 } } }]
    drivers := [.proceed false 0 true]
    queuesStopped := [false]
    shutdown := .setFlag
    answers := [({}, { task := some { state := 2 } })] }

/-- Handling it registers another context, whose event comes after the queue was closed. -/
def drainedAfterFinish : List Action :=
  [.shutdown, .shutdown, .shutdown, .shutdown, .proceed 0, .deliver 0 ⟨1, 0, .request⟩ false {}, .proceed 0,
    .closed 0, .closed 0]

theorem shutdown_drains_afterFinish :
    run step (AsyncServer.start none 1 1) calledAfterFinish = some finishInHand ∧
      ∃ final, run step finishInHand drainedAfterFinish = some final ∧
        drainedAfterFinish.length + 4 * 1 ≤ 4 * 1 + 4 * 1 + 3 + 4 * 1 ∧ final.drivers = [.returned] ∧
        final.capacity = 0 ∧ final.outstanding = [] := by
  have hrun : run step (AsyncServer.start none 1 1) calledAfterFinish = some finishInHand := rfl
  have hrest : run step finishInHand drainedAfterFinish = some _ := rfl
  obtain ⟨hlength, -, -, hempty⟩ :=
    shutdown_drains none 1 1 calledAfterFinish drainedAfterFinish _ _ Nat.one_pos hrun (by simp [finishInHand]) hrest
  exact ⟨hrun, _, hrest, hlength, rfl, hempty (List.forall_mem_singleton.mpr rfl)⟩

end TinyReactor.ApiServer
