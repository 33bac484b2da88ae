import TinyReactor.ApiServer.Moves

/-!
# Registrations during shutdown

A context is created by a call of its constructor, and the constructor registers it with
`RequestSubmitTask`. After `Run` the only calls are those of the `FINISH` branch of `Proceed`, on the
thread that drives the queue of the deleted context. `Shutdown` closes that queue on another thread, and
the branch reads neither the flag nor the state of the queue: an event that was delivered before is
handled as if the queue were open.
-/

namespace TinyReactor.ApiServer

open Transition Wire

/-- The queue was shut down. -/
def AsyncServer.closed (server : AsyncServer) (cq : ℕ) : Bool := server.queuesStopped[cq]?.getD false

/-- The context that the step creates, if it creates one, is registered on an open queue. -/
def RegistersOnOpen (server : AsyncServer) (action : Action) : Prop :=
  ∀ next context, step server action = some next →
    next.contexts[server.contexts.length]? = some (some context) → server.closed context.cq = false

/-- A thread handles a successful `Finish` only while its queue is open. -/
def RearmsOnOpen (server : AsyncServer) : Action → Prop
  | .proceed driver => ∀ draining tag context, server.drivers[driver]? = some (.proceed draining tag true) →
      server.contexts[tag]? = some (some context) → context.status = .finish → server.closed driver = false
  | _ => True

/-! ## Each context stays on its queue -/

/-- The context `tag`, as long as it lives, is one of the queue `cq`. -/
def AtHome (contexts : List (Option CallContext)) (tag : ContextId) (cq : ℕ) : Prop :=
  tag < contexts.length ∧ ∀ context, contexts[tag]? = some (some context) → context.cq = cq

/-- The contexts that there were are deleted or stay on their queues. -/
def StayHome (before after : List (Option CallContext)) : Prop :=
  before.length ≤ after.length ∧ ∀ tag < before.length, ∀ context, after[tag]? = some (some context) →
    ∃ old, before[tag]? = some (some old) ∧ old.cq = context.cq

/-- The events outstanding on a queue, and those being handled by its thread, are for contexts of this
queue. -/
structure Homed (server : AsyncServer) : Prop where
  outstanding : ∀ op ∈ server.outstanding, AtHome server.contexts op.tag op.cq
  drivers : ∀ (driver : ℕ) (draining : Bool) (tag : ContextId) (ok : Bool),
    server.drivers[driver]? = some (.proceed draining tag ok) → AtHome server.contexts tag driver

section StayHome

variable {before after : List (Option CallContext)} {tag : ContextId} {context : CallContext} {cq : ℕ}

theorem AtHome.of_stayHome (h : AtHome before tag cq) (hstay : StayHome before after) : AtHome after tag cq := by
  refine ⟨Nat.lt_of_lt_of_le h.1 hstay.1, fun context hcontext ↦ ?_⟩
  obtain ⟨old, hold, hcq⟩ := hstay.2 tag h.1 context hcontext
  exact hcq ▸ h.2 old hold

theorem StayHome.refl (contexts : List (Option CallContext)) : StayHome contexts contexts :=
  ⟨Nat.le_refl _, fun _ _ context hcontext ↦ ⟨context, hcontext, rfl⟩⟩

theorem StayHome.append (hstay : StayHome before after) (entry : Option CallContext) :
    StayHome before (after ++ [entry]) := by
  refine ⟨Nat.le_trans hstay.1 (by simp), fun tag hlt context hcontext ↦ ?_⟩
  rw [List.getElem?_append_left (Nat.lt_of_lt_of_le hlt hstay.1)] at hcontext
  exact hstay.2 tag hlt context hcontext

/-- An entry is replaced by none, or by a context of the same queue. -/
theorem StayHome.set {entry : Option CallContext} (hlive : before[tag]? = some (some context))
    (hentry : ∀ new, entry = some new → new.cq = context.cq) : StayHome before (before.set tag entry) := by
  refine ⟨by simp, fun other hlt new hnew ↦ ?_⟩
  rcases eq_or_ne tag other with rfl | hne
  · rw [List.getElem?_set_self hlt, Option.some.injEq] at hnew
    exact ⟨context, hlive, (hentry new hnew).symm⟩
  · rw [List.getElem?_set_ne hne] at hnew
    exact ⟨new, hnew, rfl⟩

theorem receive_cq (kind : OpKind) (ok : Bool) (request : PbTask) (context : CallContext) :
    (receive kind ok request context).cq = context.cq := by
  unfold receive
  split <;> rfl

theorem StayHome.modify {f : CallContext → CallContext} (hf : ∀ context, (f context).cq = context.cq)
    (contexts : List (Option CallContext)) (tag : ContextId) :
    StayHome contexts (contexts.modify tag (Option.map f)) := by
  refine ⟨by simp, fun other hlt new hnew ↦ ?_⟩
  have hentry := getElem?_modify_of_getElem? (List.getElem?_eq_getElem hlt) (Option.map f) tag
  rw [hnew, Option.some.injEq] at hentry
  split at hentry
  · obtain ⟨old, hold, rfl⟩ := Option.map_eq_some_iff.mp hentry.symm
    exact ⟨old, by rw [List.getElem?_eq_getElem hlt, hold], (hf old).symm⟩
  · exact ⟨new, by rw [List.getElem?_eq_getElem hlt, hentry], rfl⟩

end StayHome

variable {server next : AsyncServer} {action : Action} {tag : ContextId} {context : CallContext}

/-- What a step adds to the outstanding events and to the events being handled is all there is to check. -/
theorem Homed.of_stayHome (h : Homed server) (hstay : StayHome server.contexts next.contexts)
    (hops : ∀ op ∈ next.outstanding, op ∈ server.outstanding ∨ AtHome next.contexts op.tag op.cq)
    (hdrivers : ∀ driver draining tag ok, next.drivers[driver]? = some (.proceed draining tag ok) →
      server.drivers[driver]? = some (.proceed draining tag ok) ∨ AtHome next.contexts tag driver) :
    Homed next where
  outstanding := by
    intro op hop
    rcases hops op hop with hold | hnew
    · exact (h.outstanding op hold).of_stayHome hstay
    · exact hnew
  drivers := by
    intro driver draining tag ok hdriver
    rcases hdrivers driver draining tag ok hdriver with hold | hnew
    · exact (h.drivers driver draining tag ok hold).of_stayHome hstay
    · exact hnew

theorem Homed.newContext (h : Homed server) (cq : ℕ) : Homed (server.newContext cq) := by
  have hstay := (StayHome.refl server.contexts).append (some { cq := cq })
  apply h.of_stayHome hstay
  · intro op hop
    rcases List.mem_append.mp hop with hold | hnew
    · exact .inl hold
    · obtain rfl := List.mem_singleton.mp hnew
      refine .inr ⟨by simp [AsyncServer.newContext], fun context hcontext ↦ ?_⟩
      obtain rfl : { cq := cq } = context := by simpa [AsyncServer.newContext] using hcontext
      rfl
  · exact fun _ _ _ _ hdriver ↦ .inl hdriver

theorem Homed.setDriver (h : Homed server) {driver : ℕ} {pc : DriverPc}
    (hpc : ∀ draining tag ok, pc = .proceed draining tag ok → AtHome server.contexts tag driver) :
    Homed (server.setDriver driver pc) := by
  refine h.of_stayHome (StayHome.refl server.contexts) (fun _ hop ↦ .inl hop) ?_
  intro other draining tag ok hother
  rcases eq_or_ne driver other with rfl | hne
  · have hlt := lt_length_of_getElem? hother
    rw [AsyncServer.setDriver, List.length_set] at hlt
    rw [AsyncServer.setDriver, List.getElem?_set_self hlt, Option.some.injEq] at hother
    exact .inr (hpc draining tag ok hother)
  · rw [AsyncServer.setDriver, List.getElem?_set_ne hne] at hother
    exact .inl hother

theorem homed_start (submitTask : Option SubmitTaskFunc) (cqCount count : ℕ) :
    Homed (AsyncServer.start submitTask cqCount count) := by
  unfold AsyncServer.start
  induction count with
  | zero =>
    refine ⟨List.forall_mem_nil _, fun driver draining tag ok hdriver ↦ ?_⟩
    cases List.eq_of_mem_replicate (List.mem_of_getElem? hdriver)
  | succ count ih => exact ih.newContext (count % cqCount)

theorem Homed.deleteContext (h : Homed server) (hlive : server.contexts[tag]? = some (some context)) :
    Homed (server.deleteContext tag) :=
  h.of_stayHome (StayHome.set hlive (by rintro _ ⟨⟩)) (fun _ hop ↦ .inl hop) (fun _ _ _ _ hdriver ↦ .inl hdriver)

theorem Homed.proceed (h : Homed server) (hlive : server.contexts[tag]? = some (some context)) (ok : Bool) :
    Homed (proceed server tag context ok) := by
  cases ok with
  | false => exact h.deleteContext hlive
  | true =>
    unfold ApiServer.proceed
    rw [if_pos rfl]
    split
    · have hstay : StayHome server.contexts
          (server.contexts.set tag (some { onSubmitTask context with status := .finish })) := by
        apply StayHome.set hlive
        rintro _ ⟨⟩
        rfl
      refine h.of_stayHome hstay ?_ (fun _ _ _ _ hdriver ↦ .inl hdriver)
      intro op hop
      rcases List.mem_append.mp hop with hold | hnew
      · exact .inl hold
      · obtain rfl := List.mem_singleton.mp hnew
        have hhome : AtHome server.contexts tag context.cq := by
          refine ⟨lt_length_of_getElem? hlive, fun other hother ↦ ?_⟩
          rw [hlive, Option.some.injEq, Option.some.injEq] at hother
          rw [hother]
        exact .inr (hhome.of_stayHome hstay)
    · exact (h.deleteContext hlive).newContext context.cq
    · exact h

theorem of_deliverable {driver : ℕ} {op : Op} {ok : Bool} (h : deliverable server driver op ok = true) :
    op ∈ server.outstanding ∧ op.cq = driver := by
  simp only [deliverable, Bool.and_eq_true, decide_eq_true_eq, beq_iff_eq] at h
  exact h.1

theorem Homed.deliver (h : Homed server) {driver : ℕ} {op : Op} (ok : Bool) (request : PbTask)
    (hmem : op ∈ server.outstanding) (hcq : op.cq = driver) (draining : Bool) :
    Homed { server with
      drivers := server.drivers.set driver (.proceed draining op.tag ok)
      outstanding := server.outstanding.erase op
      contexts := server.contexts.modify op.tag (Option.map (receive op.kind ok request)) } := by
  have hstay := StayHome.modify (receive_cq op.kind ok request) server.contexts op.tag
  have hmoved : Homed (server.setDriver driver (.proceed draining op.tag ok)) := by
    apply h.setDriver
    rintro _ _ _ ⟨⟩
    exact hcq ▸ h.outstanding op hmem
  exact hmoved.of_stayHome hstay (fun other hother ↦ .inl (List.mem_of_mem_erase hother))
    (fun _ _ _ _ hother ↦ .inl hother)

theorem Homed.step (h : Homed server) (hstep : step server action = some next) : Homed next := by
  cases move_of_step hstep with
  | deliver draining hdriver hdeliver =>
    obtain ⟨hmem, hcq⟩ := of_deliverable hdeliver
    exact h.deliver _ _ hmem hcq draining
  | proceed draining tag ok context hdriver hlive =>
    apply (h.proceed hlive _).setDriver
    rintro _ _ _ ⟨⟩
  | drain | finish =>
    apply h.setDriver
    rintro _ _ _ ⟨⟩
  | _ =>
    -- the actions of `Shutdown` touch neither contexts nor events
    exact ⟨h.outstanding, h.drivers⟩

/-! ## Who registers -/

/-- Only the `FINISH` branch adds a context, and the one it adds is on the queue of the one it deletes. -/
theorem created_by_finish (ok : Bool) {created : CallContext}
    (hcreated : (proceed server tag context ok).contexts[server.contexts.length]? = some (some created)) :
    ok = true ∧ context.status = .finish ∧ created.cq = context.cq := by
  have hbeyond (entries : List (Option CallContext)) (hlength : entries.length = server.contexts.length) :
      entries[server.contexts.length]? ≠ some (some created) := by
    rw [List.getElem?_eq_none (Nat.le_of_eq hlength)]
    simp
  cases ok with
  | false => exact absurd hcreated (hbeyond _ (List.length_set ..))
  | true =>
    unfold proceed at hcreated
    rw [if_pos rfl] at hcreated
    split at hcreated
    · exact absurd hcreated (hbeyond _ (List.length_set ..))
    · rename_i hstatus
      obtain rfl : { cq := context.cq } = created := by
        simpa [AsyncServer.newContext, AsyncServer.deleteContext, List.getElem?_append_right] using hcreated
      exact ⟨rfl, hstatus, rfl⟩
    · exact absurd hcreated (hbeyond _ rfl)

theorem getElem?_contexts_rearmed (hstatus : context.status = .finish) :
    (proceed server tag context true).contexts[server.contexts.length]? = some (some { cq := context.cq }) := by
  simp [proceed, hstatus, AsyncServer.newContext, AsyncServer.deleteContext]

/-- Events, queues and `Shutdown` create no contexts. -/
theorem length_contexts_step (haction : ∀ driver, action ≠ .proceed driver)
    (hstep : step server action = some next) : next.contexts.length = server.contexts.length := by
  cases move_of_step hstep with
  | deliver => exact List.length_modify ..
  | proceed => exact absurd rfl (haction _)
  | _ => rfl

theorem registersOnOpen_of_ne_proceed (haction : ∀ driver, action ≠ .proceed driver) :
    RegistersOnOpen server action := by
  intro next context hstep hcreated
  have hlt := lt_length_of_getElem? hcreated
  rw [length_contexts_step haction hstep] at hlt
  exact absurd hlt (Nat.lt_irrefl _)

/-- The context of an event that is being handled is on the queue of the thread, so the two conditions
name the same queue. -/
theorem registersOnOpen_proceed_iff (h : Homed server) (driver : ℕ) :
    RegistersOnOpen server (.proceed driver) ↔ RearmsOnOpen server (.proceed driver) := by
  constructor
  · intro hopen draining tag context hdriver hlive hstatus
    have hstep : step server (.proceed driver) =
        some ((proceed server tag context true).setDriver driver (.next draining)) := by
      simp only [step, hdriver, hlive]
    have hcq := (h.drivers driver draining tag true hdriver).2 context hlive
    rw [← hcq]
    exact hopen _ { cq := context.cq } hstep (getElem?_contexts_rearmed hstatus)
  · intro hopen next created hstep hcreated
    cases move_of_step hstep with
    | proceed draining tag ok context hdriver hlive =>
      obtain ⟨rfl, hstatus, hcq⟩ := created_by_finish ok hcreated
      rw [hcq, (h.drivers driver draining tag true hdriver).2 context hlive]
      exact hopen draining tag context hdriver hlive hstatus

theorem registersOnOpen_iff (h : Homed server) (action : Action) :
    RegistersOnOpen server action ↔ RearmsOnOpen server action := by
  cases action with
  | proceed driver => exact registersOnOpen_proceed_iff h driver
  | _ => exact iff_of_true (registersOnOpen_of_ne_proceed (by rintro _ ⟨⟩)) trivial

/-- In a run from the state `Run` sets up, every registration is on an open queue exactly when every
successful `Finish` is handled while the queue of its thread is open. -/
theorem registers_on_open_iff (submitTask : Option SubmitTaskFunc) (cqCount count : ℕ) (actions : List Action) :
    Meets step RegistersOnOpen (AsyncServer.start submitTask cqCount count) actions ↔
      Meets step RearmsOnOpen (AsyncServer.start submitTask cqCount count) actions := by
  have hstart := homed_start submitTask cqCount count
  constructor
  · apply Meets.strengthen (I := Homed) (fun _ _ _ h _ hstep ↦ h.step hstep) _ hstart
    exact fun server action h ↦ (registersOnOpen_iff h action).mp
  · apply Meets.strengthen (I := Homed) (fun _ _ _ h _ hstep ↦ h.step hstep) _ hstart
    exact fun server action h ↦ (registersOnOpen_iff h action).mpr

/-- A call whose `Finish` succeeds just before `Shutdown` closes the queue. -/
def finishedDuringShutdown : List Action :=
  [.deliver 0 ⟨0, 0, .request⟩ true {}, .proceed 0, .deliver 0 ⟨0, 0, .finish⟩ true {},
    .callShutdown, .shutdown, .shutdown, .shutdown]

/-- The event is in the hands of the thread when the queue is closed, and handling it registers the next
context there. -/
theorem registers_on_closed_queue :
    ∃ server next, run step (AsyncServer.start none 1 1) finishedDuringShutdown = some server ∧
      server.shutdownFlag = true ∧ server.closed 0 = true ∧ step server (.proceed 0) = some next ∧
      next.outstanding = [⟨1, 0, .request⟩] ∧ ¬ RegistersOnOpen server (.proceed 0) := by
  refine ⟨_, _, rfl, rfl, rfl, rfl, rfl, fun hopen ↦ ?_⟩
  cases hopen _ { cq := 0 } rfl rfl

end TinyReactor.ApiServer
