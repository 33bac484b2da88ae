import TinyReactor.ApiServer.Registration

/-!
# The life of a call context

A context is created with a registration, and every handler that keeps it alive starts its next operation; the
others delete it. So a live context always has one operation whose event has not been handled, and a deleted one has
none. The results hold for an environment that may fail any event at any time.
-/

namespace TinyReactor.ApiServer

open Transition Wire

/-! ## Events with any outcome -/

/-- A return of `Next` with the event of `op`. -/
def AsyncServer.delivered (server : AsyncServer) (driver : ℕ) (draining : Bool) (op : Op) (ok : Bool)
    (request : PbTask) : AsyncServer :=
  { server with
    drivers := server.drivers.set driver (.proceed draining op.tag ok)
    outstanding := server.outstanding.erase op
    contexts := server.contexts.modify op.tag (Option.map (receive op.kind ok request)) }

/-- The steps of the server when every event may come with any `ok`, also that of a request before shutdown. -/
def stepAnyOk (server : AsyncServer) : Action → Option AsyncServer
  | .deliver driver op ok request =>
      match server.drivers[driver]? with
      | some (.next draining) =>
          if op ∈ server.outstanding ∧ op.cq = driver then some (server.delivered driver draining op ok request)
          else none
      | _ => none
  | action => step server action

variable {server next : AsyncServer} {action : Action} {tag other : ContextId} {context : CallContext} {driver : ℕ}

/-- Every step is one of these. -/
theorem stepAnyOk_of_step (h : step server action = some next) : stepAnyOk server action = some next := by
  cases hmove : move_of_step h with
  | deliver draining hdriver hdeliver =>
    simp only [stepAnyOk, hdriver, if_pos (of_deliverable hdeliver)]
    rfl
  | _ => exact h

/-- The outcomes of a step: an event is delivered, or the server moves as before. -/
inductive AsyncServer.MoveAnyOk (server : AsyncServer) : Action → AsyncServer → Prop
  | deliver {driver : ℕ} {op : Op} {ok : Bool} {request : PbTask} (draining : Bool)
      (hdriver : server.drivers[driver]? = some (.next draining)) (hmem : op ∈ server.outstanding)
      (hcq : op.cq = driver) :
      MoveAnyOk server (.deliver driver op ok request) (server.delivered driver draining op ok request)
  | other {action : Action} {next : AsyncServer} (hstep : step server action = some next)
      (haction : ∀ driver op ok request, action ≠ .deliver driver op ok request) : MoveAnyOk server action next

theorem moveAnyOk_of_step (h : stepAnyOk server action = some next) : server.MoveAnyOk action next := by
  cases action with
  | deliver driver op ok request =>
    simp only [stepAnyOk] at h
    split at h
    · rename_i draining hdriver
      rw [Option.ite_none_right_eq_some, Option.some.injEq] at h
      obtain ⟨⟨hmem, hcq⟩, rfl⟩ := h
      exact .deliver draining hdriver hmem hcq
    · cases h
  | _ => exact .other h (by simp)

/-! ## Operations and contexts -/

/-- The thread has the event of an operation of the context `tag` in hand. -/
def DriverPc.handles (tag : ContextId) : DriverPc → Bool
  | .proceed _ handled _ => handled == tag
  | _ => false

namespace AsyncServer

/-- The operations of the context whose event was not yet handled. -/
def pending (server : AsyncServer) (tag : ContextId) : ℕ :=
  server.outstanding.countP (fun op ↦ op.tag == tag) + server.drivers.countP (DriverPc.handles tag)

/-- One if the context is alive, zero before its creation and after its deletion. -/
def live (server : AsyncServer) (tag : ContextId) : ℕ := entryCount Option.isSome server.contexts tag

/-- One from the creation of the context on. -/
def created (server : AsyncServer) (tag : ContextId) : ℕ := (decide (tag < server.contexts.length)).toNat

end AsyncServer

/-- The step executes `delete this` in the context `tag`. -/
def deletes (tag : ContextId) (server : AsyncServer) : Action → Bool
  | .proceed driver =>
      match server.drivers[driver]? with
      | some (.proceed _ handled ok) =>
          match server.contexts[handled]? with
          | some (some context) => handled == tag && (!ok || context.status == .finish)
          | _ => false
      | _ => false
  | _ => false

theorem live_of_getElem? (h : server.contexts[tag]? = some (some context)) : server.live tag = 1 :=
  entryCount_of_getElem? Option.isSome h

theorem getElem?_of_live (h : 0 < server.live tag) : ∃ context, server.contexts[tag]? = some (some context) := by
  unfold AsyncServer.live entryCount at h
  cases hentry : server.contexts[tag]? with
  | none => simp [hentry] at h
  | some entry => cases entry with
    | none => simp [hentry] at h
    | some context => exact ⟨context, rfl⟩

theorem live_le_created (server : AsyncServer) (tag : ContextId) : server.live tag ≤ server.created tag := by
  by_cases hlive : 0 < server.live tag
  · obtain ⟨context, hcontext⟩ := getElem?_of_live hlive
    have hlt := lt_length_of_getElem? hcontext
    rw [live_of_getElem? hcontext, AsyncServer.created, decide_eq_true hlt]
    rfl
  · omega

/-! ## What the steps do to them -/

theorem pending_setDriver {pc : DriverPc} (hdriver : server.drivers[driver]? = some pc) (pc' : DriverPc)
    (tag : ContextId) :
    (server.setDriver driver pc').pending tag + (pc.handles tag).toNat =
      server.pending tag + (pc'.handles tag).toNat := by
  have hset := countP_set_of_getElem? (DriverPc.handles tag) hdriver pc'
  have hpos := toNat_le_countP (DriverPc.handles tag) hdriver
  simp only [AsyncServer.pending, AsyncServer.setDriver, hset]
  omega

theorem pending_delivered {draining ok : Bool} {op : Op} {request : PbTask}
    (hdriver : server.drivers[driver]? = some (.next draining)) (hmem : op ∈ server.outstanding) (tag : ContextId) :
    (server.delivered driver draining op ok request).pending tag = server.pending tag := by
  have hset := countP_set_of_getElem? (DriverPc.handles tag) hdriver (.proceed draining op.tag ok)
  have herase := (List.perm_cons_erase hmem).countP_eq fun op ↦ op.tag == tag
  rw [List.countP_cons] at herase
  simp only [AsyncServer.pending, AsyncServer.delivered, hset, herase, DriverPc.handles, Bool.toNat_false]
  cases hop : op.tag == tag with
  | false => simp
  | true =>
    simp only [Bool.toNat_true, if_true]
    omega

theorem pending_newContext (cq : ℕ) (tag : ContextId) :
    (server.newContext cq).pending tag = server.pending tag + (server.contexts.length == tag).toNat := by
  simp only [AsyncServer.pending, AsyncServer.newContext, countP_append_singleton]
  omega

theorem live_set (entry : Option CallContext) (hlive : server.contexts[tag]? = some (some context))
    (other : ContextId) :
    entryCount Option.isSome (server.contexts.set tag entry) other =
      if tag = other then entry.isSome.toNat else server.live other := by
  split
  · rename_i heq
    subst heq
    exact entryCount_set_self Option.isSome hlive
  · rename_i hne
    exact entryCount_set_of_ne Option.isSome hne

theorem live_newContext (cq : ℕ) (tag : ContextId) :
    (server.newContext cq).live tag = if server.contexts.length = tag then 1 else server.live tag := by
  split
  · rename_i heq
    subst heq
    exact entryCount_append_self Option.isSome
  · rename_i hne
    exact entryCount_append_of_ne Option.isSome (Ne.symm hne)

theorem created_newContext (cq tag : ℕ) :
    (server.newContext cq).created tag = if server.contexts.length = tag then 1 else server.created tag := by
  simp only [AsyncServer.created, AsyncServer.newContext, List.length_append, List.length_singleton]
  split
  · rename_i heq
    subst heq
    simp
  · rename_i hne
    have hlt : tag < server.contexts.length + 1 ↔ tag < server.contexts.length := by omega
    simp only [hlt]

theorem live_delivered {draining ok : Bool} {op : Op} {request : PbTask} (tag : ContextId) :
    (server.delivered driver draining op ok request).live tag = server.live tag := by
  simp only [AsyncServer.live, AsyncServer.delivered, entryCount, List.getElem?_modify]
  cases server.contexts[tag]? with
  | none => rfl
  | some entry =>
    simp only [Option.map_eq_map, Option.map_some, Option.elim_some]
    split
    · rw [Option.isSome_map]
    · rfl

theorem created_delivered {draining ok : Bool} {op : Op} {request : PbTask} (tag : ContextId) :
    (server.delivered driver draining op ok request).created tag = server.created tag := by
  simp only [AsyncServer.created, AsyncServer.delivered, List.length_modify]

/-! ## One operation for each live context -/

/-- A live context has one operation, a context that is not alive none; no context is in a state that `Proceed`
has no branch for. -/
structure Balanced (server : AsyncServer) : Prop where
  pending : ∀ tag, server.pending tag = server.live tag
  status : ∀ (tag : ContextId) context, server.contexts[tag]? = some (some context) → context.status ≠ .rearm

theorem Balanced.newContext (h : Balanced server) (cq : ℕ) : Balanced (server.newContext cq) where
  pending tag := by
    rw [pending_newContext, live_newContext, h.pending]
    split
    · rename_i heq
      subst heq
      have hnew := live_le_created server server.contexts.length
      rw [AsyncServer.created, decide_eq_false (Nat.lt_irrefl _), Bool.toNat_false] at hnew
      rw [beq_self_eq_true, Bool.toNat_true]
      omega
    · rename_i hne
      rw [beq_eq_false_iff_ne.mpr hne, Bool.toNat_false, Nat.add_zero]
  status tag context hcontext := by
    rcases of_getElem?_append_singleton hcontext with hold | ⟨-, hnew⟩
    · exact h.status tag context hold
    · cases hnew
      exact (by decide : CallStatus.create ≠ .rearm)

theorem balanced_start (submitTask : Option SubmitTaskFunc) (cqCount count : ℕ) :
    Balanced (AsyncServer.start submitTask cqCount count) := by
  unfold AsyncServer.start
  induction count with
  | zero =>
    refine ⟨fun tag ↦ ?_, fun tag context hcontext ↦ ?_⟩
    · simp [AsyncServer.createContexts, AsyncServer.pending, AsyncServer.live, entryCount, List.countP_replicate,
        DriverPc.handles]
    · simp [AsyncServer.createContexts] at hcontext
  | succ count ih => exact ih.newContext (count % cqCount)

theorem Balanced.delivered (h : Balanced server) {draining ok : Bool} {op : Op} {request : PbTask}
    (hdriver : server.drivers[driver]? = some (.next draining)) (hmem : op ∈ server.outstanding) :
    Balanced (server.delivered driver draining op ok request) where
  pending tag := by rw [pending_delivered hdriver hmem, live_delivered, h.pending]
  status tag context hcontext := by
    simp only [AsyncServer.delivered, List.getElem?_modify, Option.map_eq_map, Option.map_eq_some_iff] at hcontext
    obtain ⟨entry, hentry, hmoved⟩ := hcontext
    split at hmoved
    · obtain ⟨old, rfl, rfl⟩ := Option.map_eq_some_iff.mp hmoved
      have hstatus : (receive op.kind ok request old).status = old.status := by
        unfold receive
        split <;> rfl
      rw [hstatus]
      exact h.status tag old hentry
    · subst hmoved
      exact h.status tag context hentry

/-- The thread has handled an event of a live context: the context is deleted, or it stays and starts an operation. -/
theorem Balanced.handled (h : Balanced server) {draining ok : Bool} {entry : Option CallContext}
    (hdriver : server.drivers[driver]? = some (.proceed draining tag ok))
    (hlive : server.contexts[tag]? = some (some context)) (hcontexts : next.contexts = server.contexts.set tag entry)
    (hdrivers : next.drivers = server.drivers.set driver (.next draining))
    (hops : ∀ other, next.outstanding.countP (fun op ↦ op.tag == other) =
      server.outstanding.countP (fun op ↦ op.tag == other) + if tag = other then entry.isSome.toNat else 0)
    (hstatus : ∀ new, entry = some new → new.status ≠ .rearm) : Balanced next where
  pending other := by
    have hpending := h.pending other
    have hset := countP_set_of_getElem? (DriverPc.handles other) hdriver (.next draining)
    have hpos := toNat_le_countP (DriverPc.handles other) hdriver
    have hhandled : (DriverPc.handles other (.proceed draining tag ok)).toNat = if tag = other then 1 else 0 := by
      by_cases heq : tag = other <;> simp [DriverPc.handles, heq]
    have hidle : (DriverPc.handles other (.next draining)).toNat = 0 := rfl
    rw [hhandled] at hset hpos
    rw [AsyncServer.live, hcontexts, live_set entry hlive]
    simp only [AsyncServer.pending] at hpending ⊢
    rw [hdrivers, hset, hops, hidle]
    split
    · rename_i heq
      subst heq
      rw [live_of_getElem? hlive] at hpending
      rw [if_pos rfl] at hpos
      omega
    · omega
  status other context' hcontext' := by
    rw [hcontexts] at hcontext'
    rcases eq_or_ne tag other with rfl | hne
    · rw [List.getElem?_set_self (lt_length_of_getElem? hlive), Option.some.injEq] at hcontext'
      exact hstatus context' hcontext'
    · rw [List.getElem?_set_ne hne] at hcontext'
      exact h.status other context' hcontext'

theorem Balanced.proceed (h : Balanced server) {draining ok : Bool}
    (hdriver : server.drivers[driver]? = some (.proceed draining tag ok))
    (hlive : server.contexts[tag]? = some (some context)) :
    Balanced ((proceed server tag context ok).setDriver driver (.next draining)) := by
  have hdeleted : Balanced ((server.deleteContext tag).setDriver driver (.next draining)) := by
    refine h.handled hdriver hlive rfl rfl (fun other ↦ ?_) (by simp)
    simp [AsyncServer.setDriver, AsyncServer.deleteContext]
  cases ok with
  | false => exact hdeleted
  | true =>
    cases hstatus : context.status with
    | create =>
      simp only [ApiServer.proceed, hstatus]
      refine h.handled hdriver hlive rfl rfl (fun other ↦ ?_) ?_
      · simp only [AsyncServer.setDriver]
        by_cases heq : tag = other <;> simp [heq]
      · rintro _ ⟨⟩
        exact (by decide : CallStatus.finish ≠ .rearm)
    | finish =>
      simp only [ApiServer.proceed, hstatus]
      exact hdeleted.newContext context.cq
    | rearm => exact absurd hstatus (h.status tag context hlive)

/-- The events of the thread, and what `Shutdown` does, are no concern of the contexts. -/
theorem Balanced.of_frame (h : Balanced server) (hcontexts : next.contexts = server.contexts)
    (hpending : ∀ tag, next.pending tag = server.pending tag) : Balanced next where
  pending tag := by rw [hpending, h.pending, AsyncServer.live, AsyncServer.live, hcontexts]
  status := by
    rw [hcontexts]
    exact h.status

theorem Balanced.step (h : Balanced server) (hstep : stepAnyOk server action = some next) : Balanced next := by
  cases moveAnyOk_of_step hstep with
  | deliver draining hdriver hmem hcq => exact h.delivered hdriver hmem
  | other hsame haction =>
    cases move_of_step hsame with
    | deliver => exact absurd rfl (haction _ _ _ _)
    | proceed draining tag ok context hdriver hlive => exact h.proceed hdriver hlive
    | drain hdriver => exact h.of_frame rfl fun tag ↦ pending_setDriver hdriver _ tag
    | finish hdriver => exact h.of_frame rfl fun tag ↦ pending_setDriver hdriver _ tag
    | _ => exact h.of_frame rfl fun _ ↦ rfl

theorem Homed.stepAnyOk (h : Homed server) (hstep : stepAnyOk server action = some next) : Homed next := by
  cases moveAnyOk_of_step hstep with
  | deliver draining hdriver hmem hcq => exact h.deliver _ _ hmem hcq draining
  | other hsame haction => exact h.step hsame

/-! ## Deletions -/

theorem live_deleteContext (hlive : server.contexts[tag]? = some (some context)) (other : ContextId) :
    (tag == other).toNat + (server.deleteContext tag).live other = server.live other := by
  have hset := live_set none hlive other
  change (tag == other).toNat + entryCount Option.isSome (server.contexts.set tag none) other = server.live other
  rw [hset]
  split
  · rename_i heq
    subst heq
    rw [live_of_getElem? hlive, beq_self_eq_true]
    rfl
  · rename_i hne
    rw [beq_eq_false_iff_ne.mpr hne, Bool.toNat_false, Nat.zero_add]

theorem created_deleteContext (server : AsyncServer) (tag other : ContextId) :
    (server.deleteContext tag).created other = server.created other := by
  simp only [AsyncServer.created, AsyncServer.deleteContext, List.length_set]

/-- A new context is alive from its creation on. -/
theorem live_add_created_newContext (server : AsyncServer) (cq : ℕ) (tag : ContextId) :
    (server.newContext cq).live tag + server.created tag = server.live tag + (server.newContext cq).created tag := by
  rw [live_newContext, created_newContext]
  split
  · rename_i heq
    subst heq
    have hnew := live_le_created server server.contexts.length
    have hcreated : server.created server.contexts.length = 0 := by
      rw [AsyncServer.created, decide_eq_false (Nat.lt_irrefl _), Bool.toNat_false]
    omega
  · rfl

/-- `Proceed` deletes its context, or keeps it alive. -/
theorem live_proceed (h : Balanced server) (hlive : server.contexts[tag]? = some (some context)) (ok : Bool)
    (other : ContextId) :
    (tag == other && (!ok || context.status == .finish)).toNat + (proceed server tag context ok).live other +
      server.created other = server.live other + (proceed server tag context ok).created other := by
  have hdeleted := live_deleteContext hlive other
  have hcreated := created_deleteContext server tag other
  cases ok with
  | false =>
    rw [Bool.not_false, Bool.true_or, Bool.and_true]
    change _ + (server.deleteContext tag).live other + _ = _ + (server.deleteContext tag).created other
    omega
  | true =>
    cases hstatus : context.status with
    | create =>
      have hset := live_set (some { onSubmitTask context with status := .finish }) hlive other
      have hkept : (proceed server tag context true).live other = server.live other := by
        simp only [proceed, hstatus, AsyncServer.live, if_true] at hset ⊢
        rw [hset]
        split
        · rename_i heq
          subst heq
          exact (live_of_getElem? hlive).symm
        · rfl
      have hsame : (proceed server tag context true).created other = server.created other := by
        simp [proceed, hstatus, AsyncServer.created]
      rw [hkept, hsame]
      simp
    | finish =>
      have hnew := live_add_created_newContext (server.deleteContext tag) context.cq other
      simp only [proceed, hstatus, if_true, Bool.not_true, Bool.false_or, beq_self_eq_true, Bool.and_true]
      omega
    | rearm => exact absurd hstatus (h.status tag context hlive)

/-- Each context that was created is alive or was deleted, and no other is deleted. -/
theorem live_step (h : Balanced server) (hstep : stepAnyOk server action = some next) (tag : ContextId) :
    (deletes tag server action).toNat + next.live tag + server.created tag =
      server.live tag + next.created tag := by
  cases moveAnyOk_of_step hstep with
  | deliver draining hdriver hmem hcq =>
    rw [live_delivered, created_delivered]
    simp [deletes]
  | other hsame haction =>
    cases move_of_step hsame with
    | deliver => exact absurd rfl (haction _ _ _ _)
    | proceed draining handled ok context hdriver hlive =>
      simp only [deletes, hdriver, hlive]
      exact live_proceed h hlive ok tag
    | _ =>
      simp only [deletes, Bool.toNat_false, Nat.zero_add]
      rfl

theorem deletions_of_run {actions : List Action} {final : AsyncServer} (h : Balanced server)
    (hnone : ∀ tag, server.live tag = server.created tag) (hrun : run stepAnyOk server actions = some final)
    (tag : ContextId) : countSteps stepAnyOk (deletes tag) server actions + final.live tag = final.created tag := by
  have hok : Meets stepAnyOk (fun _ _ ↦ True) server actions := Meets.of_forall_mem fun _ _ _ ↦ trivial
  have hstart : Balanced server ∧ 0 + server.live tag = server.created tag := ⟨h, by rw [Nat.zero_add, hnone]⟩
  have hcount := countSteps_invariant (p := deletes tag)
    (I := fun count visited ↦ Balanced visited ∧ count + visited.live tag = visited.created tag)
    (fun count visited action next hvisited _ hstep ↦ ?_) hok hstart hrun
  · rw [Nat.zero_add] at hcount
    exact hcount.2
  · have hlive := live_step hvisited.1 hstep tag
    exact ⟨hvisited.1.step hstep, by omega⟩

/-! ## Queues that were driven to their end -/

/-- A context of the queue is alive. -/
def AsyncServer.Occupied (server : AsyncServer) (cq : ℕ) : Prop :=
  ∃ (tag : ContextId) (context : CallContext), server.contexts[tag]? = some (some context) ∧ context.cq = cq

theorem occupied_of_stayHome (hstay : StayHome server.contexts next.contexts)
    (hlength : next.contexts.length = server.contexts.length) {cq : ℕ} (h : next.Occupied cq) : server.Occupied cq := by
  obtain ⟨tag, context, hcontext, rfl⟩ := h
  have hlt := lt_length_of_getElem? hcontext
  rw [hlength] at hlt
  exact ⟨tag, hstay.2 tag hlt context hcontext⟩

theorem occupied_deleteContext (hlive : server.contexts[tag]? = some (some context)) {cq : ℕ}
    (h : (server.deleteContext tag).Occupied cq) : server.Occupied cq :=
  occupied_of_stayHome (StayHome.set hlive (by simp)) (List.length_set ..) h

theorem occupied_proceed (hlive : server.contexts[tag]? = some (some context)) {ok : Bool} {cq : ℕ}
    (h : (proceed server tag context ok).Occupied cq) : server.Occupied cq := by
  cases ok with
  | false => exact occupied_deleteContext hlive h
  | true =>
    cases hstatus : context.status with
    | create =>
      simp only [proceed, hstatus] at h
      refine occupied_of_stayHome (StayHome.set hlive ?_) (List.length_set ..) h
      rintro _ ⟨⟩
      rfl
    | finish =>
      simp only [proceed, hstatus] at h
      obtain ⟨other, moved, hmoved, hcq⟩ := h
      rcases of_getElem?_append_singleton hmoved with hold | ⟨-, hnew⟩
      · exact occupied_deleteContext hlive ⟨other, moved, hold, hcq⟩
      · cases hnew
        exact ⟨tag, context, hlive, hcq⟩
    | rearm =>
      simp only [proceed, hstatus] at h
      exact h

/-- A step puts no context on a queue that had none. -/
theorem occupied_of_step {cq : ℕ} (hstep : stepAnyOk server action = some next) (h : next.Occupied cq) :
    server.Occupied cq := by
  cases moveAnyOk_of_step hstep with
  | deliver draining hdriver hmem hcq =>
    exact occupied_of_stayHome (StayHome.modify (receive_cq _ _ _) _ _) (List.length_modify ..) h
  | other hsame haction =>
    cases move_of_step hsame with
    | deliver => exact absurd rfl (haction _ _ _ _)
    | proceed draining handled ok context hdriver hlive => exact occupied_proceed hlive h
    | _ => exact h

/-- A thread returns when `Next` finds its queue empty and closed in the second loop. -/
theorem returned_of_step (hstep : stepAnyOk server action = some next)
    (hreturned : next.drivers[driver]? = some .returned) :
    server.drivers[driver]? = some .returned ∨
      server.drivers[driver]? = some (.next true) ∧ server.outstanding.all (fun op ↦ op.cq != driver) = true := by
  have hset {moving : ℕ} {pc : DriverPc} (hpc : pc ≠ .returned)
      (hreturned : (server.drivers.set moving pc)[driver]? = some .returned) :
      server.drivers[driver]? = some .returned := by
    rw [List.getElem?_set] at hreturned
    split at hreturned
    · split at hreturned
      · exact absurd (Option.some.inj hreturned) hpc
      · cases hreturned
    · exact hreturned
  cases moveAnyOk_of_step hstep with
  | deliver draining hdriver hmem hcq => exact .inl (hset (by simp) hreturned)
  | other hsame haction =>
    cases move_of_step hsame with
    | deliver => exact absurd rfl (haction _ _ _ _)
    | proceed draining handled ok context hdriver hlive =>
      have hdrivers : (proceed server handled context ok).drivers = server.drivers := by
        unfold proceed
        split
        · split <;> rfl
        · rfl
      rw [AsyncServer.setDriver, hdrivers] at hreturned
      exact .inl (hset (by simp) hreturned)
    | drain hdriver => exact .inl (hset (by simp) hreturned)
    | finish hdriver hclosed hempty =>
      rename_i moving
      by_cases heq : moving = driver
      · subst heq
        exact .inr ⟨hdriver, hempty⟩
      · rw [AsyncServer.setDriver, List.getElem?_set_ne heq] at hreturned
        exact .inl hreturned
    | _ => exact .inl hreturned

/-- A live context has an operation on its own queue, or the thread of this queue has its event in hand. -/
theorem own_queue (hbalanced : Balanced server) (hhomed : Homed server)
    (hlive : server.contexts[tag]? = some (some context)) :
    (∃ op ∈ server.outstanding, op.tag = tag ∧ op.cq = context.cq) ∨
      ∃ draining ok, server.drivers[context.cq]? = some (.proceed draining tag ok) := by
  have hone := hbalanced.pending tag
  rw [live_of_getElem? hlive, AsyncServer.pending] at hone
  by_cases hops : 0 < server.outstanding.countP fun op ↦ op.tag == tag
  · obtain ⟨op, hop, htag⟩ := List.countP_pos_iff.mp hops
    obtain rfl : op.tag = tag := beq_iff_eq.mp htag
    exact .inl ⟨op, hop, rfl, ((hhomed.outstanding op hop).2 context hlive).symm⟩
  · obtain ⟨pc, hpc, hhandles⟩ := List.countP_pos_iff.mp (show 0 < server.drivers.countP (DriverPc.handles tag) by omega)
    obtain ⟨driver, hdriver⟩ := List.mem_iff_getElem?.mp hpc
    cases pc with
    | proceed draining handled ok =>
      obtain rfl : handled = tag := beq_iff_eq.mp hhandles
      rw [(hhomed.drivers driver draining handled ok hdriver).2 context hlive]
      exact .inr ⟨draining, ok, hdriver⟩
    | next => cases hhandles
    | returned => cases hhandles

/-- No context of a queue is alive once its thread has returned. -/
def Drained (server : AsyncServer) : Prop :=
  ∀ driver, server.drivers[driver]? = some .returned → ¬server.Occupied driver

theorem Drained.step (h : Drained server) (hbalanced : Balanced server) (hhomed : Homed server)
    (hstep : stepAnyOk server action = some next) : Drained next := by
  intro driver hreturned hoccupied
  have hbefore := occupied_of_step hstep hoccupied
  rcases returned_of_step hstep hreturned with hold | ⟨hnext, hempty⟩
  · exact h driver hold hbefore
  · obtain ⟨tag, context, hlive, rfl⟩ := hbefore
    rcases own_queue hbalanced hhomed hlive with ⟨op, hop, -, hcq⟩ | ⟨draining, ok, hproceed⟩
    · have hother := List.all_eq_true.mp hempty op hop
      rw [hcq, bne_self_eq_false] at hother
      cases hother
    · cases hnext.symm.trans hproceed

/-! ## Whole runs -/

/-- What the server owes its contexts, with the number of deletions of each so far: a live one has exactly one
operation, on its own queue or in the hands of the thread of that queue; events are for live contexts, when they are
delivered and when they are handled; a context that is gone was deleted once; and a thread that has returned has left
none behind. -/
structure Lifecycle (server : AsyncServer) (deletions : ContextId → ℕ) : Prop where
  operation : ∀ (tag : ContextId) context, server.contexts[tag]? = some (some context) → server.pending tag = 1
  ownQueue : ∀ (tag : ContextId) context, server.contexts[tag]? = some (some context) →
    (∀ op ∈ server.outstanding, op.tag = tag → op.cq = context.cq) ∧
      ∀ driver draining ok, server.drivers[driver]? = some (.proceed draining tag ok) → driver = context.cq
  delivered : ∀ driver op ok request next, stepAnyOk server (.deliver driver op ok request) = some next →
    ∃ context, server.contexts[op.tag]? = some (some context)
  handled : ∀ (driver : ℕ) draining tag ok, server.drivers[driver]? = some (.proceed draining tag ok) →
    ∃ context, server.contexts[tag]? = some (some context)
  deleted : ∀ tag, server.contexts[tag]? = some none → deletions tag = 1
  alive : ∀ (tag : ContextId) context, server.contexts[tag]? = some (some context) → deletions tag = 0
  returned : ∀ driver, server.drivers[driver]? = some .returned → ¬server.Occupied driver

theorem live_start (submitTask : Option SubmitTaskFunc) (cqCount count : ℕ) (tag : ContextId) :
    (AsyncServer.start submitTask cqCount count).live tag = (AsyncServer.start submitTask cqCount count).created tag := by
  unfold AsyncServer.start
  induction count with
  | zero => simp [AsyncServer.createContexts, AsyncServer.live, AsyncServer.created, entryCount]
  | succ count ih =>
    refine Nat.add_left_cancel ((Nat.add_comm _ _).trans ((live_add_created_newContext _ _ tag).trans ?_))
    rw [ih]
    rfl

theorem drained_start (submitTask : Option SubmitTaskFunc) (cqCount count : ℕ) :
    Drained (AsyncServer.start submitTask cqCount count) := by
  have hdrivers : (AsyncServer.start submitTask cqCount count).drivers = List.replicate cqCount (.next false) := by
    unfold AsyncServer.start
    induction count with
    | zero => rfl
    | succ count ih => exact ih
  intro driver hreturned
  rw [hdrivers] at hreturned
  cases List.eq_of_mem_replicate (List.mem_of_getElem? hreturned)

theorem lifecycle_of_invariants {deletions : ContextId → ℕ} (hbalanced : Balanced server) (hhomed : Homed server)
    (hdrained : Drained server) (hdeletions : ∀ tag, deletions tag + server.live tag = server.created tag) :
    Lifecycle server deletions := by
  have hpositive (tag : ContextId) (hpending : 0 < server.pending tag) :
      ∃ context, server.contexts[tag]? = some (some context) := by
    rw [hbalanced.pending] at hpending
    exact getElem?_of_live hpending
  have hcreated {tag : ContextId} {entry : Option CallContext} (hentry : server.contexts[tag]? = some entry) :
      server.created tag = 1 := by
    rw [AsyncServer.created, decide_eq_true (lt_length_of_getElem? hentry), Bool.toNat_true]
  constructor
  case operation =>
    intro tag context hlive
    rw [hbalanced.pending, live_of_getElem? hlive]
  case ownQueue =>
    intro tag context hlive
    constructor
    · rintro op hop rfl
      exact ((hhomed.outstanding op hop).2 context hlive).symm
    · intro driver draining ok hdriver
      exact ((hhomed.drivers driver draining tag ok hdriver).2 context hlive).symm
  case delivered =>
    intro driver op ok request next hstep
    cases moveAnyOk_of_step hstep with
    | deliver draining hdriver hmem hcq =>
      apply hpositive
      have hop : 0 < server.outstanding.countP fun other ↦ other.tag == op.tag :=
        List.countP_pos_iff.mpr ⟨op, hmem, beq_self_eq_true _⟩
      exact Nat.lt_of_lt_of_le hop (Nat.le_add_right _ _)
    | other hsame haction => exact absurd rfl (haction _ _ _ _)
  case handled =>
    intro driver draining tag ok hdriver
    apply hpositive
    have hhandles := toNat_le_countP (DriverPc.handles tag) hdriver
    rw [DriverPc.handles, beq_self_eq_true, Bool.toNat_true] at hhandles
    exact Nat.lt_of_lt_of_le hhandles (Nat.le_add_left _ _)
  case deleted =>
    intro tag hnone
    have hcount := hdeletions tag
    rw [AsyncServer.live, entryCount_of_getElem? _ hnone, hcreated hnone] at hcount
    exact hcount
  case alive =>
    intro tag context hlive
    have hcount := hdeletions tag
    rw [live_of_getElem? hlive, hcreated hlive] at hcount
    exact Nat.add_right_cancel hcount
  case returned => exact hdrained

/-- In every run from the state `Run` sets up, with any events in any order and `Shutdown` at any time, contexts are
neither leaked nor used after their deletion. -/
theorem contexts_lifecycle (submitTask : Option SubmitTaskFunc) (cqCount count : ℕ) (actions : List Action)
    (final : AsyncServer) (hrun : run stepAnyOk (AsyncServer.start submitTask cqCount count) actions = some final) :
    Lifecycle final fun tag ↦
      countSteps stepAnyOk (deletes tag) (AsyncServer.start submitTask cqCount count) actions := by
  have hstart := balanced_start submitTask cqCount count
  obtain ⟨hbalanced, hhomed, hdrained⟩ : Balanced final ∧ Homed final ∧ Drained final := by
    refine run_invariant (I := fun visited ↦ Balanced visited ∧ Homed visited ∧ Drained visited) ?_
      ⟨hstart, homed_start submitTask cqCount count, drained_start submitTask cqCount count⟩ hrun
    rintro visited action next ⟨hbalanced, hhomed, hdrained⟩ hstep
    exact ⟨hbalanced.step hstep, hhomed.stepAnyOk hstep, hdrained.step hbalanced hhomed hstep⟩
  exact lifecycle_of_invariants hbalanced hhomed hdrained
    (deletions_of_run hstart (live_start submitTask cqCount count) hrun)

/-- One call is answered, `Shutdown` closes the queue, and its thread drives it to the end. -/
def servedAndShutDown : List Action :=
  [.deliver 0 ⟨0, 0, .request⟩ true {}, .proceed 0, .deliver 0 ⟨0, 0, .finish⟩ true {}, .proceed 0, .callShutdown,
    .shutdown, .shutdown, .shutdown, .shutdown, .deliver 0 ⟨1, 0, .request⟩ false {}, .proceed 0, .closed 0, .closed 0]

theorem contexts_lifecycle_servedAndShutDown :
    ∃ final, run stepAnyOk (AsyncServer.start none 1 1) servedAndShutDown = some final ∧
      final.drivers = [.returned] ∧ final.contexts = [none, none] ∧
      countSteps stepAnyOk (deletes 0) (AsyncServer.start none 1 1) servedAndShutDown = 1 ∧
      countSteps stepAnyOk (deletes 1) (AsyncServer.start none 1 1) servedAndShutDown = 1 := by
  have hrun : run stepAnyOk (AsyncServer.start none 1 1) servedAndShutDown = some _ := rfl
  have hlifecycle := contexts_lifecycle none 1 1 servedAndShutDown _ hrun
  exact ⟨_, hrun, rfl, rfl, hlifecycle.deleted 0 rfl, hlifecycle.deleted 1 rfl⟩

end TinyReactor.ApiServer
