import TinyReactor.ApiServer.Moves

/-!
# Serving capacity

Every live call context waits for a request or serves one. The state machine replaces a context in
its `FINISH` branch, so an answered call leaves the number of contexts as it was. The branch for
`ok = false` deletes without replacing: each event that fails costs one context, and nothing makes
up for it.
-/

namespace TinyReactor.ApiServer

open Transition

namespace AsyncServer

/-- The live `AsyncCallContext` objects. -/
def capacity (server : AsyncServer) : ℕ := server.contexts.countP Option.isSome

variable {server : AsyncServer} {tag : ContextId} {context : CallContext}

@[simp] theorem capacity_setDriver (driver : ℕ) (pc : DriverPc) :
    (server.setDriver driver pc).capacity = server.capacity := rfl

@[simp] theorem capacity_newContext (cq : ℕ) : (server.newContext cq).capacity = server.capacity + 1 := by
  simp [capacity, newContext]

theorem capacity_createContexts (cqCount count : ℕ) :
    (server.createContexts cqCount count).capacity = server.capacity + count := by
  induction count with
  | zero => rfl
  | succ count ih =>
    rw [createContexts, capacity_newContext, ih]
    omega

@[simp] theorem capacity_start (submitTask : Option SubmitTaskFunc) (cqCount count : ℕ) :
    (start submitTask cqCount count).capacity = count := by
  rw [start, capacity_createContexts]
  exact Nat.zero_add count

theorem capacity_deleteContext (hlive : server.contexts[tag]? = some (some context)) :
    (server.deleteContext tag).capacity + 1 = server.capacity := by
  have hpos := toNat_le_countP Option.isSome hlive
  have hset := countP_set_of_getElem? Option.isSome hlive none
  simp only [Option.isSome_some, Option.isSome_none, Bool.toNat_true, Bool.toNat_false] at hpos hset
  change (server.contexts.set tag none).countP Option.isSome + 1 = server.contexts.countP Option.isSome
  omega

/-- A step of the state machine keeps the number of contexts exactly when its event succeeded. -/
theorem capacity_proceed (hlive : server.contexts[tag]? = some (some context)) (ok : Bool) :
    (proceed server tag context ok).capacity + (!ok).toNat = server.capacity := by
  have hdelete := capacity_deleteContext hlive
  cases ok with
  | false => exact hdelete
  | true =>
    cases hstatus : context.status with
    | create =>
      have hpos := toNat_le_countP Option.isSome hlive
      simp only [Option.isSome_some, Bool.toNat_true] at hpos
      simp [proceed, hstatus, capacity, countP_set_of_getElem? Option.isSome hlive]
    | finish => simpa [proceed, hstatus] using hdelete
    | rearm => simp [proceed, hstatus]

theorem capacity_modify (receive : CallContext → CallContext) :
    (server.contexts.modify tag (Option.map receive)).countP Option.isSome = server.capacity := by
  unfold capacity
  cases hentry : server.contexts[tag]? with
  | none => rw [List.modify_eq_self (List.getElem?_eq_none_iff.mp hentry)]
  | some entry =>
    have hpos := toNat_le_countP Option.isSome hentry
    rw [List.modify_eq_set_getElem?, hentry, Option.map_eq_map, Option.map_some, Option.getD_some,
      countP_set_of_getElem? Option.isSome hentry, Option.isSome_map]
    omega

end AsyncServer

/-! ## Runs -/

variable {server next : AsyncServer} {action : Action}

/-- The step calls `Proceed(false)`. -/
def callsProceedFalse (server : AsyncServer) : Action → Bool
  | .proceed driver =>
      match server.drivers[driver]? with
      | some (.proceed _ _ ok) => !ok
      | _ => false
  | _ => false

/-- Every event that reaches `Proceed` has succeeded. -/
def ProceedsOk (server : AsyncServer) (action : Action) : Prop :=
  callsProceedFalse server action = false

/-- One step: only `Proceed(false)` changes the number of contexts, and it takes one away. -/
theorem capacity_step (h : step server action = some next) :
    next.capacity + (callsProceedFalse server action).toNat = server.capacity := by
  cases move_of_step h with
  | deliver => exact AsyncServer.capacity_modify _
  | proceed draining tag ok context hdriver hlive =>
    simpa [callsProceedFalse, hdriver] using AsyncServer.capacity_proceed hlive ok
  | _ => rfl

theorem capacity_throughout_iff {count : ℕ} {final : AsyncServer} {actions : List Action}
    (hcount : server.capacity = count) (hrun : run step server actions = some final) :
    Throughout step (fun visited ↦ visited.capacity = count) server actions ↔
      Meets step ProceedsOk server actions := by
  induction actions generalizing server with
  | nil => exact iff_of_true hcount trivial
  | cons action rest ih =>
    obtain ⟨next, hnext, hrest⟩ := run_cons_some hrun
    have hstep := capacity_step hnext
    constructor
    · rintro ⟨-, hthroughout⟩
      have htail := hthroughout next hnext
      have hkept : next.capacity = count := htail.here
      refine ⟨?_, fun other hother ↦ ?_⟩
      · cases hfails : callsProceedFalse server action with
        | false => exact hfails
        | true =>
          rw [hfails, Bool.toNat_true] at hstep
          omega
      · obtain rfl : next = other := Option.some.inj (hnext.symm.trans hother)
        exact (ih hkept hrest).mp htail
    · rintro ⟨hok, hmeets⟩
      refine ⟨hcount, fun other hother ↦ ?_⟩
      obtain rfl : next = other := Option.some.inj (hnext.symm.trans hother)
      rw [show callsProceedFalse server action = false from hok, Bool.toNat_false] at hstep
      exact (ih (by omega) hrest).mpr (hmeets next hnext)

/-- The number of contexts that `Run` creates is kept along a run exactly when no event that fails
reaches `Proceed`. Before `Shutdown` the only such events are those of `Finish`. -/
theorem capacity_kept_iff (submitTask : Option SubmitTaskFunc) (cqCount count : ℕ)
    (actions : List Action) (final : AsyncServer)
    (hrun : run step (AsyncServer.start submitTask cqCount count) actions = some final) :
    Throughout step (fun server ↦ server.capacity = count) (AsyncServer.start submitTask cqCount count)
        actions ↔
      Meets step ProceedsOk (AsyncServer.start submitTask cqCount count) actions :=
  capacity_throughout_iff (AsyncServer.capacity_start submitTask cqCount count) hrun

/-- One call whose client stays: the request arrives, is answered, and its `Finish` succeeds. -/
def answeredCall : List Action :=
  [.deliver 0 ⟨0, 0, .request⟩ true {}, .proceed 0, .deliver 0 ⟨0, 0, .finish⟩ true {}, .proceed 0]

/-- One call whose client is gone when the answer is written. -/
def cancelledCall : List Action :=
  [.deliver 0 ⟨0, 0, .request⟩ true {}, .proceed 0, .deliver 0 ⟨0, 0, .finish⟩ false {}, .proceed 0]

theorem capacity_kept_answered :
    Throughout step (fun server ↦ server.capacity = 1) (AsyncServer.start none 1 1) answeredCall := by
  apply (capacity_kept_iff none 1 1 answeredCall _ rfl).mpr
  iterate 4
    refine ⟨rfl, ?_⟩
    intro next hnext
    cases hnext
  trivial

/-- Before any call of `Shutdown`, a cancelled call leaves a server of one context with none. -/
theorem capacity_lost_cancelled :
    ∃ final, run step (AsyncServer.start none 1 1) cancelledCall = some final ∧
      final.shutdown = .notCalled ∧ final.capacity = 0 ∧ final.outstanding = [] := by
  exact ⟨_, rfl, rfl, rfl, rfl⟩

end TinyReactor.ApiServer
