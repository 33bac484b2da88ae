import Mathlib.Data.Int.CardIntervalMod
import TinyReactor.ApiServer.Drain

/-!
# The share of a queue

`Run` deals the contexts out to the completion queues in turn, and a context that is replaced is replaced on its own
queue. So what a queue loses to failed events it has lost for good, however many contexts the other queues have left: a
queue whose share is used up never sees an event again, and its thread waits in `Next` until `Shutdown`.
-/

namespace TinyReactor.ApiServer

open Transition Wire

/-- The entry is a context of this queue. -/
def onQueue (cq : ℕ) (entry : Option CallContext) : Bool := entry.any fun context ↦ context.cq == cq

/-- The thread is in `Proceed`. -/
def DriverPc.busy : DriverPc → Bool
  | .proceed _ _ _ => true
  | _ => false

namespace AsyncServer

/-- The live contexts of the queue. -/
def capacityOn (server : AsyncServer) (cq : ℕ) : ℕ := server.contexts.countP (onQueue cq)

/-- The operations started on the queue, with the one whose event its thread handles. -/
def inPlay (server : AsyncServer) (cq : ℕ) : ℕ :=
  server.outstanding.countP (fun op ↦ op.cq == cq) + entryCount DriverPc.busy server.drivers cq

end AsyncServer

/-- The thread of the queue calls `Proceed(false)`. -/
def failsOn (cq : ℕ) (server : AsyncServer) : Action → Bool
  | .proceed driver => driver == cq && (server.drivers[driver]?.any fun pc ↦
      match pc with
      | .proceed _ _ ok => !ok
      | _ => false)
  | _ => false

variable {server next : AsyncServer} {action : Action} {tag : ContextId} {context : CallContext} {cq : ℕ}

/-! ## The shares at the start -/

theorem capacityOn_newContext (place : ℕ) :
    (server.newContext place).capacityOn cq = server.capacityOn cq + (place == cq).toNat :=
  countP_append_singleton (onQueue cq)

theorem inPlay_newContext (place : ℕ) :
    (server.newContext place).inPlay cq = server.inPlay cq + (place == cq).toNat := by
  have hops : (server.newContext place).outstanding.countP (fun op ↦ op.cq == cq) =
      server.outstanding.countP (fun op ↦ op.cq == cq) + (place == cq).toNat :=
    countP_append_singleton fun op : Op ↦ op.cq == cq
  rw [AsyncServer.inPlay, AsyncServer.inPlay, hops, Nat.add_right_comm]
  rfl

theorem capacityOn_createContexts {cqCount : ℕ} (hcq : cq < cqCount) (count : ℕ) :
    (server.createContexts cqCount count).capacityOn cq =
      server.capacityOn cq + count.count (· ≡ cq [MOD cqCount]) := by
  induction count with
  | zero => rfl
  | succ count ih =>
    rw [AsyncServer.createContexts, capacityOn_newContext, ih, Nat.count_succ, Nat.add_assoc]
    simp only [Nat.ModEq, Nat.mod_eq_of_lt hcq]
    by_cases hplace : count % cqCount = cq <;> simp [hplace]

theorem capacityOn_start (submitTask : Option SubmitTaskFunc) {cqCount : ℕ} (hcq : cq < cqCount) (count : ℕ) :
    (AsyncServer.start submitTask cqCount count).capacityOn cq =
      count / cqCount + if cq < count % cqCount then 1 else 0 := by
  rw [AsyncServer.start, capacityOn_createContexts hcq, Nat.count_modEq_card count (Nat.zero_lt_of_lt hcq),
    Nat.mod_eq_of_lt hcq]
  exact Nat.zero_add _

/-! ## One step -/

theorem capacityOn_set (hlive : server.contexts[tag]? = some (some context)) (entry : Option CallContext) :
    (server.contexts.set tag entry).countP (onQueue cq) + (context.cq == cq).toNat =
      server.capacityOn cq + (onQueue cq entry).toNat := by
  have hle : (context.cq == cq).toNat ≤ server.capacityOn cq := toNat_le_countP (onQueue cq) hlive
  have hset : (server.contexts.set tag entry).countP (onQueue cq) =
      server.capacityOn cq + (onQueue cq entry).toNat - (context.cq == cq).toNat :=
    countP_set_of_getElem? (onQueue cq) hlive entry
  omega

/-- `Proceed` takes its context off the queue if the event failed, and starts an operation there if not. -/
theorem shares_proceed (cq : ℕ) (h : Balanced server) (hlive : server.contexts[tag]? = some (some context))
    (ok : Bool) :
    (proceed server tag context ok).capacityOn cq + (!ok && context.cq == cq).toNat = server.capacityOn cq ∧
      (proceed server tag context ok).inPlay cq = server.inPlay cq + (ok && context.cq == cq).toNat := by
  have hdelete : (server.deleteContext tag).capacityOn cq + (context.cq == cq).toNat = server.capacityOn cq :=
    capacityOn_set hlive none
  cases ok with
  | false => exact ⟨hdelete, rfl⟩
  | true =>
    cases hstatus : context.status with
    | create =>
      have hserved : (server.contexts.set tag (some { onSubmitTask context with status := .finish })).countP
          (onQueue cq) + (context.cq == cq).toNat = server.capacityOn cq + (context.cq == cq).toNat :=
        capacityOn_set hlive (some { onSubmitTask context with status := .finish })
      have hops : (server.outstanding ++ [Op.mk tag context.cq .finish]).countP (fun op ↦ op.cq == cq) =
          server.outstanding.countP (fun op ↦ op.cq == cq) + (context.cq == cq).toNat :=
        countP_append_singleton fun op : Op ↦ op.cq == cq
      simp only [proceed, hstatus, if_true, AsyncServer.capacityOn, AsyncServer.inPlay, hops, Bool.not_true,
        Bool.false_and, Bool.true_and, Bool.toNat_false] at hserved ⊢
      omega
    | finish =>
      have hcapacity : ((server.deleteContext tag).newContext context.cq).capacityOn cq = _ :=
        capacityOn_newContext context.cq
      have hinPlay : ((server.deleteContext tag).newContext context.cq).inPlay cq = _ :=
        inPlay_newContext context.cq
      simp only [proceed, hstatus, if_true, Bool.not_true, Bool.false_and, Bool.true_and, Bool.toNat_false]
      exact ⟨hcapacity.trans hdelete, hinPlay⟩
    | rearm => exact absurd hstatus (h.status tag context hlive)

theorem busy_set (cq : ℕ) {driver : ℕ} {pc : DriverPc} (hdriver : server.drivers[driver]? = some pc) (pc' : DriverPc) :
    entryCount DriverPc.busy (server.drivers.set driver pc') cq + (driver == cq && pc.busy).toNat =
      entryCount DriverPc.busy server.drivers cq + (driver == cq && pc'.busy).toNat := by
  by_cases hother : driver = cq
  · subst hother
    rw [entryCount_set_self _ hdriver, entryCount_of_getElem? _ hdriver, beq_self_eq_true, Bool.true_and, Bool.true_and,
      Nat.add_comm]
  · rw [entryCount_set_of_ne _ hother, beq_eq_false_iff_ne.mpr hother, Bool.false_and, Bool.false_and]

theorem inPlay_setDriver (cq : ℕ) {driver : ℕ} {pc pc' : DriverPc} (hdriver : server.drivers[driver]? = some pc)
    (hidle : pc.busy = false) (hidle' : pc'.busy = false) :
    (server.setDriver driver pc').inPlay cq = server.inPlay cq := by
  have hbusy := busy_set cq hdriver pc'
  rw [hidle, hidle'] at hbusy
  exact congrArg (server.outstanding.countP (fun op ↦ op.cq == cq) + ·) (Nat.add_right_cancel hbusy)

theorem shares_delivered (cq : ℕ) {driver : ℕ} {draining : Bool} {op : Op} (ok : Bool) (request : PbTask)
    (hdriver : server.drivers[driver]? = some (.next draining)) (hmem : op ∈ server.outstanding)
    (hcq : op.cq = driver) :
    (server.delivered driver draining op ok request).capacityOn cq = server.capacityOn cq ∧
      (server.delivered driver draining op ok request).inPlay cq = server.inPlay cq := by
  constructor
  · simp only [AsyncServer.capacityOn, AsyncServer.delivered]
    cases hentry : server.contexts[op.tag]? with
    | none => rw [List.modify_eq_self (List.getElem?_eq_none_iff.mp hentry)]
    | some entry =>
      have hle := toNat_le_countP (onQueue cq) hentry
      have hkept : onQueue cq (entry.map (receive op.kind ok request)) = onQueue cq entry := by
        cases entry with
        | none => rfl
        | some context =>
          change ((receive op.kind ok request context).cq == cq) = (context.cq == cq)
          rw [receive_cq]
      rw [modify_eq_set_of_getElem? hentry, countP_set_of_getElem? (onQueue cq) hentry, hkept]
      omega
  · have hbusy := busy_set cq hdriver (.proceed draining op.tag ok)
    have herase := (List.perm_cons_erase hmem).countP_eq fun op ↦ op.cq == cq
    rw [List.countP_cons, hcq] at herase
    simp only [AsyncServer.inPlay, AsyncServer.delivered, herase]
    simp only [DriverPc.busy, Bool.and_false, Bool.and_true, Bool.toNat_false] at hbusy
    cases hsame : driver == cq with
    | false =>
      rw [hsame, Bool.toNat_false] at hbusy
      simp only [Bool.false_eq_true, if_false]
      omega
    | true =>
      rw [hsame, Bool.toNat_true] at hbusy
      simp only [if_true]
      omega

/-- What a queue loses is lost in the failed events of its own thread, and everything it has is in play. -/
theorem shares_step (hbalanced : Balanced server) (hhomed : Homed server) (hstep : step server action = some next) :
    next.capacityOn cq + (failsOn cq server action).toNat = server.capacityOn cq ∧
      (server.inPlay cq = server.capacityOn cq → next.inPlay cq = next.capacityOn cq) := by
  cases move_of_step hstep with
  | deliver draining hdriver hdeliver =>
    rename_i driver op ok request
    obtain ⟨hmem, hcq⟩ := of_deliverable hdeliver
    obtain ⟨hcapacity, hinPlay⟩ := shares_delivered cq ok request hdriver hmem hcq
    exact ⟨hcapacity, fun hall ↦ hinPlay.trans (hall.trans hcapacity.symm)⟩
  | proceed draining tag ok context hdriver hlive =>
    rename_i driver
    obtain rfl : context.cq = driver := (hhomed.drivers driver draining tag ok hdriver).2 context hlive
    obtain ⟨hcapacity, hinPlay⟩ := shares_proceed cq hbalanced hlive ok
    have hbusy := busy_set cq hdriver (.next draining)
    have hfails : failsOn cq server (.proceed context.cq) = (!ok && context.cq == cq) := by
      rw [failsOn, hdriver, Option.any_some, Bool.and_comm]
    rw [hfails]
    refine ⟨hcapacity, fun hall ↦ ?_⟩
    simp only [AsyncServer.inPlay, AsyncServer.setDriver, (proceed_frame server tag context ok).1, DriverPc.busy,
      Bool.and_true, Bool.and_false, Bool.toNat_false] at hinPlay hbusy hall ⊢
    change _ = (proceed server tag context ok).capacityOn cq
    cases ok <;>
      simp only [Bool.not_true, Bool.not_false, Bool.true_and, Bool.false_and, Bool.toNat_false] at * <;> omega
  | drain hdriver _ _ | finish hdriver _ _ =>
    exact ⟨rfl, fun hall ↦ (inPlay_setDriver cq hdriver rfl rfl).trans hall⟩
  | _ => exact ⟨rfl, id⟩

/-! ## Runs -/

variable {cqCount count : ℕ}

theorem inPlay_start (submitTask : Option SubmitTaskFunc) (cqCount count cq : ℕ) :
    (AsyncServer.start submitTask cqCount count).inPlay cq =
      (AsyncServer.start submitTask cqCount count).capacityOn cq := by
  unfold AsyncServer.start
  induction count with
  | zero =>
    simp only [AsyncServer.createContexts, AsyncServer.inPlay, AsyncServer.capacityOn, List.countP_nil, Nat.zero_add,
      entryCount]
    cases hdriver : (List.replicate cqCount (DriverPc.next false))[cq]? with
    | none => rfl
    | some pc =>
      rw [List.eq_of_mem_replicate (List.mem_of_getElem? hdriver)]
      rfl
  | succ count ih => rw [AsyncServer.createContexts, inPlay_newContext, capacityOn_newContext, ih]

/-- The queue has lost so many of its share, and everything it has left is in play. -/
structure Dealt (share cq lost : ℕ) (server : AsyncServer) : Prop where
  balanced : Balanced server
  homed : Homed server
  share : server.capacityOn cq + lost = share
  inPlay : server.inPlay cq = server.capacityOn cq

theorem Dealt.run {share lost : ℕ} {actions : List Action} {final : AsyncServer} (h : Dealt share cq lost server)
    (hrun : run step server actions = some final) :
    Dealt share cq (lost + countSteps step (failsOn cq) server actions) final := by
  refine countSteps_invariant (I := Dealt share cq) (fun lost state action next h _ hstep ↦ ?_)
    (Meets.of_forall_mem fun _ _ _ ↦ trivial) h hrun
  obtain ⟨hlost, hinPlay⟩ := shares_step h.balanced h.homed hstep
  refine ⟨h.balanced.step (stepAnyOk_of_step hstep), h.homed.step hstep, ?_, hinPlay h.inPlay⟩
  rw [← Nat.add_assoc, Nat.add_right_comm, hlost]
  exact h.share

/-- A queue with nothing in play delivers nothing. -/
theorem Dealt.deliver_eq_none {share lost : ℕ} (h : Dealt share cq lost server) (hnone : server.capacityOn cq = 0)
    (op : Op) (ok : Bool) (request : PbTask) : step server (.deliver cq op ok request) = none := by
  cases hstep : step server (.deliver cq op ok request) with
  | none => rfl
  | some next =>
    cases move_of_step hstep with
    | deliver draining hdriver hdeliver =>
      obtain ⟨hmem, hop⟩ := of_deliverable hdeliver
      have hpositive : 0 < server.outstanding.countP fun op ↦ op.cq == cq :=
        List.countP_pos_iff.mpr ⟨op, hmem, beq_iff_eq.mpr hop⟩
      have hinPlay := h.inPlay
      unfold AsyncServer.inPlay at hinPlay
      omega

/-- In every order of events, the contexts that a queue has left and the failed events that its thread has handled make
up the share of the queue in the contexts that `Run` created. Each context it has left is waited for by one operation
on the queue or is being handled by its thread; without any, no event ever reaches the thread again. -/
theorem queue_shares (submitTask : Option SubmitTaskFunc) (cqCount count cq : ℕ) (hcq : cq < cqCount)
    (actions : List Action) (final : AsyncServer)
    (hrun : run step (AsyncServer.start submitTask cqCount count) actions = some final) :
    final.capacityOn cq + countSteps step (failsOn cq) (AsyncServer.start submitTask cqCount count) actions =
        count / cqCount + (if cq < count % cqCount then 1 else 0) ∧
      final.outstanding.countP (fun op ↦ op.cq == cq) + entryCount DriverPc.busy final.drivers cq =
        final.capacityOn cq ∧
      (final.capacityOn cq = 0 → ∀ rest later, run step final rest = some later →
        ∀ op ok request, step later (.deliver cq op ok request) = none) := by
  have hstart : Dealt (count / cqCount + if cq < count % cqCount then 1 else 0) cq 0
      (AsyncServer.start submitTask cqCount count) :=
    ⟨balanced_start submitTask cqCount count, homed_start submitTask cqCount count,
      capacityOn_start submitTask hcq count, inPlay_start submitTask cqCount count cq⟩
  have hfinal := hstart.run hrun
  rw [Nat.zero_add] at hfinal
  refine ⟨hfinal.share, hfinal.inPlay, fun hnone rest later hrest op ok request ↦ ?_⟩
  have hlater := hfinal.run hrest
  have hshare := hfinal.share
  have hshare' := hlater.share
  exact hlater.deliver_eq_none (by omega) op ok request

/-- Three contexts on two queues: the only one of the second queue is lost to a client that is gone. -/
def secondQueueLost : List Action :=
  [.deliver 1 ⟨1, 1, .request⟩ true {}, .proceed 1, .deliver 1 ⟨1, 1, .finish⟩ false {}, .proceed 1]

theorem queue_shares_secondQueueLost :
    ∃ final, run step (AsyncServer.start none 2 3) secondQueueLost = some final ∧ final.capacityOn 0 = 2 ∧
      final.capacityOn 1 = 0 ∧ countSteps step (failsOn 1) (AsyncServer.start none 2 3) secondQueueLost = 1 ∧
      ∀ rest later, run step final rest = some later →
        ∀ op ok request, step later (.deliver 1 op ok request) = none := by
  have hrun : run step (AsyncServer.start none 2 3) secondQueueLost = some _ := rfl
  obtain ⟨-, -, hstarved⟩ := queue_shares none 2 3 1 (by decide) secondQueueLost _ hrun
  exact ⟨_, hrun, rfl, rfl, rfl, hstarved rfl⟩

end TinyReactor.ApiServer
