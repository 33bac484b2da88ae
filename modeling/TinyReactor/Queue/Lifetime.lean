import TinyReactor.Hazard.Hoard
import TinyReactor.Queue.Liberation

/-!
# The life of a queue

Every element that is dequeued retires a node, and the queue never calls `Scan` itself. So the bound on what a program
can retire without reclaiming is one on the elements that go through its queues: the next `dequeue` to take one keeps
`global_retired_mutex_` for good, and the others follow one by one.
-/

namespace TinyReactor.Queue

open Transition Hazard

variable {α : Type*}

/-- A `dequeue` returned an element. -/
def Event.delivers : Event α → Bool
  | .returnDequeue _ (some _) => true
  | _ => false

/-- A `dequeue` has retired the node of its element and is about to return. -/
def Pc.delivers : Pc α → Bool
  | .dequeue (.returns (some _)) => true
  | _ => false

/-- The program calls neither `Scan` nor `reclaim_all`. -/
def LeavesReclaiming (_ : System α) : Action α → Prop
  | .maintain _ .scan | .maintain _ .reclaimAll => False
  | _ => True

namespace System

variable {system next : System α} {thread : ThreadId} {threads : Finset ThreadId}

/-- The elements that were dequeued, counted from the retirement of their nodes on. -/
def delivered (threads : Finset ThreadId) (system : System α) : ℕ :=
  system.history.countP Event.delivers + ∑ thread ∈ threads, (system.pcs thread).delivers.toNat

/-- Each of these elements has left a node with the domain. -/
structure Hoards (threads : Finset ThreadId) (system : System α) : Prop where
  domain : system.domain.Hoards threads
  delivered : system.delivered threads ≤ system.domain.hoard threads

theorem hoards_create (threads : Finset ThreadId) (dummyData : α) : (create dummyData).Hoards threads where
  domain := hoards_empty threads
  delivered := by
    have hnone : ∑ thread ∈ threads, ((create dummyData).pcs thread).delivers.toNat = 0 :=
      Finset.sum_eq_zero fun _ _ ↦ rfl
    rw [System.delivered, hnone]
    exact Nat.zero_le _

/-- The domain has received the nodes of what the step delivers. -/
theorem Hoards.move (h : system.Hoards threads) (hthread : thread ∈ threads) {pc' : Pc α}
    (hpcs : next.pcs = Function.update system.pcs thread pc') (events : List (Event α))
    (hhistory : next.history = system.history ++ events) (hdomain : next.domain.Hoards threads) (gain : ℕ)
    (hgain : system.domain.hoard threads + gain ≤ next.domain.hoard threads)
    (hpaid : events.countP Event.delivers + pc'.delivers.toNat ≤ (system.pcs thread).delivers.toNat + gain) :
    next.Hoards threads := by
  refine ⟨hdomain, ?_⟩
  have hsum : ∑ other ∈ threads, (Function.update system.pcs thread pc' other).delivers.toNat +
      (system.pcs thread).delivers.toNat = ∑ other ∈ threads, (system.pcs other).delivers.toNat + pc'.delivers.toNat :=
    sum_update_add (fun pc : Pc α ↦ pc.delivers.toNat) hthread pc'
  have hdelivered := h.delivered
  unfold System.delivered at hdelivered ⊢
  rw [hpcs, hhistory, List.countP_append]
  omega

/-- A statement that leaves the domain alone and returns no element. -/
theorem Hoards.stay (h : system.Hoards threads) (hthread : thread ∈ threads) {pc' : Pc α}
    (hpcs : next.pcs = Function.update system.pcs thread pc') (hdomain : next.domain = system.domain)
    (hpc' : pc'.delivers = false) {events : List (Event α)} (hhistory : next.history = system.history ++ events)
    (hevents : events.countP Event.delivers ≤ (system.pcs thread).delivers.toNat) : next.Hoards threads := by
  refine h.move hthread hpcs events hhistory (hdomain ▸ h.domain) 0 (by rw [hdomain]; exact Nat.le_refl _) ?_
  rw [hpc']
  exact hevents

theorem Hoards.quiet (h : system.Hoards threads) (hthread : thread ∈ threads) {pc' : Pc α}
    (hpcs : next.pcs = Function.update system.pcs thread pc') (hdomain : next.domain = system.domain)
    (hpc' : pc'.delivers = false) (hhistory : next.history = system.history) : next.Hoards threads :=
  h.stay hthread hpcs hdomain hpc' (hhistory.trans (List.append_nil _).symm) (Nat.zero_le _)

/-- A call into the domain. -/
theorem Hoards.callDomain (h : system.Hoards threads) (hthread : thread ∈ threads) {op : Op ℕ} {pc' : Pc α}
    (hleaves : Hazard.LeavesReclaiming system.domain (.call thread op))
    (hpc' : pc'.delivers.toNat ≤ (callsRetire system.domain (.call thread op)).toNat)
    (hcall : system.callDomain thread op pc' = some next) : next.Hoards threads := by
  obtain ⟨domain, hdomain, rfl⟩ := Option.map_eq_some_iff.mp hcall
  have hcaller : (Hazard.Action.call thread op).thread ∈ threads := hthread
  refine h.move hthread rfl [] (List.append_nil _).symm (h.domain.step hcaller hleaves hdomain) _
    (h.domain.hoard_step hcaller hleaves hdomain) ?_
  exact Nat.le_trans (Nat.le_of_eq (Nat.zero_add _)) (Nat.le_trans hpc' (Nat.le_add_left _ _))

/-- A step inside the domain. -/
theorem Hoards.inside (h : system.Hoards threads) {domain : Domain ℕ} {call : Hazard.Action ℕ}
    (hdomain : Hazard.step system.domain call = some domain) (hthread : call.thread ∈ threads)
    (hleaves : Hazard.LeavesReclaiming system.domain call) : Hoards threads { system with domain := domain } where
  domain := h.domain.step hthread hleaves hdomain
  delivered := by
    have hgain := h.domain.hoard_step hthread hleaves hdomain
    have hdelivered := h.delivered
    change system.delivered threads ≤ domain.hoard threads
    omega

theorem history_exchangeTail {spurious : Bool} {expected desired : ℕ} :
    (system.exchangeTail spurious expected desired).history = system.history := by
  unfold System.exchangeTail
  split <;> rfl

theorem EnqueueMove.hoards {spurious : Bool} {pc : EnqueuePc α} (hmove : system.EnqueueMove thread spurious pc next)
    (h : system.Hoards threads) (hthread : thread ∈ threads) : next.Hoards threads := by
  have hdomain := hmove.domain_eq
  cases hmove with
  | swingTail | helpTail =>
    exact h.quiet hthread (congrArg (Function.update · thread _) pcs_exchangeTail) hdomain rfl history_exchangeTail
  | returns => exact h.stay hthread rfl hdomain rfl rfl (Nat.zero_le _)
  | _ => exact h.quiet hthread rfl hdomain rfl rfl

theorem DequeueMove.hoards {spurious : Bool} {pc : DequeuePc α} (hmove : system.DequeueMove thread spurious pc next)
    (hpc : system.pcs thread = .dequeue pc) (h : system.Hoards threads) (hthread : thread ∈ threads) :
    next.Hoards threads := by
  cases hmove with
  | constructHead hcall | constructNext hcall | protectHead _ hcall | protectNext _ _ _ hcall | releaseHead _ hcall
  | releaseEmpty hcall | releaseNext _ _ hcall | retire _ _ hcall =>
    refine h.callDomain hthread ?_ ?_ hcall
    · trivial
    · exact Nat.le_refl _
  | helpTail =>
    exact h.quiet hthread (congrArg (Function.update · thread _) pcs_exchangeTail) domain_exchangeTail rfl
      history_exchangeTail
  | returns result =>
    refine h.stay hthread rfl rfl rfl rfl ?_
    rw [hpc]
    cases result <;> exact Nat.le_refl _
  | _ => exact h.quiet hthread rfl rfl rfl rfl

end System

variable {system next : System α} {threads : Finset ThreadId} {action : Action α}

theorem System.Hoards.step (h : system.Hoards threads) (hthread : action.thread ∈ threads)
    (hleaves : LeavesReclaiming system action) (hstep : step system action = some next) : next.Hoards threads := by
  cases stepMove_of_step hstep with
  | callEnqueue | callDequeue => exact h.stay hthread rfl rfl rfl rfl (Nat.zero_le _)
  | maintain thread call domain hidle hdomain =>
    refine h.inside hdomain hthread ?_
    cases call with
    | scan | reclaimAll => exact hleaves
    | _ => trivial
  | enqueue thread spurious pc hpc houtside hmove => exact hmove.hoards h hthread
  | dequeue thread spurious pc hpc houtside hmove => exact hmove.hoards hpc h hthread
  | inside thread spurious domain hinside hdomain => exact h.inside hdomain hthread trivial

/-- In every run of a program that calls neither `Scan` nor `reclaim_all`, with any number of concurrent calls, no node
is ever deleted, and no more elements are dequeued than the thresholds leave room for nodes. -/
theorem deliveries_bounded (dummyData : α) (actions : List (Action α)) (system : System α)
    (threads : Finset ThreadId) (hrun : run step (System.create dummyData) actions = some system)
    (hthreads : ∀ action ∈ actions, action.thread ∈ threads)
    (hleaves : Meets step LeavesReclaiming (System.create dummyData) actions) :
    system.domain.deleterCalls = [] ∧
      system.history.countP Event.delivers ≤ globalThreshold + scanThreshold * threads.card := by
  have hok : Meets step (fun system action ↦ action.thread ∈ threads ∧ LeavesReclaiming system action)
      (System.create dummyData) actions :=
    (Meets.of_forall_mem fun action haction _ ↦ hthreads action haction).and hleaves
  have hhoards : system.Hoards threads :=
    hok.invariant (I := System.Hoards threads) (fun _ _ _ h hok hstep ↦ h.step hok.1 hok.2 hstep)
      (System.hoards_create threads dummyData) hrun
  have hbound := hhoards.domain.hoard_le_bound
  have hdelivered := hhoards.delivered
  unfold System.delivered at hdelivered
  exact ⟨hhoards.domain.deleted, by omega⟩

/-- One thread enqueues an element, and another one dequeues it. -/
def passOne : List (Action ℕ) :=
  .enqueue 0 5 :: List.replicate 7 (.step 0 false) ++ .dequeue 1 :: List.replicate 41 (.step 1 false)

theorem deliveries_bounded_passOne :
    ∃ system, run step (System.create 0) passOne = some system ∧ system.domain.deleterCalls = [] ∧
      system.history.countP Event.delivers = 1 ∧ system.history.countP Event.delivers ≤ 5000 + 100 * 2 := by
  have hshown : (run step (System.create 0) passOne).map (fun system ↦ system.history.countP Event.delivers) =
      some 1 := by
    decide +kernel
  obtain ⟨system, hrun, hone⟩ := Option.map_eq_some_iff.mp hshown
  have hleaves : Meets step LeavesReclaiming (System.create 0) passOne := by
    apply Meets.of_forall_mem
    intro action haction _
    simp only [passOne, List.cons_append, List.mem_cons, List.mem_append, List.mem_replicate] at haction
    rcases haction with rfl | ⟨-, rfl⟩ | rfl | ⟨-, rfl⟩ <;> trivial
  obtain ⟨hdeleted, hcount⟩ := deliveries_bounded 0 passOne system {0, 1} hrun (by decide) hleaves
  exact ⟨system, hrun, hdeleted, hone, hcount⟩

end TinyReactor.Queue
