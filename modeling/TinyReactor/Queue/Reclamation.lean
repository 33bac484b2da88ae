import TinyReactor.Hazard.Entries
import TinyReactor.Queue.Shape

/-!
# Reclamation

`enqueue` uses `curr_tail` without a hazard pointer. Between line 52, or line 56, and the access to
`curr_tail->next` that follows, other threads can take the node off the queue, retire it and delete it.
What goes right is the rest: `tail` never stands at a node that was retired, so the pointer is good when
it is read and when it is compared again. If `reclaim_all` spared the nodes in use by `enqueue`, as it
spares those that `dequeue` protects, no deleted node would be touched.
-/

namespace TinyReactor.Queue

open Hazard Transition

variable {α : Type*}

/-- The node whose `next` an `enqueue` is about to read (line 53) or to compare and exchange (line 59). -/
def Pc.dereferences : Pc α → Option ℕ
  | .enqueue (.loadNext _ currTail) | .enqueue (.linkNode _ currTail) => some currTail
  | _ => none

namespace System

variable {system next : System α} {thread : ThreadId} {tailPlace : ℕ}

/-- The node was the dummy once and is no longer. -/
def Passed (system : System α) (entry : RetiredPtr ℕ) : Prop :=
  ∃ place < system.taken.length, system.chain[place]? = some entry.ptr

theorem Passed.mono {entry : RetiredPtr ℕ} (hgrows : system.Grows next) (h : system.Passed entry) :
    next.Passed entry := by
  obtain ⟨place, hlt, hplace⟩ := h
  exact ⟨place, Nat.lt_of_lt_of_le hlt hgrows.taken, getElem?_mono hgrows.chain hplace⟩

/-- `tail` is not before `head`. -/
theorem Passed.ne_tail {entry : RetiredPtr ℕ} (h : system.Passed entry) (hshape : system.Shape tailPlace) :
    entry.ptr ≠ system.tail := by
  intro heq
  obtain ⟨place, hlt, hplace⟩ := h
  have hsame := hshape.place_unique hplace (heq ▸ hshape.tail)
  exact absurd hshape.head_le (by omega)

/-- What a statement of the queue can do to the list, to the nodes in use and to the domain. -/
structure Moves (thread : ThreadId) (system next : System α) : Prop where
  grows : system.Grows next
  pcs : ∃ pc', next.pcs = Function.update system.pcs thread pc' ∧
    ∀ node, pc'.dereferences = some node → node = system.tail
  domain : next.domain = system.domain ∨
    ∃ op, Hazard.step system.domain (.call thread op) = some next.domain ∧
      ∀ entry, op = .retirePointer entry → system.Passed entry

/-- A statement that stays outside the domain and after which no `next` of `enqueue` is due. -/
theorem moves_of_pcs {pc' : Pc α} (hgrows : system.Grows next) (hdomain : next.domain = system.domain)
    (hpcs : next.pcs = Function.update system.pcs thread pc') (hpc : pc'.dereferences = none) :
    Moves thread system next := by
  refine ⟨hgrows, ⟨pc', hpcs, ?_⟩, .inl hdomain⟩
  rw [hpc]
  nofun

/-- A statement that only reads, after which no `next` of `enqueue` is due. -/
theorem setPc_moves {pc' : Pc α} (hpc : pc'.dereferences = none) : Moves thread system (system.setPc thread pc') :=
  moves_of_pcs ⟨List.prefix_refl _, Nat.le_refl _⟩ rfl rfl hpc

theorem exchangeTail_moves {spurious : Bool} {expected desired : ℕ} {pc' : Pc α} (hpc : pc'.dereferences = none) :
    Moves thread system ((system.exchangeTail spurious expected desired).setPc thread pc') := by
  unfold System.exchangeTail
  split <;> exact moves_of_pcs ⟨List.prefix_refl _, Nat.le_refl _⟩ rfl rfl hpc

theorem EnqueueMove.moves {spurious : Bool} {pc : EnqueuePc α} (hmove : system.EnqueueMove thread spurious pc next) :
    Moves thread system next := by
  cases hmove with
  | loadTail newNode =>
    refine ⟨⟨List.prefix_refl _, Nat.le_refl _⟩, ⟨_, rfl, ?_⟩, .inl rfl⟩
    rintro _ ⟨⟩
    rfl
  | atEnd newNode =>
    refine ⟨⟨List.prefix_refl _, Nat.le_refl _⟩, ⟨_, rfl, ?_⟩, .inl rfl⟩
    rintro _ ⟨⟩
    rfl
  | loadNext | behind | moved | relink => exact setPc_moves rfl
  | link => exact moves_of_pcs ⟨List.prefix_append .., Nat.le_refl _⟩ rfl rfl rfl
  | swingTail | helpTail => exact exchangeTail_moves rfl
  | allocate | returns => exact moves_of_pcs ⟨List.prefix_refl _, Nat.le_refl _⟩ rfl rfl rfl

theorem callDomain_moves {op : Op ℕ} {pc' : Pc α} (hstep : system.callDomain thread op pc' = some next)
    (hpc : pc'.dereferences = none) (hop : ∀ entry, op = .retirePointer entry → system.Passed entry) :
    Moves thread system next := by
  obtain ⟨domain, hdomain, rfl⟩ := Option.map_eq_some_iff.mp hstep
  refine ⟨⟨List.prefix_refl _, Nat.le_refl _⟩, ⟨pc', rfl, ?_⟩, .inr ⟨op, hdomain, hop⟩⟩
  rw [hpc]
  nofun

theorem DequeueMove.moves {spurious : Bool} {pc : DequeuePc α} (hmove : system.DequeueMove thread spurious pc next)
    (h : system.Shape tailPlace) (hpc : system.pcs thread = .dequeue pc) : Moves thread system next := by
  have hplaced := h.placed thread
  rw [hpc] at hplaced
  cases hmove with
  | constructHead hcall | constructNext hcall | releaseEmpty hcall => exact callDomain_moves hcall rfl nofun
  | protectHead _ hcall | releaseHead _ hcall => exact callDomain_moves hcall rfl nofun
  | releaseNext _ _ hcall => exact callDomain_moves hcall rfl nofun
  | protectNext _ _ _ hcall => exact callDomain_moves hcall rfl nofun
  | retire currHead result hcall =>
    apply callDomain_moves hcall rfl
    rintro _ ⟨⟩
    obtain ⟨place, hlt, hfollows⟩ := hplaced
    exact ⟨place, hlt, hfollows.1⟩
  | helpTail currTail after => exact exchangeTail_moves rfl
  | unlink after =>
    exact moves_of_pcs ⟨List.prefix_refl _, Nat.le_of_lt (List.length_append ▸ Nat.lt_succ_self _)⟩ rfl rfl rfl
  | returns result => exact moves_of_pcs ⟨List.prefix_refl _, Nat.le_refl _⟩ rfl rfl rfl
  | _ => exact setPc_moves rfl

/-! ## The invariant -/

/-- No `enqueue` is about to use the node. -/
def Unused (system : System α) (entry : RetiredPtr ℕ) : Prop :=
  ∀ thread, (system.pcs thread).dereferences ≠ some entry.ptr

/-- The retired nodes are behind `head`, and no `enqueue` is about to use one that is deleted or will be. -/
structure Spared (system : System α) : Prop where
  shape : ∃ tailPlace, system.Shape tailPlace
  entries : system.domain.Entries system.Passed
  batched : system.domain.Batched system.Unused

theorem spared_create (dummyData : α) : (create dummyData).Spared where
  shape := ⟨0, shape_create dummyData⟩
  entries := Domain.entries_empty
  batched := ⟨nofun, nofun⟩

/-- A statement of the queue. -/
theorem Spared.of_moves (h : system.Spared) (hshape : ∃ tailPlace, next.Shape tailPlace)
    (hmoves : Moves thread system next) : next.Spared := by
  obtain ⟨tailPlace, hbefore⟩ := h.shape
  obtain ⟨pc', hpcs, hpc⟩ := hmoves.pcs
  have hentries : next.domain.Entries system.Passed := by
    rcases hmoves.domain with hdomain | ⟨op, hdomain, hop⟩
    · rw [hdomain]
      exact h.entries
    · refine entries_of_step h.entries ?_ hdomain
      rintro _ entry ⟨⟩
      exact hop entry rfl
  have hbatched : next.domain.Batched system.Unused := by
    rcases hmoves.domain with hdomain | ⟨op, hdomain, -⟩
    · rw [hdomain]
      exact h.batched
    · exact batched_of_step h.batched hdomain nofun
  refine ⟨hshape, hentries.mono fun _ ↦ Passed.mono hmoves.grows, ?_⟩
  refine hbatched.imp hentries.batched fun entry hunused hpassed ↦ ?_
  unfold Unused
  rw [hpcs, Function.forall_update_iff system.pcs (p := fun _ pc ↦ pc.dereferences ≠ some entry.ptr)]
  exact ⟨fun heq ↦ hpassed.ne_tail hbefore (hpc _ heq), fun other _ ↦ hunused other⟩

/-- A step inside the domain, which erases no node that is in use. -/
theorem Spared.of_domain (h : system.Spared) {domain : Domain ℕ} {action : Hazard.Action ℕ}
    (hstep : Hazard.step system.domain action = some domain)
    (hnew : ∀ thread entry, action ≠ .call thread (.retirePointer entry))
    (herase : ∀ thread it, action = .step thread → system.domain.pcs thread = .reclaim (.erase it) →
      system.Unused it.entry) :
    ({ system with domain := domain } : System α).Spared := by
  obtain ⟨tailPlace, hshape⟩ := h.shape
  exact ⟨⟨tailPlace, hshape.setDomain domain⟩,
    entries_of_step h.entries (fun thread entry heq ↦ absurd heq (hnew thread entry)) hstep,
    batched_of_step h.batched hstep herase⟩

end System

/-- The node that the step takes off the global list to delete it. -/
def erases? (system : System α) : Action α → Option ℕ
  | .step thread _ =>
      match system.domain.pcs thread with
      | .reclaim (.erase it) => some it.entry.ptr
      | _ => none
  | _ => none

/-- When `reclaim_all` has found a node unprotected and takes it out, no `enqueue` is about to use it. -/
def SparesTails (system : System α) (action : Action α) : Prop :=
  ∀ node, erases? system action = some node → ∀ thread, (system.pcs thread).dereferences ≠ some node

def Action.thread : Action α → ThreadId
  | .enqueue thread _ | .dequeue thread | .maintain thread _ | .step thread _ => thread

/-- A step is a statement of the queue or happens inside the domain. -/
theorem step_moves {system next : System α} {tailPlace : ℕ} {action : Action α} (h : system.Shape tailPlace)
    (hstep : step system action = some next) :
    System.Moves action.thread system next ∨
      ∃ domain call, Hazard.step system.domain call = some domain ∧ next = { system with domain := domain } ∧
        (∀ thread entry, call ≠ .call thread (.retirePointer entry)) ∧
        ∀ thread, call = .step thread → ∃ spurious, action = .step thread spurious := by
  cases stepMove_of_step hstep with
  | callEnqueue | callDequeue =>
    exact .inl (System.moves_of_pcs ⟨List.prefix_refl _, Nat.le_refl _⟩ rfl rfl rfl)
  | enqueue thread spurious pc hpc houtside hmove => exact .inl hmove.moves
  | dequeue thread spurious pc hpc houtside hmove => exact .inl (hmove.moves h hpc)
  | maintain thread call domain hidle hdomain =>
    refine .inr ⟨domain, _, hdomain, rfl, ?_, by rintro _ ⟨⟩⟩
    cases call <;> rintro _ _ ⟨⟩
  | inside thread spurious domain hinside hdomain =>
    refine .inr ⟨domain, _, hdomain, rfl, by rintro _ _ ⟨⟩, ?_⟩
    rintro _ ⟨⟩
    exact ⟨spurious, rfl⟩

theorem spared_of_step {system next : System α} {action : Action α} (h : system.Spared)
    (hok : SparesTails system action) (hstep : step system action = some next) : next.Spared := by
  obtain ⟨tailPlace, hshape⟩ := h.shape
  rcases step_moves hshape hstep with hmoves | ⟨domain, call, hdomain, rfl, hnew, hcall⟩
  · exact h.of_moves (shape_of_step hshape hstep) hmoves
  · refine h.of_domain hdomain hnew fun thread it hthread hpc ↦ ?_
    obtain ⟨spurious, rfl⟩ := hcall thread hthread
    apply hok it.entry.ptr
    rw [erases?, hpc]

/-- As long as `reclaim_all` spares the nodes in use, no `enqueue` is about to touch a deleted node. -/
theorem enqueue_spared {dummyData : α} {final : System α} {actions : List (Action α)}
    (hok : Meets step SparesTails (System.create dummyData) actions)
    (hrun : run step (System.create dummyData) actions = some final) (thread : ThreadId) (node : ℕ)
    (hnode : (final.pcs thread).dereferences = some node) :
    ∀ entry ∈ final.domain.deleterCalls, entry.ptr ≠ node := by
  have hspared : final.Spared :=
    hok.invariant (fun _ _ _ h hok hstep ↦ spared_of_step h hok hstep) (System.spared_create dummyData) hrun
  rintro entry hentry rfl
  exact hspared.batched.deleterCalls entry hentry thread hnode

/-- The other threads stay where they are. -/
theorem pcs_of_step {system next : System α} {tailPlace : ℕ} {action : Action α} {other : ThreadId}
    (h : system.Shape tailPlace) (hstep : step system action = some next) (hother : other ≠ action.thread) :
    next.pcs other = system.pcs other := by
  rcases step_moves h hstep with hmoves | ⟨domain, call, -, rfl, -⟩
  · obtain ⟨pc', hpcs, -⟩ := hmoves.pcs
    rw [hpcs, Function.update_of_ne hother]
  · rfl

/-- In a run of two threads it is enough to look at these two. -/
theorem sparesTails_of_two {dummyData : α} {actions : List (Action α)}
    (h : Meets step (fun system action ↦ action.thread < 2 ∧ (erases? system action = none ∨
      (system.pcs 0).dereferences ≠ erases? system action ∧
      (system.pcs 1).dereferences ≠ erases? system action)) (System.create dummyData) actions) :
    Meets step SparesTails (System.create dummyData) actions := by
  refine h.strengthen
    (I := fun system ↦ (∃ tailPlace, system.Shape tailPlace) ∧ ∀ other, 2 ≤ other → system.pcs other = .idle)
    ?_ ?_ ⟨⟨0, System.shape_create dummyData⟩, fun _ _ ↦ rfl⟩
  · rintro system action next ⟨⟨tailPlace, hshape⟩, hidle⟩ ⟨hthread, -⟩ hstep
    refine ⟨shape_of_step hshape hstep, fun other hother ↦ ?_⟩
    rw [pcs_of_step hshape hstep (Nat.ne_of_gt (Nat.lt_of_lt_of_le hthread hother))]
    exact hidle other hother
  · rintro system action ⟨-, hidle⟩ ⟨-, hspares⟩ node hnode thread
    rw [hnode] at hspares
    obtain ⟨hzero, hone⟩ := hspares.resolve_left nofun
    match thread with
    | 0 => exact hzero
    | 1 => exact hone
    | thread + 2 =>
      rw [hidle (thread + 2) (Nat.le_add_left ..)]
      nofun

/-! ## Two schedules -/

/-- Thread 1 registers, enqueues 7, takes it, which retires the first dummy, and scans. -/
def handOverAndScan : List (Action ℕ) :=
  [.maintain 1 .registerThread] ++ List.replicate 3 (.step 1 false) ++ [.enqueue 1 7] ++
    List.replicate 7 (.step 1 false) ++ [.dequeue 1] ++ List.replicate 41 (.step 1 false) ++
    [.maintain 1 .scan] ++ List.replicate 17 (.step 1 false)

/-- Thread 0 has allocated its node and read `tail`. -/
def readTail : List (Action ℕ) := [.enqueue 0 5, .step 0 false, .step 0 false]

theorem enqueue_spared_after_scan :
    ∃ final, run step (System.create 0) (handOverAndScan ++ readTail) = some final ∧
      (final.pcs 0).dereferences = some 1 ∧ final.domain.deleterCalls = [⟨0, 0⟩] ∧
      ∀ entry ∈ final.domain.deleterCalls, entry.ptr ≠ 1 := by
  have hends : (run step (System.create 0) (handOverAndScan ++ readTail)).map
      (fun final ↦ ((final.pcs 0).dereferences, final.domain.deleterCalls)) = some (some 1, [⟨0, 0⟩]) := by
    decide +kernel
  obtain ⟨final, hrun, hfinal⟩ := Option.map_eq_some_iff.mp hends
  obtain ⟨hnode, hcalls⟩ := Prod.mk.inj hfinal
  refine ⟨final, hrun, hnode, hcalls, enqueue_spared (sparesTails_of_two ?_) hrun 0 1 hnode⟩
  decide +kernel

/-- When thread 0 has read `tail` first, it is left with the dummy that thread 1 then deletes. -/
theorem enqueue_reads_deleted :
    ∃ final, run step (System.create 0) (readTail ++ handOverAndScan) = some final ∧
      (final.pcs 0).dereferences = some 0 ∧ ∃ entry ∈ final.domain.deleterCalls, entry.ptr = 0 := by
  have hends : (run step (System.create 0) (readTail ++ handOverAndScan)).map
      (fun final ↦ ((final.pcs 0).dereferences, final.domain.deleterCalls)) = some (some 0, [⟨0, 0⟩]) := by
    decide +kernel
  obtain ⟨final, hrun, hfinal⟩ := Option.map_eq_some_iff.mp hends
  obtain ⟨hnode, hcalls⟩ := Prod.mk.inj hfinal
  refine ⟨final, hrun, hnode, ⟨0, 0⟩, ?_, rfl⟩
  rw [hcalls]
  exact List.mem_singleton.mpr rfl

end TinyReactor.Queue
