import Mathlib.Data.List.Perm.Subperm
import Mathlib.Data.List.Range
import TinyReactor.Data.Linked
import TinyReactor.Hazard.Conservation
import TinyReactor.Queue.Reclamation

/-!
# Who deletes a node

A node is owned by the `enqueue` that allocated it until it is linked, by the queue until `head` moves past
it, by the `dequeue` that moved `head` until it calls `RetirePointer`, and by the domain from then on. A step
passes a node from one of these four to the next, so each node has one owner at any time, and when no call is
in progress the destructor finds what the domain has not.
-/

namespace TinyReactor.Queue

open Data Hazard Transition

variable {α : Type*}

/-- The node that the `dequeue` has moved `head` past and not yet retired. -/
def Pc.removed? : Pc α → Option ℕ
  | .dequeue (.readData currHead _) | .dequeue (.releaseHead (some (currHead, _)))
  | .dequeue (.releaseNext (some (currHead, _))) | .dequeue (.retire currHead _) => some currHead
  | _ => none

/-- The node that the thread hands to `RetirePointer` when it moves on. -/
def Pc.retires? : Pc α → Option ℕ
  | .dequeue (.retire currHead _) => some currHead
  | _ => none

/-- The node that the step hands to `RetirePointer`. -/
def handsOver? (system : System α) : Action α → Option ℕ
  | .step thread _ => if system.domain.pcs thread = .idle then (system.pcs thread).retires? else none
  | _ => none

theorem handsOver?_outside {system : System α} {thread : ThreadId} {spurious : Bool} {pc : Pc α}
    (houtside : system.domain.pcs thread = .idle) (hpc : system.pcs thread = pc) :
    handsOver? system (.step thread spurious) = pc.retires? := by
  rw [handsOver?, if_pos houtside, hpc]

theorem handsOver?_inside {system : System α} {thread : ThreadId} {spurious : Bool}
    (hinside : system.domain.pcs thread ≠ .idle) : handsOver? system (.step thread spurious) = none :=
  if_neg hinside

namespace System

/-- `node->next`. -/
def next? (system : System α) (node : ℕ) : Option (Option ℕ) := system.nodes[node]?.map Node.next

/-- The node can be reached from `head` by `next` pointers. -/
def Reachable (system : System α) (node : ℕ) : Prop := Reaches system.next? system.head node

/-- `~MPMCQueue` (lines 36 to 45): the nodes that its loop deletes in at most `fuel` rounds, in order. -/
def destroy (system : System α) (fuel : ℕ) : Option (List ℕ) := follow system.next? fuel (some system.head)

variable {system next : System α} {tailPlace : ℕ} {thread : ThreadId} {pc' : Pc α}

/-! ## What the destructor finds -/

/-- The part of the chain that `head` has not passed. -/
theorem Shape.drop_chain (h : system.Shape tailPlace) :
    ∃ rest, system.chain.drop system.taken.length = system.head :: rest := by
  obtain ⟨hlt, hhead⟩ := List.getElem?_eq_some_iff.mp h.head
  exact ⟨_, hhead ▸ List.drop_eq_getElem_cons hlt⟩

theorem Shape.linked_drop (h : system.Shape tailPlace) :
    Linked system.next? (system.chain.drop system.taken.length) :=
  Linked.drop (fun place pointer ↦ h.next place pointer) _

theorem Shape.reachable_iff (h : system.Shape tailPlace) {node : ℕ} :
    system.Reachable node ↔ node ∈ system.chain.drop system.taken.length := by
  obtain ⟨rest, hrest⟩ := h.drop_chain
  have hlinked := h.linked_drop
  rw [hrest] at hlinked ⊢
  exact hlinked.reaches_iff

/-- A node of the chain is reachable or was passed. -/
theorem Shape.reachable_or_passed {node : ℕ} (h : system.Shape tailPlace) (hmem : node ∈ system.chain) :
    system.Reachable node ∨ system.Passed { ptr := node } := by
  obtain ⟨place, hplace⟩ := List.mem_iff_getElem?.mp hmem
  rcases Nat.lt_or_ge place system.taken.length with hlt | hge
  · exact .inr ⟨place, hlt, hplace⟩
  · refine .inl (h.reachable_iff.mpr (List.mem_iff_getElem?.mpr ⟨place - system.taken.length, ?_⟩))
    rw [List.getElem?_drop, Nat.add_sub_cancel' hge, hplace]

theorem Passed.not_reachable {entry : RetiredPtr ℕ} (h : system.Passed entry) (hshape : system.Shape tailPlace) :
    ¬system.Reachable entry.ptr := by
  rw [hshape.reachable_iff]
  intro hmem
  obtain ⟨place, hlt, hplace⟩ := h
  obtain ⟨other, hother⟩ := List.mem_iff_getElem?.mp hmem
  rw [List.getElem?_drop] at hother
  have hsame := hshape.place_unique hplace hother
  omega

theorem Shape.chain_length_le (h : system.Shape tailPlace) : system.chain.length ≤ system.nodes.length := by
  have hsub : system.chain ⊆ List.range system.nodes.length := by
    intro node hmem
    obtain ⟨place, hplace⟩ := List.mem_iff_getElem?.mp hmem
    exact List.mem_range.mpr (h.lt_nodes hplace)
  have hle := (List.subperm_of_subset h.nodup hsub).length_le
  rwa [List.length_range] at hle

/-- The destructor comes to an end. -/
theorem Shape.destroy_eq (h : system.Shape tailPlace) :
    system.destroy system.nodes.length = some (system.chain.drop system.taken.length) := by
  obtain ⟨rest, hrest⟩ := h.drop_chain
  have hfollow := follow_of_linked h.linked_drop ((List.drop_sublist ..).length_le.trans h.chain_length_le)
  rwa [hrest] at hfollow ⊢

/-! ## How nodes change hands -/

/-- A step of `thread` to `pc'`, by what it does to the owners of nodes and what it hands to the domain. -/
inductive Transfer (thread : ThreadId) (system next : System α) (pc' : Pc α) : Option ℕ → Prop
  | stay (hlength : next.nodes.length = system.nodes.length) (hlinked : next.linked = system.linked)
      (htaken : next.taken = system.taken) (howned : pc'.owned? = (system.pcs thread).owned?)
      (hremoved : pc'.removed? = (system.pcs thread).removed?) : Transfer thread system next pc' none
  | allocate (hlength : next.nodes.length = system.nodes.length + 1) (hlinked : next.linked = system.linked)
      (htaken : next.taken = system.taken) (howned : (system.pcs thread).owned? = none)
      (howned' : pc'.owned? = some system.nodes.length) (hremoved : pc'.removed? = (system.pcs thread).removed?) :
      Transfer thread system next pc' none
  | link (node : ℕ) (hlength : next.nodes.length = system.nodes.length)
      (hlinked : next.linked = system.linked ++ [node]) (htaken : next.taken = system.taken)
      (howned : (system.pcs thread).owned? = some node) (howned' : pc'.owned? = none)
      (hremoved : pc'.removed? = (system.pcs thread).removed?) : Transfer thread system next pc' none
  | remove (hlength : next.nodes.length = system.nodes.length) (hlinked : next.linked = system.linked)
      (htaken : next.taken.length = system.taken.length + 1) (howned : pc'.owned? = (system.pcs thread).owned?)
      (hremoved : (system.pcs thread).removed? = none) (hremoved' : pc'.removed? = some system.head) :
      Transfer thread system next pc' none
  | handOver (node : ℕ) (hlength : next.nodes.length = system.nodes.length) (hlinked : next.linked = system.linked)
      (htaken : next.taken = system.taken) (howned : pc'.owned? = (system.pcs thread).owned?)
      (hremoved : (system.pcs thread).removed? = some node) (hremoved' : pc'.removed? = none) :
      Transfer thread system next pc' (some node)

theorem EnqueueMove.transfer {spurious : Bool} {pc : EnqueuePc α} (hmove : system.EnqueueMove thread spurious pc next)
    (hpc : system.pcs thread = .enqueue pc) :
    ∃ pc', next.pcs = Function.update system.pcs thread pc' ∧ Transfer thread system next pc' none := by
  cases hmove with
  | allocate data => exact ⟨_, rfl, .allocate List.length_append rfl rfl (hpc ▸ rfl) rfl (hpc ▸ rfl)⟩
  | link newNode currTail =>
    exact ⟨_, rfl, .link newNode (List.length_modify ..) rfl rfl (hpc ▸ rfl) rfl (hpc ▸ rfl)⟩
  | swingTail | helpTail =>
    refine ⟨_, congrArg (Function.update · thread _) pcs_exchangeTail, ?_⟩
    unfold System.exchangeTail
    split <;> exact .stay rfl rfl rfl (hpc ▸ rfl) (hpc ▸ rfl)
  | _ => exact ⟨_, rfl, .stay rfl rfl rfl (hpc ▸ rfl) (hpc ▸ rfl)⟩

/-- A call into the domain that hands over nothing. -/
theorem callDomain_transfer {op : Op ℕ} (hcall : system.callDomain thread op pc' = some next)
    (howned : pc'.owned? = (system.pcs thread).owned?) (hremoved : pc'.removed? = (system.pcs thread).removed?) :
    ∃ pc', next.pcs = Function.update system.pcs thread pc' ∧ Transfer thread system next pc' none := by
  obtain ⟨domain, -, rfl⟩ := Option.map_eq_some_iff.mp hcall
  exact ⟨pc', rfl, .stay rfl rfl rfl howned hremoved⟩

theorem DequeueMove.transfer {spurious : Bool} {pc : DequeuePc α} (hmove : system.DequeueMove thread spurious pc next)
    (hpc : system.pcs thread = .dequeue pc) (houtside : system.domain.pcs thread = .idle) :
    ∃ pc', next.pcs = Function.update system.pcs thread pc' ∧
      Transfer thread system next pc' (handsOver? system (.step thread spurious)) := by
  rw [handsOver?_outside houtside hpc]
  cases hmove with
  | constructHead hcall | constructNext hcall | releaseEmpty hcall =>
    exact callDomain_transfer hcall (hpc ▸ rfl) (hpc ▸ rfl)
  | protectHead _ hcall => exact callDomain_transfer hcall (hpc ▸ rfl) (hpc ▸ rfl)
  | protectNext _ _ _ hcall => exact callDomain_transfer hcall (hpc ▸ rfl) (hpc ▸ rfl)
  | releaseHead retired hcall => exact callDomain_transfer hcall (hpc ▸ rfl) (by rw [hpc]; cases retired <;> rfl)
  | releaseNext _ _ hcall => exact callDomain_transfer hcall (hpc ▸ rfl) (hpc ▸ rfl)
  | retire currHead result hcall =>
    obtain ⟨domain, -, rfl⟩ := Option.map_eq_some_iff.mp hcall
    exact ⟨_, rfl, .handOver currHead rfl rfl rfl (hpc ▸ rfl) (hpc ▸ rfl) rfl⟩
  | helpTail =>
    refine ⟨_, congrArg (Function.update · thread _) pcs_exchangeTail, ?_⟩
    unfold System.exchangeTail
    split <;> exact .stay rfl rfl rfl (hpc ▸ rfl) (hpc ▸ rfl)
  | unlink after => exact ⟨_, rfl, .remove rfl rfl List.length_append (hpc ▸ rfl) (hpc ▸ rfl) rfl⟩
  | _ => exact ⟨_, rfl, .stay rfl rfl rfl (hpc ▸ rfl) (hpc ▸ rfl)⟩

end System

/-- Inversion of a step, for the owners of nodes. -/
theorem step_transfer {system next : System α} {action : Action α} (hstep : step system action = some next) :
    ∃ pc', next.pcs = Function.update system.pcs action.thread pc' ∧
      System.Transfer action.thread system next pc' (handsOver? system action) := by
  cases stepMove_of_step hstep with
  | callEnqueue thread data hidle | callDequeue thread hidle =>
    exact ⟨_, rfl, .stay rfl rfl rfl (by rw [Action.thread, hidle]; rfl) (by rw [Action.thread, hidle]; rfl)⟩
  | maintain thread call domain =>
    exact ⟨_, (Function.update_eq_self ..).symm, .stay rfl rfl rfl rfl rfl⟩
  | enqueue thread spurious pc hpc houtside hmove =>
    rw [handsOver?_outside houtside hpc]
    exact hmove.transfer hpc
  | dequeue thread spurious pc hpc houtside hmove => exact hmove.transfer hpc houtside
  | inside thread spurious domain hinside =>
    rw [handsOver?_inside hinside]
    exact ⟨_, (Function.update_eq_self ..).symm, .stay rfl rfl rfl rfl rfl⟩

namespace System

variable {system next : System α} {tailPlace : ℕ} {thread : ThreadId} {pc' : Pc α} {handed : List ℕ} {shown : Option ℕ}

/-! ## Nodes of the queue -/

/-- Every node was linked or belongs to the `enqueue` that has allocated it. -/
def Accounted (system : System α) : Prop :=
  ∀ node < system.nodes.length, node ∈ system.chain ∨ ∃ owner, (system.pcs owner).owned? = some node

theorem accounted_create (dummyData : α) : (create dummyData).Accounted := by
  intro node hlt
  obtain rfl : node = 0 := Nat.lt_one_iff.mp hlt
  exact .inl List.mem_cons_self

theorem Transfer.accounted (htransfer : Transfer thread system next pc' shown) (h : system.Accounted)
    (hpcs : next.pcs = Function.update system.pcs thread pc') : next.Accounted := by
  have hsame (hlength : next.nodes.length = system.nodes.length) (hlinked : next.linked = system.linked)
      (howned : pc'.owned? = (system.pcs thread).owned?) : next.Accounted := by
    intro node hlt
    rw [chain, hlinked]
    refine (h node (hlength ▸ hlt)).imp_right (Exists.imp fun owner howner ↦ ?_)
    rw [hpcs, apply_update_of_eq Pc.owned? howned, howner]
  cases htransfer with
  | stay hlength hlinked _ howned | remove hlength hlinked _ howned | handOver _ hlength hlinked _ howned =>
    exact hsame hlength hlinked howned
  | allocate hlength hlinked _ howned howned' =>
    intro node hlt
    rw [hlength] at hlt
    rw [chain, hlinked, hpcs]
    rcases Nat.lt_succ_iff_lt_or_eq.mp hlt with hold | rfl
    · refine (h node hold).imp_right (Exists.imp fun owner howner ↦ ?_)
      rw [Function.update_of_ne, howner]
      rintro rfl
      cases howned.symm.trans howner
    · exact .inr ⟨thread, by rw [Function.update_self, howned']⟩
  | link newNode hlength hlinked _ howned howned' =>
    intro node hlt
    rw [chain, hlinked, hpcs]
    rcases h node (hlength ▸ hlt) with hmem | ⟨owner, howner⟩
    · exact .inl (List.mem_append_left [newNode] hmem)
    · by_cases heq : owner = thread
      · subst heq
        obtain rfl := Option.some.inj (howned.symm.trans howner)
        exact .inl (List.mem_append_right system.chain (List.mem_singleton.mpr rfl))
      · exact .inr ⟨owner, by rw [Function.update_of_ne heq, howner]⟩

/-! ## Nodes behind `head` -/

/-- Every node behind `head` is in the hands of the one `dequeue` that has removed it, or was handed to the
domain, once. -/
structure Ledger (handed : List ℕ) (system : System α) : Prop where
  once : handed.Nodup
  passed : ∀ node ∈ handed, system.Passed { ptr := node }
  kept : ∀ holder node, (system.pcs holder).removed? = some node → node ∉ handed
  single : ∀ holder other node, (system.pcs holder).removed? = some node →
    (system.pcs other).removed? = some node → holder = other
  behind : ∀ node, system.Passed { ptr := node } →
    node ∈ handed ∨ ∃ holder, (system.pcs holder).removed? = some node

theorem ledger_create (dummyData : α) : Ledger [] (create dummyData) where
  once := List.nodup_nil
  passed := List.forall_mem_nil _
  kept _ _ h := by cases h
  single _ _ _ h := by cases h
  behind := by
    rintro node ⟨place, hlt, -⟩
    cases hlt

theorem Shape.passed_of_removed (h : system.Shape tailPlace) {node : ℕ}
    (hremoved : (system.pcs thread).removed? = some node) : system.Passed { ptr := node } := by
  have hplaced := h.placed thread
  cases hpc : system.pcs thread with
  | dequeue pc =>
    rw [hpc] at hplaced hremoved
    cases pc with
    | readData currHead after =>
      obtain rfl := Option.some.inj hremoved
      obtain ⟨place, hlt, hfollows⟩ := hplaced
      exact ⟨place, hlt, hfollows.1⟩
    | releaseHead retired | releaseNext retired =>
      cases retired with
      | none => cases hremoved
      | some retired =>
        obtain rfl := Option.some.inj hremoved
        obtain ⟨place, hlt, hfollows⟩ := hplaced
        exact ⟨place, hlt, hfollows.1⟩
    | retire currHead result =>
      obtain rfl := Option.some.inj hremoved
      obtain ⟨place, hlt, hfollows⟩ := hplaced
      exact ⟨place, hlt, hfollows.1⟩
    | _ => cases hremoved
  | _ =>
    rw [hpc] at hremoved
    cases hremoved

theorem Shape.not_passed_head (h : system.Shape tailPlace) : ¬system.Passed { ptr := system.head } := by
  rintro ⟨place, hlt, hplace⟩
  exact Nat.ne_of_lt hlt (h.place_unique hplace h.head)

/-- The chain up to `head` does not change. -/
theorem Shape.of_chain_next (h : system.Shape tailPlace) (hgrows : system.Grows next) {place node : ℕ}
    (hle : place ≤ system.taken.length) (hplace : next.chain[place]? = some node) :
    system.chain[place]? = some node := by
  have hlt : place < system.chain.length := Nat.lt_of_le_of_lt hle (lt_length_of_getElem? h.head)
  have hold := List.getElem?_eq_getElem hlt
  rw [hold, ← getElem?_mono hgrows.chain hold, hplace]

theorem Transfer.grows (htransfer : Transfer thread system next pc' shown) : system.Grows next := by
  cases htransfer with
  | stay _ hlinked htaken | allocate _ hlinked htaken | handOver _ _ hlinked htaken =>
    exact ⟨by rw [chain, chain, hlinked], by rw [htaken]⟩
  | link node _ hlinked htaken =>
    exact ⟨by rw [chain, chain, hlinked]; exact List.prefix_append (0 :: system.linked) [node], by rw [htaken]⟩
  | remove _ hlinked htaken => exact ⟨by rw [chain, chain, hlinked], by omega⟩

/-- A step that neither moves `head` nor hands over a node. -/
theorem Ledger.stay (h : Ledger handed system) (hshape : system.Shape tailPlace) (hgrows : system.Grows next)
    (htaken : next.taken = system.taken) (hremoved : ∀ holder, (next.pcs holder).removed? = (system.pcs holder).removed?) :
    Ledger handed next where
  once := h.once
  passed node hnode := (h.passed node hnode).mono hgrows
  kept holder node hholder := h.kept holder node (hremoved holder ▸ hholder)
  single holder other node hholder hother :=
    h.single holder other node (hremoved holder ▸ hholder) (hremoved other ▸ hother)
  behind := by
    rintro node ⟨place, hlt, hplace⟩
    rw [htaken] at hlt
    refine (h.behind node ⟨place, hlt, hshape.of_chain_next hgrows (Nat.le_of_lt hlt) hplace⟩).imp_right ?_
    rintro ⟨holder, hholder⟩
    exact ⟨holder, by rw [hremoved, hholder]⟩

/-- `head` moves on, and the thread that moved it has the node it stood at. -/
theorem Ledger.remove (h : Ledger handed system) (hshape : system.Shape tailPlace) (hgrows : system.Grows next)
    (htaken : next.taken.length = system.taken.length + 1) (hpcs : next.pcs = Function.update system.pcs thread pc')
    (hremoved : (system.pcs thread).removed? = none) (hremoved' : pc'.removed? = some system.head) :
    Ledger handed next where
  once := h.once
  passed node hnode := (h.passed node hnode).mono hgrows
  kept := by
    rw [hpcs, Function.forall_update_iff system.pcs (p := fun _ pc ↦ ∀ node, pc.removed? = some node → node ∉ handed)]
    refine ⟨fun node hnode hmem ↦ ?_, fun holder _ ↦ h.kept holder⟩
    obtain rfl := Option.some.inj (hremoved'.symm.trans hnode)
    exact hshape.not_passed_head (h.passed _ hmem)
  single holder other node := by
    rw [hpcs]
    refine holder_unique_update (H := fun (pc : Pc α) node ↦ pc.removed? = some node)
      (fun holder other node _ _ ↦ h.single holder other node) fun held hheld other _ hother ↦ ?_
    obtain rfl := Option.some.inj (hremoved'.symm.trans hheld)
    exact hshape.not_passed_head (hshape.passed_of_removed hother)
  behind := by
    rintro node ⟨place, hlt, hplace⟩
    rw [htaken] at hlt
    have hold := hshape.of_chain_next hgrows (Nat.le_of_lt_succ hlt) hplace
    rcases Nat.lt_succ_iff_lt_or_eq.mp hlt with hbefore | rfl
    · refine (h.behind node ⟨place, hbefore, hold⟩).imp_right (Exists.imp fun holder hholder ↦ ?_)
      rw [hpcs, Function.update_of_ne, hholder]
      rintro rfl
      cases hremoved.symm.trans hholder
    · obtain rfl := Option.some.inj (hshape.head.symm.trans hold)
      exact .inr ⟨thread, by rw [hpcs, Function.update_self, hremoved']⟩

/-- The thread hands its node to the domain. -/
theorem Ledger.handOver (h : Ledger handed system) (hshape : system.Shape tailPlace) (hgrows : system.Grows next)
    {node : ℕ} (htaken : next.taken = system.taken) (hpcs : next.pcs = Function.update system.pcs thread pc')
    (hremoved : (system.pcs thread).removed? = some node) (hremoved' : pc'.removed? = none) :
    Ledger (handed ++ [node]) next where
  once := List.nodup_append.mpr ⟨h.once, List.nodup_singleton node, by
    rintro other hother _ hlast rfl
    exact h.kept thread node hremoved (List.mem_singleton.mp hlast ▸ hother)⟩
  passed := forall_mem_append_singleton (fun other hother ↦ (h.passed other hother).mono hgrows)
    ((hshape.passed_of_removed hremoved).mono hgrows)
  kept := by
    rw [hpcs, Function.forall_update_iff system.pcs
      (p := fun _ pc ↦ ∀ held, pc.removed? = some held → held ∉ handed ++ [node])]
    refine ⟨fun held hheld ↦ ?_, fun holder hother held hheld ↦ ?_⟩
    · cases hremoved'.symm.trans hheld
    · rw [List.mem_append, List.mem_singleton, not_or]
      refine ⟨h.kept holder held hheld, ?_⟩
      rintro rfl
      exact hother (h.single holder thread held hheld hremoved)
  single holder other held := by
    rw [hpcs]
    refine holder_unique_update (H := fun (pc : Pc α) node ↦ pc.removed? = some node)
      (fun holder other node _ _ ↦ h.single holder other node) fun held hheld ↦ ?_
    cases hremoved'.symm.trans hheld
  behind := by
    rintro held ⟨place, hlt, hplace⟩
    rw [htaken] at hlt
    rw [List.mem_append, List.mem_singleton]
    rcases h.behind held ⟨place, hlt, hshape.of_chain_next hgrows (Nat.le_of_lt hlt) hplace⟩ with hmem | ⟨holder, hholder⟩
    · exact .inl (.inl hmem)
    · by_cases heq : holder = thread
      · subst heq
        exact .inl (.inr (Option.some.inj (hholder.symm.trans hremoved)))
      · exact .inr ⟨holder, by rw [hpcs, Function.update_of_ne heq, hholder]⟩

theorem Transfer.ledger (htransfer : Transfer thread system next pc' shown) (h : Ledger handed system)
    (hshape : system.Shape tailPlace) (hpcs : next.pcs = Function.update system.pcs thread pc') :
    Ledger (handed ++ shown.toList) next := by
  have hgrows := htransfer.grows
  have hstay (htaken : next.taken = system.taken) (hremoved : pc'.removed? = (system.pcs thread).removed?) :
      Ledger (handed ++ []) next := by
    rw [List.append_nil]
    refine h.stay hshape hgrows htaken ?_
    rw [hpcs]
    exact apply_update_of_eq Pc.removed? hremoved
  cases htransfer with
  | stay _ _ htaken _ hremoved | allocate _ _ htaken _ _ hremoved => exact hstay htaken hremoved
  | link _ _ _ htaken _ _ hremoved => exact hstay htaken hremoved
  | remove _ _ htaken _ hremoved hremoved' =>
    rw [Option.toList_none, List.append_nil]
    exact h.remove hshape hgrows htaken hpcs hremoved hremoved'
  | handOver node _ _ htaken _ hremoved hremoved' => exact h.handOver hshape hgrows htaken hpcs hremoved hremoved'

/-! ## Nodes of the domain -/

/-- What a step has to do with the domain: nothing, or it is a step of the domain that brings it what is handed
over. -/
inductive Involves (system : System α) (action : Action α) (next : System α) : Prop
  | nothing (hdomain : next.domain = system.domain) (houtside : system.domain.pcs action.thread = .idle)
      (hnone : handsOver? system action = none)
  | call (call : Hazard.Action ℕ) (hthread : call.thread = action.thread) (halive : ∀ other, call ≠ .exit other)
      (hdomain : Hazard.step system.domain call = some next.domain)
      (hretired : call.retired = (handsOver? system action).toList.map fun node ↦ { ptr := node })
      (hidle : next.pcs action.thread = .idle → handsOver? system action = none)

theorem domain_exchangeTail {spurious : Bool} {expected desired : ℕ} :
    (system.exchangeTail spurious expected desired).domain = system.domain := by
  unfold System.exchangeTail
  split <;> rfl

/-- A call into the domain that hands over nothing. -/
theorem callDomain_involves {op : Op ℕ} {spurious : Bool} (hcall : system.callDomain thread op pc' = some next)
    (hop : (Hazard.Action.call thread op).retired = [])
    (hnone : handsOver? system (.step thread spurious) = none) : Involves system (.step thread spurious) next := by
  obtain ⟨domain, hdomain, rfl⟩ := Option.map_eq_some_iff.mp hcall
  refine .call (.call thread op) rfl (by rintro _ ⟨⟩) hdomain ?_ fun _ ↦ hnone
  rw [hnone, hop]
  rfl

theorem DequeueMove.involves {spurious : Bool} {pc : DequeuePc α} (hmove : system.DequeueMove thread spurious pc next)
    (hpc : system.pcs thread = .dequeue pc) (houtside : system.domain.pcs thread = .idle) :
    Involves system (.step thread spurious) next := by
  have hhanded : handsOver? system (.step thread spurious) = (Pc.dequeue pc).retires? :=
    handsOver?_outside houtside hpc
  cases hmove with
  | constructHead hcall | constructNext hcall | releaseEmpty hcall => exact callDomain_involves hcall rfl hhanded
  | protectHead _ hcall | releaseHead _ hcall => exact callDomain_involves hcall rfl hhanded
  | releaseNext _ _ hcall => exact callDomain_involves hcall rfl hhanded
  | protectNext _ _ _ hcall => exact callDomain_involves hcall rfl hhanded
  | retire currHead result hcall =>
    obtain ⟨domain, hdomain, rfl⟩ := Option.map_eq_some_iff.mp hcall
    refine .call _ rfl (by rintro _ ⟨⟩) hdomain (by rw [hhanded]; rfl) fun hidle ↦ ?_
    cases (Function.update_self ..).symm.trans hidle
  | helpTail => exact .nothing domain_exchangeTail houtside hhanded
  | _ => exact .nothing rfl houtside hhanded

theorem EnqueueMove.domain_eq {spurious : Bool} {pc : EnqueuePc α}
    (hmove : system.EnqueueMove thread spurious pc next) : next.domain = system.domain := by
  cases hmove with
  | swingTail | helpTail => exact domain_exchangeTail
  | _ => rfl

end System

theorem step_involves {system next : System α} {action : Action α} (hstep : step system action = some next) :
    System.Involves system action next := by
  cases stepMove_of_step hstep with
  | callEnqueue thread data hidle houtside | callDequeue thread hidle houtside => exact .nothing rfl houtside rfl
  | maintain thread call domain hidle hdomain =>
    refine .call _ rfl (by rintro _ ⟨⟩) hdomain ?_ fun _ ↦ rfl
    cases call <;> rfl
  | enqueue thread spurious pc hpc houtside hmove =>
    exact .nothing hmove.domain_eq houtside (handsOver?_outside houtside hpc)
  | dequeue thread spurious pc hpc houtside hmove => exact hmove.involves hpc houtside
  | inside thread spurious domain hinside hdomain =>
    have hnone : handsOver? system (.step thread spurious) = none := handsOver?_inside hinside
    refine .call _ rfl (by rintro _ ⟨⟩) hdomain ?_ fun _ ↦ hnone
    rw [hnone]
    rfl

namespace System

/-- The domain has what was handed over, and a call that has still to append its node has not returned. -/
structure Billed (threads : Finset ThreadId) (handed : List ℕ) (system : System α) : Prop where
  orderly : Orderly threads system.domain
  owed : ∀ node, system.domain.stock threads { ptr := node } + system.domain.inCalls threads { ptr := node } =
    handed.count node
  returned : ∀ thread, system.pcs thread = .idle → (system.domain.pcs thread).appending = []

variable {system next : System α} {threads : Finset ThreadId} {handed : List ℕ} {action : Action α} {pc' : Pc α}

theorem billed_create (dummyData : α) : Billed threads [] (create dummyData) where
  orderly := orderly_empty
  owed node := by
    change Domain.stock threads _ {} + Domain.inCalls threads _ {} = 0
    rw [stock_empty]
    simp [Domain.inCalls, Pc.appending]
  returned _ _ := rfl

theorem Involves.billed (hinvolves : Involves system action next) (h : Billed threads handed system)
    (hthread : action.thread ∈ threads) (hpcs : next.pcs = Function.update system.pcs action.thread pc') :
    Billed threads (handed ++ (handsOver? system action).toList) next := by
  have hothers (other : ThreadId) (hne : other ≠ action.thread) (hidle : next.pcs other = .idle) :
      (system.domain.pcs other).appending = [] := by
    rw [hpcs, Function.update_of_ne hne] at hidle
    exact h.returned other hidle
  cases hinvolves with
  | nothing hdomain houtside hnone =>
    rw [hnone, Option.toList_none, List.append_nil]
    refine ⟨hdomain ▸ h.orderly, hdomain ▸ h.owed, fun other hidle ↦ ?_⟩
    rw [hdomain]
    rcases eq_or_ne other action.thread with rfl | hne
    · rw [houtside]
      rfl
    · exact hothers other hne hidle
  | call call hcall halive hdomain hretired hreturns =>
    have hexits : ExitsEmpty system.domain call := by
      cases call with
      | exit other => exact absurd rfl (halive other)
      | _ => trivial
    refine ⟨h.orderly.step (hcall ▸ hthread) hexits hdomain, fun node ↦ ?_, fun other hidle ↦ ?_⟩
    · have howed := owed_of_step h.orderly (hcall ▸ hthread) hexits hdomain { ptr := node }
      have hinjective : Function.Injective fun node : ℕ ↦ ({ ptr := node } : RetiredPtr ℕ) := by
        rintro first second ⟨⟩
        rfl
      rw [hretired, List.count_map_of_injective _ _ hinjective, h.owed node] at howed
      rw [howed, List.count_append]
    · rcases eq_or_ne other action.thread with rfl | hne
      · rw [← hcall, step_appending hdomain, hretired, hreturns hidle]
        rfl
      · obtain ⟨pc, hupdate, -⟩ := step_entryMove hexits hdomain
        rw [hupdate, hcall, Function.update_of_ne hne]
        exact hothers other hne hidle

end System

/-! ## Runs -/

/-- The nodes handed to `RetirePointer` in the run, in order. -/
def handedOver (dummyData : α) (actions : List (Action α)) : List ℕ :=
  collect step handsOver? (System.create dummyData) actions

/-- The threads that act in the run. -/
def actors (actions : List (Action α)) : Finset ThreadId := (actions.map Action.thread).toFinset

theorem ledger_of_run {dummyData : α} {final : System α} {actions : List (Action α)}
    (hrun : run step (System.create dummyData) actions = some final) :
    (∃ tailPlace, final.Shape tailPlace) ∧ final.Accounted ∧
      System.Ledger (handedOver dummyData actions) final ∧
      System.Billed (actors actions) (handedOver dummyData actions) final := by
  have hacting : Meets step (fun _ action ↦ action.thread ∈ actors actions) (System.create dummyData) actions :=
    Meets.of_forall_mem fun action hmem _ ↦ List.mem_toFinset.mpr (List.mem_map_of_mem hmem)
  have hledger := collect_invariant (f := handsOver?)
    (I := fun handed visited ↦ (∃ tailPlace, visited.Shape tailPlace) ∧ visited.Accounted ∧
      System.Ledger handed visited ∧ System.Billed (actors actions) handed visited) ?_ hacting
    ⟨⟨0, System.shape_create dummyData⟩, System.accounted_create dummyData, System.ledger_create dummyData,
      System.billed_create dummyData⟩ hrun
  · rwa [List.nil_append] at hledger
  · rintro handed visited action next ⟨⟨tailPlace, hshape⟩, haccounted, hledger, hbilled⟩ hthread hstep
    obtain ⟨pc', hpcs, htransfer⟩ := step_transfer hstep
    exact ⟨shape_of_step hshape hstep, htransfer.accounted haccounted hpcs, htransfer.ledger hledger hshape hpcs,
      (step_involves hstep).billed hbilled hthread hpcs⟩

/-- When no call is in progress, the nodes are those that `head` has passed and those that it has not. -/
theorem perm_range_of_idle {system : System α} {tailPlace : ℕ} {handed : List ℕ} (hshape : system.Shape tailPlace)
    (haccounted : system.Accounted) (hledger : System.Ledger handed system)
    (hidle : ∀ thread, system.pcs thread = .idle) :
    (handed ++ system.chain.drop system.taken.length).Perm (List.range system.nodes.length) := by
  have hchain (node : ℕ) : node < system.nodes.length ↔ node ∈ system.chain := by
    refine ⟨fun hlt ↦ (haccounted node hlt).resolve_right ?_, fun hmem ↦ ?_⟩
    · rintro ⟨owner, howner⟩
      rw [hidle owner] at howner
      cases howner
    · obtain ⟨place, hplace⟩ := List.mem_iff_getElem?.mp hmem
      exact hshape.lt_nodes hplace
  have hhanded (node : ℕ) : node ∈ handed ↔ system.Passed { ptr := node } := by
    refine ⟨hledger.passed node, fun hpassed ↦ (hledger.behind node hpassed).resolve_right ?_⟩
    rintro ⟨holder, hholder⟩
    rw [hidle holder] at hholder
    cases hholder
  have hnodup : (handed ++ system.chain.drop system.taken.length).Nodup := by
    refine List.nodup_append.mpr ⟨hledger.once, hshape.nodup.drop, ?_⟩
    rintro node hnode _ hmem rfl
    exact ((hhanded node).mp hnode).not_reachable hshape (hshape.reachable_iff.mpr hmem)
  refine (List.perm_ext_iff_of_nodup hnodup List.nodup_range).mpr fun node ↦ ?_
  rw [List.mem_append, List.mem_range, hchain, hhanded, ← hshape.reachable_iff]
  refine ⟨?_, fun hmem ↦ (hshape.reachable_or_passed hmem).symm⟩
  rintro (⟨place, -, hplace⟩ | hreachable)
  · exact List.mem_of_getElem? hplace
  · exact List.mem_of_mem_drop (hshape.reachable_iff.mp hreachable)

/-- Every node has one liberator. In every run a node is handed to `RetirePointer` at most once and cannot be
reached from `head` by then; a node that was linked is reachable, or was handed over, or is in the hands of
the one `dequeue` that has removed it; and when all calls have returned, the nodes that the destructor deletes
and those that the domain has, on a list or deleted, are together all nodes, each of them once. -/
theorem single_liberator {dummyData : α} {final : System α} {actions : List (Action α)}
    (hrun : run step (System.create dummyData) actions = some final) :
    (handedOver dummyData actions).Nodup ∧
      (∀ node ∈ handedOver dummyData actions, ¬final.Reachable node) ∧
      (∀ thread node, (final.pcs thread).removed? = some node → ¬final.Reachable node ∧
        node ∉ handedOver dummyData actions ∧
        ∀ other, (final.pcs other).removed? = some node → other = thread) ∧
      (∀ node ∈ final.chain, final.Reachable node ∨ node ∈ handedOver dummyData actions ∨
        ∃ thread, (final.pcs thread).removed? = some node) ∧
      ((∀ thread, final.pcs thread = .idle) →
        ∃ deleted, final.destroy final.nodes.length = some deleted ∧
          (handedOver dummyData actions ++ deleted).Perm (List.range final.nodes.length) ∧
          ∀ node, final.domain.stock (actors actions) { ptr := node } = (handedOver dummyData actions).count node) := by
  obtain ⟨⟨tailPlace, hshape⟩, haccounted, hledger, hbilled⟩ := ledger_of_run hrun
  refine ⟨hledger.once, fun node hnode ↦ (hledger.passed node hnode).not_reachable hshape, ?_, ?_, fun hidle ↦ ?_⟩
  · intro thread node hnode
    refine ⟨(hshape.passed_of_removed hnode).not_reachable hshape, hledger.kept thread node hnode, ?_⟩
    exact fun other hother ↦ hledger.single other thread node hother hnode
  · exact fun node hmem ↦ (hshape.reachable_or_passed hmem).imp_right (hledger.behind node)
  · refine ⟨_, hshape.destroy_eq, perm_range_of_idle hshape haccounted hledger hidle, fun node ↦ ?_⟩
    have hcalls : final.domain.inCalls (actors actions) { ptr := node } = 0 := by
      refine Finset.sum_eq_zero fun thread _ ↦ ?_
      rw [hbilled.returned thread (hidle thread)]
      rfl
    rw [← hbilled.owed node, hcalls, Nat.add_zero]

/-- A thread that does not act stays idle. -/
theorem pcs_of_run_of_absent {dummyData : α} {final : System α} {actions : List (Action α)} {thread : ThreadId}
    (hrun : run step (System.create dummyData) actions = some final)
    (habsent : ∀ action ∈ actions, action.thread ≠ thread) : final.pcs thread = .idle := by
  have hmeets : Meets step (fun _ action ↦ action.thread ≠ thread) (System.create dummyData) actions :=
    Meets.of_forall_mem fun action hmem _ ↦ habsent action hmem
  refine hmeets.invariant (I := fun visited ↦ visited.pcs thread = .idle) ?_ rfl hrun
  intro visited action next hidle hne hstep
  obtain ⟨pc', hpcs, -⟩ := step_transfer hstep
  rw [hpcs, Function.update_of_ne hne.symm, hidle]

/-- Thread 1 has put in a value, taken it and scanned: the first dummy was handed over, and the destructor
finds the other node. -/
theorem single_liberator_after_scan :
    ∃ final, run step (System.create 0) handOverAndScan = some final ∧ handedOver 0 handOverAndScan = [0] ∧
      final.nodes.length = 2 ∧ ∃ deleted, final.destroy 2 = some deleted ∧ ([0] ++ deleted).Perm (List.range 2) := by
  have hends : (run step (System.create 0) handOverAndScan).map
      (fun final ↦ (final.pcs 1, final.nodes.length)) = some (.idle, 2) := by
    decide +kernel
  have hhanded : handedOver 0 handOverAndScan = [0] := by
    decide +kernel
  obtain ⟨final, hrun, hfinal⟩ := Option.map_eq_some_iff.mp hends
  obtain ⟨hone, hlength⟩ := Prod.mk.inj hfinal
  have hidle (thread : ThreadId) : final.pcs thread = .idle := by
    rcases eq_or_ne thread 1 with rfl | hne
    · exact hone
    · have hactors : ∀ action ∈ handOverAndScan, action.thread = 1 := by decide
      exact pcs_of_run_of_absent hrun fun action hmem heq ↦ hne (heq.symm.trans (hactors action hmem))
  obtain ⟨-, -, -, -, hall⟩ := single_liberator hrun
  obtain ⟨deleted, hdestroy, hperm, -⟩ := hall hidle
  rw [hlength] at hdestroy hperm
  rw [hhanded] at hperm
  exact ⟨final, hrun, hhanded, hlength, deleted, hdestroy, hperm⟩

end TinyReactor.Queue
