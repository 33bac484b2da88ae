import TinyReactor.Hazard.Tenancy
import TinyReactor.Queue.Liberation

/-!
# The protocol of `dequeue`

What protects `dequeue` from a domain that deletes retired nodes whenever it likes, as long as it spares those
that some slot has held since before they were retired. Of the domain nothing is used here but its slots:
`RetirePointer` is a hand-over, and deletions are actions of the environment. The lists of the domain stay
empty, so that its own scans find nothing.

Both pointers that `dequeue` follows are protected first and then checked against `head` again. When the check
succeeds, `curr_head` is the dummy and `next` its successor; neither can have been retired then, because only
nodes that `head` has passed are. So the slot has held the node since before its retirement, and goes on to do
so, since nobody else writes it.
-/

namespace TinyReactor.Queue

open Hazard Transition

variable {α : Type*}

/-- The node whose `next` (line 93) or `data` (line 118) a `dequeue` is about to read. -/
def Pc.reads? : Pc α → Option ℕ
  | .dequeue (.loadNext currHead _) => some currHead
  | .dequeue (.readData _ next) => some next
  | _ => none

/-- The statement after the call of `RetirePointer`. -/
def Pc.afterRetire : Pc α → Pc α
  | .dequeue (.retire _ result) => .dequeue (.returns (some result))
  | pc => pc

/-- The queue over a domain that deletes at will. `kept` lists for each retired node the slots that have held
it without interruption since before it was retired. -/
structure Protocol (α : Type*) where
  system : System α
  retired : List ℕ := []
  kept : ℕ → List ℕ := fun _ ↦ []
  deleted : List ℕ := []

inductive Protocol.Action (α : Type*)
  | queue (action : Queue.Action α)
  | delete (node : ℕ)
  deriving DecidableEq, Repr

namespace Protocol

def create (dummyData : α) : Protocol α where
  system := System.create dummyData

/-- The slots that hold the node. -/
def slotsHolding (domain : Domain ℕ) (node : ℕ) : List ℕ :=
  (List.range domain.slots.length).filter fun slot ↦ domain.hazardAt slot = some node

/-- `RetirePointer(node)`, whatever the domain does with it. -/
def handOver (protocol : Protocol α) (thread : ThreadId) (node : ℕ) : Protocol α :=
  { protocol with
    system := protocol.system.setPc thread (protocol.system.pcs thread).afterRetire
    retired := protocol.retired ++ [node]
    kept := Function.update protocol.kept node (slotsHolding protocol.system.domain node) }

/-- A step of the queue to `next`; slots that no longer hold a retired node are struck off. -/
def observe (protocol : Protocol α) (next : System α) : Protocol α :=
  { protocol with
    system := next
    kept := fun node ↦ (protocol.kept node).filter fun slot ↦ next.domain.hazardAt slot = some node }

/-- The domain may delete a retired node once no slot has held it since before its retirement. -/
def step (protocol : Protocol α) : Action α → Option (Protocol α)
  | .queue action =>
      match handsOver? protocol.system action with
      | some node => some (protocol.handOver action.thread node)
      | none => (Queue.step protocol.system action).map protocol.observe
  | .delete node =>
      if node ∈ protocol.retired ∧ protocol.kept node = [] then
        some { protocol with deleted := protocol.deleted ++ [node] }
      else none

/-! ## What the slots protect -/

/-- The slot keeps the node from being deleted. -/
structure Guards (protocol : Protocol α) (slot node : ℕ) : Prop where
  holds : protocol.system.domain.hazardAt slot = some node
  alive : node ∉ protocol.deleted
  kept : node ∈ protocol.retired → slot ∈ protocol.kept node

end Protocol

/-- The holder has a slot. -/
def Has (domain : Domain ℕ) (holder : HolderId) : Prop := ∃ slot, domain.holders holder = some slot

/-- Where a `dequeue` is in the domain, what its holders have, and what their slots protect. -/
def DequeuePc.Seated (domain : Domain ℕ) (guards : ℕ → ℕ → Prop) (thread : ThreadId) : DequeuePc α → Prop
  | .constructNext => (∃ pc, domain.pcs thread = .acquire (hpHead thread) pc) ∨
      (domain.pcs thread = .idle ∧ Has domain (hpHead thread))
  | .loadHead => Has domain (hpHead thread) ∧
      ((∃ pc, domain.pcs thread = .acquire (hpNext thread) pc) ∨
        (domain.pcs thread = .idle ∧ Has domain (hpNext thread)))
  | .recheckHead currHead => Has domain (hpNext thread) ∧ ∃ slot, domain.holders (hpHead thread) = some slot ∧
      (domain.pcs thread = .protect slot (some currHead) ∨
        (domain.pcs thread = .idle ∧ domain.hazardAt slot = some currHead))
  | .recheckAgain _ _ next => Has domain (hpHead thread) ∧ ∃ slot, domain.holders (hpNext thread) = some slot ∧
      (domain.pcs thread = .protect slot next ∨ (domain.pcs thread = .idle ∧ domain.hazardAt slot = next))
  | .loadTail currHead | .loadNext currHead _ => domain.pcs thread = .idle ∧ Has domain (hpNext thread) ∧
      ∃ slot, domain.holders (hpHead thread) = some slot ∧ guards slot currHead
  | .swingHead _ next | .readData _ next => domain.pcs thread = .idle ∧ Has domain (hpHead thread) ∧
      ∃ slot, domain.holders (hpNext thread) = some slot ∧ guards slot next
  | .protectHead _ | .protectNext _ _ _ | .helpTail _ _ =>
      domain.pcs thread = .idle ∧ Has domain (hpHead thread) ∧ Has domain (hpNext thread)
  | .releaseNext _ => domain.pcs thread = .idle ∨ ∃ pc, domain.pcs thread = .release (hpHead thread) pc none
  | .retire _ _ | .returns none =>
      domain.pcs thread = .idle ∨ ∃ pc, domain.pcs thread = .release (hpNext thread) pc none
  | .constructHead | .releaseHead _ | .returns (some _) => domain.pcs thread = .idle

def Pc.Seated (domain : Domain ℕ) (guards : ℕ → ℕ → Prop) (thread : ThreadId) : Pc α → Prop
  | .idle => (domain.pcs thread).apart = true
  | .enqueue _ => domain.pcs thread = .idle
  | .dequeue pc => pc.Seated domain guards thread

/-- The holder is one of the two of the thread. -/
def Own (thread : ThreadId) (holder : HolderId) : Prop := holder = hpHead thread ∨ holder = hpNext thread

theorem own_unique {thread other holder : ℕ} (h : Own thread holder) (h' : Own other holder) : thread = other := by
  have hthread : holder = 2 * thread ∨ holder = 2 * thread + 1 := h
  have hother : holder = 2 * other ∨ holder = 2 * other + 1 := h'
  omega

section Seated

variable {domain domain' : Domain ℕ} {guards guards' : ℕ → ℕ → Prop} {thread : ThreadId} {pc : Pc α}

/-- What a thread can be doing in the domain. -/
theorem Pc.Seated.inside (h : pc.Seated domain guards thread) :
    (domain.pcs thread).apart = true ∨ ∃ holder, Own thread holder ∧
      ((∃ pc, domain.pcs thread = .acquire holder pc) ∨ (∃ pc, domain.pcs thread = .release holder pc none) ∨
        ∃ slot ptr, domain.pcs thread = .protect slot ptr ∧ domain.holders holder = some slot) := by
  have houtside (hidle : domain.pcs thread = .idle) : (domain.pcs thread).apart = true := by
    rw [hidle]
    rfl
  cases pc with
  | idle => exact .inl h
  | enqueue pc => exact .inl (houtside h)
  | dequeue pc =>
    cases pc with
    | constructNext =>
      rcases h with hpc | ⟨hidle, -⟩
      · exact .inr ⟨_, .inl rfl, .inl hpc⟩
      · exact .inl (houtside hidle)
    | loadHead =>
      rcases h with ⟨-, hpc | ⟨hidle, -⟩⟩
      · exact .inr ⟨_, .inr rfl, .inl hpc⟩
      · exact .inl (houtside hidle)
    | recheckHead currHead =>
      obtain ⟨-, slot, hholder, hpc | ⟨hidle, -⟩⟩ := h
      · exact .inr ⟨_, .inl rfl, .inr (.inr ⟨slot, _, hpc, hholder⟩)⟩
      · exact .inl (houtside hidle)
    | recheckAgain currHead currTail after =>
      obtain ⟨-, slot, hholder, hpc | ⟨hidle, -⟩⟩ := h
      · exact .inr ⟨_, .inr rfl, .inr (.inr ⟨slot, _, hpc, hholder⟩)⟩
      · exact .inl (houtside hidle)
    | releaseNext retired =>
      rcases h with hidle | hpc
      · exact .inl (houtside hidle)
      · exact .inr ⟨_, .inl rfl, .inr (.inl hpc)⟩
    | retire currHead result =>
      rcases h with hidle | hpc
      · exact .inl (houtside hidle)
      · exact .inr ⟨_, .inr rfl, .inr (.inl hpc)⟩
    | returns result =>
      cases result with
      | none =>
        rcases h with hidle | hpc
        · exact .inl (houtside hidle)
        · exact .inr ⟨_, .inr rfl, .inr (.inl hpc)⟩
      | some result => exact .inl (houtside h)
    | constructHead | releaseHead => exact .inl (houtside h)
    | _ => exact .inl (houtside h.1)

/-- A thread that stands still. -/
theorem Pc.Seated.frame (h : pc.Seated domain guards thread) (hpcs : domain'.pcs thread = domain.pcs thread)
    (hholders : ∀ holder, Own thread holder → domain'.holders holder = domain.holders holder)
    (hslots : domain.pcs thread = .idle → ∀ holder slot, Own thread holder → domain.holders holder = some slot →
      domain'.hazardAt slot = domain.hazardAt slot ∧ ∀ node, guards slot node → guards' slot node) :
    pc.Seated domain' guards' thread := by
  have hhead := hholders _ (.inl rfl)
  have hnext := hholders _ (.inr rfl)
  have hhas {holder : HolderId} (hown : Own thread holder) (hhas : Has domain holder) : Has domain' holder := by
    rwa [Has, hholders holder hown]
  cases pc with
  | idle =>
    rw [Pc.Seated, hpcs]
    exact h
  | enqueue pc => exact hpcs.trans h
  | dequeue pc =>
    cases pc with
    | constructNext =>
      rcases h with ⟨pc, hpc⟩ | ⟨hidle, hhead⟩
      · exact .inl ⟨pc, hpcs.trans hpc⟩
      · exact .inr ⟨hpcs.trans hidle, hhas (.inl rfl) hhead⟩
    | loadHead =>
      obtain ⟨hhead, ⟨pc, hpc⟩ | ⟨hidle, hnext⟩⟩ := h
      · exact ⟨hhas (.inl rfl) hhead, .inl ⟨pc, hpcs.trans hpc⟩⟩
      · exact ⟨hhas (.inl rfl) hhead, .inr ⟨hpcs.trans hidle, hhas (.inr rfl) hnext⟩⟩
    | recheckHead currHead =>
      obtain ⟨hother, slot, hslot, hpc | ⟨hidle, hhazard⟩⟩ := h
      · exact ⟨hhas (.inr rfl) hother, slot, hhead.trans hslot, .inl (hpcs.trans hpc)⟩
      · refine ⟨hhas (.inr rfl) hother, slot, hhead.trans hslot, .inr ⟨hpcs.trans hidle, ?_⟩⟩
        rw [(hslots hidle _ slot (.inl rfl) hslot).1, hhazard]
    | recheckAgain currHead currTail after =>
      obtain ⟨hother, slot, hslot, hpc | ⟨hidle, hhazard⟩⟩ := h
      · exact ⟨hhas (.inl rfl) hother, slot, hnext.trans hslot, .inl (hpcs.trans hpc)⟩
      · refine ⟨hhas (.inl rfl) hother, slot, hnext.trans hslot, .inr ⟨hpcs.trans hidle, ?_⟩⟩
        rw [(hslots hidle _ slot (.inr rfl) hslot).1, hhazard]
    | loadTail currHead | loadNext currHead currTail =>
      obtain ⟨hidle, hother, slot, hslot, hguards⟩ := h
      exact ⟨hpcs.trans hidle, hhas (.inr rfl) hother, slot, hhead.trans hslot,
        (hslots hidle _ slot (.inl rfl) hslot).2 _ hguards⟩
    | swingHead currHead after | readData currHead after =>
      obtain ⟨hidle, hother, slot, hslot, hguards⟩ := h
      exact ⟨hpcs.trans hidle, hhas (.inl rfl) hother, slot, hnext.trans hslot,
        (hslots hidle _ slot (.inr rfl) hslot).2 _ hguards⟩
    | protectHead | protectNext | helpTail =>
      obtain ⟨hidle, hhead, hnext⟩ := h
      exact ⟨hpcs.trans hidle, hhas (.inl rfl) hhead, hhas (.inr rfl) hnext⟩
    | releaseNext | retire => exact h.imp hpcs.trans fun ⟨pc, hpc⟩ ↦ ⟨pc, hpcs.trans hpc⟩
    | returns result =>
      cases result with
      | none => exact h.imp hpcs.trans fun ⟨pc, hpc⟩ ↦ ⟨pc, hpcs.trans hpc⟩
      | some result => exact hpcs.trans h
    | constructHead | releaseHead => exact hpcs.trans h

end Seated

namespace System

/-- Every thread is where its program point says, and works on its own holders. -/
structure Housed (tenant : ℕ → Option HolderId) (guards : ℕ → ℕ → Prop) (system : System α) : Prop where
  excludes : system.domain.Excludes
  tenanted : Tenanted tenant system.domain
  seated : ∀ thread, (system.pcs thread).Seated system.domain guards thread

variable {system next : System α} {tenant : ℕ → Option HolderId} {guards guards' : ℕ → ℕ → Prop} {thread : ThreadId}
  {holder : HolderId} {slot : ℕ} {pc' : Pc α}

/-- Only a thread forgets the slot of its own holder. -/
theorem Housed.own_of_forgets (h : system.Housed tenant guards)
    (hforgets : (system.domain.pcs thread).forgets holder = true) : Own thread holder := by
  rcases (h.seated thread).inside with hapart | ⟨own, hown, ⟨pc, hpc⟩ | ⟨pc, hpc⟩ | ⟨slot, ptr, hpc, -⟩⟩
  · cases (Pc.forgets_of_apart hapart holder).symm.trans hforgets
  · rw [hpc] at hforgets
    cases hforgets
  · rw [hpc] at hforgets
    cases pc with
    | clearSlot => rwa [← beq_iff_eq.mp hforgets]
    | _ => cases hforgets
  · rw [hpc] at hforgets
    cases hforgets

/-- The slot of a holder is let to it, until its thread is past giving it back. -/
theorem Housed.lets (h : system.Housed tenant guards) (hown : Own thread holder)
    (hslot : system.domain.holders holder = some slot)
    (hthread : (system.domain.pcs thread).forgets holder = false) : tenant slot = some holder := by
  refine h.tenanted.let_of_free hslot fun user ↦ ?_
  by_contra hforgets
  have hforgets : (system.domain.pcs user).forgets holder = true := Bool.not_eq_false _ ▸ hforgets
  obtain rfl := own_unique (h.own_of_forgets hforgets) hown
  cases hthread.symm.trans hforgets

theorem Housed.own_of_mem (h : system.Housed tenant guards)
    (hmem : holder ∈ (system.domain.pcs thread).holders tenant) : Own thread holder := by
  rcases (h.seated thread).inside with hapart | ⟨own, hown, ⟨pc, hpc⟩ | ⟨pc, hpc⟩ | ⟨slot, ptr, hpc, hslot⟩⟩
  · rw [Pc.holders_of_apart hapart] at hmem
    cases hmem
  · rw [hpc] at hmem
    rwa [List.mem_singleton.mp hmem]
  · rw [hpc] at hmem
    rwa [List.mem_singleton.mp hmem]
  · have hlet := h.lets hown hslot (by rw [hpc]; rfl)
    rw [hpc, Pc.holders, hlet] at hmem
    rwa [List.mem_singleton.mp hmem]

theorem Housed.imp (h : system.Housed tenant guards) (hguards : ∀ slot node, guards slot node → guards' slot node) :
    system.Housed tenant guards' :=
  { h with
    seated := fun thread ↦ (h.seated thread).frame rfl (fun _ _ ↦ rfl) fun _ _ slot _ _ ↦ ⟨rfl, hguards slot⟩ }

/-- A step outside the domain. -/
theorem Housed.stay (h : system.Housed tenant guards) (hdomain : next.domain = system.domain)
    (hpcs : next.pcs = Function.update system.pcs thread pc')
    (hguards : ∀ slot node, guards slot node → guards' slot node)
    (hseated : pc'.Seated system.domain guards' thread) : next.Housed tenant guards' := by
  refine ⟨hdomain ▸ h.excludes, hdomain ▸ h.tenanted, ?_⟩
  rw [hpcs, hdomain, Function.forall_update_iff system.pcs (p := fun other pc ↦ pc.Seated system.domain guards' other)]
  exact ⟨hseated, fun other _ ↦ (h.imp hguards).seated other⟩

/-- A step of the domain in which the thread works on its own holders. -/
theorem Housed.step (h : system.Housed tenant guards) {call : Hazard.Action ℕ}
    (hstep : Hazard.step system.domain call = some next.domain) (halive : ∀ other, call ≠ .exit other)
    (hcall : ∀ op, call = .call call.thread op → ∀ holder ∈ op.holders, Own call.thread holder)
    (hpcs : next.pcs = Function.update system.pcs call.thread pc')
    (hguards : ∀ slot node, next.domain.hazardAt slot = system.domain.hazardAt slot → guards slot node →
      guards' slot node)
    (hseated : ∀ tenant', (∀ holder, holder ∉ worksOn tenant system.domain call →
      Untouched tenant tenant' system.domain next.domain holder) → pc'.Seated next.domain guards' call.thread) :
    ∃ tenant', next.Housed tenant' guards' := by
  have hworks (holder : HolderId) (hmem : holder ∈ worksOn tenant system.domain call) : Own call.thread holder := by
    cases call with
    | call thread op => exact hcall op rfl holder hmem
    | step thread => exact h.own_of_mem hmem
    | exit thread => exact absurd rfl (halive thread)
  have hone : OneUser tenant system.domain call := by
    cases call with
    | call thread op =>
      intro holder hmem other hmem'
      obtain rfl := own_unique (h.own_of_mem hmem') (hworks holder hmem)
      rw [(enter_of_call hstep).1] at hmem'
      cases hmem'
    | step | exit => trivial
  have hexits : ExitsEmpty system.domain call := by
    cases call with
    | exit other => exact absurd rfl (halive other)
    | _ => trivial
  obtain ⟨tenant', htenanted, huntouched⟩ := tenanted_of_step h.tenanted h.excludes hone hstep
  obtain ⟨pc, hupdate, -⟩ := step_entryMove hexits hstep
  refine ⟨tenant', h.excludes.step hstep, htenanted, ?_⟩
  rw [hpcs, Function.forall_update_iff system.pcs (p := fun other pc ↦ pc.Seated next.domain guards' other)]
  refine ⟨hseated tenant' huntouched, fun other hother ↦ ?_⟩
  have hothers (holder : HolderId) (hown : Own other holder) :
      Untouched tenant tenant' system.domain next.domain holder :=
    huntouched holder fun hmem ↦ hother (own_unique hown (hworks holder hmem))
  refine (h.seated other).frame (by rw [hupdate, Function.update_of_ne hother])
    (fun holder hown ↦ (hothers holder hown).holders) fun hidle holder slot hown hslot ↦ ?_
  have hlet := h.lets hown hslot (by rw [hidle]; rfl)
  have hhazard := ((hothers holder hown).slots slot hlet).2
  exact ⟨hhazard, fun node ↦ hguards slot node hhazard⟩

/-- The successor of the dummy is still in the queue. -/
theorem Shape.not_passed_after {tailPlace place after : ℕ} (h : system.Shape tailPlace)
    (hfollows : system.Follows place system.head (some after)) : ¬system.Passed { ptr := after } := by
  rintro ⟨other, hlt, hother⟩
  obtain rfl := h.place_unique hfollows.1 h.head
  have hsame := h.place_unique hother (hfollows.2 after rfl)
  omega

/-! ## Calls into the domain -/

theorem Housed.callDomain (h : system.Housed tenant guards) {op : Op ℕ}
    (hcall : system.callDomain thread op pc' = some next) (hop : ∀ holder ∈ op.holders, Own thread holder)
    (hguards : ∀ slot node, next.domain.hazardAt slot = system.domain.hazardAt slot → guards slot node →
      guards' slot node)
    (hseated : ∀ domain, system.domain.enter thread op = some domain → pc'.Seated domain guards' thread) :
    ∃ tenant', next.Housed tenant' guards' := by
  obtain ⟨domain, hdomain, rfl⟩ := Option.map_eq_some_iff.mp hcall
  refine h.step hdomain (by rintro _ ⟨⟩) ?_ rfl hguards fun _ _ ↦ hseated domain (enter_of_call hdomain).2
  rintro _ ⟨⟩
  exact hop

/-- The constructor of a holder. -/
theorem enter_construct {domain domain' : Domain ℕ} (h : domain.enter thread (.construct holder) = some domain') :
    domain' = domain.setPc thread (.acquire holder .lock) := by
  simp only [Domain.enter] at h
  split at h <;> cases h
  rfl

/-- `protect` through a holder that has a slot. -/
theorem enter_protect {domain domain' : Domain ℕ} {ptr : Option ℕ} (hslot : domain.holders holder = some slot)
    (h : domain.enter thread (.protect holder ptr) = some domain') :
    domain' = domain.setPc thread (.protect slot ptr) := by
  cases h
  rw [hslot, Option.elim_some]

theorem enter_release {domain domain' : Domain ℕ} (h : domain.enter thread (.release holder) = some domain') :
    domain'.pcs thread = .idle ∨ ∃ pc, domain'.pcs thread = .release holder pc none := by
  cases h
  rw [Domain.setPc_pcs_self, Domain.enterRelease]
  cases domain.holders holder with
  | none => exact .inl rfl
  | some slot => exact .inr ⟨_, rfl⟩

theorem EnqueueMove.housed {spurious : Bool} {pc : EnqueuePc α} (hmove : system.EnqueueMove thread spurious pc next)
    (h : system.Housed tenant guards) (houtside : system.domain.pcs thread = .idle)
    (hguards : ∀ slot node, next.domain.hazardAt slot = system.domain.hazardAt slot → guards slot node →
      guards' slot node) : next.Housed tenant guards' := by
  have hdomain := hmove.domain_eq
  have hguards' (slot node : ℕ) : guards slot node → guards' slot node :=
    hguards slot node (congrArg (Domain.hazardAt · slot) hdomain)
  cases hmove with
  | swingTail | helpTail =>
    exact h.stay hdomain (congrArg (Function.update · thread _) pcs_exchangeTail) hguards' houtside
  | returns =>
    refine h.stay hdomain rfl hguards' ?_
    rw [Pc.Seated, houtside]
    rfl
  | _ => exact h.stay hdomain rfl hguards' houtside

/-- A statement of `dequeue` other than the call of `RetirePointer`. A slot guards what it holds as long as `head`
has not passed it. -/
theorem DequeueMove.housed {spurious : Bool} {pc : DequeuePc α} {tailPlace : ℕ}
    (hmove : system.DequeueMove thread spurious pc next) (h : system.Housed tenant guards)
    (hshape : system.Shape tailPlace) (hpc : system.pcs thread = .dequeue pc)
    (houtside : system.domain.pcs thread = .idle) (hretires : (Pc.dequeue pc).retires? = none)
    (hguards : ∀ slot node, next.domain.hazardAt slot = system.domain.hazardAt slot → guards slot node →
      guards' slot node)
    (hfresh : ∀ slot node, ¬system.Passed { ptr := node } → next.domain.hazardAt slot = some node →
      guards' slot node) :
    ∃ tenant', next.Housed tenant' guards' := by
  have hseated := h.seated thread
  have hplaced := hshape.placed thread
  rw [hpc] at hseated hplaced
  have hstay {pc' : Pc α} (hdomain : next.domain = system.domain)
      (hpcs : next.pcs = Function.update system.pcs thread pc') (hseated' : pc'.Seated system.domain guards' thread) :
      ∃ tenant', next.Housed tenant' guards' :=
    ⟨tenant, h.stay hdomain hpcs (fun slot node ↦ hguards slot node (congrArg (Domain.hazardAt · slot) hdomain)) hseated'⟩
  -- the thread is outside the domain
  have hbusy {pc : Hazard.Pc ℕ} (hpc : system.domain.pcs thread = pc) (hne : pc ≠ .idle) : False :=
    hne (hpc.symm.trans houtside)
  cases hmove with
  | constructHead hcall =>
    refine h.callDomain hcall (by simp [Op.holders, Own]) hguards fun domain hdomain ↦ ?_
    rw [enter_construct hdomain]
    exact .inl ⟨.lock, Domain.setPc_pcs_self _⟩
  | constructNext hcall =>
    obtain ⟨-, hhead⟩ := hseated.resolve_left fun ⟨_, hpc⟩ ↦ hbusy hpc nofun
    refine h.callDomain hcall (by simp [Op.holders, Own]) hguards fun domain hdomain ↦ ?_
    rw [enter_construct hdomain]
    exact ⟨hhead, .inl ⟨.lock, Domain.setPc_pcs_self _⟩⟩
  | loadHead =>
    obtain ⟨hhead, hnext⟩ := hseated
    obtain ⟨-, hnext⟩ := hnext.resolve_left fun ⟨_, hpc⟩ ↦ hbusy hpc nofun
    exact hstay rfl rfl ⟨houtside, hhead, hnext⟩
  | protectHead currHead hcall =>
    obtain ⟨-, ⟨slot, hslot⟩, hnext⟩ := hseated
    refine h.callDomain hcall (by simp [Op.holders, Own]) hguards fun domain hdomain ↦ ?_
    rw [enter_protect hslot hdomain]
    exact ⟨hnext, slot, hslot, .inl (Domain.setPc_pcs_self _)⟩
  | confirmed =>
    obtain ⟨hnext, slot, hslot, hhazard⟩ := hseated
    obtain ⟨-, hhazard⟩ := hhazard.resolve_left fun hpc ↦ hbusy hpc nofun
    exact hstay rfl rfl ⟨houtside, hnext, slot, hslot, hfresh slot _ hshape.not_passed_head hhazard⟩
  | moved currHead =>
    obtain ⟨hnext, slot, hslot, -⟩ := hseated
    exact hstay rfl rfl ⟨⟨slot, hslot⟩, .inr ⟨houtside, hnext⟩⟩
  | loadTail currHead =>
    obtain ⟨-, hnext, slot, hslot, hguard⟩ := hseated
    exact hstay rfl rfl ⟨houtside, hnext, slot, hslot, hguards slot _ rfl hguard⟩
  | loadNext currHead currTail =>
    obtain ⟨-, hnext, slot, hslot, -⟩ := hseated
    exact hstay rfl rfl ⟨houtside, ⟨slot, hslot⟩, hnext⟩
  | protectNext currHead currTail after hcall =>
    obtain ⟨-, hhead, ⟨slot, hslot⟩⟩ := hseated
    refine h.callDomain hcall (by simp [Op.holders, Own]) hguards fun domain hdomain ↦ ?_
    rw [enter_protect hslot hdomain]
    exact ⟨hhead, slot, hslot, .inl (Domain.setPc_pcs_self _)⟩
  | empty currTail => exact hstay rfl rfl houtside
  | behind after =>
    obtain ⟨hhead, slot, hslot, -⟩ := hseated
    exact hstay rfl rfl ⟨houtside, hhead, slot, hslot⟩
  | ready currTail after =>
    obtain ⟨hhead, slot, hslot, hhazard⟩ := hseated
    obtain ⟨-, hhazard⟩ := hhazard.resolve_left fun hpc ↦ hbusy hpc nofun
    obtain ⟨place, -, hfollows, -⟩ := hplaced
    exact hstay rfl rfl ⟨houtside, hhead, slot, hslot, hfresh slot after (hshape.not_passed_after hfollows) hhazard⟩
  | movedAgain currHead currTail after =>
    obtain ⟨hhead, slot, hslot, -⟩ := hseated
    exact hstay rfl rfl ⟨hhead, .inr ⟨houtside, slot, hslot⟩⟩
  | helpTail currTail after =>
    obtain ⟨-, hhead, hnext⟩ := hseated
    exact hstay domain_exchangeTail (congrArg (Function.update · thread _) pcs_exchangeTail)
      ⟨hhead, .inr ⟨houtside, hnext⟩⟩
  | unlink after =>
    obtain ⟨-, hhead, slot, hslot, hguard⟩ := hseated
    exact hstay rfl rfl ⟨houtside, hhead, slot, hslot, hguards slot _ rfl hguard⟩
  | retry currHead after =>
    obtain ⟨-, hhead, slot, hslot, -⟩ := hseated
    exact hstay rfl rfl ⟨hhead, .inr ⟨houtside, slot, hslot⟩⟩
  | readData currHead after => exact hstay rfl rfl houtside
  | releaseHead retired hcall =>
    exact h.callDomain hcall (by simp [Op.holders, Own]) hguards fun domain hdomain ↦ enter_release hdomain
  | releaseEmpty hcall =>
    exact h.callDomain hcall (by simp [Op.holders, Own]) hguards fun domain hdomain ↦ enter_release hdomain
  | releaseNext currHead result hcall =>
    exact h.callDomain hcall (by simp [Op.holders, Own]) hguards fun domain hdomain ↦ enter_release hdomain
  | retire => cases hretires
  | returns result =>
    refine hstay rfl rfl ?_
    rw [Pc.Seated, houtside]
    rfl

/-! ## Steps inside the domain -/

section Inside

variable {domain domain' : Domain ℕ}

theorem acquire_inside {pc : AcquirePc} (hpc : domain.pcs thread = .acquire holder pc)
    (hstep : Hazard.step domain (.step thread) = some domain') :
    (∃ pc', domain'.pcs thread = .acquire holder pc') ∨ (domain'.pcs thread = .idle ∧ Has domain' holder) := by
  rw [Hazard.step, hpc] at hstep
  cases Domain.acquireMove_of_step hstep with
  | unlock slot => exact .inr ⟨Domain.setPc_pcs_self _, slot, Function.update_self ..⟩
  | _ => exact .inl ⟨_, Domain.setPc_pcs_self _⟩

theorem release_inside {pc : ReleasePc} (hpc : domain.pcs thread = .release holder pc none)
    (hstep : Hazard.step domain (.step thread) = some domain') :
    domain'.pcs thread = .idle ∨ ∃ pc', domain'.pcs thread = .release holder pc' none := by
  rw [Hazard.step, hpc] at hstep
  cases hstep
  cases pc with
  | clearSlot => exact .inl (Domain.setPc_pcs_self _)
  | _ => exact .inr ⟨_, Domain.setPc_pcs_self _⟩

theorem protect_inside {ptr : Option ℕ} (hpc : domain.pcs thread = .protect slot ptr)
    (hlt : slot < domain.slots.length) (hstep : Hazard.step domain (.step thread) = some domain') :
    domain'.pcs thread = .idle ∧ domain'.hazardAt slot = ptr ∧ domain'.holders = domain.holders := by
  rw [Hazard.step, hpc] at hstep
  cases hstep
  refine ⟨Domain.setPc_pcs_self _, ?_, rfl⟩
  change (domain.slots.modify slot _)[slot]?.bind _ = ptr
  rw [getElem?_modify_of_getElem? (List.getElem?_eq_getElem hlt), if_pos rfl]
  rfl

/-- A thread that works on no holder goes on without one. -/
theorem apart_inside (hapart : (domain.pcs thread).apart = true)
    (hstep : Hazard.step domain (.step thread) = some domain') : (domain'.pcs thread).apart = true := by
  have hne : domain.pcs thread ≠ .idle := by
    intro hidle
    rw [Hazard.step, hidle] at hstep
    cases hstep
  obtain ⟨pc', hpcs, hmove⟩ := Domain.advance_holderMove (fun _ ↦ none) hstep
  rw [hpcs, Function.update_self]
  generalize Pc.holders _ (domain.pcs thread) = working at hmove
  generalize domain.pcs thread = pc at hapart hne hmove
  cases hmove with
  | apart _ hapart' => exact hapart'
  | pass hpc =>
    rcases hpc with rfl | ⟨hidle, -⟩
    · cases hapart
    · exact absurd hidle hne
  | enterAcquire | enterRelease | enterTake | enterProtect => exact absurd rfl hne
  | _ => cases hapart

end Inside

theorem Housed.inside (h : system.Housed tenant guards) {domain : Domain ℕ}
    (hinside : system.domain.pcs thread ≠ .idle) (hdomain : Hazard.step system.domain (.step thread) = some domain)
    (hguards : ∀ slot node, domain.hazardAt slot = system.domain.hazardAt slot → guards slot node →
      guards' slot node) :
    ∃ tenant', ({ system with domain := domain } : System α).Housed tenant' guards' := by
  refine h.step hdomain (by rintro _ ⟨⟩) (by rintro _ ⟨⟩) (Function.update_eq_self ..).symm hguards
    fun tenant' huntouched ↦ ?_
  have hseated := h.seated thread
  -- the slot of a pending `protect` exists
  have hlt {holder : HolderId} {slot : ℕ} {ptr : Option ℕ} (hown : Own thread holder)
      (hpc : system.domain.pcs thread = .protect slot ptr) (hslot : system.domain.holders holder = some slot) :
      slot < system.domain.slots.length := by
    obtain ⟨entry, hentry, -⟩ := h.tenanted.owned slot holder (h.lets hown hslot (by rw [hpc]; rfl))
    exact lt_length_of_getElem? hentry
  change (system.pcs thread).Seated domain guards' thread
  cases hpc : system.pcs thread with
  | idle =>
    rw [hpc] at hseated
    exact apart_inside hseated hdomain
  | enqueue pc =>
    rw [hpc] at hseated
    exact absurd hseated hinside
  | dequeue pc =>
    rw [hpc] at hseated
    cases pc with
    | constructNext =>
      obtain ⟨pc, hpc⟩ := hseated.resolve_right fun hidle ↦ hinside hidle.1
      exact acquire_inside hpc hdomain
    | loadHead =>
      obtain ⟨hhead, hnext⟩ := hseated
      obtain ⟨pc, hpc⟩ := hnext.resolve_right fun hidle ↦ hinside hidle.1
      refine ⟨?_, acquire_inside hpc hdomain⟩
      have hne : hpHead thread ∉ worksOn tenant system.domain (.step thread) := by
        rw [worksOn, hpc, Pc.holders, List.mem_singleton]
        exact Nat.ne_of_lt (Nat.lt_succ_self (2 * thread))
      rwa [Has, (huntouched _ hne).holders]
    | recheckHead currHead =>
      obtain ⟨hnext, slot, hslot, hpc⟩ := hseated
      replace hpc := hpc.resolve_right fun hidle ↦ hinside hidle.1
      obtain ⟨hidle, hhazard, hholders⟩ := protect_inside hpc (hlt (.inl rfl) hpc hslot) hdomain
      refine ⟨?_, slot, hholders ▸ hslot, .inr ⟨hidle, hhazard⟩⟩
      rwa [Has, hholders]
    | recheckAgain currHead currTail after =>
      obtain ⟨hhead, slot, hslot, hpc⟩ := hseated
      replace hpc := hpc.resolve_right fun hidle ↦ hinside hidle.1
      obtain ⟨hidle, hhazard, hholders⟩ := protect_inside hpc (hlt (.inr rfl) hpc hslot) hdomain
      refine ⟨?_, slot, hholders ▸ hslot, .inr ⟨hidle, hhazard⟩⟩
      rwa [Has, hholders]
    | releaseNext retired | retire currHead result =>
      obtain ⟨pc, hpc⟩ := hseated.resolve_left hinside
      exact release_inside hpc hdomain
    | returns result =>
      cases result with
      | none =>
        obtain ⟨pc, hpc⟩ := hseated.resolve_left hinside
        exact release_inside hpc hdomain
      | some result => exact absurd hseated hinside
    | constructHead | releaseHead => exact absurd hseated hinside
    | _ => exact absurd hseated.1 hinside

end System

/-! ## Runs -/

theorem handsOver?_eq_some {system : System α} {action : Action α} {node : ℕ} (h : handsOver? system action = some node) :
    ∃ thread spurious result, action = .step thread spurious ∧ system.domain.pcs thread = .idle ∧
      system.pcs thread = .dequeue (.retire node result) := by
  cases action with
  | step thread spurious =>
    rw [handsOver?] at h
    split at h
    · rename_i houtside
      cases hpc : system.pcs thread with
      | dequeue pc =>
        rw [hpc] at h
        cases pc with
        | retire currHead result =>
          cases h
          exact ⟨thread, spurious, result, rfl, houtside, hpc⟩
        | _ => cases h
      | _ =>
        rw [hpc] at h
        cases h
    · cases h
  | _ => cases h

namespace Protocol

variable {protocol next : Protocol α} {tenant : ℕ → Option HolderId}

/-- The invariant: nodes are retired behind `head` and deleted when retired, and every `dequeue` protects what it
is about to read. -/
structure Safe (tenant : ℕ → Option HolderId) (protocol : Protocol α) : Prop where
  shape : ∃ tailPlace, protocol.system.Shape tailPlace
  housed : protocol.system.Housed tenant protocol.Guards
  passed : ∀ node ∈ protocol.retired, protocol.system.Passed { ptr := node }
  deleted : ∀ node ∈ protocol.deleted, node ∈ protocol.retired

theorem safe_create (dummyData : α) : Safe (fun _ ↦ none) (create dummyData) where
  shape := ⟨0, System.shape_create dummyData⟩
  housed := ⟨excludes_empty, tenanted_empty, fun _ ↦ rfl⟩
  passed := List.forall_mem_nil _
  deleted := List.forall_mem_nil _

/-- A slot that goes on to hold the node goes on to guard it. -/
theorem Guards.observe {slot node : ℕ} {system : System α} (h : protocol.Guards slot node)
    (hhazard : system.domain.hazardAt slot = protocol.system.domain.hazardAt slot) :
    (protocol.observe system).Guards slot node := by
  have hholds : system.domain.hazardAt slot = some node := hhazard.trans h.holds
  refine ⟨hholds, h.alive, fun hretired ↦ ?_⟩
  exact List.mem_filter.mpr ⟨h.kept hretired, decide_eq_true hholds⟩

theorem Guards.delete {slot node deleted : ℕ} (h : protocol.Guards slot node) (hretired : deleted ∈ protocol.retired)
    (hkept : protocol.kept deleted = []) :
    ({ protocol with deleted := protocol.deleted ++ [deleted] } : Protocol α).Guards slot node := by
  refine ⟨h.holds, ?_, h.kept⟩
  rw [List.mem_append, List.mem_singleton, not_or]
  refine ⟨h.alive, ?_⟩
  rintro rfl
  have hmem := h.kept hretired
  rw [hkept] at hmem
  cases hmem

/-- The slots that hold a node when it is retired are those that the domain has to respect. -/
theorem Guards.handOver {slot node retired : ℕ} {thread : ThreadId} (h : protocol.Guards slot node) :
    (protocol.handOver thread retired).Guards slot node := by
  refine ⟨h.holds, h.alive, fun hmem ↦ ?_⟩
  rcases eq_or_ne node retired with rfl | hne
  · change slot ∈ Function.update protocol.kept node _ node
    rw [Function.update_self]
    obtain ⟨entry, hentry, -⟩ := Option.bind_eq_some_iff.mp h.holds
    exact List.mem_filter.mpr ⟨List.mem_range.mpr (lt_length_of_getElem? hentry), decide_eq_true h.holds⟩
  · change slot ∈ Function.update protocol.kept retired _ node
    rw [Function.update_of_ne hne]
    refine h.kept ((List.mem_append.mp hmem).resolve_right fun hlast ↦ hne (List.mem_singleton.mp hlast))

theorem Safe.queue (h : Safe tenant protocol) {action : Queue.Action α} {system : System α}
    (hnone : handsOver? protocol.system action = none) (hstep : Queue.step protocol.system action = some system) :
    ∃ tenant', Safe tenant' (protocol.observe system) := by
  obtain ⟨tailPlace, hshape⟩ := h.shape
  obtain ⟨pc', hpcs, htransfer⟩ := step_transfer hstep
  have hguards (slot node : ℕ) (hhazard : system.domain.hazardAt slot = protocol.system.domain.hazardAt slot)
      (hguard : protocol.Guards slot node) : (protocol.observe system).Guards slot node :=
    hguard.observe hhazard
  have hfresh (slot node : ℕ) (hpassed : ¬protocol.system.Passed { ptr := node })
      (hholds : system.domain.hazardAt slot = some node) : (protocol.observe system).Guards slot node :=
    ⟨hholds, fun hmem ↦ hpassed (h.passed node (h.deleted node hmem)), fun hmem ↦ absurd (h.passed node hmem) hpassed⟩
  suffices hhoused : ∃ tenant', system.Housed tenant' (protocol.observe system).Guards by
    obtain ⟨tenant', hhoused⟩ := hhoused
    exact ⟨tenant', shape_of_step hshape hstep, hhoused, fun node hmem ↦ (h.passed node hmem).mono htransfer.grows,
      h.deleted⟩
  cases stepMove_of_step hstep with
  | callEnqueue thread data hidle houtside =>
    exact ⟨tenant, h.housed.stay rfl rfl (fun slot node ↦ hguards slot node rfl) houtside⟩
  | callDequeue thread hidle houtside =>
    exact ⟨tenant, h.housed.stay rfl rfl (fun slot node ↦ hguards slot node rfl) houtside⟩
  | maintain thread call domain hidle hdomain =>
    refine h.housed.step hdomain (by rintro _ ⟨⟩) ?_ (Function.update_eq_self ..).symm hguards fun _ _ ↦ ?_
    · rintro _ ⟨⟩
      cases call <;> exact List.forall_mem_nil _
    · change (protocol.system.pcs thread).Seated domain _ thread
      rw [hidle, Pc.Seated]
      have henter := (enter_of_call hdomain).2
      cases call <;> cases henter <;> rw [Domain.setPc_pcs_self] <;> rfl
  | enqueue thread spurious pc hpc houtside hmove => exact ⟨tenant, hmove.housed h.housed houtside hguards⟩
  | dequeue thread spurious pc hpc houtside hmove =>
    rw [handsOver?_outside houtside hpc] at hnone
    exact hmove.housed h.housed hshape hpc houtside hnone hguards hfresh
  | inside thread spurious domain hinside hdomain => exact h.housed.inside hinside hdomain hguards

/-- The call of `RetirePointer`. -/
theorem Safe.handOver (h : Safe tenant protocol) {thread : ThreadId} {node : ℕ} {result : α}
    (houtside : protocol.system.domain.pcs thread = .idle)
    (hpc : protocol.system.pcs thread = .dequeue (.retire node result)) : Safe tenant (protocol.handOver thread node) := by
  obtain ⟨tailPlace, hshape⟩ := h.shape
  have hafter : (protocol.system.pcs thread).afterRetire = .dequeue (.returns (some result)) := by
    rw [hpc]
    rfl
  refine ⟨⟨tailPlace, hshape.setPc ?_ ?_⟩, h.housed.stay rfl rfl (fun slot node hguard ↦ hguard.handOver) ?_, ?_,
    fun node hmem ↦ List.mem_append_left _ (h.deleted node hmem)⟩
  · rw [hafter]
    trivial
  · rw [hafter]
    nofun
  · rw [hafter]
    exact houtside
  · have hremoved : (protocol.system.pcs thread).removed? = some node := by
      rw [hpc]
      rfl
    exact forall_mem_append_singleton h.passed (hshape.passed_of_removed hremoved)

theorem Safe.step (h : Safe tenant protocol) {action : Action α} (hstep : protocol.step action = some next) :
    ∃ tenant', Safe tenant' next := by
  cases action with
  | queue action =>
    rw [Protocol.step] at hstep
    split at hstep
    · rename_i node hhanded
      cases hstep
      obtain ⟨thread, spurious, result, rfl, houtside, hpc⟩ := handsOver?_eq_some hhanded
      exact ⟨tenant, h.handOver houtside hpc⟩
    · rename_i hnone
      obtain ⟨system, hsystem, rfl⟩ := Option.map_eq_some_iff.mp hstep
      exact h.queue hnone hsystem
  | delete node =>
    rw [Protocol.step] at hstep
    split at hstep
    · rename_i hdelete
      cases hstep
      refine ⟨tenant, h.shape, h.housed.imp ?_, h.passed, forall_mem_append_singleton h.deleted hdelete.1⟩
      exact fun slot node hguard ↦ hguard.delete hdelete.1 hdelete.2
    · cases hstep

theorem safe_of_run {dummyData : α} {final : Protocol α} {actions : List (Action α)}
    (hrun : run Protocol.step (create dummyData) actions = some final) : ∃ tenant, Safe tenant final := by
  refine run_invariant (I := fun protocol ↦ ∃ tenant, Safe tenant protocol) ?_ ⟨_, safe_create dummyData⟩ hrun
  rintro protocol action next ⟨tenant, h⟩ hstep
  exact h.step hstep

theorem Safe.alive (h : Safe tenant protocol) {thread : ThreadId} {node : ℕ}
    (hreads : (protocol.system.pcs thread).reads? = some node) : node ∉ protocol.deleted := by
  have hseated := h.housed.seated thread
  cases hpc : protocol.system.pcs thread with
  | dequeue pc =>
    rw [hpc] at hseated hreads
    cases pc with
    | loadNext currHead currTail =>
      cases hreads
      obtain ⟨-, -, slot, -, hguard⟩ := hseated
      exact hguard.alive
    | readData currHead after =>
      cases hreads
      obtain ⟨-, -, slot, -, hguard⟩ := hseated
      exact hguard.alive
    | _ => cases hreads
  | _ =>
    rw [hpc] at hreads
    cases hreads

end Protocol

/-- Whatever a domain deletes that respects the slots as it has to, whenever a `dequeue` is about to read
`curr_head->next` or `next->data`, the node has not been deleted. -/
theorem dequeue_reads_alive {dummyData : α} {final : Protocol α} {actions : List (Protocol.Action α)}
    (hrun : run Protocol.step (Protocol.create dummyData) actions = some final) (thread : ThreadId) (node : ℕ)
    (hreads : (final.system.pcs thread).reads? = some node) : node ∉ final.deleted := by
  obtain ⟨tenant, h⟩ := Protocol.safe_of_run hrun
  exact h.alive hreads

/-- Thread 1 puts in two values and takes the first, and the node it retires is deleted. Thread 0 begins to take
the second and has protected its `curr_head`; then thread 1 takes it and retires that node. -/
def retireUnderReader : List (Protocol.Action ℕ) :=
  [.queue (.enqueue 1 7)] ++ List.replicate 7 (.queue (.step 1 false)) ++ [.queue (.enqueue 1 8)] ++
    List.replicate 7 (.queue (.step 1 false)) ++ [.queue (.dequeue 1)] ++ List.replicate 39 (.queue (.step 1 false)) ++
    [.delete 0] ++ [.queue (.dequeue 0)] ++ List.replicate 19 (.queue (.step 0 false)) ++ [.queue (.dequeue 1)] ++
    List.replicate 47 (.queue (.step 1 false))

theorem dequeue_reads_alive_retired :
    ∃ final, run Protocol.step (Protocol.create 0) retireUnderReader = some final ∧ final.retired = [0, 1] ∧
      final.deleted = [0] ∧ final.step (.delete 1) = none ∧ (final.system.pcs 0).reads? = some 1 ∧
      1 ∉ final.deleted := by
  have hends : (run Protocol.step (Protocol.create 0) retireUnderReader).map
      (fun final ↦ (final.retired, final.deleted, final.kept 1, (final.system.pcs 0).reads?)) =
        some ([0, 1], [0], [1], some 1) := by
    decide +kernel
  obtain ⟨final, hrun, hfinal⟩ := Option.map_eq_some_iff.mp hends
  simp only [Prod.mk.injEq] at hfinal
  obtain ⟨hretired, hdeleted, hkept, hreads⟩ := hfinal
  refine ⟨final, hrun, hretired, hdeleted, ?_, hreads, dequeue_reads_alive hrun 0 1 hreads⟩
  rw [Protocol.step, if_neg]
  rintro ⟨-, hnone⟩
  cases hkept.symm.trans hnone

end TinyReactor.Queue
