import TinyReactor.Hazard.Tenancy

/-!
# Slots are exclusive and clean

What the users of `HazPtrHolder` see, while each holder is used by one thread at a time: two holders never
share a slot, a slot without owner protects nothing, and `get` answers with what was last protected through
the slot since it was acquired. A holder that is inside `release` is in use, and nobody else may ask it.

The past stands nowhere in the program, so a run is observed by its events: the claim or the allocation of a
slot, the store of `protect`, and the ends of the calls that give a holder its slot or take it away.
-/

namespace TinyReactor.Hazard

open Transition

variable {π : Type*}

/-! ## Users -/

/-- The thread is in the middle of a call on the holder; a `protect` is known by the slot it writes. -/
def Pc.uses (holders : HolderId → Option ℕ) (holder : HolderId) : Pc π → Bool
  | .acquire other _ => other = holder
  | .release other _ source => other = holder || source = some holder
  | .take other source => other = holder || source = holder
  | .protect slot _ => holders holder = some slot
  | _ => false

/-- A thread calls a holder only while no other thread is in the middle of a call on it. -/
def SoleUser (domain : Domain π) : Action π → Prop
  | .call _ op => ∀ holder ∈ op.holders, ∀ other, (domain.pcs other).uses domain.holders holder = false
  | _ => True

/-- Some thread is inside `release` of the holder. -/
def Domain.Releasing (domain : Domain π) (holder : HolderId) : Prop :=
  ∃ thread pc source, domain.pcs thread = .release holder pc source

/-! ## Events -/

inductive SlotEvent (π : Type*)
  | acquired (slot : ℕ)
  | stored (slot : ℕ) (ptr : Option π)
  | constructed (holder : HolderId)
  | moved (holder source : HolderId)
  | released (holder : HolderId)
  deriving DecidableEq, Repr

/-- What the next statement of a thread shows. -/
def Pc.event (domain : Domain π) : Pc π → Option (SlotEvent π)
  | .acquire _ (.claim current) => some (.acquired current)
  | .acquire _ .allocate => some (.acquired domain.slots.length)
  | .acquire holder (.unlock _) => some (.constructed holder)
  | .release holder .clearSlot _ => some (.released holder)
  | .take holder source => some (.moved holder source)
  | .protect slot ptr => some (.stored slot ptr)
  | _ => none

/-- What a call shows that is over at once: a move construction, and the release of a holder without slot. -/
def Op.event (domain : Domain π) : Op π → Option (SlotEvent π)
  | .moveConstruct holder source => some (.moved holder source)
  | .release holder => if domain.holders holder = none then some (.released holder) else none
  | _ => none

def slotEvent (domain : Domain π) : Action π → Option (SlotEvent π)
  | .call _ op => op.event domain
  | .step thread => (domain.pcs thread).event domain
  | .exit _ => none

/-- What the slot protects after the event, when it protected `last` before. -/
def SlotEvent.protects (slot : ℕ) (last : Option π) : SlotEvent π → Option π
  | .acquired other => if other = slot then none else last
  | .stored other ptr => if other = slot then ptr else last
  | _ => last

/-- The last pointer protected through the slot since it was last acquired. -/
def lastProtected (slot : ℕ) (events : List (SlotEvent π)) : Option π := events.foldl (SlotEvent.protects slot) none

/-- Whether the holder has been released or moved from after the event. -/
def SlotEvent.empties (holder : HolderId) (empty : Bool) : SlotEvent π → Bool
  | .constructed other => if other = holder then false else empty
  | .moved other source => if source = holder then true else if other = holder then false else empty
  | .released other => if other = holder then true else empty
  | _ => empty

/-- The last that happened to the holder is that it was released or moved from. -/
def emptied (holder : HolderId) (events : List (SlotEvent π)) : Bool := events.foldl (SlotEvent.empties holder) false

theorem lastProtected_append (slot : ℕ) (events : List (SlotEvent π)) (event : Option (SlotEvent π)) :
    lastProtected slot (events ++ event.toList) =
      event.elim (lastProtected slot events) (SlotEvent.protects slot (lastProtected slot events)) := by
  rw [lastProtected, List.foldl_append]
  cases event <;> rfl

theorem emptied_append (holder : HolderId) (events : List (SlotEvent π)) (event : Option (SlotEvent π)) :
    emptied holder (events ++ event.toList) =
      event.elim (emptied holder events) (SlotEvent.empties holder (emptied holder events)) := by
  rw [emptied, List.foldl_append]
  cases event <;> rfl

/-! ## Emptied holders -/

section Emptied

variable {domain next : Domain π} {thread : ThreadId} {holder : HolderId} {empty : Bool}

/-- The pointer hand-over of a move. -/
theorem holders_of_moved {other source : HolderId} (h : empty = true → domain.holders holder = none)
    (hempties : SlotEvent.empties holder empty (.moved other source : SlotEvent π) = true) :
    Function.update (Function.update domain.holders other (domain.holders source)) source none holder = none := by
  rw [SlotEvent.empties] at hempties
  split at hempties
  · rename_i hsource
    rw [hsource, Function.update_self]
  · rename_i hsource
    split at hempties
    · cases hempties
    · rename_i hother
      rw [Function.update_of_ne (Ne.symm hsource), Function.update_of_ne (Ne.symm hother), h hempties]

/-- A holder gets a slot only with an event that says so. -/
theorem holders_of_advance [DecidableEq π] (h : empty = true → domain.holders holder = none)
    (hstep : domain.advance thread (domain.pcs thread) = some next)
    (hempties : ((domain.pcs thread).event domain).elim empty (SlotEvent.empties holder empty) = true) :
    next.holders holder = none := by
  cases hpc : domain.pcs thread with
  | idle | exited =>
    rw [hpc] at hstep
    cases hstep
  | acquire other pc =>
    rw [hpc] at hstep hempties
    cases Domain.acquireMove_of_step hstep with
    | unlock slot =>
      change Function.update domain.holders other (some slot) holder = none
      change (if other = holder then false else empty) = true at hempties
      split at hempties
      · cases hempties
      · rename_i hother
        rw [Function.update_of_ne (Ne.symm hother), h hempties]
    | _ => exact h hempties
  | release other pc source =>
    rw [hpc] at hstep hempties
    cases hstep
    cases pc with
    | clearHazard slot | clearOwner slot => exact h hempties
    | clearSlot =>
      change Function.update domain.holders other none holder = none
      change (if other = holder then true else empty) = true at hempties
      split at hempties
      · rename_i hother
        rw [hother, Function.update_self]
      · rename_i hother
        rw [Function.update_of_ne (Ne.symm hother), h hempties]
  | take other source =>
    rw [hpc] at hstep hempties
    cases hstep
    exact holders_of_moved h hempties
  | protect slot ptr =>
    rw [hpc] at hstep hempties
    cases hstep
    exact h hempties
  | retire pc | scan pc | reclaim pc | register pc | unregister pc =>
    rw [hpc] at hempties
    obtain ⟨pc', -, hmove⟩ := Domain.advance_holderMove (fun _ ↦ none) hstep
    rw [hpc] at hmove
    cases hmove with
    | apart _ _ _ hholders =>
      rw [hholders]
      exact h hempties

theorem holders_of_enter {op : Op π} (h : empty = true → domain.holders holder = none)
    (henter : domain.enter thread op = some next)
    (hempties : (op.event domain).elim empty (SlotEvent.empties holder empty) = true) : next.holders holder = none := by
  cases op with
  | construct other =>
    simp only [Domain.enter] at henter
    split at henter <;> cases henter
    exact h hempties
  | moveConstruct other source =>
    simp only [Domain.enter] at henter
    split at henter <;> cases henter
    exact holders_of_moved h hempties
  | moveAssign other source =>
    simp only [Domain.enter] at henter
    split at henter <;> cases henter <;> exact h hempties
  | release other =>
    cases henter
    change domain.holders holder = none
    simp only [Op.event] at hempties
    split at hempties
    · rename_i hnone
      change (if other = holder then true else empty) = true at hempties
      split at hempties
      · rename_i hother
        rw [← hother, hnone]
      · exact h hempties
    · exact h hempties
  | _ =>
    cases henter
    exact h hempties

/-- A holder that was released or moved from has no slot. -/
theorem holders_of_emptied [DecidableEq π] {action : Action π} {events : List (SlotEvent π)}
    (h : ∀ holder, emptied holder events = true → domain.holders holder = none)
    (hstep : step domain action = some next) (holder : HolderId)
    (hemptied : emptied holder (events ++ (slotEvent domain action).toList) = true) : next.holders holder = none := by
  rw [emptied_append] at hemptied
  cases action with
  | call thread op =>
    obtain ⟨-, henter⟩ := enter_of_call hstep
    exact holders_of_enter (h holder) henter hemptied
  | step thread => exact holders_of_advance (h holder) hstep hemptied
  | exit thread =>
    obtain ⟨-, rfl⟩ := eq_of_exit hstep
    exact h holder hemptied

end Emptied

/-! ## Clean slots -/

/-- What the slot protects after a statement, when it protected `last` before. -/
def Pc.protects (length slot : ℕ) (last : Option π) : Pc π → Option π
  | .acquire _ (.claim current) => if current = slot then none else last
  | .acquire _ .allocate => if length = slot then none else last
  | .protect current ptr => if current = slot then ptr else last
  | _ => last

/-- The hazard pointer of the slot of the holder is gone already. -/
def Pc.clears (holder : HolderId) : Pc π → Bool
  | .release other (.clearOwner _) _ | .release other .clearSlot _ => other == holder
  | _ => false

/-- What a thread relies on that claims a slot, has claimed one, or is about to give one back. -/
def Pc.Clean (last : ℕ → Option π) (domain : Domain π) : Pc π → Prop
  | .acquire _ pc => (∀ place, pc = .claim place → domain.hazardAt place = none) ∧
      ∀ place, pc.claimed? = some place → domain.hazardAt place = none ∧ last place = none
  | .release _ (.clearOwner place) _ => domain.hazardAt place = none
  | _ => True

/-- `last` tells what was last protected through each slot since it was acquired. -/
structure Domain.Clean (last : ℕ → Option π) (domain : Domain π) : Prop where
  vacant : ∀ (place : ℕ) (slot : HazardSlot π), domain.slots[place]? = some slot → slot.owner = none →
    slot.hazardPtr = none
  pcs : ∀ thread, (domain.pcs thread).Clean last domain
  shown : ∀ holder place, domain.holders holder = some place →
    (∀ thread, (domain.pcs thread).clears holder = false) → domain.hazardAt place = last place

theorem clean_empty : Domain.Clean (fun _ ↦ none) ({} : Domain π) where
  vacant _ _ h := by simp at h
  pcs _ := trivial
  shown _ _ h := by cases h

theorem hazardAt_append {domain next : Domain π} {slot : HazardSlot π} (hslots : next.slots = domain.slots ++ [slot])
    (hclear : slot.hazardPtr = none) (place : ℕ) : next.hazardAt place = domain.hazardAt place := by
  rw [Domain.hazardAt, hslots, Domain.hazardAt]
  rcases Nat.lt_or_ge place domain.slots.length with hlt | hge
  · rw [List.getElem?_append_left hlt]
  · rw [List.getElem?_eq_none hge, List.getElem?_append_right hge]
    cases hindex : place - domain.slots.length with
    | zero => exact hclear
    | succ index => rfl

theorem hazardAt_modify_self {domain next : Domain π} {place : ℕ} {f : HazardSlot π → HazardSlot π} {ptr : Option π}
    (hslots : next.slots = domain.slots.modify place f) (hplace : place < domain.slots.length)
    (hf : ∀ slot, (f slot).hazardPtr = ptr) : next.hazardAt place = ptr := by
  rw [Domain.hazardAt, hslots, getElem?_modify_of_getElem? (List.getElem?_eq_getElem hplace), if_pos rfl]
  exact hf _

section Clean

variable {domain next : Domain π} {thread : ThreadId} {tenant : ℕ → Option HolderId} {pc pc' : Pc π}
  {working : List HolderId} {last : ℕ → Option π}

theorem Tenanted.lt_length (h : Tenanted tenant domain) {place : ℕ} {holder : HolderId}
    (hlet : tenant place = some holder) : place < domain.slots.length := by
  obtain ⟨slot, hslot, -⟩ := h.owned place holder hlet
  exact lt_length_of_getElem? hslot

/-- What a step does to a slot: nothing, a new letting, or a write to the hazard pointer of a slot whose tenant the
thread works on. -/
inductive PlaceMove (tenant : ℕ → Option HolderId) (domain next : Domain π) (place : ℕ) : Pc π → Pc π → Prop
  | same {pc pc' : Pc π} (hhazard : next.hazardAt place = domain.hazardAt place)
      (hprotects : ∀ last, pc.protects domain.slots.length place last = last) :
      PlaceMove tenant domain next place pc pc'
  | granted {pc pc' : Pc π} (hvacant : tenant place = none) (hhazard : next.hazardAt place = domain.hazardAt place)
      (hprotects : ∀ last, pc.protects domain.slots.length place last = none) :
      PlaceMove tenant domain next place pc pc'
  | cleared {holder : HolderId} {source : Option HolderId} (hlet : tenant place = some holder)
      (hhazard : next.hazardAt place = none) : PlaceMove tenant domain next place
        (.release holder (.clearHazard place) source) (.release holder (.clearOwner place) source)
  | stored {holder : HolderId} {ptr : Option π} (hlet : tenant place = some holder)
      (hhazard : next.hazardAt place = ptr) : PlaceMove tenant domain next place (.protect place ptr) .idle

/-- `acquire` takes only slots that are not let. -/
theorem Tenanted.placeMove_acquire (h : Tenanted tenant domain) {holder : HolderId} {pc : AcquirePc} {place : ℕ}
    (hpc : domain.pcs thread = .acquire holder pc) (hhazard : next.hazardAt place = domain.hazardAt place) :
    PlaceMove tenant domain next place (.acquire holder pc) pc' := by
  have hfits := h.pcs thread
  rw [hpc] at hfits
  cases pc with
  | claim current =>
    rcases eq_or_ne current place with rfl | hne
    · exact .granted (hfits.2.2 current rfl).1 hhazard fun last ↦ if_pos rfl
    · exact .same hhazard fun last ↦ if_neg hne
  | allocate =>
    rcases eq_or_ne domain.slots.length place with rfl | hne
    · exact .granted h.vacant_length hhazard fun last ↦ if_pos rfl
    · exact .same hhazard fun last ↦ if_neg hne
  | _ => exact .same hhazard fun last ↦ rfl

theorem HolderMove.placeMove (hmove : HolderMove tenant thread domain next pc pc' working)
    (h : Tenanted tenant domain) (hpc : domain.pcs thread = pc) (place : ℕ) :
    PlaceMove tenant domain next place pc pc' := by
  have hfits := h.pcs thread
  rw [hpc] at hfits
  cases hmove with
  | apart hapart _ hslots _ =>
    refine .same (hazardAt_of_eq hslots place) fun last ↦ ?_
    cases pc with
    | acquire | release | take | protect => cases hapart
    | _ => rfl
  | search _ _ hslots _ _ => exact h.placeMove_acquire hpc (hazardAt_of_eq hslots place)
  | claim hslots _ => exact h.placeMove_acquire hpc (hazardAt_modify hslots fun _ _ ↦ rfl)
  | allocate hslots _ => exact h.placeMove_acquire hpc (hazardAt_append hslots rfl place)
  | publish _ _ hslots _ =>
    refine h.placeMove_acquire hpc ?_
    rcases hslots with hslots | ⟨oldHead, hslots⟩
    · exact hazardAt_of_eq hslots place
    · exact hazardAt_modify hslots fun _ _ ↦ rfl
  | @clearHazard holder current source hslots _ =>
    rcases eq_or_ne current place with rfl | hne
    · exact .cleared hfits.2 (hazardAt_modify_self hslots (h.lt_length hfits.2) fun _ ↦ rfl)
    · exact .same (hazardAt_modify hslots fun heq ↦ absurd heq hne) fun last ↦ rfl
  | clearOwner hslots _ => exact .same (hazardAt_modify hslots fun _ _ ↦ rfl) fun last ↦ rfl
  | pass hpc' hslots _ =>
    refine .same (hazardAt_of_eq hslots place) fun last ↦ ?_
    rcases hpc' with rfl | ⟨rfl, -⟩ <;> rfl
  | @protect current ptr hslots _ =>
    obtain ⟨holder, hlet, -⟩ := hfits
    rcases eq_or_ne current place with rfl | hne
    · exact .stored hlet (hazardAt_modify_self hslots (h.lt_length hlet) fun _ ↦ rfl)
    · exact .same (hazardAt_modify hslots fun heq ↦ absurd heq hne) fun last ↦ if_neg hne
  | unlock hslots _ | clearSlot hslots _ => exact .same (hazardAt_of_eq hslots place) fun last ↦ rfl
  | enterAcquire _ hslots _ | enterTake _ _ hslots _ | enterProtect _ hslots _ | enterRelease _ _ hslots _ =>
    exact .same (hazardAt_of_eq hslots place) fun last ↦ rfl

/-- No other thread touches the slot that a thread claims, has claimed or gives back. -/
theorem PlaceMove.of_other {place : ℕ} (hplace : PlaceMove tenant domain next place pc pc') (h : Tenanted tenant domain)
    (hpc : domain.pcs thread = pc) {other : ThreadId} (hother : other ≠ thread)
    (hown : ∀ holder, tenant place = some holder → holder ∈ (domain.pcs other).holders tenant) :
    next.hazardAt place = domain.hazardAt place ∧
      (tenant place ≠ none → ∀ last, pc.protects domain.slots.length place last = last) := by
  -- the thread that moves would work on the holder, too
  have hapart {holder : HolderId} (hlet : tenant place = some holder) (hmem : holder ∈ pc.holders tenant) : False :=
    hother (h.users other thread holder (hown holder hlet) (hpc ▸ hmem))
  cases hplace with
  | same hhazard hprotects => exact ⟨hhazard, fun _ ↦ hprotects⟩
  | granted hvacant hhazard _ => exact ⟨hhazard, fun hlet ↦ absurd hvacant hlet⟩
  | cleared hlet _ => exact (hapart hlet List.mem_cons_self).elim
  | stored hlet _ => exact (hapart hlet (Option.mem_toList.mpr hlet)).elim

/-- A thread that stands still. -/
theorem HolderMove.clean_other (hmove : HolderMove tenant thread domain next pc pc' working)
    (hclean : domain.Clean last) (h : Tenanted tenant domain) (hpc : domain.pcs thread = pc) {other : ThreadId}
    (hother : other ≠ thread) :
    (domain.pcs other).Clean (fun place ↦ pc.protects domain.slots.length place (last place)) next := by
  have hstands := hclean.pcs other
  have hfits := h.pcs other
  have hplace (place : ℕ) := (hmove.placeMove h hpc place).of_other h hpc hother
  cases hpc' : domain.pcs other with
  | acquire holder pc' =>
    rw [hpc'] at hstands hfits
    refine ⟨fun place hclaim ↦ ?_, fun place hclaimed ↦ ?_⟩
    · have hvacant := (hfits.2.2 place hclaim).1
      rw [(hplace place fun holder hlet ↦ by cases hvacant.symm.trans hlet).1]
      exact hstands.1 place hclaim
    · have hlet := hfits.2.1 place hclaimed
      obtain ⟨hhazard, hprotects⟩ := hplace place fun holder' hlet' ↦ by
        obtain rfl := Option.some.inj (hlet.symm.trans hlet')
        rw [hpc']
        exact List.mem_cons_self
      have hsome : tenant place ≠ none := by
        rw [hlet]
        exact Option.some_ne_none holder
      obtain ⟨hclear, hlast⟩ := hstands.2 place hclaimed
      exact ⟨hhazard.trans hclear, (hprotects hsome (last place)).trans hlast⟩
  | release holder pc' source =>
    cases pc' with
    | clearOwner place =>
      rw [hpc'] at hstands hfits
      have hhazard := (hplace place fun holder' hlet' ↦ by
        obtain rfl := Option.some.inj (hfits.2.symm.trans hlet')
        rw [hpc']
        exact List.mem_cons_self).1
      exact hhazard.trans hstands
    | _ => trivial
  | _ => trivial

/-- The thread that moves. -/
theorem HolderMove.clean_mover (hmove : HolderMove tenant thread domain next pc pc' working)
    (hclean : domain.Clean last) (h : Tenanted tenant domain) (hpc : domain.pcs thread = pc) :
    pc'.Clean (fun place ↦ pc.protects domain.slots.length place (last place)) next := by
  have hstands := hclean.pcs thread
  have hfits := h.pcs thread
  have hplaces := hmove.placeMove h hpc
  rw [hpc] at hstands hfits
  cases hmove with
  | apart _ hapart' _ _ =>
    cases pc' with
    | acquire | release => cases hapart'
    | _ => trivial
  | search _ hclaimed' hslots _ hclaim =>
    refine ⟨fun place hplace ↦ ?_, fun place hplace ↦ by cases hclaimed'.symm.trans hplace⟩
    obtain ⟨slot, hslot, howner⟩ := hclaim place hplace
    rw [hazardAt_of_eq hslots, Domain.hazardAt, hslot]
    exact hclean.vacant place slot hslot howner
  | @claim holder current hslots _ =>
    refine ⟨fun _ hclaim ↦ (by cases hclaim), ?_⟩
    rintro _ ⟨⟩
    refine ⟨?_, if_pos rfl⟩
    rw [hazardAt_modify hslots fun _ _ ↦ rfl]
    exact hstands.1 current rfl
  | allocate hslots _ =>
    refine ⟨fun _ hclaim ↦ (by cases hclaim), ?_⟩
    rintro _ ⟨⟩
    refine ⟨?_, if_pos rfl⟩
    rw [hazardAt_append hslots rfl, Domain.hazardAt, List.getElem?_eq_none (Nat.le_refl _)]
    rfl
  | @publish holder current pc pc' hclaimed hclaimed' hslots _ =>
    refine ⟨?_, fun place hplace ↦ ?_⟩
    · rintro place rfl
      cases hclaimed'
    obtain rfl : current = place := Option.some.inj (hclaimed'.symm.trans hplace)
    obtain ⟨hclear, hlast⟩ := hstands.2 current hclaimed
    cases hplaces current with
    | same hhazard hprotects => exact ⟨hhazard.trans hclear, (hprotects (last current)).trans hlast⟩
    | granted _ hhazard hprotects => exact ⟨hhazard.trans hclear, hprotects (last current)⟩
  | clearHazard hslots _ => exact hazardAt_modify_self hslots (h.lt_length hfits.2) fun _ ↦ rfl
  | @clearSlot holder source _ _ => cases source <;> trivial
  | enterAcquire => constructor <;> rintro _ ⟨⟩
  | _ => trivial

/-- A slot without owner after the step. -/
theorem HolderMove.vacant (hmove : HolderMove tenant thread domain next pc pc' working) (hclean : domain.Clean last)
    (h : Tenanted tenant domain) (hpc : domain.pcs thread = pc) (place : ℕ) (slot : HazardSlot π)
    (hslot : next.slots[place]? = some slot) (howner : slot.owner = none) : slot.hazardPtr = none := by
  have hstands := hclean.pcs thread
  have hfits := h.pcs thread
  rw [hpc] at hstands hfits
  have hsame (hslots : next.slots = domain.slots) : slot.hazardPtr = none := by
    rw [hslots] at hslot
    exact hclean.vacant place slot hslot howner
  -- a slot that is written in place is as before, or it is the one that is written
  have hmodify {current : ℕ} {f : HazardSlot π → HazardSlot π} (hslots : next.slots = domain.slots.modify current f)
      (hf : current = place → ∀ before, domain.slots[place]? = some before → slot = f before → slot.hazardPtr = none) :
      slot.hazardPtr = none := by
    rw [hslots, List.getElem?_modify] at hslot
    obtain ⟨before, hbefore, heq⟩ := Option.map_eq_some_iff.mp hslot
    split at heq
    · rename_i hcurrent
      exact hf hcurrent before hbefore heq.symm
    · obtain rfl : before = slot := heq
      exact hclean.vacant place before hbefore howner
  cases hmove with
  | claim hslots _ =>
    refine hmodify hslots fun _ before _ heq ↦ ?_
    rw [heq] at howner
    cases howner
  | allocate hslots _ =>
    rw [hslots] at hslot
    rcases of_getElem?_append_singleton hslot with hold | ⟨-, rfl⟩
    · exact hclean.vacant place slot hold howner
    · rfl
  | publish _ _ hslots _ =>
    rcases hslots with hslots | ⟨oldHead, hslots⟩
    · exact hsame hslots
    · refine hmodify hslots fun _ before hbefore heq ↦ ?_
      rw [heq] at howner ⊢
      exact hclean.vacant place before hbefore howner
  | clearHazard hslots _ =>
    refine hmodify hslots fun _ before _ heq ↦ ?_
    rw [heq]
  | clearOwner hslots _ =>
    refine hmodify hslots ?_
    rintro rfl before hbefore heq
    have hclear : domain.hazardAt _ = none := hstands
    rw [Domain.hazardAt, hbefore] at hclear
    rw [heq]
    exact hclear
  | protect hslots _ =>
    refine hmodify hslots ?_
    rintro rfl before hbefore heq
    obtain ⟨holder, hlet, -⟩ := hfits
    rw [heq] at howner
    cases (h.vacant_of_owner hbefore howner).symm.trans hlet
  | apart _ _ hslots _ | search _ _ hslots _ _ | unlock hslots _ | clearSlot hslots _ | pass _ hslots _
  | enterAcquire _ hslots _ | enterTake _ _ hslots _ | enterProtect _ hslots _ | enterRelease _ _ hslots _ =>
    exact hsame hslots

theorem Pc.clears_of_forgets {holder : HolderId} (h : pc.forgets holder = true) : pc.clears holder = true := by
  cases pc with
  | release other pc source =>
    cases pc with
    | clearSlot => exact h
    | _ => cases h
  | _ => cases h

theorem Pc.eq_release_of_clears {holder : HolderId} (h : pc.clears holder = true) :
    ∃ pc₀ source, pc = .release holder pc₀ source := by
  cases pc with
  | release other pc source =>
    cases pc with
    | clearHazard => cases h
    | _ => exact ⟨_, source, by rw [beq_iff_eq.mp h]⟩
  | _ => cases h

theorem Pc.mem_holders_of_clears {holder : HolderId} (h : pc.clears holder = true) : holder ∈ pc.holders tenant := by
  obtain ⟨pc₀, source, rfl⟩ := Pc.eq_release_of_clears h
  exact List.mem_cons_self

/-- A holder whose slot is not being cleared is the tenant, and its slot shows what was last protected. -/
theorem Domain.Clean.held (hclean : domain.Clean last) (h : Tenanted tenant domain) {holder : HolderId} {place : ℕ}
    (hholder : domain.holders holder = some place) (hclears : ∀ user, (domain.pcs user).clears holder = false) :
    tenant place = some holder ∧ domain.hazardAt place = last place := by
  refine ⟨h.let_of_free hholder fun user ↦ ?_, hclean.shown holder place hholder hclears⟩
  by_contra hforgets
  cases (hclears user).symm.trans (Pc.clears_of_forgets (Bool.not_eq_false _ ▸ hforgets))

/-- The slot was let before the step of a thread at `pc` and showed what was last protected. Of the holders that may
have had it then, only the one that has it afterwards can be in the release. -/
def HeldBefore (tenant : ℕ → Option HolderId) (last : ℕ → Option π) (domain : Domain π) (pc : Pc π)
    (holder : HolderId) (place : ℕ) : Prop :=
  ∃ before, tenant place = some before ∧ domain.hazardAt place = last place ∧
    ∀ pc₀ source, pc = .release before pc₀ source → before = holder

/-- The holder had the slot before. -/
theorem Domain.Clean.heldBefore (hclean : domain.Clean last) (h : Tenanted tenant domain)
    (hpc : domain.pcs thread = pc) (hpcs : next.pcs = Function.update domain.pcs thread pc') {holder : HolderId}
    {place : ℕ} (hholder : domain.holders holder = some place)
    (hclears : ∀ user, (next.pcs user).clears holder = false) (hmover : pc.clears holder = false) :
    HeldBefore tenant last domain pc holder place := by
  obtain ⟨hlet, hhazard⟩ := hclean.held h hholder fun user ↦ by
    rcases eq_or_ne user thread with rfl | hne
    · rw [hpc, hmover]
    · rw [← hclears user, hpcs, Function.update_of_ne hne]
  exact ⟨holder, hlet, hhazard, fun _ _ _ ↦ rfl⟩

/-- A move passes the slot on; nobody but this thread uses the source, and it is not in a release. -/
theorem Domain.Clean.heldBefore_source (hclean : domain.Clean last) (h : Tenanted tenant domain)
    (hpc : domain.pcs thread = pc) {holder source : HolderId} {place : ℕ}
    (hfree : ∀ other, other ≠ thread → source ∉ (domain.pcs other).holders tenant)
    (hmover : pc = .take holder source ∨ pc = .idle) (hsource : domain.holders source = some place) :
    HeldBefore tenant last domain pc holder place := by
  obtain ⟨hlet, hhazard⟩ := hclean.held h hsource fun user ↦ by
    rcases eq_or_ne user thread with rfl | hne
    · rw [hpc]
      rcases hmover with rfl | rfl <;> rfl
    · by_contra hclears
      exact hfree user hne (Pc.mem_holders_of_clears (Bool.not_eq_false _ ▸ hclears))
  refine ⟨source, hlet, hhazard, fun pc₀ source' heq ↦ ?_⟩
  rcases hmover with rfl | rfl <;> cases heq

/-- Whoever holds the slot after the step. -/
theorem HolderMove.heldBefore (hmove : HolderMove tenant thread domain next pc pc' working) (hclean : domain.Clean last)
    (h : Tenanted tenant domain) (hpc : domain.pcs thread = pc)
    (hpcs : next.pcs = Function.update domain.pcs thread pc')
    (hfree : ∀ holder ∈ working, ∀ other, other ≠ thread → holder ∉ (domain.pcs other).holders tenant)
    {holder : HolderId} {place : ℕ} (hholder : next.holders holder = some place)
    (hclears : ∀ user, (next.pcs user).clears holder = false) : HeldBefore tenant last domain pc holder place := by
  have hkept (hsame : domain.holders holder = some place) (hmover : pc.clears holder = false) :
      HeldBefore tenant last domain pc holder place :=
    hclean.heldBefore h hpc hpcs hsame hclears hmover
  have hmover' := hclears thread
  rw [hpcs, Function.update_self] at hmover'
  cases hmove with
  | apart hapart _ _ hholders =>
    rw [hholders] at hholder
    refine hkept hholder ?_
    cases pc with
    | release => cases hapart
    | _ => rfl
  | @unlock other current _ hholders =>
    rw [hholders] at hholder
    rcases eq_or_ne holder other with rfl | hne
    · rw [Function.update_self] at hholder
      have hstands := hclean.pcs thread
      have hfits := h.pcs thread
      rw [hpc] at hstands hfits
      obtain ⟨hclear, hlast⟩ := hstands.2 place hholder
      exact ⟨holder, hfits.2.1 place hholder, hclear.trans hlast.symm, fun _ _ heq ↦ by cases heq⟩
    · rw [Function.update_of_ne hne] at hholder
      exact hkept hholder rfl
  | clearOwner _ hholders =>
    rw [hholders] at hholder
    exact hkept hholder hmover'
  | @clearSlot other source _ hholders =>
    rw [hholders] at hholder
    rcases eq_or_ne holder other with rfl | hne
    · rw [Function.update_self] at hholder
      cases hholder
    · rw [Function.update_of_ne hne] at hholder
      exact hkept hholder (beq_false_of_ne hne.symm)
  | @pass other source pc hpc' _ hholders =>
    have hmover := hpc'.imp_right And.left
    rw [hholders] at hholder
    rcases eq_or_ne holder source with rfl | hsource
    · rw [Function.update_self] at hholder
      cases hholder
    rw [Function.update_of_ne hsource] at hholder
    rcases eq_or_ne holder other with rfl | hne
    · rw [Function.update_self] at hholder
      have hfree' := hfree source (List.mem_cons_of_mem _ List.mem_cons_self)
      exact hclean.heldBefore_source h hpc hfree' hmover hholder
    · rw [Function.update_of_ne hne] at hholder
      refine hkept hholder ?_
      rcases hmover with rfl | rfl <;> rfl
  | search _ _ _ hholders _ | claim _ hholders | allocate _ hholders | publish _ _ _ hholders | clearHazard _ hholders
  | protect _ hholders | enterAcquire _ _ hholders | enterTake _ _ _ hholders | enterProtect _ _ hholders
  | enterRelease _ _ _ hholders =>
    rw [hholders] at hholder
    exact hkept hholder rfl

theorem HolderMove.clean (hmove : HolderMove tenant thread domain next pc pc' working) (hclean : domain.Clean last)
    (h : Tenanted tenant domain) (hpc : domain.pcs thread = pc)
    (hpcs : next.pcs = Function.update domain.pcs thread pc')
    (hfree : ∀ holder ∈ working, ∀ other, other ≠ thread → holder ∉ (domain.pcs other).holders tenant) :
    next.Clean fun place ↦ pc.protects domain.slots.length place (last place) where
  vacant := hmove.vacant hclean h hpc
  pcs := by
    rw [hpcs, Function.forall_update_iff domain.pcs (p := fun _ pc₀ ↦
      Pc.Clean (fun place ↦ pc.protects domain.slots.length place (last place)) next pc₀)]
    exact ⟨hmove.clean_mover hclean h hpc, fun other hother ↦ hmove.clean_other hclean h hpc hother⟩
  shown := by
    intro holder place hholder hclears
    obtain ⟨before, hlet, hhazard, hreleases⟩ := hmove.heldBefore hclean h hpc hpcs hfree hholder hclears
    have hmover := hclears thread
    rw [hpcs, Function.update_self] at hmover
    cases hmove.placeMove h hpc place with
    | same hsame hprotects => exact (hsame.trans hhazard).trans (hprotects (last place)).symm
    | granted hvacant _ _ => cases hvacant.symm.trans hlet
    | @cleared holder' source hlet' _ =>
      obtain rfl : before = holder' := Option.some.inj (hlet.symm.trans hlet')
      obtain rfl := hreleases _ _ rfl
      cases hmover.symm.trans (beq_self_eq_true before)
    | stored _ hstored => exact hstored.trans (if_pos rfl).symm

end Clean

/-! ## Every run -/

section Runs

variable {domain next : Domain π} {action : Action π} {events : List (SlotEvent π)}

theorem Pc.uses_of_mem_holders {tenant : ℕ → Option HolderId} {pc : Pc π} {holder : HolderId}
    (hfits : pc.Fits tenant domain) (hmem : holder ∈ pc.holders tenant) : pc.uses domain.holders holder = true := by
  cases pc with
  | acquire other pc => exact decide_eq_true (List.mem_singleton.mp hmem).symm
  | release other pc source =>
    rw [Pc.uses, Bool.or_eq_true, decide_eq_true_iff, decide_eq_true_iff]
    exact (List.mem_cons.mp hmem).imp Eq.symm Option.mem_toList.mp
  | take other source =>
    rw [Pc.uses, Bool.or_eq_true, decide_eq_true_iff, decide_eq_true_iff]
    exact (List.mem_pair.mp hmem).imp Eq.symm Eq.symm
  | protect slot ptr =>
    obtain ⟨other, hlet, hholder⟩ := hfits
    obtain rfl : other = holder := Option.some.inj (hlet.symm.trans (Option.mem_toList.mp hmem))
    exact decide_eq_true hholder
  | _ => cases hmem

theorem SoleUser.oneUser {tenant : ℕ → Option HolderId} (hsole : SoleUser domain action) (h : Tenanted tenant domain) :
    OneUser tenant domain action := by
  cases action with
  | call thread op =>
    intro holder hholder other hmem
    cases (hsole holder hholder other).symm.trans (Pc.uses_of_mem_holders (h.pcs other) hmem)
  | _ => trivial

/-- The events tell what a step does to the last protected pointers; no call protects anything at once. -/
theorem lastProtected_of_step [DecidableEq π] (hstep : step domain action = some next) (place : ℕ) :
    lastProtected place (events ++ (slotEvent domain action).toList) =
      (domain.pcs action.thread).protects domain.slots.length place (lastProtected place events) := by
  rw [lastProtected_append]
  cases action with
  | call thread op =>
    rw [Action.thread, (enter_of_call hstep).1, slotEvent]
    cases op with
    | release holder =>
      rw [Op.event]
      split <;> rfl
    | _ => rfl
  | step thread =>
    rw [Action.thread, slotEvent]
    cases domain.pcs thread with
    | acquire holder pc => cases pc <;> rfl
    | release holder pc source => cases pc <;> rfl
    | _ => rfl
  | exit thread =>
    rw [Action.thread, (eq_of_exit hstep).1]
    rfl

structure Domain.Observed (events : List (SlotEvent π)) (domain : Domain π) : Prop where
  excludes : domain.Excludes
  clean : ∃ tenant, Tenanted tenant domain ∧ domain.Clean fun place ↦ lastProtected place events
  emptied : ∀ holder, emptied holder events = true → domain.holders holder = none

theorem Domain.Observed.step [DecidableEq π] (h : domain.Observed events) (hsole : SoleUser domain action)
    (hstep : step domain action = some next) : next.Observed (events ++ (slotEvent domain action).toList) := by
  obtain ⟨hexcludes, ⟨tenant, htenanted, hclean⟩, hemptied⟩ := h
  have hone := hsole.oneUser htenanted
  refine ⟨hexcludes.step hstep, ?_, holders_of_emptied hemptied hstep⟩
  obtain ⟨tenant', htenanted', -⟩ := tenanted_of_step htenanted hexcludes hone hstep
  obtain ⟨pc', working, hworking, hpcs, hmove⟩ := step_holderMove tenant hstep
  refine ⟨tenant', htenanted', ?_⟩
  simp only [lastProtected_of_step hstep]
  exact hmove.clean hclean htenanted rfl hpcs fun holder hmem other hother ↦
    hone.free htenanted (hworking hmem) other hother

theorem observed_of_run [DecidableEq π] {actions : List (Action π)} (hsole : Meets step SoleUser {} actions)
    (hrun : run step {} actions = some domain) : domain.Observed (collect step slotEvent {} actions) := by
  have hstart : ({} : Domain π).Observed [] :=
    ⟨excludes_empty, ⟨_, tenanted_empty, clean_empty⟩, fun _ hemptied ↦ by cases hemptied⟩
  exact collect_invariant (I := fun shown visited ↦ Domain.Observed shown visited)
    (fun _ _ _ _ h hok hstep ↦ h.step hok hstep) hsole hstart hrun

end Runs

/-- While each holder is used by one thread at a time, no two holders that are not inside a release share a slot,
a slot without owner protects nothing, a holder that was released or moved from answers `get` with null, and a
holder that has a slot with the last pointer protected through it since the slot was acquired. -/
theorem slots_exclusive_and_clean [DecidableEq π] (actions : List (Action π)) (domain : Domain π)
    (hsole : Meets step SoleUser {} actions) (hrun : run step {} actions = some domain) :
    (∀ holder other place, domain.holders holder = some place → domain.holders other = some place →
      ¬ domain.Releasing holder → ¬ domain.Releasing other → holder = other) ∧
    (∀ slot ∈ domain.slots, slot.owner = none → slot.hazardPtr = none) ∧
    (∀ holder, emptied holder (collect step slotEvent {} actions) = true → domain.get holder = none) ∧
    ∀ holder place, domain.holders holder = some place → ¬ domain.Releasing holder →
      domain.get holder = lastProtected place (collect step slotEvent {} actions) := by
  obtain ⟨-, ⟨tenant, htenanted, hclean⟩, hemptied⟩ := observed_of_run hsole hrun
  have hclears {holder : HolderId} (hoff : ¬ domain.Releasing holder) (user : ThreadId) :
      (domain.pcs user).clears holder = false := by
    by_contra hclears
    obtain ⟨pc, source, hpc⟩ := Pc.eq_release_of_clears (Bool.not_eq_false _ ▸ hclears)
    exact hoff ⟨user, pc, source, hpc⟩
  refine ⟨?_, ?_, ?_, ?_⟩
  · intro holder other place hholder hother hoff hoff'
    have hlet := (hclean.held htenanted hholder (hclears hoff)).1
    have hlet' := (hclean.held htenanted hother (hclears hoff')).1
    exact Option.some.inj (hlet.symm.trans hlet')
  · intro slot hslot howner
    obtain ⟨place, hplace⟩ := List.mem_iff_getElem?.mp hslot
    exact hclean.vacant place slot hplace howner
  · intro holder hholder
    rw [Domain.get, hemptied holder hholder, Option.bind_none]
  · intro holder place hholder hoff
    rw [Domain.get, hholder, Option.bind_some]
    exact (hclean.held htenanted hholder (hclears hoff)).2

/-! ## Two threads -/

/-- Only these threads are inside a call. -/
def Domain.Among (threads : List ThreadId) (domain : Domain π) : Prop :=
  ∀ other, other ∉ threads → domain.pcs other = .idle

/-- One of these threads moves, and it calls no holder that another of them uses. -/
def SoleUserAmong (threads : List ThreadId) (domain : Domain π) : Action π → Prop
  | .call thread op => thread ∈ threads ∧
      ∀ holder ∈ op.holders, ∀ other ∈ threads, (domain.pcs other).uses domain.holders holder = false
  | .step thread | .exit thread => thread ∈ threads

instance (threads : List ThreadId) (domain : Domain π) (action : Action π) :
    Decidable (SoleUserAmong threads domain action) :=
  match action with
  | .call thread op => inferInstanceAs (Decidable (thread ∈ threads ∧
      ∀ holder ∈ op.holders, ∀ other ∈ threads, (domain.pcs other).uses domain.holders holder = false))
  | .step thread | .exit thread => inferInstanceAs (Decidable (thread ∈ threads))

theorem Domain.Among.step [DecidableEq π] {threads : List ThreadId} {domain next : Domain π} {action : Action π}
    (h : domain.Among threads) (hamong : SoleUserAmong threads domain action) (hstep : step domain action = some next) :
    next.Among threads := by
  intro other hother
  obtain ⟨pc', -, -, hpcs, -⟩ := step_holderMove (fun _ ↦ none) hstep
  have hmover : action.thread ∈ threads := by
    cases action with
    | call thread op => exact hamong.1
    | step thread | exit thread => exact hamong
  rw [hpcs, Function.update_of_ne, h other hother]
  rintro rfl
  exact hother hmover

theorem SoleUserAmong.meets [DecidableEq π] {threads : List ThreadId} {actions : List (Action π)}
    (h : Meets step (SoleUserAmong threads) {} actions) : Meets step SoleUser {} actions := by
  refine h.strengthen (I := Domain.Among threads) (fun _ _ _ hidle hamong hstep ↦ hidle.step hamong hstep) ?_
    fun _ _ ↦ rfl
  intro domain action hidle hamong
  cases action with
  | call thread op =>
    intro holder hholder other
    by_cases hother : other ∈ threads
    · exact hamong.2 holder hholder other hother
    · rw [hidle other hother]
      rfl
  | _ => trivial

/-- Thread 0 protects 7 through slot 0 and moves the holder. Thread 1 takes slot 1 and stops in the release of it,
the owner cleared; thread 0 claims the slot and protects 9. -/
def claimDuringRelease : List (Action ℕ) :=
  List.flatten [.call 0 (.construct 0) :: List.replicate 7 (.step 0), [.call 0 (.protect 0 (some 7)), .step 0],
    [.call 0 (.moveConstruct 1 0)], .call 1 (.construct 2) :: List.replicate 9 (.step 1),
    [.call 1 (.release 2), .step 1, .step 1], .call 0 (.construct 3) :: List.replicate 5 (.step 0),
    [.call 0 (.protect 3 (some 9)), .step 0]]

theorem slots_exclusive_and_clean_claimed :
    ∃ domain, run step {} claimDuringRelease = some domain ∧ domain.holders 2 = some 1 ∧ domain.holders 3 = some 1 ∧
      domain.Releasing 2 ∧ domain.get 0 = none ∧ domain.get 1 = some 7 ∧ domain.get 3 = some 9 := by
  have hamong : Meets step (SoleUserAmong [0, 1]) {} claimDuringRelease := by
    decide +kernel
  have hfinal : (run step {} claimDuringRelease).map (fun domain ↦
      ((domain.holders 1, domain.holders 2, domain.holders 3), domain.pcs 0, domain.pcs 1)) =
        some ((some 0, some 1, some 1), .idle, .release 2 .clearSlot none) := by
    decide +kernel
  have hevents : emptied 0 (collect step slotEvent {} claimDuringRelease) = true ∧
      lastProtected 0 (collect step slotEvent {} claimDuringRelease) = some 7 ∧
      lastProtected 1 (collect step slotEvent {} claimDuringRelease) = some 9 := by
    decide +kernel
  obtain ⟨domain, hrun, hdomain⟩ := Option.map_eq_some_iff.mp hfinal
  simp only [Prod.mk.injEq] at hdomain
  obtain ⟨⟨hfirst, hsecond, hthird⟩, hidle, hreleases⟩ := hdomain
  have hothers : domain.Among [0, 1] :=
    hamong.invariant (fun _ _ _ h hok hstep ↦ h.step hok hstep) (fun _ _ ↦ rfl) hrun
  have hoff (holder : HolderId) (hne : holder ≠ 2) : ¬ domain.Releasing holder := by
    rintro ⟨thread, pc, source, hpc⟩
    by_cases hthread : thread ∈ [0, 1]
    · rcases List.mem_pair.mp hthread with rfl | rfl
      · cases hidle.symm.trans hpc
      · cases hreleases.symm.trans hpc
        exact hne rfl
    · cases (hothers thread hthread).symm.trans hpc
  obtain ⟨-, -, hempty, hget⟩ := slots_exclusive_and_clean claimDuringRelease domain (SoleUserAmong.meets hamong) hrun
  refine ⟨domain, hrun, hsecond, hthird, ⟨1, _, _, hreleases⟩, hempty 0 hevents.1, ?_, ?_⟩
  · rw [hget 1 0 hfirst (hoff 1 (by decide)), hevents.2.1]
  · rw [hget 3 1 hthird (hoff 3 (by decide)), hevents.2.2]

end TinyReactor.Hazard
