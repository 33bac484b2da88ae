import TinyReactor.Hazard.Conservation
import TinyReactor.Hazard.Protection

/-!
# The tenants of the slots

A slot is let to a holder from the claim or the allocation in `acquire` until `release` clears `owner_`; a
move passes it on. Who the tenant is stands nowhere in the program: `owner_` names a thread, and the pointer
of a holder outlives its tenancy by one statement. As long as each holder is used by one thread at a time, a
slot has one tenant, and only the thread that uses the tenant writes its hazard pointer.
-/

namespace TinyReactor.Hazard

open Transition

variable {π : Type*}

/-- The holders that a call works on. -/
def Op.holders : Op π → List HolderId
  | .construct holder | .release holder | .protect holder _ => [holder]
  | .moveConstruct holder source | .moveAssign holder source => [holder, source]
  | _ => []

/-- The slot that an `acquire` has claimed or allocated. -/
def AcquirePc.claimed? : AcquirePc → Option ℕ
  | .readOldHead slot | .publish slot _ | .link slot _ | .unlock slot => some slot
  | _ => none

/-- The holders that a thread works on; `tenant` tells whose slot it writes in `protect`. -/
def Pc.holders (tenant : ℕ → Option HolderId) : Pc π → List HolderId
  | .acquire holder _ => [holder]
  | .release holder _ source => holder :: source.toList
  | .take holder source => [holder, source]
  | .protect slot _ => (tenant slot).toList
  | _ => []

/-- Neither a call on a holder nor in the middle of one. -/
def Pc.apart : Pc π → Bool
  | .acquire _ _ | .release _ _ _ | .take _ _ | .protect _ _ => false
  | _ => true

/-- The thread has given the slot of the holder back and has still to forget it. -/
def Pc.forgets : Pc π → HolderId → Bool
  | .release other .clearSlot _, holder => other == holder
  | _, _ => false

/-- The holders that a step works on. -/
def worksOn (tenant : ℕ → Option HolderId) (domain : Domain π) : Action π → List HolderId
  | .call _ op => op.holders
  | .step thread => (domain.pcs thread).holders tenant
  | .exit _ => []

/-- Each holder is used by one thread at a time. -/
def OneUser (tenant : ℕ → Option HolderId) (domain : Domain π) : Action π → Prop
  | .call _ op => ∀ holder ∈ op.holders, ∀ other, holder ∉ (domain.pcs other).holders tenant
  | _ => True

/-! ## What a step does to slots and holders -/

/-- A step of `thread` from `pc` to `pc'`, by what it does to the slots and to the holders. The list names the
holders it works on. -/
inductive HolderMove (tenant : ℕ → Option HolderId) (thread : ThreadId) (domain next : Domain π) :
    Pc π → Pc π → List HolderId → Prop
  | apart {pc pc' : Pc π} (hpc : pc.apart = true) (hpc' : pc'.apart = true)
      (hslots : next.slots = domain.slots) (hholders : next.holders = domain.holders) :
      HolderMove tenant thread domain next pc pc' []
  | search {holder : HolderId} {pc pc' : AcquirePc} (hclaimed : pc.claimed? = none) (hclaimed' : pc'.claimed? = none)
      (hslots : next.slots = domain.slots) (hholders : next.holders = domain.holders)
      (hclaim : ∀ place, pc' = .claim place → ∃ slot, domain.slots[place]? = some slot ∧ slot.owner = none) :
      HolderMove tenant thread domain next (.acquire holder pc) (.acquire holder pc') [holder]
  | claim {holder : HolderId} {place : ℕ}
      (hslots : next.slots = domain.slots.modify place fun slot ↦ { slot with owner := some thread })
      (hholders : next.holders = domain.holders) :
      HolderMove tenant thread domain next (.acquire holder (.claim place)) (.acquire holder (.unlock place)) [holder]
  | allocate {holder : HolderId} (hslots : next.slots = domain.slots ++ [({ owner := some thread } : HazardSlot π)])
      (hholders : next.holders = domain.holders) :
      HolderMove tenant thread domain next (.acquire holder .allocate) (.acquire holder (.readOldHead domain.slots.length))
        [holder]
  | publish {holder : HolderId} {place : ℕ} {pc pc' : AcquirePc} (hclaimed : pc.claimed? = some place)
      (hclaimed' : pc'.claimed? = some place)
      (hslots : next.slots = domain.slots ∨
        ∃ oldHead, next.slots = domain.slots.modify place fun slot ↦ { slot with next := oldHead })
      (hholders : next.holders = domain.holders) :
      HolderMove tenant thread domain next (.acquire holder pc) (.acquire holder pc') [holder]
  | unlock {holder : HolderId} {place : ℕ} (hslots : next.slots = domain.slots)
      (hholders : next.holders = Function.update domain.holders holder (some place)) :
      HolderMove tenant thread domain next (.acquire holder (.unlock place)) .idle [holder]
  | clearHazard {holder : HolderId} {place : ℕ} {source : Option HolderId}
      (hslots : next.slots = domain.slots.modify place fun slot ↦ { slot with hazardPtr := none })
      (hholders : next.holders = domain.holders) : HolderMove tenant thread domain next
        (.release holder (.clearHazard place) source) (.release holder (.clearOwner place) source)
        (holder :: source.toList)
  | clearOwner {holder : HolderId} {place : ℕ} {source : Option HolderId}
      (hslots : next.slots = domain.slots.modify place fun slot ↦ { slot with owner := none })
      (hholders : next.holders = domain.holders) : HolderMove tenant thread domain next
        (.release holder (.clearOwner place) source) (.release holder .clearSlot source) (holder :: source.toList)
  | clearSlot {holder : HolderId} {source : Option HolderId} (hslots : next.slots = domain.slots)
      (hholders : next.holders = Function.update domain.holders holder none) : HolderMove tenant thread domain next
        (.release holder .clearSlot source) (source.elim .idle (.take holder)) (holder :: source.toList)
  | pass {holder source : HolderId} {pc : Pc π}
      (hpc : pc = .take holder source ∨ (pc = .idle ∧ domain.holders holder = none ∧ holder ≠ source))
      (hslots : next.slots = domain.slots) (hholders : next.holders =
        Function.update (Function.update domain.holders holder (domain.holders source)) source none) :
      HolderMove tenant thread domain next pc .idle [holder, source]
  | protect {place : ℕ} {ptr : Option π}
      (hslots : next.slots = domain.slots.modify place fun slot ↦ { slot with hazardPtr := ptr })
      (hholders : next.holders = domain.holders) :
      HolderMove tenant thread domain next (.protect place ptr) .idle (tenant place).toList
  | enterAcquire {holder : HolderId} (hnone : domain.holders holder = none) (hslots : next.slots = domain.slots)
      (hholders : next.holders = domain.holders) :
      HolderMove tenant thread domain next .idle (.acquire holder .lock) [holder]
  | enterRelease {holder : HolderId} {place : ℕ} {source : Option HolderId} (hholder : domain.holders holder = some place)
      (hsource : source ≠ some holder) (hslots : next.slots = domain.slots) (hholders : next.holders = domain.holders) :
      HolderMove tenant thread domain next .idle (.release holder (.clearHazard place) source) (holder :: source.toList)
  | enterTake {holder source : HolderId} (hnone : domain.holders holder = none) (hne : holder ≠ source)
      (hslots : next.slots = domain.slots) (hholders : next.holders = domain.holders) :
      HolderMove tenant thread domain next .idle (.take holder source) [holder, source]
  | enterProtect {holder : HolderId} {place : ℕ} {ptr : Option π} (hholder : domain.holders holder = some place)
      (hslots : next.slots = domain.slots) (hholders : next.holders = domain.holders) :
      HolderMove tenant thread domain next .idle (.protect place ptr) [holder]

namespace Domain

variable {domain next : Domain π} {thread : ThreadId} {tenant : ℕ → Option HolderId}

theorem acquireStep_holderMove {holder : HolderId} {pc : AcquirePc}
    (h : domain.acquireStep thread holder pc = some next) :
    ∃ pc', next.pcs = Function.update domain.pcs thread pc' ∧
      HolderMove tenant thread domain next (.acquire holder pc) pc' [holder] := by
  cases acquireMove_of_step h with
  | lock | noSlots | newest | owned | oldest | follow => exact ⟨_, rfl, .search rfl rfl rfl rfl nofun⟩
  | unowned slot hslot howner =>
    refine ⟨_, rfl, .search rfl rfl rfl rfl ?_⟩
    rintro _ ⟨⟩
    exact ⟨slot, hslot, howner⟩
  | claim current => exact ⟨_, rfl, .claim rfl rfl⟩
  | allocate => exact ⟨_, rfl, .allocate rfl rfl⟩
  | readOldHead newHp => exact ⟨_, rfl, .publish rfl rfl (.inl rfl) rfl⟩
  | publish newHp oldHead => exact ⟨_, rfl, .publish rfl rfl (.inl rfl) rfl⟩
  | link newHp oldHead => exact ⟨_, rfl, .publish rfl rfl (.inr ⟨oldHead, rfl⟩) rfl⟩
  | unlock slot => exact ⟨_, rfl, .unlock rfl rfl⟩

theorem releaseStep_holderMove {holder : HolderId} {source : Option HolderId} {pc : ReleasePc} :
    ∃ pc', (domain.releaseStep thread holder source pc).pcs = Function.update domain.pcs thread pc' ∧
      HolderMove tenant thread domain (domain.releaseStep thread holder source pc) (.release holder pc source) pc'
        (holder :: source.toList) := by
  cases pc with
  | clearHazard slot => exact ⟨_, rfl, .clearHazard rfl rfl⟩
  | clearOwner slot => exact ⟨_, rfl, .clearOwner rfl rfl⟩
  | clearSlot => exact ⟨_, rfl, .clearSlot rfl rfl⟩

/-- A step of `RegisterThread` or of `UnregisterThread`. -/
theorem registerStep_holderMove {wrap : RegisterPc → Pc π} {update : Option (List ThreadId)} {pc : RegisterPc}
    (hwrap : ∀ pc, (wrap pc).apart = true) (h : domain.registerStep thread wrap update pc = some next) :
    ∃ pc', next.pcs = Function.update domain.pcs thread pc' ∧
      HolderMove tenant thread domain next (wrap pc) pc' [] := by
  cases registerMove_of_step h with
  | lock | update => exact ⟨_, rfl, .apart (hwrap _) (hwrap _) rfl rfl⟩
  | unlock => exact ⟨_, rfl, .apart (hwrap _) rfl rfl rfl⟩

/-- A statement works on the holders of its program point. -/
theorem advance_holderMove [DecidableEq π] (tenant : ℕ → Option HolderId)
    (h : domain.advance thread (domain.pcs thread) = some next) :
    ∃ pc', next.pcs = Function.update domain.pcs thread pc' ∧
      HolderMove tenant thread domain next (domain.pcs thread) pc' ((domain.pcs thread).holders tenant) := by
  cases hpc : domain.pcs thread with
  | idle | exited =>
    rw [hpc] at h
    cases h
  | acquire holder pc =>
    rw [hpc] at h
    exact acquireStep_holderMove h
  | release holder pc source =>
    rw [hpc] at h
    cases h
    exact releaseStep_holderMove
  | take holder source =>
    rw [hpc] at h
    cases h
    exact ⟨_, rfl, .pass (.inl rfl) rfl rfl⟩
  | protect slot ptr =>
    rw [hpc] at h
    cases h
    exact ⟨_, rfl, .protect rfl rfl⟩
  | retire pc =>
    rw [hpc] at h
    cases retireMove_of_step h <;> exact ⟨_, rfl, .apart rfl rfl rfl rfl⟩
  | scan pc =>
    rw [hpc] at h
    cases scanMove_of_step h <;> exact ⟨_, rfl, .apart rfl rfl rfl rfl⟩
  | reclaim pc =>
    rw [hpc] at h
    cases reclaimMove_of_step h <;> exact ⟨_, rfl, .apart rfl rfl rfl rfl⟩
  | register pc | unregister pc =>
    rw [hpc, advance] at h
    refine registerStep_holderMove ?_ h
    exact fun _ ↦ rfl

/-- What `release` enters, alone or in a move assignment. -/
theorem enterRelease_holderMove (domain : Domain π) (thread : ThreadId) {holder : HolderId}
    {source : Option HolderId} (hsource : source ≠ some holder) :
    ∃ working ⊆ holder :: source.toList, HolderMove tenant thread domain
      (domain.setPc thread (domain.enterRelease holder source)) .idle (domain.enterRelease holder source) working := by
  unfold enterRelease
  cases hholder : domain.holders holder with
  | some slot => exact ⟨_, List.Subset.refl _, .enterRelease hholder hsource rfl rfl⟩
  | none =>
    cases source with
    | none => exact ⟨[], List.nil_subset _, .apart rfl rfl rfl rfl⟩
    | some source =>
      exact ⟨_, List.Subset.refl _, .enterTake hholder (fun heq ↦ hsource (congrArg some heq.symm)) rfl rfl⟩

/-- A call works on the holders it is given. -/
theorem enter_holderMove (tenant : ℕ → Option HolderId) {op : Op π} (hidle : domain.pcs thread = .idle)
    (h : domain.enter thread op = some next) :
    ∃ pc', ∃ working ⊆ op.holders, next.pcs = Function.update domain.pcs thread pc' ∧
      HolderMove tenant thread domain next .idle pc' working := by
  have hstays : domain.pcs = Function.update domain.pcs thread .idle := by
    rw [← hidle, Function.update_eq_self]
  cases op with
  | construct holder =>
    simp only [enter] at h
    split at h <;> cases h
    rename_i hnone
    exact ⟨_, _, List.Subset.refl _, rfl, .enterAcquire hnone rfl rfl⟩
  | moveConstruct holder source =>
    simp only [enter] at h
    split at h <;> cases h
    rename_i hnone
    exact ⟨_, _, List.Subset.refl _, hstays, .pass (.inr ⟨rfl, hnone⟩) rfl rfl⟩
  | moveAssign holder source =>
    simp only [enter] at h
    split at h <;> cases h
    · exact ⟨_, _, List.nil_subset _, hstays, .apart rfl rfl rfl rfl⟩
    · rename_i hne
      have hsource : some source ≠ some holder := fun heq ↦ hne (Option.some.inj heq).symm
      obtain ⟨working, hworking, hmove⟩ := enterRelease_holderMove domain thread hsource
      exact ⟨_, working, hworking, rfl, hmove⟩
  | release holder =>
    cases h
    have hsource : none ≠ some holder := (Option.some_ne_none holder).symm
    obtain ⟨working, hworking, hmove⟩ := enterRelease_holderMove domain thread hsource
    exact ⟨_, working, hworking, rfl, hmove⟩
  | protect holder ptr =>
    cases h
    cases hholder : domain.holders holder with
    | none => exact ⟨_, _, List.nil_subset _, rfl, .apart rfl rfl rfl rfl⟩
    | some slot => exact ⟨_, _, List.Subset.refl _, rfl, .enterProtect hholder rfl rfl⟩
  | _ =>
    cases h
    exact ⟨_, _, List.nil_subset _, rfl, .apart rfl rfl rfl rfl⟩

end Domain

/-! ## Tenants -/

/-- What a thread that works on holders may rely on. -/
def Pc.Fits (tenant : ℕ → Option HolderId) (domain : Domain π) : Pc π → Prop
  | .acquire holder pc => domain.holders holder = none ∧
      (∀ place, pc.claimed? = some place → tenant place = some holder) ∧
      ∀ place, pc = .claim place → tenant place = none ∧ place < domain.slots.length
  | .release holder (.clearHazard place) _ | .release holder (.clearOwner place) _ =>
      domain.holders holder = some place ∧ tenant place = some holder
  | .protect place _ => ∃ holder, tenant place = some holder ∧ domain.holders holder = some place
  | _ => True

/-- `tenant` names the holder that each slot is let to, if it is let. -/
structure Tenanted (tenant : ℕ → Option HolderId) (domain : Domain π) : Prop where
  holders : ∀ holder place, domain.holders holder = some place →
    tenant place = some holder ∨ ∃ thread, (domain.pcs thread).forgets holder = true
  owned : ∀ place holder, tenant place = some holder →
    ∃ slot, domain.slots[place]? = some slot ∧ slot.owner ≠ none
  pcs : ∀ thread, (domain.pcs thread).Fits tenant domain
  users : ∀ thread other holder, holder ∈ (domain.pcs thread).holders tenant →
    holder ∈ (domain.pcs other).holders tenant → thread = other

theorem tenanted_empty : Tenanted (fun _ ↦ none) ({} : Domain π) where
  holders _ _ h := by cases h
  owned _ _ h := by cases h
  pcs _ := trivial
  users _ _ _ h := by cases h

section Apart

variable {pc : Pc π} (h : pc.apart = true)
include h

theorem Pc.fits_of_apart {tenant : ℕ → Option HolderId} {domain : Domain π} : pc.Fits tenant domain := by
  cases pc with
  | acquire | release | take | protect => cases h
  | _ => trivial

theorem Pc.holders_of_apart {tenant : ℕ → Option HolderId} : pc.holders tenant = [] := by
  cases pc with
  | acquire | release | take | protect => cases h
  | _ => rfl

theorem Pc.forgets_of_apart (holder : HolderId) : pc.forgets holder = false := by
  cases pc with
  | acquire | release | take | protect => cases h
  | _ => rfl

end Apart

theorem Pc.mem_holders_of_forgets {tenant : ℕ → Option HolderId} {pc : Pc π} {holder : HolderId}
    (h : pc.forgets holder = true) : holder ∈ pc.holders tenant := by
  cases pc with
  | release other pc source =>
    cases pc with
    | clearSlot =>
      rw [beq_iff_eq.mp h]
      exact List.mem_cons_self
    | _ => cases h
  | _ => cases h

section Frame

variable {domain next : Domain π} {thread : ThreadId} {tenant tenant' : ℕ → Option HolderId} {pc pc' : Pc π}

/-- A thread that stands still, when its holders keep what they have. -/
theorem Pc.Fits.frame (h : pc.Fits tenant domain)
    (hkeeps : ∀ holder ∈ pc.holders tenant, next.holders holder = domain.holders holder ∧
      ∀ place, tenant place = some holder → tenant' place = some holder)
    (hclaim : ∀ holder place, pc = .acquire holder (.claim place) →
      tenant' place = none ∧ place < next.slots.length) :
    pc.Fits tenant' next ∧ pc.holders tenant' = pc.holders tenant := by
  cases pc with
  | acquire holder pc =>
    obtain ⟨hnone, hclaimed, -⟩ := h
    obtain ⟨hholder, htenant⟩ := hkeeps holder List.mem_cons_self
    refine ⟨⟨hholder.trans hnone, fun place hplace ↦ htenant place (hclaimed place hplace), ?_⟩, rfl⟩
    rintro place rfl
    exact hclaim holder place rfl
  | release holder pc source =>
    obtain ⟨hholder, htenant⟩ := hkeeps holder List.mem_cons_self
    cases pc with
    | clearHazard place | clearOwner place => exact ⟨⟨hholder.trans h.1, htenant place h.2⟩, rfl⟩
    | clearSlot => exact ⟨trivial, rfl⟩
  | protect place ptr =>
    obtain ⟨holder, hlet, hplace⟩ := h
    obtain ⟨hholder, htenant⟩ := hkeeps holder (Option.mem_toList.mpr hlet)
    have hlet' := htenant place hlet
    refine ⟨⟨holder, hlet', hholder.trans hplace⟩, ?_⟩
    rw [Pc.holders, Pc.holders, hlet, hlet']
  | _ => exact ⟨trivial, rfl⟩

/-- The other threads stand still and have holders of their own. -/
theorem Tenanted.rebuild (h : Tenanted tenant domain) (hpcs : next.pcs = Function.update domain.pcs thread pc')
    (hkeeps : ∀ other, other ≠ thread → ∀ holder ∈ (domain.pcs other).holders tenant,
      next.holders holder = domain.holders holder ∧ ∀ place, tenant place = some holder → tenant' place = some holder)
    (hclaims : ∀ other, other ≠ thread → ∀ holder place, domain.pcs other = .acquire holder (.claim place) →
      tenant' place = none ∧ place < next.slots.length)
    (hholders : ∀ holder place, next.holders holder = some place →
      tenant' place = some holder ∨ ∃ other, (next.pcs other).forgets holder = true)
    (howned : ∀ place holder, tenant' place = some holder →
      ∃ slot, next.slots[place]? = some slot ∧ slot.owner ≠ none)
    (hfits : pc'.Fits tenant' next)
    (hfree : ∀ holder ∈ pc'.holders tenant', ∀ other, other ≠ thread → holder ∉ (domain.pcs other).holders tenant) :
    Tenanted tenant' next := by
  have hframe (other : ThreadId) (hother : other ≠ thread) :=
    (h.pcs other).frame (hkeeps other hother) (hclaims other hother)
  refine ⟨hholders, howned, ?_, fun first second holder hfirst hsecond ↦ ?_⟩
  · rw [hpcs, Function.forall_update_iff domain.pcs (p := fun _ pc ↦ pc.Fits tenant' next)]
    exact ⟨hfits, fun other hother ↦ (hframe other hother).1⟩
  · rw [hpcs] at hfirst hsecond
    refine holder_unique_update (H := fun (pc : Pc π) holder ↦ holder ∈ pc.holders tenant') ?_ ?_ hfirst hsecond
    · intro first second holder hne hne' hfirst hsecond
      rw [(hframe first hne).2] at hfirst
      rw [(hframe second hne').2] at hsecond
      exact h.users first second holder hfirst hsecond
    · intro holder hholder other hother
      rw [(hframe other hother).2]
      exact hfree holder hholder other hother

/-- `hazard_ptr_` of the slot. -/
def Domain.hazardAt (domain : Domain π) (place : ℕ) : Option π := domain.slots[place]?.bind HazardSlot.hazardPtr

/-- The holder and its slot are left alone. -/
structure Untouched (tenant tenant' : ℕ → Option HolderId) (domain next : Domain π) (holder : HolderId) : Prop where
  holders : next.holders holder = domain.holders holder
  slots : ∀ place, tenant place = some holder →
    tenant' place = some holder ∧ next.hazardAt place = domain.hazardAt place

variable {working : List HolderId}

/-- Who has still to forget a holder stands still, unless it is the thread that moves. -/
theorem forgets_update {holder : HolderId} (hpcs : next.pcs = Function.update domain.pcs thread pc')
    (hthread : (domain.pcs thread).forgets holder = false)
    (h : ∃ user, (domain.pcs user).forgets holder = true) : ∃ user, (next.pcs user).forgets holder = true := by
  obtain ⟨user, huser⟩ := h
  refine ⟨user, ?_⟩
  rw [hpcs, Function.update_of_ne, huser]
  rintro rfl
  cases hthread.symm.trans huser

/-- A step that leaves alone every holder it does not work on. -/
theorem Tenanted.move (h : Tenanted tenant domain) (hexcludes : domain.Excludes)
    (hpcs : next.pcs = Function.update domain.pcs thread pc')
    (hfree : ∀ holder ∈ working, ∀ other, other ≠ thread → holder ∉ (domain.pcs other).holders tenant)
    (huntouched : ∀ holder, holder ∉ working → Untouched tenant tenant' domain next holder)
    (hlength : domain.slots.length ≤ next.slots.length)
    (hclaims : (∀ place, tenant place = none → tenant' place = none) ∨ (domain.pcs thread).holds .list = true)
    (hholders : ∀ holder place, next.holders holder = some place →
      tenant' place = some holder ∨ ∃ other, (next.pcs other).forgets holder = true)
    (howned : ∀ place holder, tenant' place = some holder →
      ∃ slot, next.slots[place]? = some slot ∧ slot.owner ≠ none)
    (hfits : pc'.Fits tenant' next) (hworking : pc'.holders tenant' ⊆ working) : Tenanted tenant' next := by
  refine h.rebuild hpcs (fun other hother holder hmem ↦ ?_) (fun other hother holder place hpc ↦ ?_) hholders howned
    hfits fun holder hmem ↦ hfree holder (hworking hmem)
  · have hkept := huntouched holder fun hmem' ↦ hfree holder hmem' other hother hmem
    exact ⟨hkept.holders, fun place hplace ↦ (hkept.slots place hplace).1⟩
  · have hfits := h.pcs other
    rw [hpc] at hfits
    obtain ⟨hnone, hlt⟩ := hfits.2.2 place rfl
    refine ⟨?_, Nat.lt_of_lt_of_le hlt hlength⟩
    rcases hclaims with hclaims | hlocked
    · exact hclaims place hnone
    · -- two threads past the lock of `list_mutex_`
      have hlocked' : (domain.pcs other).holds .list = true := by
        rw [hpc]
        rfl
      exact absurd ((hexcludes .list).unique hlocked' hlocked) hother

/-- The slots keep their owners. -/
def SameOwners (domain next : Domain π) : Prop :=
  ∀ (place : ℕ) (slot : HazardSlot π), domain.slots[place]? = some slot →
    ∃ slot', next.slots[place]? = some slot' ∧ slot'.owner = slot.owner

theorem sameOwners_of_eq (hslots : next.slots = domain.slots) : SameOwners domain next :=
  fun _ slot hslot ↦ ⟨slot, hslots ▸ hslot, rfl⟩

theorem sameOwners_modify {place : ℕ} {f : HazardSlot π → HazardSlot π} (hslots : next.slots = domain.slots.modify place f)
    (hf : ∀ slot, (f slot).owner = slot.owner) : SameOwners domain next := by
  intro other slot hslot
  rw [hslots, getElem?_modify_of_getElem? hslot]
  refine ⟨_, rfl, ?_⟩
  split
  · exact hf slot
  · rfl

theorem hazardAt_of_eq (hslots : next.slots = domain.slots) (place : ℕ) : next.hazardAt place = domain.hazardAt place := by
  rw [Domain.hazardAt, hslots, Domain.hazardAt]

theorem hazardAt_modify {place other : ℕ} {f : HazardSlot π → HazardSlot π}
    (hslots : next.slots = domain.slots.modify place f)
    (hf : place = other → ∀ slot, (f slot).hazardPtr = slot.hazardPtr) :
    next.hazardAt other = domain.hazardAt other := by
  rw [Domain.hazardAt, hslots, List.getElem?_modify, Domain.hazardAt]
  cases domain.slots[other]? with
  | none => rfl
  | some slot =>
    change (if place = other then f slot else slot).hazardPtr = slot.hazardPtr
    split
    · rename_i hplace
      exact hf hplace slot
    · rfl

theorem SameOwners.length_le (h : SameOwners domain next) : domain.slots.length ≤ next.slots.length := by
  by_contra hlt
  obtain ⟨slot', hslot', -⟩ := h next.slots.length _ (List.getElem?_eq_getElem (Nat.lt_of_not_le hlt))
  exact Nat.lt_irrefl _ (lt_length_of_getElem? hslot')

/-- A step after which every holder has what it had. -/
theorem Tenanted.keep (h : Tenanted tenant domain) (hexcludes : domain.Excludes)
    (hpcs : next.pcs = Function.update domain.pcs thread pc')
    (hfree : ∀ holder ∈ working, ∀ other, other ≠ thread → holder ∉ (domain.pcs other).holders tenant)
    (howners : SameOwners domain next) (hholders : next.holders = domain.holders)
    (hhazards : ∀ holder, holder ∉ working → ∀ place, tenant place = some holder →
      next.hazardAt place = domain.hazardAt place)
    (hforgets : ∀ holder, (domain.pcs thread).forgets holder = false)
    (hfits : pc'.Fits tenant next) (hworking : pc'.holders tenant ⊆ working) :
    ∃ tenant', Tenanted tenant' next ∧ ∀ holder, holder ∉ working → Untouched tenant tenant' domain next holder := by
  have huntouched (holder : HolderId) (hnot : holder ∉ working) : Untouched tenant tenant domain next holder :=
    ⟨by rw [hholders], fun place hplace ↦ ⟨hplace, hhazards holder hnot place hplace⟩⟩
  refine ⟨tenant, h.move hexcludes hpcs hfree huntouched howners.length_le (.inl fun _ hnone ↦ hnone) ?_ ?_ hfits
    hworking, huntouched⟩
  · intro holder place hplace
    rw [hholders] at hplace
    exact (h.holders holder place hplace).imp_right (forgets_update hpcs (hforgets holder))
  · intro place holder hlet
    obtain ⟨slot, hslot, howner⟩ := h.owned place holder hlet
    obtain ⟨slot', hslot', heq⟩ := howners place slot hslot
    exact ⟨slot', hslot', heq ▸ howner⟩

/-- A step that leaves all slots alone. -/
theorem Tenanted.keepSlots (h : Tenanted tenant domain) (hexcludes : domain.Excludes)
    (hpcs : next.pcs = Function.update domain.pcs thread pc')
    (hfree : ∀ holder ∈ working, ∀ other, other ≠ thread → holder ∉ (domain.pcs other).holders tenant)
    (hslots : next.slots = domain.slots) (hholders : next.holders = domain.holders)
    (hforgets : ∀ holder, (domain.pcs thread).forgets holder = false)
    (hfits : pc'.Fits tenant next) (hworking : pc'.holders tenant ⊆ working) :
    ∃ tenant', Tenanted tenant' next ∧ ∀ holder, holder ∉ working → Untouched tenant tenant' domain next holder :=
  h.keep hexcludes hpcs hfree (sameOwners_of_eq hslots) hholders (fun _ _ place _ ↦ hazardAt_of_eq hslots place)
    hforgets hfits hworking

/-! ## The steps that let a slot, give it back or pass it on -/

/-- A slot is let to a holder whose `acquire` has the mutex. -/
theorem Tenanted.grant (h : Tenanted tenant domain) (hexcludes : domain.Excludes)
    (hpcs : next.pcs = Function.update domain.pcs thread pc')
    (hfree : ∀ holder ∈ working, ∀ other, other ≠ thread → holder ∉ (domain.pcs other).holders tenant)
    (holder : HolderId) {place : ℕ} (hvacant : tenant place = none) (hlocked : (domain.pcs thread).holds .list = true)
    (hkept : ∀ other, other ≠ place → ∀ slot, domain.slots[other]? = some slot → next.slots[other]? = some slot)
    (hnew : ∃ slot, next.slots[place]? = some slot ∧ slot.owner ≠ none) (hlength : domain.slots.length ≤ next.slots.length)
    (hholders : next.holders = domain.holders) (hforgets : ∀ holder, (domain.pcs thread).forgets holder = false)
    (hfits : pc'.Fits (Function.update tenant place (some holder)) next)
    (hworking : pc'.holders (Function.update tenant place (some holder)) ⊆ working) :
    ∃ tenant', Tenanted tenant' next ∧ ∀ holder, holder ∉ working → Untouched tenant tenant' domain next holder := by
  have hother {other : ℕ} {tenant'' : HolderId} (hlet : tenant other = some tenant'') : other ≠ place := by
    rintro rfl
    cases hvacant.symm.trans hlet
  have huntouched (other : HolderId) : Untouched tenant (Function.update tenant place (some holder)) domain next other := by
    refine ⟨by rw [hholders], fun place' hlet ↦ ?_⟩
    obtain ⟨slot, hslot, -⟩ := h.owned place' other hlet
    rw [Function.update_of_ne (hother hlet), Domain.hazardAt, Domain.hazardAt, hslot, hkept place' (hother hlet) slot hslot]
    exact ⟨hlet, rfl⟩
  refine ⟨_, h.move hexcludes hpcs hfree (fun other _ ↦ huntouched other) hlength (.inr hlocked) ?_ ?_ hfits hworking,
    fun other _ ↦ huntouched other⟩
  · intro other place' hplace
    rw [hholders] at hplace
    refine (h.holders other place' hplace).imp (fun hlet ↦ ?_) (forgets_update hpcs (hforgets other))
    rw [Function.update_of_ne (hother hlet), hlet]
  · intro place' other hlet
    rcases eq_or_ne place' place with rfl | hne
    · exact hnew
    · rw [Function.update_of_ne hne] at hlet
      obtain ⟨slot, hslot, howner⟩ := h.owned place' other hlet
      exact ⟨slot, hkept place' hne slot hslot, howner⟩

/-- `acquire` returns the slot to the holder. -/
theorem Tenanted.receive (h : Tenanted tenant domain) (hexcludes : domain.Excludes)
    (hpcs : next.pcs = Function.update domain.pcs thread .idle) {holder : HolderId} {place : ℕ}
    (hpc : domain.pcs thread = .acquire holder (.unlock place)) (hslots : next.slots = domain.slots)
    (hholders : next.holders = Function.update domain.holders holder (some place))
    (hfree : ∀ other ∈ [holder], ∀ user, user ≠ thread → other ∉ (domain.pcs user).holders tenant) :
    ∃ tenant', Tenanted tenant' next ∧
      ∀ other, other ∉ [holder] → Untouched tenant tenant' domain next other := by
  have hfits := h.pcs thread
  rw [hpc] at hfits
  have huntouched (other : HolderId) (hother : other ∉ [holder]) : Untouched tenant tenant domain next other := by
    refine ⟨?_, fun place' hlet ↦ ⟨hlet, hazardAt_of_eq hslots place'⟩⟩
    rw [hholders, Function.update_of_ne fun heq ↦ hother (List.mem_singleton.mpr heq)]
  refine ⟨tenant, h.move hexcludes hpcs hfree huntouched (Nat.le_of_eq (by rw [hslots]))
    (.inl fun _ hnone ↦ hnone) ?_ (hslots ▸ h.owned) trivial (List.nil_subset _), huntouched⟩
  intro other place' hplace
  rw [hholders] at hplace
  rcases eq_or_ne other holder with rfl | hne
  · rw [Function.update_self] at hplace
    exact .inl (hfits.2.1 place' hplace)
  · rw [Function.update_of_ne hne] at hplace
    exact (h.holders other place' hplace).imp_right (forgets_update hpcs (by rw [hpc]; rfl))

/-- `release` gives the slot back. -/
theorem Tenanted.giveBack (h : Tenanted tenant domain) (hexcludes : domain.Excludes) {holder : HolderId} {place : ℕ}
    {source : Option HolderId}
    (hpcs : next.pcs = Function.update domain.pcs thread (.release holder .clearSlot source))
    (hpc : domain.pcs thread = .release holder (.clearOwner place) source)
    (hslots : next.slots = domain.slots.modify place fun slot ↦ { slot with owner := none })
    (hholders : next.holders = domain.holders)
    (hfree : ∀ other ∈ holder :: source.toList, ∀ user, user ≠ thread → other ∉ (domain.pcs user).holders tenant) :
    ∃ tenant', Tenanted tenant' next ∧
      ∀ other, other ∉ holder :: source.toList → Untouched tenant tenant' domain next other := by
  have hfits := h.pcs thread
  rw [hpc] at hfits
  obtain ⟨-, hlet⟩ := hfits
  have hother {place' : ℕ} {other : HolderId} (hlet' : tenant place' = some other) (hne : other ≠ holder) :
      place' ≠ place := by
    rintro rfl
    exact hne (Option.some.inj (hlet'.symm.trans hlet))
  have huntouched (other : HolderId) (hnot : other ∉ holder :: source.toList) :
      Untouched tenant (Function.update tenant place none) domain next other := by
    refine ⟨by rw [hholders], fun place' hlet' ↦ ⟨?_, hazardAt_modify hslots fun _ _ ↦ rfl⟩⟩
    rw [Function.update_of_ne (hother hlet' fun heq ↦ hnot (heq ▸ List.mem_cons_self)), hlet']
  refine ⟨_, h.move hexcludes hpcs hfree huntouched (Nat.le_of_eq (by rw [hslots, List.length_modify])) ?_ ?_ ?_
    trivial (List.Subset.refl _), huntouched⟩
  · left
    intro place' hnone
    rcases eq_or_ne place' place with rfl | hne
    · rw [Function.update_self]
    · rw [Function.update_of_ne hne, hnone]
  · intro other place' hplace'
    rw [hholders] at hplace'
    rcases eq_or_ne other holder with rfl | hne
    · refine .inr ⟨thread, ?_⟩
      rw [hpcs, Function.update_self]
      exact beq_self_eq_true other
    · refine (h.holders other place' hplace').imp (fun hlet' ↦ ?_) (forgets_update hpcs (by rw [hpc]; rfl))
      rw [Function.update_of_ne (hother hlet' hne), hlet']
  · intro place' other hlet'
    rcases eq_or_ne place' place with rfl | hne
    · rw [Function.update_self] at hlet'
      cases hlet'
    · rw [Function.update_of_ne hne] at hlet'
      rw [hslots, List.getElem?_modify_ne _ _ hne.symm]
      exact h.owned place' other hlet'

/-- `release` forgets the slot. -/
theorem Tenanted.forget (h : Tenanted tenant domain) (hexcludes : domain.Excludes) {holder : HolderId}
    {source : Option HolderId}
    (hpcs : next.pcs = Function.update domain.pcs thread (source.elim .idle (.take holder)))
    (hpc : domain.pcs thread = .release holder .clearSlot source) (hslots : next.slots = domain.slots)
    (hholders : next.holders = Function.update domain.holders holder none)
    (hfree : ∀ other ∈ holder :: source.toList, ∀ user, user ≠ thread → other ∉ (domain.pcs user).holders tenant) :
    ∃ tenant', Tenanted tenant' next ∧
      ∀ other, other ∉ holder :: source.toList → Untouched tenant tenant' domain next other := by
  have huntouched (other : HolderId) (hnot : other ∉ holder :: source.toList) :
      Untouched tenant tenant domain next other := by
    refine ⟨?_, fun place' hlet ↦ ⟨hlet, hazardAt_of_eq hslots place'⟩⟩
    rw [hholders, Function.update_of_ne]
    rintro rfl
    exact hnot List.mem_cons_self
  refine ⟨tenant, h.move hexcludes hpcs hfree huntouched (Nat.le_of_eq (by rw [hslots]))
    (.inl fun _ hnone ↦ hnone) ?_ (hslots ▸ h.owned) ?_ ?_, huntouched⟩
  · intro other place' hplace
    rw [hholders] at hplace
    have hne : other ≠ holder := by
      rintro rfl
      rw [Function.update_self] at hplace
      cases hplace
    rw [Function.update_of_ne hne] at hplace
    refine (h.holders other place' hplace).imp_right (forgets_update hpcs ?_)
    rw [hpc]
    exact beq_false_of_ne hne.symm
  · cases source <;> trivial
  · cases source with
    | none => exact List.nil_subset _
    | some source => exact List.Subset.refl _

/-- What a holder receives by a move. -/
def passTo (tenant : ℕ → Option HolderId) (holder source : HolderId) (place : ℕ) : Option HolderId :=
  if tenant place = some source then some holder else tenant place

/-- A move passes the slot of the source on. -/
theorem Tenanted.pass (h : Tenanted tenant domain) (hexcludes : domain.Excludes) {holder source : HolderId}
    (hpcs : next.pcs = Function.update domain.pcs thread .idle)
    (hpc : domain.pcs thread = .take holder source ∨ domain.pcs thread = .idle)
    (hslots : next.slots = domain.slots)
    (hholders : next.holders =
      Function.update (Function.update domain.holders holder (domain.holders source)) source none)
    (hfree : ∀ other ∈ [holder, source], ∀ user, user ≠ thread → other ∉ (domain.pcs user).holders tenant) :
    ∃ tenant', Tenanted tenant' next ∧
      ∀ other, other ∉ [holder, source] → Untouched tenant tenant' domain next other := by
  have hforgets (other : HolderId) : (domain.pcs thread).forgets other = false := by
    rcases hpc with hpc | hpc <;> rw [hpc] <;> rfl
  have huntouched (other : HolderId) (hnot : other ∉ [holder, source]) :
      Untouched tenant (passTo tenant holder source) domain next other := by
    rw [List.mem_pair, not_or] at hnot
    refine ⟨?_, fun place hlet ↦ ⟨?_, hazardAt_of_eq hslots place⟩⟩
    · rw [hholders, Function.update_of_ne hnot.2, Function.update_of_ne hnot.1]
    · rw [passTo, hlet, if_neg fun heq ↦ hnot.2 (Option.some.inj heq)]
  refine ⟨_, h.move hexcludes hpcs hfree huntouched (Nat.le_of_eq (by rw [hslots])) ?_ ?_ ?_ trivial
    (List.nil_subset _), huntouched⟩
  · left
    intro place hvacant
    rw [passTo, hvacant]
    rfl
  · intro other place hplace
    rw [hholders] at hplace
    rcases eq_or_ne other source with rfl | hother
    · rw [Function.update_self] at hplace
      cases hplace
    rw [Function.update_of_ne hother] at hplace
    rcases eq_or_ne other holder with rfl | hother'
    · rw [Function.update_self] at hplace
      rcases h.holders source place hplace with hlet | ⟨user, huser⟩
      · exact .inl (if_pos hlet)
      · -- nobody but this thread uses the source, and it is not in a release
        rcases eq_or_ne user thread with rfl | huser'
        · cases (hforgets source).symm.trans huser
        · have hmem : source ∈ [other, source] := List.mem_cons_of_mem _ List.mem_cons_self
          exact absurd (Pc.mem_holders_of_forgets huser) (hfree source hmem user huser')
    · rw [Function.update_of_ne hother'] at hplace
      refine (h.holders other place hplace).imp (fun hlet ↦ ?_) (forgets_update hpcs (hforgets other))
      rw [passTo, hlet, if_neg fun heq ↦ hother (Option.some.inj heq)]
  · intro place other hlet
    rw [hslots]
    rw [passTo] at hlet
    split at hlet
    · rename_i hsource
      exact h.owned place source hsource
    · exact h.owned place other hlet

/-! ## Every step -/

theorem Tenanted.vacant_length (h : Tenanted tenant domain) : tenant domain.slots.length = none := by
  cases hlet : tenant domain.slots.length with
  | none => rfl
  | some holder =>
    obtain ⟨slot, hslot, -⟩ := h.owned _ _ hlet
    exact absurd (lt_length_of_getElem? hslot) (Nat.lt_irrefl _)

/-- A slot without owner is not let. -/
theorem Tenanted.vacant_of_owner (h : Tenanted tenant domain) {place : ℕ} {slot : HazardSlot π}
    (hslot : domain.slots[place]? = some slot) (howner : slot.owner = none) : tenant place = none := by
  cases hlet : tenant place with
  | none => rfl
  | some holder =>
    obtain ⟨slot', hslot', howner'⟩ := h.owned place holder hlet
    obtain rfl : slot = slot' := Option.some.inj (hslot.symm.trans hslot')
    exact absurd howner howner'

/-- A holder that nobody works on is the tenant of its slot. -/
theorem Tenanted.let_of_free (h : Tenanted tenant domain) {holder : HolderId} {place : ℕ}
    (hholder : domain.holders holder = some place)
    (hfree : ∀ user, (domain.pcs user).forgets holder = false) : tenant place = some holder := by
  refine (h.holders holder place hholder).resolve_right ?_
  rintro ⟨user, huser⟩
  cases (hfree user).symm.trans huser

/-- `acquire` sets the owner of a slot that has none. -/
theorem Tenanted.claim (h : Tenanted tenant domain) (hexcludes : domain.Excludes) {holder : HolderId} {place : ℕ}
    (hpcs : next.pcs = Function.update domain.pcs thread (.acquire holder (.unlock place)))
    (hpc : domain.pcs thread = .acquire holder (.claim place))
    (hslots : next.slots = domain.slots.modify place fun slot ↦ { slot with owner := some thread })
    (hholders : next.holders = domain.holders)
    (hfree : ∀ other ∈ [holder], ∀ user, user ≠ thread → other ∉ (domain.pcs user).holders tenant) :
    ∃ tenant', Tenanted tenant' next ∧
      ∀ other, other ∉ [holder] → Untouched tenant tenant' domain next other := by
  have hfits := h.pcs thread
  rw [hpc] at hfits
  obtain ⟨hnone, -, hclaim⟩ := hfits
  obtain ⟨hvacant, hlt⟩ := hclaim place rfl
  refine h.grant hexcludes hpcs hfree holder hvacant (by rw [hpc]; rfl) (fun other hne slot hslot ↦ ?_) ?_
    (Nat.le_of_eq (by rw [hslots, List.length_modify])) hholders (by rw [hpc]; exact fun _ ↦ rfl) ?_
    (List.Subset.refl _)
  · rw [hslots, List.getElem?_modify_ne _ _ hne.symm, hslot]
  · rw [hslots, getElem?_modify_of_getElem? (List.getElem?_eq_getElem hlt), if_pos rfl]
    exact ⟨_, rfl, Option.some_ne_none thread⟩
  · refine ⟨hholders ▸ hnone, ?_, nofun⟩
    rintro _ ⟨⟩
    exact Function.update_self ..

/-- `acquire` makes a slot. -/
theorem Tenanted.allocate (h : Tenanted tenant domain) (hexcludes : domain.Excludes) {holder : HolderId}
    (hpcs : next.pcs = Function.update domain.pcs thread (.acquire holder (.readOldHead domain.slots.length)))
    (hpc : domain.pcs thread = .acquire holder .allocate)
    (hslots : next.slots = domain.slots ++ [({ owner := some thread } : HazardSlot π)])
    (hholders : next.holders = domain.holders)
    (hfree : ∀ other ∈ [holder], ∀ user, user ≠ thread → other ∉ (domain.pcs user).holders tenant) :
    ∃ tenant', Tenanted tenant' next ∧
      ∀ other, other ∉ [holder] → Untouched tenant tenant' domain next other := by
  have hfits := h.pcs thread
  rw [hpc] at hfits
  refine h.grant hexcludes hpcs hfree holder h.vacant_length (by rw [hpc]; rfl) (fun other hne slot hslot ↦ ?_) ?_
    (by rw [hslots, List.length_append]; exact Nat.le_add_right ..) hholders (by rw [hpc]; exact fun _ ↦ rfl) ?_
    (List.Subset.refl _)
  · rw [hslots, List.getElem?_append_left (lt_length_of_getElem? hslot), hslot]
  · rw [hslots, List.getElem?_concat_length]
    exact ⟨_, rfl, Option.some_ne_none thread⟩
  · refine ⟨hholders ▸ hfits.1, ?_, nofun⟩
    rintro _ ⟨⟩
    exact Function.update_self ..

/-- `acquire` links the slot it has made. -/
theorem Tenanted.publish (h : Tenanted tenant domain) (hexcludes : domain.Excludes) {holder : HolderId} {place : ℕ}
    {pc pc' : AcquirePc} (hpcs : next.pcs = Function.update domain.pcs thread (.acquire holder pc'))
    (hpc : domain.pcs thread = .acquire holder pc) (hclaimed : pc.claimed? = some place)
    (hclaimed' : pc'.claimed? = some place)
    (hslots : next.slots = domain.slots ∨
      ∃ oldHead, next.slots = domain.slots.modify place fun slot ↦ { slot with next := oldHead })
    (hholders : next.holders = domain.holders)
    (hfree : ∀ other ∈ [holder], ∀ user, user ≠ thread → other ∉ (domain.pcs user).holders tenant) :
    ∃ tenant', Tenanted tenant' next ∧
      ∀ other, other ∉ [holder] → Untouched tenant tenant' domain next other := by
  have hfits := h.pcs thread
  rw [hpc] at hfits
  have howners : SameOwners domain next := by
    rcases hslots with hslots | ⟨oldHead, hslots⟩
    · exact sameOwners_of_eq hslots
    · exact sameOwners_modify hslots fun _ ↦ rfl
  refine h.keep hexcludes hpcs hfree howners hholders (fun _ _ other _ ↦ ?_) (by rw [hpc]; exact fun _ ↦ rfl) ?_
    (List.Subset.refl _)
  · rcases hslots with hslots | ⟨oldHead, hslots⟩
    · exact hazardAt_of_eq hslots other
    · exact hazardAt_modify hslots fun _ _ ↦ rfl
  · refine ⟨hholders ▸ hfits.1, fun other hother ↦ hfits.2.1 other ?_, ?_⟩
    · rw [hclaimed, ← hclaimed', hother]
    · rintro other rfl
      cases hclaimed'

theorem HolderMove.tenanted (hmove : HolderMove tenant thread domain next pc pc' working) (h : Tenanted tenant domain)
    (hexcludes : domain.Excludes) (hpc : domain.pcs thread = pc)
    (hpcs : next.pcs = Function.update domain.pcs thread pc')
    (hfree : ∀ holder ∈ working, ∀ other, other ≠ thread → holder ∉ (domain.pcs other).holders tenant) :
    ∃ tenant', Tenanted tenant' next ∧ ∀ holder, holder ∉ working → Untouched tenant tenant' domain next holder := by
  have hfits := h.pcs thread
  rw [hpc] at hfits
  -- a holder that a call from outside works on is nobody's business else
  have hlet (hidle : domain.pcs thread = .idle) {holder : HolderId} {place : ℕ} (hmem : holder ∈ working)
      (hholder : domain.holders holder = some place) : tenant place = some holder := by
    refine h.let_of_free hholder fun user ↦ ?_
    by_contra hforgets
    rcases eq_or_ne user thread with rfl | hne
    · rw [hidle] at hforgets
      exact hforgets rfl
    · exact hfree holder hmem user hne (Pc.mem_holders_of_forgets (Bool.not_eq_false _ ▸ hforgets))
  cases hmove with
  | apart hapart hapart' hslots hholders =>
    have hbefore : ∀ holder, (domain.pcs thread).forgets holder = false := by
      rw [hpc]
      exact Pc.forgets_of_apart hapart
    refine h.keepSlots hexcludes hpcs hfree hslots hholders hbefore (Pc.fits_of_apart hapart') ?_
    rw [Pc.holders_of_apart hapart']
    exact List.nil_subset _
  | search hclaimed hclaimed' hslots hholders hclaim =>
    refine h.keepSlots hexcludes hpcs hfree hslots hholders (by rw [hpc]; exact fun _ ↦ rfl) ?_ (List.Subset.refl _)
    refine ⟨hholders ▸ hfits.1, fun place hplace ↦ ?_, fun place hplace ↦ ?_⟩
    · cases hclaimed'.symm.trans hplace
    · obtain ⟨slot, hslot, howner⟩ := hclaim place hplace
      exact ⟨h.vacant_of_owner hslot howner, hslots ▸ lt_length_of_getElem? hslot⟩
  | claim hslots hholders => exact h.claim hexcludes hpcs hpc hslots hholders hfree
  | allocate hslots hholders => exact h.allocate hexcludes hpcs hpc hslots hholders hfree
  | publish hclaimed hclaimed' hslots hholders =>
    exact h.publish hexcludes hpcs hpc hclaimed hclaimed' hslots hholders hfree
  | unlock hslots hholders => exact h.receive hexcludes hpcs hpc hslots hholders hfree
  | @clearHazard holder place source hslots hholders =>
    refine h.keep hexcludes hpcs hfree (sameOwners_modify hslots fun _ ↦ rfl) hholders (fun other hnot place' hlet' ↦ ?_)
      (by rw [hpc]; exact fun _ ↦ rfl) ⟨hholders ▸ hfits.1, hfits.2⟩ (List.Subset.refl _)
    refine hazardAt_modify hslots ?_
    rintro rfl
    obtain rfl := Option.some.inj (hfits.2.symm.trans hlet')
    exact absurd List.mem_cons_self hnot
  | clearOwner hslots hholders => exact h.giveBack hexcludes hpcs hpc hslots hholders hfree
  | clearSlot hslots hholders => exact h.forget hexcludes hpcs hpc hslots hholders hfree
  | pass hpc' hslots hholders =>
    rw [← hpc] at hpc'
    exact h.pass hexcludes hpcs (hpc'.imp_right And.left) hslots hholders hfree
  | @protect place ptr hslots hholders =>
    refine h.keep hexcludes hpcs hfree (sameOwners_modify hslots fun _ ↦ rfl) hholders (fun other hnot place' hlet' ↦ ?_)
      (by rw [hpc]; exact fun _ ↦ rfl) trivial (List.nil_subset _)
    refine hazardAt_modify hslots ?_
    rintro rfl
    exact absurd (Option.mem_toList.mpr hlet') hnot
  | enterAcquire hnone hslots hholders =>
    exact h.keepSlots hexcludes hpcs hfree hslots hholders (by rw [hpc]; exact fun _ ↦ rfl)
      ⟨hholders ▸ hnone, nofun, nofun⟩ (List.Subset.refl _)
  | enterRelease hholder hsource hslots hholders =>
    exact h.keepSlots hexcludes hpcs hfree hslots hholders (by rw [hpc]; exact fun _ ↦ rfl)
      ⟨hholders ▸ hholder, hlet hpc List.mem_cons_self hholder⟩ (List.Subset.refl _)
  | enterTake hnone hne hslots hholders =>
    exact h.keepSlots hexcludes hpcs hfree hslots hholders (by rw [hpc]; exact fun _ ↦ rfl) trivial
      (List.Subset.refl _)
  | @enterProtect holder place ptr hholder hslots hholders =>
    have hlet' := hlet hpc List.mem_cons_self hholder
    refine h.keepSlots hexcludes hpcs hfree hslots hholders (by rw [hpc]; exact fun _ ↦ rfl)
      ⟨holder, hlet', hholders ▸ hholder⟩ ?_
    rw [Pc.holders, hlet']
    exact List.Subset.refl _

end Frame

/-- What a step does to slots and holders. -/
theorem step_holderMove [DecidableEq π] {domain next : Domain π} {action : Action π} (tenant : ℕ → Option HolderId)
    (hstep : step domain action = some next) :
    ∃ pc', ∃ working ⊆ worksOn tenant domain action, next.pcs = Function.update domain.pcs action.thread pc' ∧
      HolderMove tenant action.thread domain next (domain.pcs action.thread) pc' working := by
  cases action with
  | call thread op =>
    obtain ⟨hidle, henter⟩ := enter_of_call hstep
    rw [Action.thread, hidle]
    exact Domain.enter_holderMove tenant hidle henter
  | step thread =>
    obtain ⟨pc', hpcs, hmove⟩ := Domain.advance_holderMove tenant hstep
    exact ⟨pc', _, List.Subset.refl _, hpcs, hmove⟩
  | exit thread =>
    obtain ⟨hidle, rfl⟩ := eq_of_exit hstep
    rw [Action.thread, hidle]
    exact ⟨.exited, [], List.nil_subset _, rfl, .apart rfl rfl rfl rfl⟩

/-- Nobody else works on the holders of the step. -/
theorem OneUser.free {domain : Domain π} {action : Action π} {tenant : ℕ → Option HolderId}
    (hone : OneUser tenant domain action) (h : Tenanted tenant domain) {holder : HolderId}
    (hholder : holder ∈ worksOn tenant domain action) (other : ThreadId) (hother : other ≠ action.thread) :
    holder ∉ (domain.pcs other).holders tenant := by
  cases action with
  | call thread op => exact hone holder hholder other
  | step thread => exact fun hmem ↦ hother (h.users other thread holder hmem hholder)
  | exit thread => cases hholder

/-- While each holder is used by one thread at a time, every slot that is let has one tenant, and a step leaves
the other holders and their slots alone. -/
theorem tenanted_of_step [DecidableEq π] {domain next : Domain π} {action : Action π} {tenant : ℕ → Option HolderId}
    (h : Tenanted tenant domain) (hexcludes : domain.Excludes) (hone : OneUser tenant domain action)
    (hstep : step domain action = some next) :
    ∃ tenant', Tenanted tenant' next ∧
      ∀ holder, holder ∉ worksOn tenant domain action → Untouched tenant tenant' domain next holder := by
  obtain ⟨pc', working, hworking, hpcs, hmove⟩ := step_holderMove tenant hstep
  obtain ⟨tenant', htenanted, huntouched⟩ := hmove.tenanted h hexcludes rfl hpcs
    fun holder hmem other hother ↦ hone.free h (hworking hmem) other hother
  exact ⟨tenant', htenanted, fun holder hnot ↦ huntouched holder fun hmem ↦ hnot (hworking hmem)⟩

end TinyReactor.Hazard
