import TinyReactor.Hazard.Moves

/-!
# The list of slots

Slots are numbered in the order of their allocation, and `acquire` prepends under `list_mutex_`, so
the list runs downwards through the numbers: `next_` of a linked slot is the slot below it. The only
slot that may deviate is the newest, while its `acquire` is between the write of `head_` and the
write of `next_`. A slot that somebody can protect with has been linked.
-/

namespace TinyReactor.Hazard

open Transition

variable {π : Type*}

/-- The slot below, which is the next one in the list. -/
def below : ℕ → Option ℕ
  | 0 => none
  | slot + 1 => some slot

theorem below_eq_none_iff {bound : ℕ} : below bound = none ↔ bound = 0 := by
  cases bound <;> simp [below]

theorem below_eq_some_iff {bound slot : ℕ} : below bound = some slot ↔ bound = slot + 1 := by
  cases bound <;> simp [below]

/-- How far the list has grown at each program point of `acquire`: `published` slots are reachable
from `head_`, `linked` slots have their `next_`. -/
def AcquirePc.Placed (length published linked : ℕ) : AcquirePc → Prop
  | .lock => True
  | .loadHead | .allocate => linked = length
  | .testOwner slot | .claim slot | .loadNext slot | .unlock slot => linked = length ∧ slot < linked
  | .readOldHead slot => slot = linked ∧ published = linked ∧ length = linked + 1
  | .publish slot oldHead => slot = linked ∧ published = linked ∧ length = linked + 1 ∧ oldHead = below slot
  | .link slot oldHead => slot = linked ∧ published = length ∧ length = linked + 1 ∧ oldHead = below slot

/-- The slots a program point refers to are in the list, and `acquire` holds its mutex. -/
def Pc.Placed (mutex : Option ThreadId) (length published linked : ℕ) (thread : ThreadId) : Pc π → Prop
  | .acquire _ pc => (pc ≠ .lock → mutex = some thread) ∧ pc.Placed length published linked
  | .protect slot _ => slot < linked
  | .reclaim (.testHazard _ slot) | .reclaim (.loadNext _ slot) => slot < published
  | _ => True

namespace Domain

structure Linked (domain : Domain π) (published linked : ℕ) : Prop where
  linked_le : linked ≤ published
  published_le : published ≤ domain.slots.length
  length_le : domain.slots.length ≤ linked + 1
  head : domain.head = below published
  next : ∀ (place : ℕ) (slot : HazardSlot π), domain.slots[place]? = some slot →
    slot.next = if place < linked then below place else none
  hazard : ∀ (place : ℕ) (slot : HazardSlot π), domain.slots[place]? = some slot →
    slot.hazardPtr ≠ none → place < linked
  holders : ∀ holder place, domain.holders holder = some place → place < linked
  pcs : ∀ thread, (domain.pcs thread).Placed domain.listMutex domain.slots.length published linked thread
  unlocked : domain.listMutex = none → linked = domain.slots.length
  owner : ∀ thread, domain.listMutex = some thread →
    ∃ holder pc, domain.pcs thread = .acquire holder pc ∧ pc ≠ .lock

theorem linked_empty : ({} : Domain π).Linked 0 0 where
  linked_le := Nat.le_refl 0
  published_le := Nat.le_refl 0
  length_le := Nat.zero_le 1
  head := rfl
  next place slot h := by simp at h
  hazard place slot h := by simp at h
  holders holder place h := by simp at h
  pcs _ := trivial
  unlocked _ := rfl
  owner thread h := by simp at h

end Domain

/-- What another thread may do to the list while this one stands still. -/
theorem Pc.Placed.mono {mutex mutex' : Option ThreadId} {length length' published published' linked linked' : ℕ}
    {thread : ThreadId} {pc : Pc π} (h : pc.Placed mutex length published linked thread)
    (hmutex : mutex ≠ some thread) (hpublished : published ≤ published') (hlinked : linked ≤ linked') :
    pc.Placed mutex' length' published' linked' thread := by
  cases pc with
  | acquire holder pc =>
    cases pc with
    | lock => exact ⟨fun hne ↦ absurd rfl hne, trivial⟩
    | _ => exact absurd (h.1 nofun) hmutex
  | protect slot ptr => exact Nat.lt_of_lt_of_le h hlinked
  | reclaim pc =>
    cases pc with
    | testHazard it slot => exact Nat.lt_of_lt_of_le h hpublished
    | loadNext it slot => exact Nat.lt_of_lt_of_le h hpublished
    | _ => trivial
  | _ => trivial

namespace Domain

variable {domain next : Domain π} {published linked : ℕ} {thread : ThreadId} {pc' : Pc π}

theorem Linked.published_eq (h : domain.Linked published linked) (hfull : linked = domain.slots.length) :
    published = domain.slots.length := by
  have := h.linked_le
  have := h.published_le
  omega

theorem Linked.mutex_ne (h : domain.Linked published linked)
    (hpc : ∀ holder pc, domain.pcs thread ≠ .acquire holder pc) : domain.listMutex ≠ some thread := by
  intro hmutex
  obtain ⟨holder, pc, heq, -⟩ := h.owner thread hmutex
  exact hpc holder pc heq

/-- The slots changed in place: every `next_` is as it was, and only linked slots got a hazard pointer. -/
structure SameLinks (linked : ℕ) (old new : List (HazardSlot π)) : Prop where
  length : new.length = old.length
  slot : ∀ (place : ℕ) (slot' : HazardSlot π), new[place]? = some slot' →
    ∃ slot, old[place]? = some slot ∧ slot'.next = slot.next ∧
      (slot'.hazardPtr ≠ none → slot.hazardPtr ≠ none ∨ place < linked)

theorem SameLinks.refl (linked : ℕ) (slots : List (HazardSlot π)) : SameLinks linked slots slots where
  length := rfl
  slot _ slot' h := ⟨slot', h, rfl, .inl⟩

theorem SameLinks.modify {slots : List (HazardSlot π)} (place : ℕ) {f : HazardSlot π → HazardSlot π}
    (hnext : ∀ slot, (f slot).next = slot.next)
    (hhazard : ∀ slot, (f slot).hazardPtr ≠ none → slot.hazardPtr ≠ none ∨ place < linked) :
    SameLinks linked slots (slots.modify place f) where
  length := List.length_modify ..
  slot other slot' h := by
    have hlt := lt_length_of_getElem? h
    rw [List.length_modify] at hlt
    have hold := List.getElem?_eq_getElem hlt
    rw [getElem?_modify_of_getElem? hold] at h
    refine ⟨_, hold, ?_⟩
    obtain rfl := Option.some.inj h
    by_cases hplace : place = other
    · subst hplace
      rw [if_pos rfl]
      exact ⟨hnext _, hhazard _⟩
    · rw [if_neg hplace]
      exact ⟨rfl, .inl⟩

/-- A step that adds no slot and leaves `head_` and the mutex alone. -/
theorem Linked.frame (h : domain.Linked published linked) (hslots : SameLinks linked domain.slots next.slots)
    (hhead : next.head = domain.head) (hmutex : next.listMutex = domain.listMutex)
    (hholders : ∀ holder place, next.holders holder = some place → place < linked)
    (hpcs : next.pcs = Function.update domain.pcs thread pc')
    (hplaced : pc'.Placed domain.listMutex domain.slots.length published linked thread)
    (howner : domain.listMutex = some thread → ∃ holder pc, pc' = .acquire holder pc ∧ pc ≠ .lock) :
    next.Linked published linked where
  linked_le := h.linked_le
  published_le := hslots.length ▸ h.published_le
  length_le := hslots.length ▸ h.length_le
  head := by rw [hhead, h.head]
  next place slot' hslot' := by
    obtain ⟨slot, hslot, hnext, -⟩ := hslots.slot place slot' hslot'
    rw [hnext, h.next place slot hslot]
  hazard place slot' hslot' hprotects := by
    obtain ⟨slot, hslot, -, hhazard⟩ := hslots.slot place slot' hslot'
    exact (hhazard hprotects).elim (h.hazard place slot hslot) id
  holders := hholders
  pcs := by
    rw [hmutex, hslots.length, hpcs, Function.forall_update_iff domain.pcs (p := fun other pc ↦
      pc.Placed domain.listMutex domain.slots.length published linked other)]
    exact ⟨hplaced, fun other _ ↦ h.pcs other⟩
  unlocked := by
    rw [hmutex, hslots.length]
    exact h.unlocked
  owner := by
    rw [hmutex, hpcs, Function.forall_update_iff domain.pcs (p := fun other pc ↦
      domain.listMutex = some other → ∃ holder pc', pc = .acquire holder pc' ∧ pc' ≠ .lock)]
    exact ⟨howner, fun other _ ↦ h.owner other⟩

theorem Linked.head_lt (h : domain.Linked published linked) {place : ℕ} (hhead : domain.head = some place) :
    place < published :=
  Nat.lt_of_succ_le (Nat.le_of_eq (below_eq_some_iff.mp (h.head.symm.trans hhead)).symm)

/-- Every `next_` that is read leads down the list. -/
theorem Linked.next_lt (h : domain.Linked published linked) {place following : ℕ} {slot : HazardSlot π}
    (hslot : domain.slots[place]? = some slot) (hnext : slot.next = some following) : following < place := by
  rw [h.next place slot hslot] at hnext
  split at hnext
  · exact Nat.lt_of_succ_le (Nat.le_of_eq (below_eq_some_iff.mp hnext).symm)
  · cases hnext

/-! ## `acquire` -/

theorem Linked.locked (h : domain.Linked published linked) {holder : HolderId} {pc : AcquirePc}
    (hpc : domain.pcs thread = .acquire holder pc) (hcritical : pc ≠ .lock) : domain.listMutex = some thread := by
  have hplaced := h.pcs thread
  rw [hpc] at hplaced
  exact hplaced.1 hcritical

/-- No other thread is inside `acquire`, so the others stay where they are when the list grows. -/
theorem Linked.others (h : domain.Linked published linked) {holder : HolderId} {pc : AcquirePc}
    (hpc : domain.pcs thread = .acquire holder pc) (hcritical : pc ≠ .lock) {mutex' : Option ThreadId}
    {length' published' linked' : ℕ} (hpublished : published ≤ published') (hlinked : linked ≤ linked') :
    ∀ other, other ≠ thread → (domain.pcs other).Placed mutex' length' published' linked' other := by
  intro other hother
  refine (h.pcs other).mono ?_ hpublished hlinked
  rw [h.locked hpc hcritical]
  exact fun heq ↦ hother (Option.some.inj heq).symm

/-- A step of `acquire` that only moves the thread on. -/
theorem Linked.acquire_move (h : domain.Linked published linked) {holder : HolderId} {pc pc' : AcquirePc}
    (hpc : domain.pcs thread = .acquire holder pc) (hcritical : pc ≠ .lock)
    (hslots : SameLinks linked domain.slots next.slots) (hhead : next.head = domain.head)
    (hmutex : next.listMutex = domain.listMutex) (hholders : next.holders = domain.holders)
    (hpcs : next.pcs = Function.update domain.pcs thread (.acquire holder pc'))
    (hplaced : pc' ≠ .lock ∧ pc'.Placed domain.slots.length published linked) : next.Linked published linked := by
  obtain ⟨hcritical', hplaced'⟩ := hplaced
  refine h.frame hslots hhead hmutex ?_ hpcs ⟨fun _ ↦ h.locked hpc hcritical, hplaced'⟩
    fun _ ↦ ⟨holder, pc', rfl, hcritical'⟩
  rw [hholders]
  exact h.holders

theorem Linked.acquire_lock (h : domain.Linked published linked) (holder : HolderId)
    (hfree : domain.listMutex = none) :
    ({ domain with listMutex := some thread }.setPc thread (.acquire holder .loadHead)).Linked published linked :=
  { h with
    pcs := by
      rw [setPc, Function.forall_update_iff domain.pcs (p := fun other pc ↦
        pc.Placed (some thread) domain.slots.length published linked other)]
      refine ⟨⟨fun _ ↦ rfl, h.unlocked hfree⟩, fun other _ ↦ ?_⟩
      exact (h.pcs other).mono (by rw [hfree]; nofun) (Nat.le_refl _) (Nat.le_refl _)
    unlocked := nofun
    owner := by
      intro other hother
      obtain rfl : thread = other := Option.some.inj hother
      exact ⟨holder, .loadHead, by simp [setPc], nofun⟩ }

/-- The threads after a step of `acquire` that grows the list. -/
theorem Linked.acquire_pcs (h : domain.Linked published linked) {holder : HolderId} {pc : AcquirePc} (pc' : AcquirePc)
    (hpc : domain.pcs thread = .acquire holder pc) (hcritical : pc ≠ .lock) {length' published' linked' : ℕ}
    (hpublished : published ≤ published') (hlinked : linked ≤ linked')
    (hplaced : pc' ≠ .lock ∧ pc'.Placed length' published' linked') :
    (∀ other, (Function.update domain.pcs thread (.acquire holder pc') other).Placed domain.listMutex
      length' published' linked' other) ∧
    ∀ other, domain.listMutex = some other →
      ∃ holder' pc, Function.update domain.pcs thread (.acquire holder pc') other = .acquire holder' pc ∧
        pc ≠ .lock := by
  have hmutex := h.locked hpc hcritical
  constructor
  · rw [Function.forall_update_iff domain.pcs (p := fun other pc ↦
      pc.Placed domain.listMutex length' published' linked' other)]
    exact ⟨⟨fun _ ↦ hmutex, hplaced.2⟩, h.others hpc hcritical hpublished hlinked⟩
  · intro other hother
    obtain rfl : thread = other := Option.some.inj (hmutex.symm.trans hother)
    exact ⟨holder, pc', Function.update_self .., hplaced.1⟩

theorem Linked.acquire_allocate (h : domain.Linked published linked) {holder : HolderId}
    (hpc : domain.pcs thread = .acquire holder .allocate) (hfull : linked = domain.slots.length) :
    ({ domain with slots := domain.slots ++ [({ owner := some thread } : HazardSlot π)] }.setPc thread
      (.acquire holder (.readOldHead domain.slots.length))).Linked published linked := by
  have hpublished := h.published_eq hfull
  have hlength : (domain.slots ++ [({ owner := some thread } : HazardSlot π)]).length = linked + 1 := by
    rw [List.length_append, List.length_singleton, hfull]
  obtain ⟨hpcs, howner⟩ := h.acquire_pcs (.readOldHead domain.slots.length) hpc nofun
    (Nat.le_refl published) (Nat.le_refl linked)
    ⟨nofun, hfull.symm, hpublished.trans hfull.symm, hlength⟩
  exact {
    linked_le := h.linked_le
    published_le := by
      change published ≤ (domain.slots ++ [_]).length
      omega
    length_le := Nat.le_of_eq hlength
    head := h.head
    next := by
      intro place slot hplace
      rcases of_getElem?_append_singleton hplace with hold | ⟨hnew, rfl⟩
      · exact h.next place slot hold
      · exact (if_neg (show ¬place < linked by omega)).symm
    hazard := by
      intro place slot hplace hhazard
      rcases of_getElem?_append_singleton hplace with hold | ⟨-, rfl⟩
      · exact h.hazard place slot hold hhazard
      · exact absurd rfl hhazard
    holders := h.holders
    pcs := hpcs
    unlocked := fun hnone ↦ nomatch (h.locked hpc nofun).symm.trans hnone
    owner := howner }

theorem Linked.acquire_publish (h : domain.Linked published linked) {holder : HolderId} {newHp : ℕ}
    {oldHead : Option ℕ} (hpc : domain.pcs thread = .acquire holder (.publish newHp oldHead))
    (hplaced : (AcquirePc.publish newHp oldHead).Placed domain.slots.length published linked) :
    ({ domain with head := some newHp }.setPc thread (.acquire holder (.link newHp oldHead))).Linked
      (published + 1) linked := by
  obtain ⟨hnew, hpublished, hlength, hold⟩ := hplaced
  obtain ⟨hpcs, howner⟩ := h.acquire_pcs (.link newHp oldHead) hpc nofun (Nat.le_succ published)
    (Nat.le_refl linked) ⟨nofun, hnew, by omega, hlength, hold⟩
  exact { h with
    linked_le := Nat.le_succ_of_le h.linked_le
    published_le := by
      change published + 1 ≤ domain.slots.length
      omega
    head := by
      change some newHp = some published
      rw [hnew, hpublished]
    pcs := hpcs
    owner := howner }

theorem Linked.acquire_link (h : domain.Linked published linked) {holder : HolderId} {newHp : ℕ}
    {oldHead : Option ℕ} (hpc : domain.pcs thread = .acquire holder (.link newHp oldHead))
    (hplaced : (AcquirePc.link newHp oldHead).Placed domain.slots.length published linked) :
    ((domain.setSlot newHp fun slot ↦ { slot with next := oldHead }).setPc thread
      (.acquire holder (.unlock newHp))).Linked published (linked + 1) := by
  obtain ⟨rfl, hpublished, hlength, rfl⟩ := hplaced
  have hmodify : (domain.setSlot newHp fun slot ↦ { slot with next := below newHp }).slots.length =
      domain.slots.length := List.length_modify ..
  have hslot {place : ℕ} {slot' : HazardSlot π}
      (hplace : (domain.setSlot newHp fun slot ↦ { slot with next := below newHp }).slots[place]? = some slot') :
      ∃ slot, domain.slots[place]? = some slot ∧ slot'.hazardPtr = slot.hazardPtr ∧
        slot'.next = if place < newHp + 1 then below place else none := by
    have hlt := lt_length_of_getElem? hplace
    rw [hmodify] at hlt
    have hold := List.getElem?_eq_getElem hlt
    rw [setSlot, getElem?_modify_of_getElem? hold] at hplace
    obtain rfl := Option.some.inj hplace
    refine ⟨_, hold, ?_⟩
    rw [if_pos (show place < newHp + 1 by omega)]
    by_cases hnew : newHp = place
    · rw [if_pos hnew, hnew]
      exact ⟨rfl, rfl⟩
    · rw [if_neg hnew, h.next place _ hold, if_pos (show place < newHp by omega)]
      exact ⟨rfl, rfl⟩
  obtain ⟨hpcs, howner⟩ := h.acquire_pcs (.unlock newHp) hpc nofun (Nat.le_refl published)
    (Nat.le_succ newHp) ⟨nofun, hlength.symm, Nat.lt_succ_self newHp⟩
  exact {
    linked_le := by omega
    published_le := hmodify ▸ h.published_le
    length_le := by
      change (domain.setSlot newHp _).slots.length ≤ _
      omega
    head := h.head
    next := by
      intro place slot' hplace
      obtain ⟨slot, -, -, hnext⟩ := hslot hplace
      exact hnext
    hazard := by
      intro place slot' hplace hhazard
      obtain ⟨slot, hold, heq, -⟩ := hslot hplace
      exact Nat.lt_succ_of_lt (h.hazard place slot hold (heq ▸ hhazard))
    holders := fun holder place hplace ↦ Nat.lt_succ_of_lt (h.holders holder place hplace)
    pcs := by
      change ∀ other, (Function.update domain.pcs thread _ other).Placed _ (domain.setSlot newHp _).slots.length _ _ _
      rw [hmodify]
      exact hpcs
    unlocked := fun hnone ↦ nomatch (h.locked hpc nofun).symm.trans hnone
    owner := howner }

theorem Linked.acquire_unlock (h : domain.Linked published linked) {holder : HolderId} {slot : ℕ}
    (hpc : domain.pcs thread = .acquire holder (.unlock slot))
    (hplaced : (AcquirePc.unlock slot).Placed domain.slots.length published linked) :
    (({ domain with listMutex := none }.setHolder holder (some slot)).setPc thread .idle).Linked
      published linked := by
  obtain ⟨hfull, hslot⟩ := hplaced
  exact { h with
    holders := by
      change ∀ other place, Function.update domain.holders holder (some slot) other = some place → place < linked
      rw [Function.forall_update_iff domain.holders (p := fun _ held ↦ ∀ place, held = some place → place < linked)]
      refine ⟨fun place hplace ↦ ?_, fun other _ ↦ h.holders other⟩
      rw [← Option.some.inj hplace]
      exact hslot
    pcs := by
      change ∀ other, (Function.update domain.pcs thread .idle other).Placed none domain.slots.length _ _ _
      rw [Function.forall_update_iff domain.pcs (p := fun other pc ↦
        pc.Placed none domain.slots.length published linked other)]
      exact ⟨trivial, h.others hpc nofun (Nat.le_refl _) (Nat.le_refl _)⟩
    unlocked := fun _ ↦ hfull
    owner := nofun }

theorem acquireStep_linked {holder : HolderId} {pc : AcquirePc} (h : domain.Linked published linked)
    (hpc : domain.pcs thread = .acquire holder pc) (hstep : domain.acquireStep thread holder pc = some next) :
    ∃ published linked, next.Linked published linked := by
  have hplaced := h.pcs thread
  rw [hpc] at hplaced
  obtain ⟨hmutex, hplaced⟩ := hplaced
  cases acquireMove_of_step hstep with
  | lock hfree => exact ⟨published, linked, h.acquire_lock holder hfree⟩
  | noSlots hhead =>
    exact ⟨published, linked, h.acquire_move hpc nofun (.refl _ _) rfl rfl rfl rfl ⟨nofun, hplaced⟩⟩
  | newest current hhead =>
    have hfull : linked = domain.slots.length := hplaced
    have hcurrent : current < linked := by
      rw [hfull]
      exact Nat.lt_of_lt_of_le (h.head_lt hhead) h.published_le
    exact ⟨published, linked, h.acquire_move hpc nofun (.refl _ _) rfl rfl rfl rfl ⟨nofun, hfull, hcurrent⟩⟩
  | unowned | owned =>
    exact ⟨published, linked, h.acquire_move hpc nofun (.refl _ _) rfl rfl rfl rfl ⟨nofun, hplaced⟩⟩
  | claim current =>
    refine ⟨published, linked, h.acquire_move hpc nofun (.modify current ?_ ?_) rfl rfl rfl rfl ⟨nofun, hplaced⟩⟩
    · exact fun _ ↦ rfl
    · exact fun _ ↦ .inl
  | oldest slot hslot hnext =>
    exact ⟨published, linked, h.acquire_move hpc nofun (.refl _ _) rfl rfl rfl rfl ⟨nofun, hplaced.1⟩⟩
  | follow slot following hslot hnext =>
    obtain ⟨hfull, hcurrent⟩ := hplaced
    have hfollowing : following < linked := Nat.lt_trans (h.next_lt hslot hnext) hcurrent
    exact ⟨published, linked, h.acquire_move hpc nofun (.refl _ _) rfl rfl rfl rfl ⟨nofun, hfull, hfollowing⟩⟩
  | allocate => exact ⟨published, linked, h.acquire_allocate hpc hplaced⟩
  | readOldHead newHp =>
    obtain ⟨hnew, hpublished, hlength⟩ := hplaced
    refine ⟨published, linked, h.acquire_move hpc nofun (.refl _ _) rfl rfl rfl rfl ?_⟩
    refine ⟨nofun, hnew, hpublished, hlength, ?_⟩
    rw [h.head, hpublished, hnew]
  | publish newHp oldHead => exact ⟨published + 1, linked, h.acquire_publish hpc hplaced⟩
  | link newHp oldHead => exact ⟨published, linked + 1, h.acquire_link hpc hplaced⟩
  | unlock slot => exact ⟨published, linked, h.acquire_unlock hpc hplaced⟩

/-! ## Everything else -/

/-- A step of a thread that is not inside `acquire`. -/
theorem Linked.other_move (h : domain.Linked published linked)
    (hpc : ∀ holder pc, domain.pcs thread ≠ .acquire holder pc)
    (hslots : SameLinks linked domain.slots next.slots) (hhead : next.head = domain.head)
    (hmutex : next.listMutex = domain.listMutex)
    (hholders : ∀ holder place, next.holders holder = some place → place < linked)
    (hpcs : next.pcs = Function.update domain.pcs thread pc')
    (hplaced : pc'.Placed domain.listMutex domain.slots.length published linked thread) :
    next.Linked published linked :=
  h.frame hslots hhead hmutex hholders hpcs hplaced fun hlocked ↦ absurd hlocked (h.mutex_ne hpc)

/-- A step that does not touch the slots or the holders. -/
theorem Linked.pc_move (h : domain.Linked published linked)
    (hpc : ∀ holder pc, domain.pcs thread ≠ .acquire holder pc) (hslots : next.slots = domain.slots)
    (hhead : next.head = domain.head) (hmutex : next.listMutex = domain.listMutex)
    (hholders : next.holders = domain.holders) (hpcs : next.pcs = Function.update domain.pcs thread pc')
    (hplaced : pc'.Placed domain.listMutex domain.slots.length published linked thread) :
    next.Linked published linked := by
  refine h.other_move hpc ?_ hhead hmutex ?_ hpcs hplaced
  · rw [hslots]
    exact .refl linked domain.slots
  · rw [hholders]
    exact h.holders

theorem Linked.holders_update (h : domain.Linked published linked) {holder : HolderId} {slot : Option ℕ}
    (hslot : ∀ place, slot = some place → place < linked) (other : HolderId) (place : ℕ)
    (hplace : Function.update domain.holders holder slot other = some place) : place < linked := by
  by_cases hother : other = holder
  · subst hother
    rw [Function.update_self] at hplace
    exact hslot place hplace
  · rw [Function.update_of_ne hother] at hplace
    exact h.holders other place hplace

theorem releaseStep_linked {holder : HolderId} {source : Option HolderId} {pc : ReleasePc}
    (h : domain.Linked published linked) (hpc : domain.pcs thread = .release holder pc source) :
    (domain.releaseStep thread holder source pc).Linked published linked := by
  have hother : ∀ holder pc, domain.pcs thread ≠ .acquire holder pc := by
    rw [hpc]
    nofun
  cases pc with
  | clearHazard slot =>
    refine h.other_move hother (.modify slot (fun _ ↦ rfl) fun _ hnot ↦ absurd rfl hnot) rfl rfl h.holders rfl ?_
    trivial
  | clearOwner slot =>
    refine h.other_move hother (.modify slot (fun _ ↦ rfl) fun _ ↦ .inl) rfl rfl h.holders rfl ?_
    trivial
  | clearSlot =>
    refine h.other_move hother (.refl _ _) rfl rfl (h.holders_update nofun) rfl ?_
    cases source <;> trivial

theorem retireStep_linked {pc : RetirePc π} (h : domain.Linked published linked)
    (hpc : domain.pcs thread = .retire pc) (hstep : domain.retireStep thread pc = some next) :
    next.Linked published linked := by
  have hother : ∀ holder pc, domain.pcs thread ≠ .acquire holder pc := by
    rw [hpc]
    nofun
  cases retireMove_of_step hstep with
  | _ => exact h.pc_move hother rfl rfl rfl rfl rfl trivial

theorem scanStep_linked {pc : ScanPc} (h : domain.Linked published linked)
    (hpc : domain.pcs thread = .scan pc) (hstep : domain.scanStep thread pc = some next) :
    next.Linked published linked := by
  have hother : ∀ holder pc, domain.pcs thread ≠ .acquire holder pc := by
    rw [hpc]
    nofun
  cases scanMove_of_step hstep with
  | _ => exact h.pc_move hother rfl rfl rfl rfl rfl trivial

theorem registerStep_linked {wrap : RegisterPc → Pc π} {update : Option (List ThreadId)} {pc : RegisterPc}
    (h : domain.Linked published linked) (hother : ∀ holder pc, domain.pcs thread ≠ .acquire holder pc)
    (hwrap : ∀ pc, (wrap pc).Placed domain.listMutex domain.slots.length published linked thread)
    (hstep : domain.registerStep thread wrap update pc = some next) : next.Linked published linked := by
  cases registerMove_of_step hstep with
  | lock | update => exact h.pc_move hother rfl rfl rfl rfl rfl (hwrap _)
  | unlock => exact h.pc_move hother rfl rfl rfl rfl rfl trivial

theorem reclaimStep_linked [DecidableEq π] {pc : ReclaimPc π} (h : domain.Linked published linked)
    (hpc : domain.pcs thread = .reclaim pc) (hstep : domain.reclaimStep thread pc = some next) :
    next.Linked published linked := by
  have hother : ∀ holder pc, domain.pcs thread ≠ .acquire holder pc := by
    rw [hpc]
    nofun
  have hplaced := h.pcs thread
  rw [hpc] at hplaced
  cases reclaimMove_of_step hstep with
  | newest it current hhead => exact h.pc_move hother rfl rfl rfl rfl rfl (h.head_lt hhead)
  | pass it slot hslot hhazard => exact h.pc_move hother rfl rfl rfl rfl rfl hplaced
  | follow it slot following hslot hnext =>
    have hbelow := h.next_lt hslot hnext
    exact h.pc_move hother rfl rfl rfl rfl rfl (Nat.lt_trans hbelow hplaced)
  | _ => exact h.pc_move hother rfl rfl rfl rfl rfl trivial

theorem advance_linked [DecidableEq π] (h : domain.Linked published linked)
    (hstep : domain.advance thread (domain.pcs thread) = some next) :
    ∃ published linked, next.Linked published linked := by
  have hplaced := h.pcs thread
  cases hpc : domain.pcs thread with
  | idle | exited =>
    rw [hpc] at hstep
    cases hstep
  | acquire holder pc =>
    rw [hpc] at hstep
    exact acquireStep_linked h hpc hstep
  | release holder pc source =>
    rw [hpc] at hstep
    cases hstep
    exact ⟨published, linked, releaseStep_linked h hpc⟩
  | take holder source =>
    rw [hpc] at hstep
    cases hstep
    have hheld : (domain.setHolder holder (domain.holders source)).Linked published linked :=
      { h with holders := h.holders_update (h.holders source) }
    refine ⟨published, linked, h.other_move (by rw [hpc]; nofun) (.refl _ _) rfl rfl ?_ rfl trivial⟩
    exact hheld.holders_update nofun
  | protect slot ptr =>
    rw [hpc] at hstep hplaced
    cases hstep
    refine ⟨published, linked, h.other_move (by rw [hpc]; nofun) (.modify slot (fun _ ↦ rfl) ?_) rfl rfl
      h.holders rfl trivial⟩
    exact fun _ _ ↦ .inr hplaced
  | retire pc =>
    rw [hpc] at hstep
    exact ⟨published, linked, retireStep_linked h hpc hstep⟩
  | scan pc =>
    rw [hpc] at hstep
    exact ⟨published, linked, scanStep_linked h hpc hstep⟩
  | reclaim pc =>
    rw [hpc] at hstep
    exact ⟨published, linked, reclaimStep_linked h hpc hstep⟩
  | register pc | unregister pc =>
    rw [hpc, advance] at hstep
    refine ⟨published, linked, registerStep_linked h (by rw [hpc]; nofun) ?_ hstep⟩
    exact fun _ ↦ trivial

theorem enter_linked {op : Op π} (h : domain.Linked published linked) (hidle : domain.pcs thread = .idle)
    (hstep : domain.enter thread op = some next) : next.Linked published linked := by
  have hother : ∀ holder pc, domain.pcs thread ≠ .acquire holder pc := by
    rw [hidle]
    nofun
  cases op with
  | construct holder =>
    simp only [enter] at hstep
    split at hstep <;> cases hstep
    exact h.pc_move hother rfl rfl rfl rfl rfl ⟨fun hne ↦ absurd rfl hne, trivial⟩
  | moveConstruct holder source =>
    simp only [enter] at hstep
    split at hstep <;> cases hstep
    have hheld : (domain.setHolder holder (domain.holders source)).Linked published linked :=
      { h with holders := h.holders_update (h.holders source) }
    exact { h with holders := hheld.holders_update nofun }
  | moveAssign holder source =>
    simp only [enter] at hstep
    split at hstep <;> cases hstep
    · exact h
    · refine h.pc_move hother rfl rfl rfl rfl rfl ?_
      unfold enterRelease
      cases domain.holders holder <;> trivial
  | release holder =>
    cases hstep
    refine h.pc_move hother rfl rfl rfl rfl rfl ?_
    unfold enterRelease
    cases domain.holders holder <;> trivial
  | protect holder ptr =>
    cases hstep
    refine h.pc_move hother rfl rfl rfl rfl rfl ?_
    cases hheld : domain.holders holder with
    | none => trivial
    | some slot => exact h.holders holder slot hheld
  | _ =>
    cases hstep
    exact h.pc_move hother rfl rfl rfl rfl rfl trivial

end Domain

theorem linked_of_step [DecidableEq π] {domain next : Domain π} {action : Action π} {published linked : ℕ}
    (h : domain.Linked published linked) (hstep : step domain action = some next) :
    ∃ published linked, next.Linked published linked := by
  cases action with
  | call thread op =>
    obtain ⟨hidle, henter⟩ := enter_of_call hstep
    exact ⟨published, linked, Domain.enter_linked h hidle henter⟩
  | step thread => exact Domain.advance_linked h hstep
  | exit thread =>
    obtain ⟨hidle, rfl⟩ := eq_of_exit hstep
    exact ⟨published, linked, h.pc_move (by rw [hidle]; nofun) rfl rfl rfl rfl rfl trivial⟩

theorem linked_of_run [DecidableEq π] {domain : Domain π} {actions : List (Action π)}
    (hrun : run step {} actions = some domain) : ∃ published linked, domain.Linked published linked := by
  refine run_invariant (I := fun domain ↦ ∃ published linked, Domain.Linked domain published linked) ?_
    ⟨0, 0, Domain.linked_empty⟩ hrun
  intro domain action next ⟨published, linked, h⟩ hstep
  exact linked_of_step h hstep

end TinyReactor.Hazard
