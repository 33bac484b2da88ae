import Mathlib.Data.Set.Card
import TinyReactor.Data.Linked
import TinyReactor.Hazard.Tenancy

/-!
# Slots are reused

`acquire` allocates only after a traversal that found an owner in every slot. The owners were read one after the
other, and releases went on meanwhile, without the mutex. But only the holder of `list_mutex_` sets an owner: a slot
that was owned when the traversal came by has been owned since the mutex was locked. At that moment all slots were
owned at once, and the `acquire` that allocates was under way, too.
-/

namespace TinyReactor.Hazard

open Transition Data

variable {π : Type*}

/-- `next_` of a slot. -/
def Domain.nextSlot? (domain : Domain π) (place : ℕ) : Option (Option ℕ) := domain.slots[place]?.map HazardSlot.next

/-- `owner_` of the slot is set. -/
def Domain.Owned (domain : Domain π) (place : ℕ) : Prop :=
  ∃ slot, domain.slots[place]? = some slot ∧ slot.owner.isSome = true

/-- In the middle of an `acquire` that has not yet claimed or allocated a slot. -/
def Pc.searches : Pc π → Bool
  | .acquire _ pc => pc.claimed?.isNone
  | _ => false

/-- How many holders own a slot, from the claim or the allocation in `acquire` until `release` clears `owner_`, or
are in the middle of `acquire`. -/
noncomputable def Domain.load (domain : Domain π) : ℕ∞ :=
  (domain.slots.countP fun slot ↦ slot.owner.isSome : ℕ) + Set.encard {thread | (domain.pcs thread).searches = true}

/-! ## The list -/

section List

variable {domain : Domain π} {published linked : ℕ}

theorem getElem?_reverse_range (length place : ℕ) :
    (List.range length).reverse[place]? = below (length - place) := by
  rcases Nat.lt_or_ge place length with hlt | hge
  · rw [List.getElem?_reverse (by rwa [List.length_range]), List.length_range, List.getElem?_range (by omega)]
    exact (below_eq_some_iff.mpr (by omega)).symm
  · rw [List.getElem?_eq_none (by simpa using hge), Nat.sub_eq_zero_of_le hge]
    rfl

/-- While nobody holds the mutex, the list runs through all slots, the newest first. -/
theorem Domain.Linked.linked_reverse (h : domain.Linked published linked) (hfree : domain.listMutex = none) :
    Data.Linked domain.nextSlot? (List.range domain.slots.length).reverse := by
  intro place cell hcell
  rw [getElem?_reverse_range, below_eq_some_iff] at hcell
  have hlt : cell < domain.slots.length := by omega
  have hslot := List.getElem?_eq_getElem hlt
  have hlinked : cell < linked := by rwa [h.unlocked hfree]
  have hcell' : cell = domain.slots.length - (place + 1) := by omega
  rw [getElem?_reverse_range, ← hcell', Domain.nextSlot?, hslot, Option.map_some, h.next cell _ hslot, if_pos hlinked]

theorem Domain.Linked.follow_head (h : domain.Linked published linked) (hfree : domain.listMutex = none) :
    follow domain.nextSlot? domain.slots.length domain.head = some (List.range domain.slots.length).reverse := by
  have hlength : (List.range domain.slots.length).reverse.length ≤ domain.slots.length := by simp
  have hfollow := follow_of_linked (h.linked_reverse hfree) hlength
  have hhead : domain.head = (List.range domain.slots.length).reverse.head? := by
    rw [h.head, h.published_eq (h.unlocked hfree), List.head?_eq_getElem?, getElem?_reverse_range, Nat.sub_zero]
  rw [hhead, hfollow]

end List

/-! ## Traversals -/

/-- The slots that a traversal has found owned. -/
def AcquirePc.passed (length : ℕ) : AcquirePc → ℕ → Prop
  | .testOwner current, place => current < place ∧ place < length
  | .loadNext current, place => current ≤ place ∧ place < length
  | .allocate, place => place < length
  | _, _ => False

/-- The traversal of the thread was under way at the moment `since`, and no owner has been set in the meantime. -/
structure TraversesSince (thread : ThreadId) (pc : AcquirePc) (domain since : Domain π) : Prop where
  length : domain.slots.length = since.slots.length
  searches : (since.pcs thread).searches = true
  owned : ∀ place, domain.Owned place → since.Owned place
  passed : ∀ place, pc.passed domain.slots.length place → since.Owned place

/-- The run has seen as many holders as there are slots, and every traversal dates from a moment of the run. -/
structure Domain.Peaked [DecidableEq π] (past : List (Action π)) (domain : Domain π) : Prop where
  slots : Visits step (fun visited ↦ (domain.slots.length : ℕ∞) ≤ visited.load) {} past
  traversals : ∀ thread holder pc, domain.pcs thread = .acquire holder pc → pc ≠ .lock → pc.claimed? = none →
    Visits step (TraversesSince thread pc domain) {} past

theorem TraversesSince.length_lt_load {thread : ThreadId} {domain since : Domain π}
    (h : TraversesSince thread .allocate domain since) : ((domain.slots.length + 1 : ℕ) : ℕ∞) ≤ since.load := by
  have hall : since.slots.countP (fun slot ↦ slot.owner.isSome) = since.slots.length := by
    rw [List.countP_eq_length]
    intro slot hslot
    obtain ⟨place, hplace⟩ := List.mem_iff_getElem?.mp hslot
    obtain ⟨slot', hslot', howner⟩ := h.passed place (h.length ▸ lt_length_of_getElem? hplace)
    obtain rfl : slot = slot' := Option.some.inj (hplace.symm.trans hslot')
    exact howner
  have hone : 1 ≤ Set.encard {thread | (since.pcs thread).searches = true} :=
    Set.one_le_encard_iff_nonempty.mpr ⟨thread, h.searches⟩
  rw [Domain.load, hall, h.length, Nat.cast_add, Nat.cast_one]
  exact add_le_add_right hone _

section Steps

variable {domain next : Domain π} {thread : ThreadId} {published linked : ℕ}

theorem owned_of_eq (hslots : next.slots = domain.slots) {place : ℕ} (h : next.Owned place) : domain.Owned place := by
  rwa [Domain.Owned, ← hslots]

/-- A write that does not set the owner. -/
theorem owned_of_modify {current : ℕ} {f : HazardSlot π → HazardSlot π}
    (hslots : next.slots = domain.slots.modify current f)
    (hf : ∀ slot, (f slot).owner.isSome = true → slot.owner.isSome = true) {place : ℕ} (h : next.Owned place) :
    domain.Owned place := by
  obtain ⟨slot, hslot, howner⟩ := h
  rw [hslots, List.getElem?_modify] at hslot
  obtain ⟨before, hbefore, rfl⟩ := Option.map_eq_some_iff.mp hslot
  refine ⟨before, hbefore, ?_⟩
  split at howner
  · exact hf before howner
  · exact howner

/-- Outside of `acquire` no slot is allocated and no owner is set. -/
theorem HolderMove.owned {tenant : ℕ → Option HolderId} {pc pc' : Pc π} {working : List HolderId}
    (hmove : HolderMove tenant thread domain next pc pc' working) (hpc : ∀ holder pc₀, pc ≠ .acquire holder pc₀) :
    next.slots.length = domain.slots.length ∧ (∀ place, next.Owned place → domain.Owned place) ∧
      ∀ holder pc₀, pc' = .acquire holder pc₀ → pc₀ = .lock := by
  have hsame (hslots : next.slots = domain.slots) :
      next.slots.length = domain.slots.length ∧ ∀ place, next.Owned place → domain.Owned place :=
    ⟨by rw [hslots], fun _ ↦ owned_of_eq hslots⟩
  have hmodify {current : ℕ} {f : HazardSlot π → HazardSlot π} (hslots : next.slots = domain.slots.modify current f)
      (hf : ∀ slot, (f slot).owner.isSome = true → slot.owner.isSome = true) :
      next.slots.length = domain.slots.length ∧ ∀ place, next.Owned place → domain.Owned place :=
    ⟨by rw [hslots, List.length_modify], fun _ ↦ owned_of_modify hslots hf⟩
  rw [← and_assoc]
  cases hmove with
  | search | claim | allocate | publish | unlock => exact absurd rfl (hpc _ _)
  | apart _ hapart' hslots _ =>
    refine ⟨hsame hslots, ?_⟩
    rintro holder pc₀ rfl
    cases hapart'
  | clearHazard hslots _ | protect hslots _ =>
    exact ⟨hmodify hslots fun _ ↦ id, fun _ _ heq ↦ by cases heq⟩
  | clearOwner hslots _ =>
    refine ⟨hmodify hslots fun _ howner ↦ ?_, fun _ _ heq ↦ by cases heq⟩
    cases howner
  | @clearSlot holder source hslots _ =>
    refine ⟨hsame hslots, fun _ _ heq ↦ ?_⟩
    cases source <;> cases heq
  | pass _ hslots _ | enterTake _ _ hslots _ | enterProtect _ hslots _ | enterRelease _ _ hslots _ =>
    exact ⟨hsame hslots, fun _ _ heq ↦ by cases heq⟩
  | enterAcquire _ hslots _ =>
    refine ⟨hsame hslots, ?_⟩
    rintro _ _ ⟨⟩
    rfl

variable [DecidableEq π] {past : List (Action π)} {action : Action π} {pc' : Pc π}

theorem Domain.Peaked.slots_concat (h : domain.Peaked past) (hlength : next.slots.length = domain.slots.length)
    (action : Action π) :
    Visits step (fun visited ↦ (next.slots.length : ℕ∞) ≤ visited.load) {} (past ++ [action]) := by
  rw [hlength]
  exact h.slots.concat action fun _ ↦ id

/-- A step that allocates nothing; `hothers` speaks only of threads that hold the mutex together with the one that
moves. -/
theorem Domain.Peaked.keep (h : domain.Peaked past) (hlength : next.slots.length = domain.slots.length)
    (hpcs : next.pcs = Function.update domain.pcs thread pc')
    (hothers : ∀ other holder pc, other ≠ thread → domain.pcs other = .acquire holder pc → pc ≠ .lock →
      ∀ place, next.Owned place → domain.Owned place)
    (hmover : ∀ holder pc, pc' = .acquire holder pc → pc ≠ .lock → pc.claimed? = none →
      Visits step (TraversesSince thread pc next) {} (past ++ [action])) : next.Peaked (past ++ [action]) where
  slots := h.slots_concat hlength action
  traversals := by
    rw [hpcs, Function.forall_update_iff domain.pcs (p := fun other pc₀ ↦ ∀ holder pc, pc₀ = .acquire holder pc →
      pc ≠ .lock → pc.claimed? = none → Visits step (TraversesSince other pc next) {} (past ++ [action]))]
    refine ⟨hmover, fun other hother holder pc hpc hcritical hsearches ↦ ?_⟩
    refine (h.traversals other holder pc hpc hcritical hsearches).concat action fun since hsince ↦ ?_
    exact {
      length := hlength.trans hsince.length
      searches := hsince.searches
      owned := fun place hplace ↦ hsince.owned place (hothers other holder pc hother hpc hcritical place hplace)
      passed := hlength ▸ hsince.passed }

variable {holder : HolderId} {pc : AcquirePc}

/-- A statement of the traversal. -/
theorem Domain.Peaked.search (h : domain.Peaked past) (hpc : domain.pcs thread = .acquire holder pc)
    (hcritical : pc ≠ .lock) (hsearches : pc.claimed? = none) (pc' : AcquirePc)
    (hpassed : ∀ since, TraversesSince thread pc domain since →
      ∀ place, pc'.passed domain.slots.length place → since.Owned place) :
    (domain.setPc thread (.acquire holder pc')).Peaked (past ++ [action]) := by
  refine h.keep rfl rfl (fun _ _ _ _ _ _ _ hplace ↦ hplace) ?_
  rintro _ _ ⟨⟩ - -
  exact (h.traversals thread holder pc hpc hcritical hsearches).concat action fun since hsince ↦
    ⟨hsince.length, hsince.searches, hsince.owned, hpassed since hsince⟩

/-- A statement after the traversal: nobody else is past the lock. -/
theorem Domain.peaked_of_claimed (hlinked : domain.Linked published linked)
    (hpc : domain.pcs thread = .acquire holder pc) (hcritical : pc ≠ .lock)
    (hslots : Visits step (fun visited ↦ (next.slots.length : ℕ∞) ≤ visited.load) {} past)
    (hpcs : next.pcs = Function.update domain.pcs thread pc') (hmover : pc'.searches = false) :
    next.Peaked past where
  slots := hslots
  traversals := by
    rw [hpcs, Function.forall_update_iff domain.pcs (p := fun other pc₀ ↦ ∀ holder pc, pc₀ = .acquire holder pc →
      pc ≠ .lock → pc.claimed? = none → Visits step (TraversesSince other pc next) {} past)]
    refine ⟨fun holder' pc₀ heq _ hsearches ↦ ?_, fun other hother holder' pc₀ hpc₀ hcritical' ↦ ?_⟩
    · rw [heq, Pc.searches, hsearches] at hmover
      cases hmover
    · have hmutex := (hlinked.locked hpc₀ hcritical').symm.trans (hlinked.locked hpc hcritical)
      exact absurd (Option.some.inj hmutex) hother

/-- The lock of the mutex is the moment that the traversal will date from. -/
theorem Domain.Peaked.lock (h : domain.Peaked past)
    (hrun : run step {} (past ++ [action]) =
      some ({ domain with listMutex := some thread }.setPc thread (.acquire holder .loadHead))) :
    ({ domain with listMutex := some thread }.setPc thread (.acquire holder .loadHead)).Peaked (past ++ [action]) := by
  refine h.keep rfl rfl (fun _ _ _ _ _ _ _ hplace ↦ hplace) ?_
  rintro _ _ ⟨⟩ - -
  refine .last hrun ⟨rfl, ?_, fun _ ↦ id, fun _ hplace ↦ hplace.elim⟩
  rw [Domain.setPc_pcs_self]
  rfl

theorem Domain.Peaked.acquireStep (h : domain.Peaked past) (hlinked : domain.Linked published linked)
    (hrun : run step {} past = some domain) (hpc : domain.pcs thread = .acquire holder pc)
    (hstep : domain.acquireStep thread holder pc = some next) : next.Peaked (past ++ [.step thread]) := by
  have hplaced := hlinked.pcs thread
  rw [hpc] at hplaced
  obtain ⟨-, hplaced⟩ := hplaced
  have hrun' : run step {} (past ++ [.step thread]) = some next := by
    refine run_concat hrun ?_
    rw [step, hpc]
    exact hstep
  by_cases hlock : pc = .lock
  · subst hlock
    cases Domain.acquireMove_of_step hstep with
    | lock hfree => exact h.lock hrun'
  cases Domain.acquireMove_of_step hstep with
  | lock => exact absurd rfl hlock
  | noSlots hhead =>
    refine h.search hpc hlock rfl .allocate fun since _ place hplace ↦ ?_
    have hempty := below_eq_none_iff.mp (hlinked.head.symm.trans hhead)
    rw [hlinked.published_eq hplaced] at hempty
    exact absurd hplace (Nat.not_lt.mpr (hempty ▸ Nat.zero_le place))
  | newest current hhead =>
    refine h.search hpc hlock rfl (.testOwner current) fun since _ place hplace ↦ ?_
    have hnewest := below_eq_some_iff.mp (hlinked.head.symm.trans hhead)
    rw [hlinked.published_eq hplaced] at hnewest
    obtain ⟨habove, hlt⟩ := hplace
    omega
  | @unowned current slot hslot howner => exact h.search hpc hlock rfl (.claim current) fun _ _ _ hplace ↦ hplace.elim
  | @owned current slot hslot howner =>
    refine h.search hpc hlock rfl (.loadNext current) fun since hsince place hplace ↦ ?_
    obtain ⟨habove, hlt⟩ := hplace
    rcases Nat.eq_or_lt_of_le habove with rfl | habove
    · exact hsince.owned current ⟨slot, hslot, Option.isSome_iff_ne_none.mpr howner⟩
    · exact hsince.passed place ⟨habove, hlt⟩
  | @oldest current slot hslot hnext =>
    refine h.search hpc hlock rfl .allocate fun since hsince place hplace ↦ ?_
    rw [hlinked.next current slot hslot, if_pos hplaced.2, below_eq_none_iff] at hnext
    exact hsince.passed place ⟨hnext ▸ Nat.zero_le place, hplace⟩
  | @follow current slot following hslot hnext =>
    refine h.search hpc hlock rfl (.testOwner following) fun since hsince place hplace ↦ ?_
    rw [hlinked.next current slot hslot, if_pos hplaced.2, below_eq_some_iff] at hnext
    exact hsince.passed place ⟨hnext ▸ hplace.1, hplace.2⟩
  | claim current =>
    exact Domain.peaked_of_claimed hlinked hpc hlock (h.slots_concat (List.length_modify ..) _) rfl rfl
  | allocate =>
    -- all slots were owned when the mutex was locked
    have hpeak := (h.traversals thread holder .allocate hpc hlock rfl).concat (.step thread) fun _ hsince ↦
      hsince.length_lt_load
    have hlength : (domain.slots ++ [({ owner := some thread } : HazardSlot π)]).length = domain.slots.length + 1 :=
      List.length_append ..
    rw [← hlength] at hpeak
    exact Domain.peaked_of_claimed hlinked hpc hlock hpeak rfl rfl
  | readOldHead newHp =>
    exact Domain.peaked_of_claimed hlinked hpc hlock (h.slots_concat rfl _) rfl rfl
  | publish newHp oldHead =>
    exact Domain.peaked_of_claimed hlinked hpc hlock (h.slots_concat rfl _) rfl rfl
  | link newHp oldHead =>
    exact Domain.peaked_of_claimed hlinked hpc hlock (h.slots_concat (List.length_modify ..) _) rfl rfl
  | unlock slot => exact Domain.peaked_of_claimed hlinked hpc hlock (h.slots_concat rfl _) rfl rfl

theorem Domain.Peaked.step (h : domain.Peaked past) (hrun : run step {} past = some domain)
    (hstep : step domain action = some next) : next.Peaked (past ++ [action]) := by
  obtain ⟨published, linked, hlinked⟩ := linked_of_run hrun
  obtain ⟨pc', working, -, hpcs, hmove⟩ := step_holderMove (fun _ ↦ none) hstep
  by_cases hpc : ∃ holder pc, domain.pcs action.thread = .acquire holder pc
  · obtain ⟨holder, pc, hpc⟩ := hpc
    cases action with
    | step thread =>
      rw [Action.thread] at hpc
      rw [Hazard.step, hpc] at hstep
      exact h.acquireStep hlinked hrun hpc hstep
    | call thread op => cases (enter_of_call hstep).1.symm.trans hpc
    | exit thread => cases (eq_of_exit hstep).1.symm.trans hpc
  · obtain ⟨hlength, howned, hlock⟩ := hmove.owned fun holder pc heq ↦ hpc ⟨holder, pc, heq⟩
    refine h.keep hlength hpcs (fun _ _ _ _ _ _ ↦ howned) fun holder pc₀ heq hcritical ↦ ?_
    exact absurd (hlock holder pc₀ heq) hcritical

end Steps

/-- While nobody holds `list_mutex_`, following `next_` from `head_` visits every slot that was ever allocated, once
each. There are at most as many slots as there were holders, at one moment of the run, that owned a slot or were in
the middle of `acquire`. -/
theorem slots_reused [DecidableEq π] (actions : List (Action π)) (domain : Domain π)
    (hrun : run step {} actions = some domain) :
    (domain.listMutex = none → ∃ list, follow domain.nextSlot? domain.slots.length domain.head = some list ∧
      list.Nodup ∧ ∀ slot < domain.slots.length, slot ∈ list) ∧
    Visits step (fun visited ↦ (domain.slots.length : ℕ∞) ≤ visited.load) {} actions := by
  constructor
  · intro hfree
    obtain ⟨published, linked, hlinked⟩ := linked_of_run hrun
    refine ⟨_, hlinked.follow_head hfree, List.nodup_reverse.mpr List.nodup_range, fun slot hslot ↦ ?_⟩
    rwa [List.mem_reverse, List.mem_range]
  · have hstart : ({} : Domain π).Peaked [] := ⟨.last rfl zero_le, fun _ _ _ hpc ↦ by cases hpc⟩
    exact (history_invariant hstart (fun _ _ _ _ hpast h hstep ↦ h.step hpast hstep) hrun).slots

/-- Two threads take a slot each; the first gives its own back and takes it again for another holder. -/
def releaseAndReuse : List (Action ℕ) :=
  List.flatten [.call 0 (.construct 0) :: List.replicate 7 (.step 0),
    .call 1 (.construct 1) :: List.replicate 9 (.step 1), .call 0 (.release 0) :: List.replicate 3 (.step 0),
    .call 0 (.construct 2) :: List.replicate 7 (.step 0)]

theorem slots_reused_released :
    ∃ domain, run step {} releaseAndReuse = some domain ∧ domain.slots.length = 2 ∧ domain.holders 2 = some 0 ∧
      (∃ list, follow domain.nextSlot? 2 domain.head = some list ∧ list.Nodup ∧ ∀ slot < 2, slot ∈ list) ∧
      Visits step (fun visited ↦ ((2 : ℕ) : ℕ∞) ≤ visited.load) {} releaseAndReuse := by
  have hfinal : (run step {} releaseAndReuse).map (fun domain ↦
      (domain.slots.length, domain.holders 2, domain.listMutex)) = some (2, some 0, none) := by
    decide +kernel
  obtain ⟨domain, hrun, hdomain⟩ := Option.map_eq_some_iff.mp hfinal
  simp only [Prod.mk.injEq] at hdomain
  obtain ⟨hlength, hholder, hfree⟩ := hdomain
  obtain ⟨hlist, hpeak⟩ := slots_reused releaseAndReuse domain hrun
  rw [hlength] at hlist hpeak
  exact ⟨domain, hrun, hlength, hholder, hlist hfree, hpeak⟩

end TinyReactor.Hazard
