import TinyReactor.Hazard.SlotList
import TinyReactor.Hazard.Entries

/-!
# Protection

`isProtected` walks the slots without `list_mutex_`. It cannot miss a slot that has been linked, as
long as it follows only pointers that have been written: the list below a slot never changes, and new
slots come in above. The one pointer that may be read before it is written is the `next_` of a slot
whose `acquire` has written `head_` and not yet `next_`. A walk that meets it ends there, with
everything below unseen.
-/

namespace TinyReactor.Hazard

open Transition

variable {π : Type*}

/-- The entries a thread has decided to delete. -/
def Pc.condemned : Pc π → List (RetiredPtr π)
  | .reclaim (.next _ toReclaim) | .reclaim (.unlock toReclaim) | .reclaim (.callDeleters toReclaim) => toReclaim
  | .reclaim (.loadHead it) | .reclaim (.testHazard it _) | .reclaim (.loadNext it _) => it.toReclaim
  | .reclaim (.erase it) => it.entry :: it.toReclaim
  | _ => []

theorem Pc.condemned_subset_entries (pc : Pc π) : pc.condemned ⊆ pc.entries := by
  cases pc with
  | reclaim pc =>
    cases pc with
    | loadHead | testHazard | loadNext => exact List.subset_cons_self ..
    | lock => exact List.nil_subset _
    | _ => exact List.Subset.refl _
  | _ => exact List.nil_subset _

/-- A walk for `ptr` has not got past the slot `place`. -/
def Pc.Before (place : ℕ) (ptr : π) : Pc π → Prop
  | .reclaim (.testHazard it current) => it.entry.ptr = ptr → place ≤ current
  | .reclaim (.loadNext it current) => it.entry.ptr = ptr → place < current
  | _ => True

theorem Pc.before_of_entries {place : ℕ} {ptr : π} {pc : Pc π} (h : ∀ entry ∈ pc.entries, entry.ptr ≠ ptr) :
    pc.Before place ptr := by
  cases pc with
  | reclaim pc =>
    cases pc with
    | testHazard it current | loadNext it current =>
      exact fun heq ↦ absurd heq (h it.entry List.mem_cons_self)
    | _ => trivial
  | _ => trivial

/-- The slot `place` protects `ptr`. -/
def Domain.HoldsAt (domain : Domain π) (place : ℕ) (ptr : π) : Prop :=
  domain.slots[place]?.bind HazardSlot.hazardPtr = some ptr

instance [DecidableEq π] (domain : Domain π) (place : ℕ) (ptr : π) : Decidable (domain.HoldsAt place ptr) :=
  inferInstanceAs (Decidable (_ = _))

/-- No thread has decided to delete `ptr`, nor can one that is deciding now. -/
structure Domain.Guarded (domain : Domain π) (place : ℕ) (ptr : π) : Prop where
  deleterCalls : ∀ entry ∈ domain.deleterCalls, entry.ptr ≠ ptr
  condemned : ∀ thread, ∀ entry ∈ (domain.pcs thread).condemned, entry.ptr ≠ ptr
  before : ∀ thread, (domain.pcs thread).Before place ptr

/-- `isProtected` reads `next_` of a slot only when no `acquire` is between its write of `head_` and its
write of that `next_`. -/
def ReadsLinked (domain : Domain π) : Action π → Prop
  | .step thread => ∀ it current, domain.pcs thread = .reclaim (.loadNext it current) →
      ∀ other holder oldHead, domain.pcs other ≠ .acquire holder (.link current oldHead)
  | _ => True

namespace Domain

variable {domain next : Domain π} {published linked place : ℕ} {ptr : π} {thread : ThreadId} {pc' : Pc π}

/-- A published slot without its `next_` belongs to an `acquire` that is about to write it. -/
theorem Linked.linking (h : domain.Linked published linked) (hlt : linked < published) :
    ∃ thread holder oldHead, domain.pcs thread = .acquire holder (.link linked oldHead) := by
  have hle := h.published_le
  cases hmutex : domain.listMutex with
  | none =>
    have := h.unlocked hmutex
    omega
  | some thread =>
    obtain ⟨holder, pc, hpc, hcritical⟩ := h.owner thread hmutex
    have hplaced := h.pcs thread
    rw [hpc] at hplaced
    obtain ⟨-, hplaced⟩ := hplaced
    cases pc with
    | link newHp oldHead =>
      obtain ⟨rfl, -⟩ := hplaced
      exact ⟨thread, holder, oldHead, hpc⟩
    | lock => exact absurd rfl hcritical
    | readOldHead | publish =>
      have := hplaced.2.1
      omega
    | loadHead | allocate =>
      have : linked = domain.slots.length := hplaced
      omega
    | _ =>
      have := hplaced.1
      omega

/-- What `isProtected` reads from `next_` is the slot below. -/
theorem Linked.next_of_reads [DecidableEq π] (h : domain.Linked published linked) {it : Cursor π} {current : ℕ}
    {slot : HazardSlot π} (hreads : ReadsLinked domain (.step thread))
    (hpc : domain.pcs thread = .reclaim (.loadNext it current)) (hslot : domain.slots[current]? = some slot) :
    slot.next = below current := by
  have hplaced := h.pcs thread
  rw [hpc] at hplaced
  have hcurrent : current < linked := by
    by_contra hnot
    have hlength := h.length_le
    have hle := h.published_le
    have hlt : current < published := hplaced
    obtain ⟨other, holder, oldHead, hother⟩ := h.linking (by omega)
    obtain rfl : linked = current := by omega
    exact hreads it linked hpc other holder oldHead hother
  rw [h.next current slot hslot, if_pos hcurrent]

theorem Guarded.move (h : domain.Guarded place ptr) (hcalls : next.deleterCalls = domain.deleterCalls)
    (hpcs : next.pcs = Function.update domain.pcs thread pc')
    (hcondemned : ∀ entry ∈ pc'.condemned, entry.ptr ≠ ptr) (hbefore : pc'.Before place ptr) :
    next.Guarded place ptr where
  deleterCalls := hcalls ▸ h.deleterCalls
  condemned := by
    rw [hpcs, Function.forall_update_iff domain.pcs (p := fun _ pc ↦ ∀ entry ∈ pc.condemned, entry.ptr ≠ ptr)]
    exact ⟨hcondemned, fun other _ ↦ h.condemned other⟩
  before := by
    rw [hpcs, Function.forall_update_iff domain.pcs (p := fun _ pc ↦ pc.Before place ptr)]
    exact ⟨hbefore, fun other _ ↦ h.before other⟩

theorem Entries.guarded (h : domain.Entries fun entry ↦ entry.ptr ≠ ptr) : domain.Guarded place ptr where
  deleterCalls := h.deleterCalls
  condemned thread entry hentry := h.pcs thread entry ((domain.pcs thread).condemned_subset_entries hentry)
  before thread := Pc.before_of_entries (h.pcs thread)

theorem NoDecision.guarded (h : NoDecision thread domain next) (hguarded : domain.Guarded place ptr) :
    next.Guarded place ptr := by
  obtain ⟨pc', hpcs, hentries | ⟨entry, rfl⟩⟩ := h.pcs
  · refine hguarded.move h.deleterCalls hpcs ?_ (Pc.before_of_entries (by rw [hentries]; nofun))
    intro entry hentry
    have := pc'.condemned_subset_entries hentry
    rw [hentries] at this
    cases this
  · exact hguarded.move h.deleterCalls hpcs nofun trivial

/-- The heart of the matter: a walk for a pointer that a linked slot protects does not end without
finding it. -/
theorem reclaimStep_guarded [DecidableEq π] {pc : ReclaimPc π} (hlinked : domain.Linked published linked)
    (hholds : domain.HoldsAt place ptr) (hreads : ReadsLinked domain (.step thread))
    (hguarded : domain.Guarded place ptr) (hpc : domain.pcs thread = .reclaim pc)
    (h : domain.reclaimStep thread pc = some next) : next.Guarded place ptr := by
  have hcondemned := hguarded.condemned thread
  have hbefore := hguarded.before thread
  have hplaced := hlinked.pcs thread
  rw [hpc] at hcondemned hbefore hplaced
  obtain ⟨protector, hprotector, hhazard⟩ := Option.bind_eq_some_iff.mp hholds
  have hplace : place < linked := hlinked.hazard place protector hprotector (hhazard ▸ Option.some_ne_none ptr)
  have hpublished := hlinked.linked_le
  cases reclaimMove_of_step h with
  | lock | done => exact hguarded.move rfl rfl (List.forall_mem_nil _) trivial
  | finish | examine | keep | unlock => exact hguarded.move rfl rfl hcondemned trivial
  | noSlots it hhead =>
    have hnone : published = 0 := below_eq_none_iff.mp (hlinked.head.symm.trans hhead)
    omega
  | newest it current hhead =>
    have hcurrent : published = current + 1 := below_eq_some_iff.mp (hlinked.head.symm.trans hhead)
    refine hguarded.move rfl rfl hcondemned ?_
    intro _
    omega
  | pass it slot hslot hhazard' =>
    refine hguarded.move rfl rfl hcondemned ?_
    intro hptr
    apply Nat.lt_of_le_of_ne (hbefore hptr)
    rintro rfl
    -- the walk would be at the protecting slot itself
    obtain rfl : protector = slot := Option.some.inj (hprotector.symm.trans hslot)
    exact hhazard' (by rw [hhazard, hptr])
  | oldest it slot hslot hnext =>
    -- the walk has come to the end of the list, below the protecting slot
    rw [hlinked.next_of_reads hreads hpc hslot] at hnext
    have hcurrent := below_eq_none_iff.mp hnext
    refine hguarded.move rfl rfl (List.forall_mem_cons.mpr ⟨fun hptr ↦ ?_, hcondemned⟩) trivial
    have hlt := hbefore hptr
    omega
  | follow it slot following hslot hnext =>
    rw [hlinked.next_of_reads hreads hpc hslot] at hnext
    have hcurrent := below_eq_some_iff.mp hnext
    refine hguarded.move rfl rfl hcondemned ?_
    intro hptr
    have hlt := hbefore hptr
    omega
  | erase it =>
    obtain ⟨hentry, hold⟩ := List.forall_mem_cons.mp hcondemned
    exact hguarded.move rfl rfl (forall_mem_append_singleton hold hentry) trivial
  | delete entry rest =>
    obtain ⟨hentry, hrest⟩ := List.forall_mem_cons.mp hcondemned
    have hmoved : (domain.setPc thread (.reclaim (.callDeleters rest))).Guarded place ptr :=
      hguarded.move rfl rfl hrest trivial
    exact { hmoved with deleterCalls := forall_mem_append_singleton hguarded.deleterCalls hentry }

end Domain

/-! ## Runs -/

variable [DecidableEq π] {domain next : Domain π} {action : Action π} {place : ℕ} {ptr : π}

theorem guarded_of_step {published linked : ℕ} (hlinked : domain.Linked published linked)
    (hholds : domain.HoldsAt place ptr) (hreads : ReadsLinked domain action)
    (hguarded : domain.Guarded place ptr) (hstep : step domain action = some next) :
    next.Guarded place ptr := by
  rcases step_noDecision hstep with ⟨thread, pc, rfl, hpc, hreclaim⟩ | ⟨thread, hmoves⟩
  · exact Domain.reclaimStep_guarded hlinked hholds hreads hguarded hpc hreclaim
  · exact hmoves.guarded hguarded

/-- A pointer that was not yet handed to `RetirePointer` when `slot` began to hold it is not deleted
while `slot` holds it, in any run in which `isProtected` never reads a `next_` that `acquire` has still
to write. -/
theorem protected_not_deleted {first rest : List (Action π)} {since now : Domain π} {slot : ℕ} {ptr : π}
    (hfirst : run step {} first = some since)
    (hunretired : ∀ thread entry, .call thread (.retirePointer entry) ∈ first → entry.ptr ≠ ptr)
    (hrest : run step since rest = some now)
    (hholds : Throughout step (fun domain ↦ domain.HoldsAt slot ptr) since rest)
    (hreads : Meets step ReadsLinked {} (first ++ rest)) :
    ∀ entry ∈ now.deleterCalls, entry.ptr ≠ ptr := by
  have hguarded : since.Guarded slot ptr := (entries_of_run Domain.entries_empty hunretired hfirst).guarded
  have hfinal := hholds.invariant
    (I := fun domain ↦ (∃ published linked, domain.Linked published linked) ∧ domain.Guarded slot ptr) ?_
    (hreads.append_right hfirst) ⟨linked_of_run hfirst, hguarded⟩ hrest
  · exact hfinal.2.deleterCalls
  · intro domain action next hdomain hheld _ hreads hstep
    obtain ⟨⟨published, linked, hlinked⟩, hguarded⟩ := hdomain
    exact ⟨linked_of_step hlinked hstep, guarded_of_step hlinked hheld hreads hguarded hstep⟩

/-- Thread 0 protects the pointer 7 in the first slot. -/
def protectSeven : List (Action ℕ) :=
  [.call 0 (.construct 0)] ++ List.replicate 7 (.step 0) ++ [.call 0 (.protect 0 (some 7)), .step 0]

def sevenProtected : Domain ℕ := (run step {} protectSeven).getD {}

/-- Thread 1 registers, retires the pointer 7 and scans. -/
def retireAndScan : List (Action ℕ) :=
  [.call 1 .registerThread, .step 1, .step 1, .step 1, .call 1 (.retirePointer ⟨7, 0⟩), .step 1, .step 1,
    .call 1 .scan] ++ List.replicate 12 (.step 1)

/-- The step follows a `next_`. -/
def followsNext (domain : Domain ℕ) : Action ℕ → Bool
  | .step thread => match domain.pcs thread with
    | .reclaim (.loadNext _ _) => true
    | _ => false
  | _ => false

theorem readsLinked_of_not_followsNext {domain : Domain ℕ} {action : Action ℕ}
    (h : followsNext domain action = false) : ReadsLinked domain action := by
  cases action with
  | step thread =>
    intro it current hpc
    rw [followsNext, hpc] at h
    cases h
  | call thread op => trivial
  | exit thread => trivial

theorem protected_not_deleted_scanned :
    ∃ since now, run step {} protectSeven = some since ∧ run step since retireAndScan = some now ∧
      now.pcs 1 = .idle ∧ now.globalRetired = [⟨7, 0⟩] ∧ ∀ entry ∈ now.deleterCalls, entry.ptr ≠ 7 := by
  have hfirst : run step {} protectSeven = some _ := rfl
  refine ⟨_, _, hfirst, rfl, rfl, rfl, ?_⟩
  refine @protected_not_deleted ℕ _ protectSeven retireAndScan _ _ 0 7 hfirst ?_ rfl ?_ ?_
  · simp [protectSeven]
  · decide +kernel
  · have hnever : Meets step (fun domain action ↦ followsNext domain action = false) {}
        (protectSeven ++ retireAndScan) := by decide +kernel
    exact hnever.mono fun _ _ ↦ readsLinked_of_not_followsNext

/-- Thread 1 hands over the pointers one after another. -/
def retireAll (ptrs : List ℕ) : List (Action ℕ) :=
  ptrs.flatMap fun ptr ↦ [.call 1 (.retirePointer ⟨ptr, 0⟩), .step 1, .step 1]

/-- Thread 1 retires 7 and then 99 other pointers, which puts them on the global list; thread 2 gets
as far as publishing a new slot; thread 1 scans. -/
def scanDuringAcquire : List (Action ℕ) :=
  retireAll (List.range' 7 100) ++ List.replicate 4 (.step 1) ++
    [.call 2 (.construct 1)] ++ List.replicate 7 (.step 2) ++ [.call 1 .scan] ++ List.replicate 508 (.step 1)

/-- The walk meets the new slot before its `next_` is written and misses the slot that protects 7. -/
theorem protected_deleted_during_acquire :
    ∃ since now, run step {} protectSeven = some since ∧
      (∀ thread entry, .call thread (.retirePointer entry) ∉ protectSeven) ∧
      run step since scanDuringAcquire = some now ∧
      Throughout step (fun domain ↦ domain.HoldsAt 0 7) since scanDuringAcquire ∧
      ∃ entry ∈ now.deleterCalls, entry.ptr = 7 := by
  have hfirst : run step {} protectSeven = some sevenProtected := rfl
  have hholds : Throughout step (fun domain ↦ domain.HoldsAt 0 7) sevenProtected scanDuringAcquire := by
    decide +kernel
  have hcalls : (run step sevenProtected scanDuringAcquire).map (fun now ↦ now.deleterCalls) = some [⟨7, 0⟩] := by
    decide +kernel
  obtain ⟨now, hnow, hdeleted⟩ := Option.map_eq_some_iff.mp hcalls
  refine ⟨sevenProtected, now, hfirst, by simp [protectSeven], hnow, hholds, ⟨7, 0⟩, ?_, rfl⟩
  rw [hdeleted]
  exact List.mem_singleton.mpr rfl

end TinyReactor.Hazard
