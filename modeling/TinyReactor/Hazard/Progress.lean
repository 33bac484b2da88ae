import TinyReactor.Hazard.Conservation
import TinyReactor.Hazard.SlotList
import TinyReactor.Transition.Progress

/-!
# Progress in the domain

A function of the domain holds one mutex at a time and never waits inside, so a thread that waits for a mutex waits
for one that can move; the exception is again the call of `Scan` in `RetirePointer`. What a thread does between a lock
and its unlock is bounded by the number of slots, of registered threads and of entries in the global list. Every
`next_` leads to an older slot, so that `acquire` and `isProtected` come to the end of the list while others prepend.
-/

namespace TinyReactor.Hazard

open Transition

variable {π : Type*}

/-- The thread is inside a call. -/
def Pc.inCall : Pc π → Bool
  | .idle | .exited => false
  | _ => true

/-! ## Who can move -/

theorem Pc.locks_none_of_holds {pc : Pc π} {mutex : Mutex} (h : pc.holds mutex = true) :
    pc.inCall = true ∧ pc.locks? = none := by
  cases pc with
  | acquire holder pc =>
    cases pc with
    | lock => cases mutex <;> cases h
    | _ => exact ⟨rfl, rfl⟩
  | retire pc =>
    cases pc with
    | lock => cases mutex <;> cases h
    | _ => exact ⟨rfl, rfl⟩
  | scan pc =>
    cases pc with
    | lock => cases mutex <;> cases h
    | _ => exact ⟨rfl, rfl⟩
  | reclaim pc =>
    cases pc with
    | lock => cases mutex <;> cases h
    | _ => exact ⟨rfl, rfl⟩
  | register pc =>
    cases pc with
    | lock => cases mutex <;> cases h
    | _ => exact ⟨rfl, rfl⟩
  | unregister pc =>
    cases pc with
    | lock => cases mutex <;> cases h
    | _ => exact ⟨rfl, rfl⟩
  | _ => cases mutex <;> cases h

variable [DecidableEq π] {domain next : Domain π} {action : Action π} {thread : ThreadId} {mutex : Mutex}
  {published linked : ℕ}

/-- The next statement of the thread can be executed. -/
def Domain.Ready (domain : Domain π) (thread : ThreadId) : Prop := (step domain (.step thread)).isSome = true

/-- A thread inside a call can execute its next statement unless that locks a mutex. -/
theorem Domain.Linked.ready (h : domain.Linked published linked) (htabled : domain.Tabled)
    (hcall : (domain.pcs thread).inCall = true)
    (hfree : ∀ mutex, (domain.pcs thread).locks? = some mutex → domain.owner mutex = none) : domain.Ready thread := by
  have hplaced := h.pcs thread
  have hslot {place : ℕ} (hlt : place < published) : ∃ slot, domain.slots[place]? = some slot :=
    ⟨_, List.getElem?_eq_getElem (Nat.lt_of_lt_of_le hlt h.published_le)⟩
  change (domain.advance thread (domain.pcs thread)).isSome = true
  cases hpc : domain.pcs thread with
  | idle | exited =>
    rw [hpc] at hcall
    cases hcall
  | acquire holder pc =>
    rw [hpc] at hplaced hfree
    cases pc with
    | lock =>
      have hnone : domain.listMutex = none := hfree .list rfl
      simp [advance, acquireStep, hnone]
    | testOwner current | loadNext current =>
      obtain ⟨slot, hslot⟩ := hslot (Nat.lt_of_lt_of_le hplaced.2.2 h.linked_le)
      simp [advance, acquireStep, hslot]
    | _ => rfl
  | retire pc =>
    rw [hpc] at hfree
    cases pc with
    | lock =>
      have hnone : domain.globalRetiredMutex = none := hfree .globalRetired rfl
      simp [advance, retireStep, hnone]
    | _ => rfl
  | scan pc =>
    rw [hpc] at hfree
    cases pc with
    | lock =>
      have hnone : domain.globalRetiredMutex = none := hfree .globalRetired rfl
      simp [advance, scanStep, hnone]
    | loop index count =>
      obtain ⟨hvalid, rfl⟩ := htabled.spans thread index count hpc
      simp only [advance, scanStep, hvalid, if_true]
      split
      · rename_i hlt
        simp [List.getElem?_eq_getElem hlt, htabled.alive _ (List.getElem_mem hlt)]
      · rfl
    | _ => rfl
  | reclaim pc =>
    rw [hpc] at hplaced hfree
    cases pc with
    | lock =>
      have hnone : domain.globalRetiredMutex = none := hfree .globalRetired rfl
      simp [advance, reclaimStep, hnone]
    | testHazard it current | loadNext it current =>
      obtain ⟨slot, hslot⟩ := hslot hplaced
      simp [advance, reclaimStep, hslot]
    | callDeleters toReclaim => cases toReclaim <;> rfl
    | _ => rfl
  | register pc | unregister pc =>
    rw [hpc] at hfree
    cases pc with
    | lock =>
      have hnone : domain.threadDataMutex = none := hfree .threadData rfl
      simp [advance, registerStep, hnone]
    | update =>
      simp [advance, registerStep, htabled.removeThread_eq thread]
    | unlock => rfl
  | _ => rfl

/-- A thread at a lock that is taken cannot move. -/
theorem Domain.not_ready_of_locked {other : ThreadId} (hlocks : (domain.pcs thread).locks? = some mutex)
    (howner : domain.owner mutex = some other) : ¬ domain.Ready thread := by
  change ¬ (domain.advance thread (domain.pcs thread)).isSome = true
  cases hpc : domain.pcs thread with
  | acquire holder pc =>
    rw [hpc] at hlocks
    cases pc with
    | lock =>
      cases hlocks
      have hlocked : domain.listMutex = some other := howner
      simp [advance, acquireStep, hlocked]
    | _ => cases hlocks
  | retire pc =>
    rw [hpc] at hlocks
    cases pc with
    | lock =>
      cases hlocks
      have hlocked : domain.globalRetiredMutex = some other := howner
      simp [advance, retireStep, hlocked]
    | _ => cases hlocks
  | scan pc =>
    rw [hpc] at hlocks
    cases pc with
    | lock =>
      cases hlocks
      have hlocked : domain.globalRetiredMutex = some other := howner
      simp [advance, scanStep, hlocked]
    | _ => cases hlocks
  | reclaim pc =>
    rw [hpc] at hlocks
    cases pc with
    | lock =>
      cases hlocks
      have hlocked : domain.globalRetiredMutex = some other := howner
      simp [advance, reclaimStep, hlocked]
    | _ => cases hlocks
  | register pc | unregister pc =>
    rw [hpc] at hlocks
    cases pc with
    | lock =>
      cases hlocks
      have hlocked : domain.threadDataMutex = some other := howner
      simp [advance, registerStep, hlocked]
    | _ => cases hlocks
  | _ =>
    rw [hpc] at hlocks
    cases hlocks

/-- Every thread inside a call can move, or waits for a mutex that another thread holds, which can. -/
def Domain.Unblocked (domain : Domain π) : Prop :=
  ∀ thread, (domain.pcs thread).inCall = true → domain.Ready thread ∨ ∃ mutex owner,
    (domain.pcs thread).locks? = some mutex ∧ domain.owner mutex = some owner ∧ owner ≠ thread ∧ domain.Ready owner

theorem Domain.Linked.ready_of_owner (h : domain.Linked published linked) (htabled : domain.Tabled)
    (hinside : domain.OwnersInside) (howner : domain.owner mutex = some thread) : domain.Ready thread := by
  obtain ⟨hcall, hnone⟩ := Pc.locks_none_of_holds (hinside mutex thread howner)
  refine h.ready htabled hcall fun mutex hlocks ↦ ?_
  cases hnone.symm.trans hlocks

theorem Domain.Linked.unblocked (h : domain.Linked published linked) (htabled : domain.Tabled)
    (hinside : domain.OwnersInside) : domain.Unblocked := by
  intro thread hcall
  cases hlocks : (domain.pcs thread).locks? with
  | none =>
    refine .inl (h.ready htabled hcall fun mutex hmutex ↦ ?_)
    cases hlocks.symm.trans hmutex
  | some mutex =>
    cases howner : domain.owner mutex with
    | none =>
      refine .inl (h.ready htabled hcall fun other hother ↦ ?_)
      cases hlocks.symm.trans hother
      exact howner
    | some owner =>
      refine .inr ⟨mutex, owner, rfl, howner, ?_, h.ready_of_owner htabled hinside howner⟩
      rintro rfl
      exact hinside.not_selfLocks ⟨owner, mutex, hlocks, howner⟩

theorem Domain.Unblocked.not_selfLocks (h : domain.Unblocked) : ¬ domain.SelfLocks := by
  rintro ⟨thread, mutex, hlocks, howner⟩
  have hcall : (domain.pcs thread).inCall = true := by
    cases hpc : domain.pcs thread with
    | idle | exited =>
      rw [hpc] at hlocks
      cases hlocks
    | _ => rfl
  obtain hready | ⟨mutex', owner, hlocks', howner', hne, -⟩ := h thread hcall
  · exact not_ready_of_locked hlocks howner hready
  · cases hlocks.symm.trans hlocks'
    exact hne (Option.some.inj (howner'.symm.trans howner))

/-- While the table of threads is kept, nobody is ever blocked for good exactly when `RetirePointer` finds the global
list within its threshold every time it looks. -/
theorem unblocked_iff (actions : List (Action π)) (hkept : Meets step TableKept {} actions) :
    Throughout step Domain.Unblocked ({} : Domain π) actions ↔ Meets step WithinThreshold ({} : Domain π) actions := by
  constructor
  · intro h
    apply (not_selfLocks_throughout_iff excludes_empty ownersInside_empty actions).mp
    exact h.mono fun domain hdomain ↦ hdomain.not_selfLocks
  · intro h
    have hinvariant := (h.and hkept).throughout (I := fun domain ↦ domain.OwnersInside ∧ domain.Tabled ∧
      ∃ published linked, Domain.Linked domain published linked) ?_
      ⟨ownersInside_empty, tabled_empty, 0, 0, Domain.linked_empty⟩
    · refine hinvariant.mono ?_
      rintro domain ⟨hinside, htabled, published, linked, hlinked⟩
      exact hlinked.unblocked htabled hinside
    · rintro domain action next ⟨hinside, htabled, published, linked, hlinked⟩ ⟨hwithin, hkept⟩ hstep
      exact ⟨hinside.step hwithin hstep, htabled.step hkept hstep, linked_of_step hlinked hstep⟩

instance (domain : Domain π) : (action : Action π) → Decidable (WithinThreshold domain action)
  | .step thread => inferInstanceAs
      (Decidable (domain.pcs thread = .retire .testGlobalSize → domain.globalRetired.length ≤ globalThreshold))
  | .call _ _ | .exit _ => .isTrue trivial

/-- Thread 0 registers; thread 1 scans while thread 0 waits to retire something. -/
def scanBesideRetire : List (Action ℕ) :=
  [.call 0 .registerThread, .step 0, .step 0, .step 0, .call 1 .scan, .step 1, .step 1,
    .call 0 (.retirePointer { ptr := 7 }), .step 0, .step 1, .step 1, .step 1, .step 1]

theorem unblocked_iff_scanBesideRetire : (run step ({} : Domain ℕ) scanBesideRetire).isSome = true ∧
    Throughout step Domain.Unblocked ({} : Domain ℕ) scanBesideRetire := by
  have hamong : Meets step (KeptAmong {0, 1}) {} scanBesideRetire := by
    decide +kernel
  have hwithin : Meets step WithinThreshold {} scanBesideRetire := by
    decide +kernel
  exact ⟨by decide +kernel, (unblocked_iff scanBesideRetire (Meets.tableKept hamong)).mpr hwithin⟩

/-! ## Critical sections -/

/-- How many statements of `acquire` are left before its unlock, at most, with so many slots. -/
def AcquirePc.left (slots : ℕ) : AcquirePc → ℕ
  | .lock => 0
  | .loadHead => 2 * slots + 7
  | .testOwner current => 2 * current + 8
  | .loadNext current => 2 * current + 7
  | .allocate => 5
  | .readOldHead _ => 4
  | .publish .. => 3
  | .claim _ | .link .. => 2
  | .unlock _ => 1

/-- The same for `reclaim_all`, with so many entries in the global list: each of them may be compared with every
slot. -/
def ReclaimPc.left (slots retired : ℕ) : ReclaimPc π → ℕ
  | .lock | .callDeleters _ => 0
  | .next index _ => (retired - index) * (2 * slots + 4) + 2
  | .loadHead it => (retired - (it.index + 1)) * (2 * slots + 4) + (2 * slots + 5)
  | .testHazard it current => (retired - (it.index + 1)) * (2 * slots + 4) + (2 * current + 6)
  | .loadNext it current => (retired - (it.index + 1)) * (2 * slots + 4) + (2 * current + 5)
  | .erase it => (retired - (it.index + 1)) * (2 * slots + 4) + 3
  | .unlock _ => 1

def ScanPc.left (threads : ℕ) : ScanPc → ℕ
  | .lock => 0
  | .start => threads + 3
  | .loop index count => count - index + 2
  | .unlock => 1

def RegisterPc.left : RegisterPc → ℕ
  | .lock => 0
  | .update => 2
  | .unlock => 1

/-- How many statements the thread executes at most before it unlocks the mutex it holds. -/
def Pc.left (slots threads retired : ℕ) : Pc π → ℕ
  | .acquire _ pc => pc.left slots
  | .retire .splice => 3
  | .retire .testGlobalSize => 2
  | .retire .unlock => 1
  | .scan pc => pc.left threads
  | .reclaim pc => pc.left slots retired
  | .register pc | .unregister pc => pc.left
  | _ => 0

/-- The number of slots and of registered threads stays within bounds, and so does the global list. -/
structure Modest (slots threads : ℕ) (domain : Domain π) (action : Action π) : Prop where
  threshold : WithinThreshold domain action
  grows : ∀ next, step domain action = some next →
    next.slots.length ≤ slots ∧ next.allThreadData.length ≤ threads

instance (slots threads : ℕ) (domain : Domain π) (action : Action π) : Decidable (Modest slots threads domain action) :=
  decidable_of_iff (WithinThreshold domain action ∧ ∀ next ∈ step domain action,
    next.slots.length ≤ slots ∧ next.allThreadData.length ≤ threads) ⟨fun h ↦ ⟨h.1, h.2⟩, fun h ↦ ⟨h.1, h.2⟩⟩

/-- What holds of the domain in such runs. -/
structure Domain.Bounded (slots threads : ℕ) (domain : Domain π) : Prop where
  linked : ∃ published linked, domain.Linked published linked
  excludes : domain.Excludes
  inside : domain.OwnersInside
  slots_le : domain.slots.length ≤ slots
  threads_le : domain.allThreadData.length ≤ threads
  tabled : domain.Tabled

variable {slots threads : ℕ}

omit [DecidableEq π] in
theorem bounded_empty : ({} : Domain π).Bounded slots threads where
  linked := ⟨0, 0, Domain.linked_empty⟩
  excludes := excludes_empty
  inside := ownersInside_empty
  slots_le := Nat.zero_le _
  threads_le := Nat.zero_le _
  tabled := tabled_empty

/-- How many statements are left of the section that the thread is in. -/
def Domain.left (slots threads : ℕ) (thread : ThreadId) (domain : Domain π) : ℕ :=
  (domain.pcs thread).left slots threads domain.globalRetired.length

omit [DecidableEq π] in
theorem Domain.left_setPc (domain : Domain π) (pc : Pc π) :
    (domain.setPc thread pc).left slots threads thread = pc.left slots threads domain.globalRetired.length := by
  rw [left, setPc_pcs_self]
  rfl

namespace Domain

section Sections

omit [DecidableEq π]

theorem Linked.acquire_left (h : domain.Linked published linked) (hslots : domain.slots.length ≤ slots)
    {holder : HolderId} {pc : AcquirePc} (hinside : pc ≠ .lock)
    (hstep : domain.acquireStep thread holder pc = some next) :
    next.listMutex = none ∨ next.left slots threads thread < pc.left slots := by
  cases acquireMove_of_step hstep with
  | lock => exact absurd rfl hinside
  | unlock => exact .inl rfl
  | newest current hhead =>
    have hlt := Nat.lt_of_lt_of_le (h.head_lt hhead) h.published_le
    rw [left_setPc]
    simp only [Pc.left, AcquirePc.left]
    omega
  | follow slot following hslot hnext =>
    have hlt := h.next_lt hslot hnext
    rw [left_setPc]
    simp only [Pc.left, AcquirePc.left]
    omega
  | _ =>
    rw [left_setPc]
    simp only [Pc.left, AcquirePc.left]
    omega

theorem retire_left {pc : RetirePc π} (hinside : (Pc.retire pc).holdsGlobalRetired = true)
    (hwithin : pc = .testGlobalSize → domain.globalRetired.length ≤ globalThreshold)
    (hstep : domain.retireStep thread pc = some next) :
    next.globalRetiredMutex = none ∨
      next.left slots threads thread < (Pc.retire pc).left slots threads domain.globalRetired.length := by
  cases retireMove_of_step hstep with
  | splice | within =>
    rw [left_setPc]
    simp [Pc.left]
  | beyond hsize => exact absurd hsize (Nat.not_lt.mpr (hwithin rfl))
  | unlock => exact .inl rfl
  | _ => cases hinside

theorem scan_left {pc : ScanPc} (hinside : pc ≠ .lock) (hthreads : domain.allThreadData.length ≤ threads)
    (hstep : domain.scanStep thread pc = some next) :
    next.globalRetiredMutex = none ∨ next.left slots threads thread < pc.left threads := by
  cases scanMove_of_step hstep with
  | lock => exact absurd rfl hinside
  | unlock => exact .inl rfl
  | _ =>
    rw [left_setPc]
    simp only [Pc.left, ScanPc.left]
    omega

/-- `isProtected` goes down the list of slots; after it the entry is erased or passed, and one fewer is left. -/
theorem Linked.reclaim_left [DecidableEq π] (h : domain.Linked published linked) (hslots : domain.slots.length ≤ slots)
    {pc : ReclaimPc π} (hinside : (Pc.reclaim pc).holdsGlobalRetired = true)
    (hstep : domain.reclaimStep thread pc = some next) :
    next.globalRetiredMutex = none ∨ next.left slots threads thread < pc.left slots domain.globalRetired.length := by
  cases reclaimMove_of_step hstep with
  | unlock => exact .inl rfl
  | lock | done | delete => cases hinside
  | finish hnone =>
    rw [left_setPc]
    simp only [Pc.left, ReclaimPc.left]
    omega
  | examine entry hentry =>
    rename_i index toReclaim
    have hlt := lt_length_of_getElem? hentry
    have hmore : (domain.globalRetired.length - index) * (2 * slots + 4) =
        (domain.globalRetired.length - (index + 1)) * (2 * slots + 4) + (2 * slots + 4) := by
      rw [← Nat.succ_mul]
      congr 1
      omega
    rw [left_setPc]
    simp only [Pc.left, ReclaimPc.left]
    omega
  | newest it current hhead =>
    have hlt := Nat.lt_of_lt_of_le (h.head_lt hhead) h.published_le
    rw [left_setPc]
    simp only [Pc.left, ReclaimPc.left]
    omega
  | follow it slot following hslot hnext =>
    have hlt := h.next_lt hslot hnext
    rw [left_setPc]
    simp only [Pc.left, ReclaimPc.left]
    omega
  | erase it =>
    have hfewer : (domain.globalRetired.eraseIdx it.index).length - it.index ≤
        domain.globalRetired.length - (it.index + 1) := by
      rw [List.length_eraseIdx]
      split <;> omega
    have hless := Nat.mul_le_mul_right (2 * slots + 4) hfewer
    rw [left_setPc]
    simp only [Pc.left, ReclaimPc.left]
    omega
  | _ =>
    rw [left_setPc]
    simp only [Pc.left, ReclaimPc.left]
    omega

theorem register_left {wrap : RegisterPc → Pc π} {update : Option (List ThreadId)} {pc : RegisterPc}
    (hwrap : ∀ pc, (wrap pc).left slots threads domain.globalRetired.length = pc.left) (hinside : pc ≠ .lock)
    (hstep : domain.registerStep thread wrap update pc = some next) :
    next.threadDataMutex = none ∨ next.left slots threads thread < pc.left := by
  cases registerMove_of_step hstep with
  | lock => exact absurd rfl hinside
  | update =>
    rw [left_setPc]
    exact .inr (by rw [hwrap]; decide)
  | unlock => exact .inl rfl

end Sections

/-- A statement of the thread that holds the mutex gives it back or leaves fewer of them. -/
theorem Bounded.left_of_own (h : domain.Bounded slots threads) (hwithin : WithinThreshold domain (.step thread))
    (howner : domain.owner mutex = some thread) (hstep : Hazard.step domain (.step thread) = some next) :
    next.owner mutex = none ∨ next.left slots threads thread < domain.left slots threads thread := by
  obtain ⟨published, linked, hlinked⟩ := h.linked
  have hinside := h.inside mutex thread howner
  change domain.advance thread (domain.pcs thread) = some next at hstep
  rw [left.eq_def slots threads thread domain]
  cases hpc : domain.pcs thread with
  | acquire holder pc =>
    rw [hpc] at hinside hstep
    cases mutex with
    | list =>
      refine hlinked.acquire_left h.slots_le ?_ hstep
      rintro rfl
      cases hinside
    | _ => cases hinside
  | retire pc =>
    rw [hpc] at hinside hstep
    cases mutex with
    | globalRetired =>
      refine retire_left hinside ?_ hstep
      rintro rfl
      exact hwithin hpc
    | _ => cases hinside
  | scan pc =>
    rw [hpc] at hinside hstep
    cases mutex with
    | globalRetired =>
      refine scan_left ?_ h.threads_le hstep
      rintro rfl
      cases hinside
    | _ => cases hinside
  | reclaim pc =>
    rw [hpc] at hinside hstep
    cases mutex with
    | globalRetired => exact hlinked.reclaim_left h.slots_le hinside hstep
    | _ => cases hinside
  | register pc | unregister pc =>
    rw [hpc] at hinside
    rw [hpc, advance] at hstep
    cases mutex with
    | threadData =>
      refine register_left (fun _ ↦ rfl) ?_ hstep
      rintro rfl
      cases hinside
    | _ => cases hinside
  | _ =>
    rw [hpc] at hinside
    cases mutex <;> cases hinside

end Domain

omit [DecidableEq π] in
/-- Only the sections of `global_retired_mutex_` depend on the global list. -/
theorem Pc.left_of_holds {pc : Pc π} (h : pc.holds mutex = true) (hmutex : mutex ≠ .globalRetired)
    (retired retired' : ℕ) : pc.left slots threads retired = pc.left slots threads retired' := by
  cases pc with
  | reclaim pc =>
    cases mutex with
    | globalRetired => exact absurd rfl hmutex
    | _ => cases h
  | retire pc => cases pc <;> rfl
  | _ => rfl

theorem pcs_of_other (hstep : step domain action = some next) (hother : action.thread ≠ thread) :
    next.pcs thread = domain.pcs thread := by
  have hmoves (hexits : ExitsEmpty domain action) : next.pcs thread = domain.pcs thread := by
    obtain ⟨pc', hpcs, -⟩ := step_entryMove hexits hstep
    rw [hpcs, Function.update_of_ne (Ne.symm hother)]
  cases action with
  | exit mover =>
    obtain ⟨-, rfl⟩ := eq_of_exit hstep
    exact Function.update_of_ne (Ne.symm hother) ..
  | _ => exact hmoves trivial

/-- The others neither move the thread nor touch what it works on. -/
theorem left_of_other (h : domain.Excludes) (hinside : (domain.pcs thread).holds mutex = true)
    (hstep : step domain action = some next) (hother : action.thread ≠ thread) :
    next.left slots threads thread = domain.left slots threads thread := by
  have hglobal (hmutex : mutex = .globalRetired) : next.globalRetired = domain.globalRetired := by
    subst hmutex
    have hkept (hexits : ExitsEmpty domain action) := globalRetired_of_other h hexits hstep hother hinside
    cases action with
    | exit mover =>
      obtain ⟨-, rfl⟩ := eq_of_exit hstep
      rfl
    | _ => exact hkept trivial
  rw [Domain.left, Domain.left, pcs_of_other hstep hother]
  by_cases hmutex : mutex = .globalRetired
  · rw [hglobal hmutex]
  · exact Pc.left_of_holds hinside hmutex _ _

theorem Domain.Bounded.step (h : domain.Bounded slots threads) (hok : Modest slots threads domain action)
    (hkept : TableKept domain action) (hstep : Hazard.step domain action = some next) : next.Bounded slots threads where
  linked := by
    obtain ⟨published, linked, hlinked⟩ := h.linked
    exact linked_of_step hlinked hstep
  excludes := h.excludes.step hstep
  inside := h.inside.step hok.threshold hstep
  slots_le := (hok.grows next hstep).1
  threads_le := (hok.grows next hstep).2
  tabled := h.tabled.step hkept hstep

omit [DecidableEq π] in
/-- The longest section is that of `reclaim_all`, which compares every entry with every slot. -/
theorem Domain.Bounded.left_le (h : domain.Bounded slots threads) (thread : ThreadId) :
    domain.left slots threads thread ≤ (domain.globalRetired.length + 1) * (2 * slots + 4) + threads + 3 := by
  obtain ⟨published, linked, hlinked⟩ := h.linked
  have hplaced := hlinked.pcs thread
  have hslots := h.slots_le
  have hpublished := hlinked.published_le
  have hlinkedLe := hlinked.linked_le
  have hentries (index : ℕ) : (domain.globalRetired.length - index) * (2 * slots + 4) ≤
      domain.globalRetired.length * (2 * slots + 4) := Nat.mul_le_mul_right _ (Nat.sub_le _ _)
  rw [Nat.succ_mul, Domain.left]
  cases hpc : domain.pcs thread with
  | acquire holder pc =>
    rw [hpc] at hplaced
    obtain ⟨-, hplaced⟩ := hplaced
    cases pc with
    | testOwner current | loadNext current =>
      obtain ⟨-, hlt⟩ := hplaced
      simp only [Pc.left, AcquirePc.left]
      omega
    | _ =>
      simp only [Pc.left, AcquirePc.left]
      omega
  | retire pc =>
    cases pc <;> simp only [Pc.left] <;> omega
  | scan pc =>
    cases pc with
    | loop index count =>
      have hcount := (h.tabled.spans thread index count hpc).2
      have hthreads := h.threads_le
      simp only [Pc.left, ScanPc.left]
      omega
    | _ =>
      simp only [Pc.left, ScanPc.left]
      omega
  | reclaim pc =>
    rw [hpc] at hplaced
    cases pc with
    | testHazard it current | loadNext it current =>
      have hlt : current < published := hplaced
      have := hentries (it.index + 1)
      simp only [Pc.left, ReclaimPc.left]
      omega
    | next index toReclaim =>
      have := hentries index
      simp only [Pc.left, ReclaimPc.left]
      omega
    | loadHead it | erase it =>
      have := hentries (it.index + 1)
      simp only [Pc.left, ReclaimPc.left]
      omega
    | _ =>
      simp only [Pc.left, ReclaimPc.left]
      omega
  | register pc | unregister pc =>
    cases pc <;> simp only [Pc.left, RegisterPc.left] <;> omega
  | _ =>
    simp only [Pc.left]
    omega

/-- In a run with so many slots and registered threads, the global list within its threshold and the table of threads
kept: a thread that keeps a mutex can always execute its next statement, and executes no more of them than it takes
to compare every entry of the global list with every slot. -/
theorem critical_sections_bounded (slots threads : ℕ) {first second : List (Action π)} {domain final : Domain π}
    (hfirst : run step {} first = some domain) (hsecond : run step domain second = some final)
    (hmodest : Meets step (Modest slots threads) {} (first ++ second))
    (hkept : Meets step TableKept {} (first ++ second)) (mutex : Mutex) (thread : ThreadId)
    (hkeeps : Throughout step (fun visited ↦ visited.owner mutex = some thread) domain second) :
    countSteps step (fun _ action ↦ action == .step thread) domain second ≤
        (domain.globalRetired.length + 1) * (2 * slots + 4) + threads + 3 ∧
      Throughout step (fun visited ↦ visited.Ready thread) domain second := by
  have hbounded : domain.Bounded slots threads :=
    (hmodest.append_left.and hkept.append_left).invariant (fun _ _ _ h hok hstep ↦ h.step hok.1 hok.2 hstep)
      bounded_empty hfirst
  have hlater := ((hmodest.append_right hfirst).and (hkept.append_right hfirst)).and hkeeps.meets
  constructor
  · refine Nat.le_trans ?_ (hbounded.left_le thread)
    have hpaid := countSteps_le_of_potential (p := fun _ action ↦ action == .step thread) (d := fun _ _ ↦ false) 0
      (I := Domain.Bounded slots threads) (m := Domain.left slots threads thread) ?_ hlater hbounded hsecond
    · omega
    · rintro visited action next hvisited ⟨⟨hok, htable⟩, howner, hkept⟩ hstep
      refine ⟨hvisited.step hok htable hstep, ?_⟩
      have hinside := hvisited.inside mutex thread howner
      by_cases hother : action.thread = thread
      · cases action with
        | step mover =>
          obtain rfl : mover = thread := hother
          obtain hfree | hless := hvisited.left_of_own hok.threshold howner hstep
          · cases (hkept next hstep).symm.trans hfree
          · simp only [beq_self_eq_true, Bool.toNat_true, Nat.zero_mul, Nat.add_zero]
            exact hless
        | call mover op =>
          obtain rfl : mover = thread := hother
          rw [(enter_of_call hstep).1] at hinside
          cases mutex <;> cases hinside
        | exit mover =>
          obtain rfl : mover = thread := hother
          rw [(eq_of_exit hstep).1] at hinside
          cases mutex <;> cases hinside
      · have hnot : (action == .step thread) = false := by
          rw [beq_eq_false_iff_ne]
          rintro rfl
          exact hother rfl
        rw [left_of_other hvisited.excludes hinside hstep hother, hnot]
        exact Nat.le_refl _
  · refine hlater.throughout (I := fun visited ↦ visited.Bounded slots threads ∧ visited.owner mutex = some thread) ?_
      ⟨hbounded, hkeeps.here⟩ |>.mono ?_
    · rintro visited action next ⟨hvisited, -⟩ ⟨⟨hok, htable⟩, -, hkept⟩ hstep
      exact ⟨hvisited.step hok htable hstep, hkept next hstep⟩
    · rintro visited ⟨hvisited, howner⟩
      obtain ⟨published, linked, hlinked⟩ := hvisited.linked
      exact hlinked.ready_of_owner hvisited.tabled hvisited.inside howner

/-- A thread constructs the first holder: it locks `list_mutex_`, and gets as far as the unlock. -/
theorem critical_sections_bounded_acquire : ∃ domain final : Domain ℕ,
    run step {} [.call 0 (.construct 0), .step 0] = some domain ∧
      run step domain (List.replicate 5 (.step 0)) = some final ∧ final.pcs 0 = .acquire 0 (.unlock 0) ∧
      countSteps step (fun _ action ↦ action == .step 0) domain (List.replicate 5 (.step 0)) ≤ 9 := by
  have hfirst : run step ({} : Domain ℕ) [.call 0 (.construct 0), .step 0] = some _ := rfl
  have hamong : Meets step (KeptAmong {0}) ({} : Domain ℕ)
      ([.call 0 (.construct 0), .step 0] ++ List.replicate 5 (.step 0)) := by
    decide +kernel
  refine ⟨_, _, hfirst, rfl, rfl, ?_⟩
  exact (critical_sections_bounded 1 0 hfirst rfl (by decide +kernel) (Meets.tableKept hamong) .list 0
    (by decide +kernel)).1

end TinyReactor.Hazard
