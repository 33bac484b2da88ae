import Mathlib.Algebra.Order.BigOperators.Group.Finset
import TinyReactor.Hazard.Conservation

/-!
# What a scan reclaims

`Scan` collects the lists of the registered threads into the global list and then deletes what
`isProtected` does not find. An entry that was retired before the scan began and is protected by no slot
meanwhile moves on in every phase of it, so that at the end it is deleted or somebody else is about to. The
collecting phase is where this can fail: it reads the lists of the registered threads only, it walks the table
of threads without the mutex that guards the table, and the table may name threads that have exited.
-/

namespace TinyReactor.Hazard

open Transition

variable {π : Type*}

/-- A scan finds every thread that has entries registered and has its table of threads for itself, and no
thread ends that is registered or has entries in its list. -/
def ListsInReach (domain : Domain π) : Action π → Prop
  | .step thread =>
      (domain.pcs thread = .scan .start → ∀ owner, domain.retiredList owner ≠ [] → owner ∈ domain.allThreadData) ∧
        (domain.ChangesTable thread → ∀ scanner, (domain.pcs scanner).inLoop = false)
  | .exit thread => domain.retiredList thread = [] ∧ thread ∉ domain.allThreadData
  | .call _ _ => True

/-- No slot holds the pointer. -/
def Unprotected (ptr : π) (domain : Domain π) : Prop := ∀ slot ∈ domain.slots, slot.hazardPtr ≠ some ptr

instance [DecidableEq π] (ptr : π) : DecidablePred (Unprotected ptr) :=
  fun domain ↦ inferInstanceAs (Decidable (∀ slot ∈ domain.slots, slot.hazardPtr ≠ some ptr))

theorem ListsInReach.exitsEmpty {domain : Domain π} {action : Action π} (h : ListsInReach domain action) :
    ExitsEmpty domain action := by
  cases action with
  | exit thread => exact h.1
  | _ => trivial

theorem ListsInReach.tableKept {domain : Domain π} {action : Action π} (h : ListsInReach domain action) :
    TableKept domain action := by
  cases action with
  | step thread | exit thread => exact h.2
  | call thread op => trivial

/-! ## Progress of the entries -/

variable [DecidableEq π]

namespace Domain

/-- How often the entry was deleted or is in a batch. -/
def settled (threads : Finset ThreadId) (entry : RetiredPtr π) (domain : Domain π) : ℕ :=
  domain.inBatches threads entry + domain.deleterCalls.count entry

/-- How often the entry is in the lists that the loop of `Scan` has still to visit. -/
def unvisited (index : ℕ) (entry : RetiredPtr π) (domain : Domain π) : ℕ :=
  ∑ owner ∈ (domain.allThreadData.drop index).toFinset, (domain.retiredList owner).count entry

end Domain

/-- At least `count` of these entries are ahead of the scanning thread or already settled, as its program
point tells. -/
def Ahead (threads : Finset ThreadId) (entry : RetiredPtr π) (count : ℕ) (domain : Domain π) : Pc π → Prop
  | .scan .lock => count ≤ domain.stock threads entry
  | .scan .start => count ≤ domain.stock threads entry
  | .scan (.loop index length) => length = domain.allThreadData.length ∧
      count ≤ domain.unvisited index entry + domain.globalRetired.count entry + domain.settled threads entry
  | .scan .unlock => count ≤ domain.globalRetired.count entry + domain.settled threads entry
  | .reclaim .lock => count ≤ domain.globalRetired.count entry + domain.settled threads entry
  | .reclaim (.next index _) =>
      count ≤ (domain.globalRetired.drop index).count entry + domain.settled threads entry
  | .reclaim (.loadHead it) =>
      count ≤ (domain.globalRetired.drop it.index).count entry + domain.settled threads entry
  | .reclaim (.testHazard it _) =>
      count ≤ (domain.globalRetired.drop it.index).count entry + domain.settled threads entry
  | .reclaim (.loadNext it _) =>
      count ≤ (domain.globalRetired.drop it.index).count entry + domain.settled threads entry
  | .reclaim (.erase it) =>
      count ≤ (domain.globalRetired.drop it.index).count entry + domain.settled threads entry
  | .reclaim (.unlock _) => count ≤ domain.settled threads entry
  | .reclaim (.callDeleters _) => count ≤ domain.settled threads entry
  | .idle => count ≤ domain.settled threads entry
  | .exited => count ≤ domain.settled threads entry
  | _ => False

section Moves

variable {domain next : Domain π} {thread : ThreadId} {threads : Finset ThreadId} {pc' : Pc π} {entry : RetiredPtr π}

/-- Entries are never taken back from a batch or from the deleter. -/
theorem EntryMove.settled_le (hmove : EntryMove thread domain next pc')
    (hpcs : next.pcs = Function.update domain.pcs thread pc') (hthread : thread ∈ threads) (entry : RetiredPtr π) :
    domain.settled threads entry ≤ next.settled threads entry := by
  have hbatches := inBatches_update entry hthread hpcs
  unfold Domain.settled
  cases hmove with
  | stay _ _ hdeleted hbatch =>
    rw [hbatch] at hbatches
    rw [hdeleted]
    omega
  | append _ hpc hbatch _ _ hdeleted =>
    rw [hpc, hbatch] at hbatches
    change _ + 0 = _ + 0 at hbatches
    rw [hdeleted]
    omega
  | splice _ _ _ hbatch hbatch' _ _ hdeleted =>
    rw [hbatch, hbatch'] at hbatches
    rw [hdeleted]
    omega
  | erase it hpc hpc' _ _ hdeleted =>
    rw [hpc, hpc'] at hbatches
    change _ + it.toReclaim.count entry = _ + (it.toReclaim ++ [it.entry]).count entry at hbatches
    rw [List.count_append] at hbatches
    rw [hdeleted]
    omega
  | delete entry' hbatch _ _ hdeleted =>
    rw [hbatch, ← List.singleton_append, List.count_append] at hbatches
    rw [hdeleted, List.count_append]
    omega

/-- What `reclaim_all` takes off the list goes to its batch. -/
theorem EntryMove.global_settled_le (hmove : EntryMove thread domain next pc') (hcursored : domain.Cursored)
    (hpcs : next.pcs = Function.update domain.pcs thread pc') (hthread : thread ∈ threads) (entry : RetiredPtr π) :
    domain.globalRetired.count entry + domain.settled threads entry ≤
      next.globalRetired.count entry + next.settled threads entry := by
  have hsettled := hmove.settled_le hpcs hthread entry
  cases hmove with
  | stay _ hglobal | append _ _ _ _ hglobal | delete _ _ _ hglobal =>
    rw [hglobal]
    omega
  | splice _ _ _ _ _ _ hglobal =>
    rw [hglobal, List.count_append]
    omega
  | erase it hpc hpc' _ hglobal hdeleted =>
    have hit : domain.globalRetired[it.index]? = some it.entry := hcursored thread it (by rw [hpc]; rfl)
    have hglobals := count_eraseIdx_add entry hit
    have hbatches := inBatches_update entry hthread hpcs
    rw [hpc, hpc'] at hbatches
    change _ + it.toReclaim.count entry = _ + (it.toReclaim ++ [it.entry]).count entry at hbatches
    rw [List.count_append] at hbatches
    unfold Domain.settled
    rw [hglobal, hdeleted]
    omega

end Moves

section Steps

variable {domain next : Domain π} {thread : ThreadId} {threads : Finset ThreadId} {entry : RetiredPtr π}
  {action : Action π} {count : ℕ}

theorem settled_of_step (hstep : step domain action = some next) (hthread : action.thread ∈ threads)
    (hexits : ExitsEmpty domain action) (entry : RetiredPtr π) :
    domain.settled threads entry ≤ next.settled threads entry := by
  obtain ⟨pc', hpcs, hmove⟩ := step_entryMove hexits hstep
  exact hmove.settled_le hpcs hthread entry

theorem global_settled_of_step (hstep : step domain action = some next) (h : Orderly threads domain)
    (hthread : action.thread ∈ threads) (hexits : ExitsEmpty domain action) (entry : RetiredPtr π) :
    domain.globalRetired.count entry + domain.settled threads entry ≤
      next.globalRetired.count entry + next.settled threads entry := by
  obtain ⟨pc', hpcs, hmove⟩ := step_entryMove hexits hstep
  exact hmove.global_settled_le h.cursored hpcs hthread entry

theorem stock_le_of_step (hstep : step domain action = some next) (h : Orderly threads domain)
    (hthread : action.thread ∈ threads) (hexits : ExitsEmpty domain action) (entry : RetiredPtr π) :
    domain.stock threads entry ≤ next.stock threads entry := by
  rw [stock_of_step h hthread hexits hstep entry]
  exact Nat.le_add_right _ _

/-- While a thread scans, the others can only add to their lists. -/
theorem count_retiredList_of_other (hexcludes : domain.Excludes) (hexits : ExitsEmpty domain action)
    (hstep : step domain action = some next) (hother : action.thread ≠ thread)
    (hinside : (domain.pcs thread).holds .globalRetired = true) (owner : ThreadId) (entry : RetiredPtr π) :
    (domain.retiredList owner).count entry ≤ (next.retiredList owner).count entry := by
  obtain ⟨pc', hpcs, hmove⟩ := step_entryMove hexits hstep
  cases hmove with
  | stay hretired | erase _ _ _ hretired | delete _ _ hretired => rw [hretired]
  | append _ _ _ hretired =>
    rw [hretired]
    rcases eq_or_ne owner action.thread with rfl | hne
    · rw [Function.update_self, List.count_append]
      exact Nat.le_add_right _ _
    · rw [Function.update_of_ne hne]
  | splice _ _ hmover => exact absurd ((hexcludes .globalRetired).unique hmover hinside) hother

/-- Steps of the other threads put nothing behind the scanning thread. -/
theorem Ahead.of_other (h : Ahead threads entry count domain (domain.pcs thread)) (horderly : Orderly threads domain)
    (hthread : action.thread ∈ threads) (hreach : ListsInReach domain action)
    (hstep : step domain action = some next) (hother : action.thread ≠ thread) :
    Ahead threads entry count next (domain.pcs thread) := by
  have hsettled := settled_of_step hstep hthread hreach.exitsEmpty entry
  have hglobal := global_settled_of_step hstep horderly hthread hreach.exitsEmpty entry
  have hstock := stock_le_of_step hstep horderly hthread hreach.exitsEmpty entry
  have hsame := globalRetired_of_other horderly.excludes hreach.exitsEmpty hstep hother
  generalize hpc : domain.pcs thread = pc at h hsame
  cases pc with
  | scan pc =>
    cases pc with
    | lock | start => exact Nat.le_trans h hstock
    | loop index length =>
      have hsameTable : next.allThreadData = domain.allThreadData :=
        allThreadData_eq_of_step hreach.tableKept hstep (Pc.inLoop_of_eq hpc)
      have hlists : domain.unvisited index entry ≤ next.unvisited index entry := by
        unfold Domain.unvisited
        rw [hsameTable]
        apply Finset.sum_le_sum
        intro owner _
        exact count_retiredList_of_other horderly.excludes hreach.exitsEmpty hstep hother (by rw [hpc]; rfl) owner entry
      refine ⟨h.1.trans (congrArg List.length hsameTable.symm), ?_⟩
      have hle := h.2
      omega
    | unlock => exact Nat.le_trans h hglobal
  | reclaim pc =>
    cases pc with
    | lock => exact Nat.le_trans h hglobal
    | next | loadHead | testHazard | loadNext | erase =>
      change count ≤ _ at h
      change count ≤ _
      rw [hsame rfl]
      exact Nat.le_trans h (Nat.add_le_add_left hsettled _)
    | unlock | callDeleters => exact Nat.le_trans h hsettled
  | idle | exited => exact Nat.le_trans h hsettled
  | _ => exact h.elim

/-- Before its loop the scan has every list with entries ahead of it. -/
theorem inLists_le_unvisited (hreach : ∀ owner, domain.retiredList owner ≠ [] → owner ∈ domain.allThreadData) :
    domain.inLists threads entry ≤ domain.unvisited 0 entry := by
  unfold Domain.inLists Domain.unvisited
  rw [List.drop_zero]
  apply Finset.sum_le_sum_of_ne_zero
  intro owner _ hcount
  apply List.mem_toFinset.mpr
  apply hreach
  intro hempty
  rw [hempty] at hcount
  exact hcount rfl

/-- One round of the loop: what it takes from the list of the next thread is all that is no longer ahead. -/
theorem unvisited_le_of_round (entry : RetiredPtr π) (next : Domain π) {index : ℕ} {owner : ThreadId}
    (howner : domain.allThreadData[index]? = some owner) (hall : next.allThreadData = domain.allThreadData)
    (hretired : next.retiredList = Function.update domain.retiredList owner []) :
    domain.unvisited index entry ≤ next.unvisited (index + 1) entry + (domain.retiredList owner).count entry := by
  obtain ⟨hlt, rfl⟩ := List.getElem?_eq_some_iff.mp howner
  have hinsert : (domain.allThreadData.drop index).toFinset =
      insert domain.allThreadData[index] (domain.allThreadData.drop (index + 1)).toFinset := by
    rw [List.drop_eq_getElem_cons hlt, List.toFinset_cons]
  unfold Domain.unvisited
  rw [hall, hretired, hinsert]
  generalize (domain.allThreadData.drop (index + 1)).toFinset = later
  generalize domain.allThreadData[index] = owner
  have hothers : ∑ other ∈ later.erase owner, (domain.retiredList other).count entry ≤
      ∑ other ∈ later, (Function.update domain.retiredList owner [] other).count entry := by
    calc ∑ other ∈ later.erase owner, (domain.retiredList other).count entry
        = ∑ other ∈ later.erase owner, (Function.update domain.retiredList owner [] other).count entry := by
          apply Finset.sum_congr rfl
          intro other hother
          rw [Function.update_of_ne (Finset.ne_of_mem_erase hother)]
      _ ≤ ∑ other ∈ later, (Function.update domain.retiredList owner [] other).count entry :=
          Finset.sum_le_sum_of_subset (Finset.erase_subset owner later)
  have hsplit : ∑ other ∈ insert owner later, (domain.retiredList other).count entry =
      (domain.retiredList owner).count entry + ∑ other ∈ later.erase owner, (domain.retiredList other).count entry := by
    rw [← Finset.add_sum_erase _ _ (Finset.mem_insert_self owner later), Finset.erase_insert_eq_erase]
  omega

theorem Ahead.scanStep {pc : ScanPc} (h : Ahead threads entry count domain (.scan pc))
    (hpc : domain.pcs thread = .scan pc) (horderly : Orderly threads domain) (hthread : thread ∈ threads)
    (hreach : ListsInReach domain (.step thread)) (hstep : step domain (.step thread) = some next) :
    Ahead threads entry count next (next.pcs thread) := by
  have hsettled := settled_of_step hstep hthread hreach.exitsEmpty entry
  have hglobal := global_settled_of_step hstep horderly hthread hreach.exitsEmpty entry
  have hstock := stock_le_of_step hstep horderly hthread hreach.exitsEmpty entry
  have hround (index : ℕ) (owner : ThreadId) (howner : domain.allThreadData[index]? = some owner) :=
    unvisited_le_of_round entry next howner
  rw [step, hpc] at hstep
  cases Domain.scanMove_of_step hstep with
  | lock hfree =>
    rw [Domain.setPc_pcs_self]
    exact Nat.le_trans h hstock
  | start =>
    have hlists : domain.inLists threads entry ≤ domain.unvisited 0 entry := inLists_le_unvisited (hreach.1 hpc)
    rw [Domain.setPc_pcs_self]
    refine ⟨rfl, ?_⟩
    change count ≤ domain.unvisited 0 entry + domain.globalRetired.count entry + Domain.settled threads entry _
    change count ≤ domain.stock threads entry at h
    unfold Domain.stock at h
    unfold Domain.settled at hsettled ⊢
    omega
  | @splice index length owner hvalid hlt howner =>
    obtain ⟨hlength, hcount⟩ := h
    have hrest := hround index owner howner rfl rfl
    rw [Domain.setPc_pcs_self]
    refine ⟨hlength, ?_⟩
    change count ≤ _ + (domain.globalRetired ++ domain.retiredList owner).count entry + _
    rw [List.count_append]
    omega
  | @finish index length hvalid hge =>
    obtain ⟨hlength, hcount⟩ := h
    have hnone : domain.unvisited index entry = 0 := by
      rw [Domain.unvisited, List.drop_of_length_le (by omega), List.toFinset_nil, Finset.sum_empty]
    rw [Domain.setPc_pcs_self]
    change count ≤ domain.globalRetired.count entry + Domain.settled threads entry _
    omega
  | unlock =>
    rw [Domain.setPc_pcs_self]
    exact Nat.le_trans h hglobal

theorem count_drop_eq {list : List (RetiredPtr π)} {index : ℕ} {old : RetiredPtr π}
    (h : list[index]? = some old) (entry : RetiredPtr π) :
    (list.drop index).count entry = [old].count entry + (list.drop (index + 1)).count entry := by
  obtain ⟨hlt, rfl⟩ := List.getElem?_eq_some_iff.mp h
  rw [List.drop_eq_getElem_cons hlt, ← List.singleton_append, List.count_append]

omit [DecidableEq π] in
theorem drop_eraseIdx_self {list : List (RetiredPtr π)} {index : ℕ} {old : RetiredPtr π}
    (h : list[index]? = some old) : (list.eraseIdx index).drop index = list.drop (index + 1) := by
  have hlt := lt_length_of_getElem? h
  rw [List.eraseIdx_eq_take_drop_succ, List.drop_append_of_le_length (by simp; omega)]
  simp

/-- The batch grows by the entry that leaves the list. -/
theorem settled_of_erase {it : Cursor π} (hthread : thread ∈ threads)
    (hpc : domain.pcs thread = .reclaim (.erase it)) (hstep : step domain (.step thread) = some next)
    (entry : RetiredPtr π) :
    next.settled threads entry = domain.settled threads entry + [it.entry].count entry := by
  rw [step, hpc] at hstep
  obtain ⟨hpcs, hdeleted⟩ : next.pcs = Function.update domain.pcs thread
      (.reclaim (.next it.index (it.toReclaim ++ [it.entry]))) ∧ next.deleterCalls = domain.deleterCalls := by
    cases hstep
    exact ⟨rfl, rfl⟩
  have hbatches := inBatches_update entry hthread hpcs
  rw [hpc] at hbatches
  change _ + it.toReclaim.count entry = _ + (it.toReclaim ++ [it.entry]).count entry at hbatches
  rw [List.count_append] at hbatches
  unfold Domain.settled
  rw [hdeleted]
  omega

theorem Ahead.reclaimStep {pc : ReclaimPc π} (h : Ahead threads entry count domain (.reclaim pc))
    (hpc : domain.pcs thread = .reclaim pc) (horderly : Orderly threads domain) (hthread : thread ∈ threads)
    (hreach : ListsInReach domain (.step thread)) (hfree : Unprotected entry.ptr domain)
    (hstep : step domain (.step thread) = some next) : Ahead threads entry count next (next.pcs thread) := by
  have hsettled := settled_of_step hstep hthread hreach.exitsEmpty entry
  have hglobal := global_settled_of_step hstep horderly hthread hreach.exitsEmpty entry
  have hcursor (it : Cursor π) (hit : (domain.pcs thread).cursor? = some it) :=
    count_drop_eq (horderly.cursored thread it hit) entry
  have hmove := hstep
  rw [step, hpc] at hmove
  cases Domain.reclaimMove_of_step hmove with
  | lock hfree =>
    rw [Domain.setPc_pcs_self]
    exact Nat.le_trans h hglobal
  | @finish index toReclaim hnone =>
    have hdrop : (domain.globalRetired.drop index).count entry = 0 := by
      rw [List.drop_of_length_le (List.getElem?_eq_none_iff.mp hnone), List.count_nil]
    change count ≤ (domain.globalRetired.drop index).count entry + domain.settled threads entry at h
    rw [hdrop, Nat.zero_add] at h
    rw [Domain.setPc_pcs_self]
    exact Nat.le_trans h hsettled
  | examine | noSlots | newest | pass | oldest | follow =>
    rw [Domain.setPc_pcs_self]
    exact Nat.le_trans h (Nat.add_le_add_left hsettled _)
  | keep it slot hslot hhazard =>
    -- the entry that is protected is another one
    have hother : it.entry ≠ entry := by
      rintro rfl
      exact hfree slot (List.mem_of_getElem? hslot) hhazard
    have hdrop := hcursor it (by rw [hpc]; rfl)
    rw [List.count_singleton, if_neg (by simpa using hother), Nat.zero_add] at hdrop
    change count ≤ (domain.globalRetired.drop it.index).count entry + domain.settled threads entry at h
    rw [hdrop] at h
    rw [Domain.setPc_pcs_self]
    exact Nat.le_trans h (Nat.add_le_add_left hsettled _)
  | erase it =>
    have hbatch := settled_of_erase hthread hpc hstep entry
    have hdrop := hcursor it (by rw [hpc]; rfl)
    have hrest := drop_eraseIdx_self (horderly.cursored thread it (by rw [hpc]; rfl))
    change count ≤ (domain.globalRetired.drop it.index).count entry + domain.settled threads entry at h
    rw [Domain.setPc_pcs_self]
    change count ≤ ((domain.globalRetired.eraseIdx it.index).drop it.index).count entry + _
    rw [hrest, hbatch]
    omega
  | unlock toReclaim =>
    rw [Domain.setPc_pcs_self]
    exact Nat.le_trans h hsettled
  | done | delete =>
    rw [Domain.setPc_pcs_self]
    exact Nat.le_trans h hsettled

theorem Ahead.step (h : Ahead threads entry count domain (domain.pcs thread)) (horderly : Orderly threads domain)
    (hthread : action.thread ∈ threads) (hreach : ListsInReach domain action) (hfree : Unprotected entry.ptr domain)
    (hcalls : ∀ op, action ≠ .call thread op) (hstep : step domain action = some next) :
    Ahead threads entry count next (next.pcs thread) := by
  by_cases hother : action.thread = thread
  · cases action with
    | call mover op =>
      obtain rfl : mover = thread := hother
      exact absurd rfl (hcalls op)
    | exit mover =>
      obtain rfl : mover = thread := hother
      have hsettled := settled_of_step hstep hthread hreach.exitsEmpty entry
      cases hpc : domain.pcs mover with
      | idle =>
        rw [hpc] at h
        rw [Hazard.step, hpc] at hstep
        cases hstep
        rw [Domain.setPc_pcs_self]
        exact Nat.le_trans h hsettled
      | _ =>
        rw [Hazard.step, hpc] at hstep
        cases hstep
    | step mover =>
      obtain rfl : mover = thread := hother
      cases hpc : domain.pcs mover with
      | scan pc =>
        rw [hpc] at h
        exact h.scanStep hpc horderly hthread hreach hstep
      | reclaim pc =>
        rw [hpc] at h
        exact h.reclaimStep hpc horderly hthread hreach hfree hstep
      | idle | exited =>
        rw [Hazard.step, hpc] at hstep
        cases hstep
      | _ =>
        rw [hpc] at h
        exact h.elim
  · obtain ⟨pc', hpcs, -⟩ := step_entryMove hreach.exitsEmpty hstep
    rw [hpcs, Function.update_of_ne (Ne.symm hother)]
    exact h.of_other horderly hthread hreach hstep hother

end Steps

/-- The runs in which the lists stay within reach: what a scan that completes has done with the entries. -/
theorem reclaimed_of_run (first rest : List (Action π)) (since entered final : Domain π) (threads : Finset ThreadId)
    (thread : ThreadId) (entry : RetiredPtr π) (hfirst : run step {} first = some since)
    (hcall : step since (.call thread .scan) = some entered) (hrest : run step entered rest = some final)
    (hcalls : ∀ op, .call thread op ∉ rest) (hdone : final.pcs thread = .idle)
    (hthreads : ∀ action ∈ first ++ .call thread .scan :: rest, action.thread ∈ threads)
    (hreach : Meets step ListsInReach {} (first ++ .call thread .scan :: rest))
    (hfree : Throughout step (Unprotected entry.ptr) entered rest) :
    handed entry first ≤ final.deleterCalls.count entry +
      ∑ other ∈ threads.erase thread, (final.pcs other).batch.count entry := by
  rw [List.forall_mem_append, List.forall_mem_cons] at hthreads
  obtain ⟨hthreadsFirst, hthread, hthreadsRest⟩ := hthreads
  have hexits : Meets step ExitsEmpty {} first := hreach.append_left.mono fun _ _ h ↦ h.exitsEmpty
  obtain ⟨horderly, hstock⟩ := stock_of_run hfirst hthreadsFirst hexits
  have hentered : Orderly threads entered := horderly.step hthread trivial hcall
  have hstart : Ahead threads entry (handed entry first) entered (entered.pcs thread) := by
    have hpc : entered.pcs thread = .scan .lock := by
      cases (enter_of_call hcall).2
      exact Domain.setPc_pcs_self _
    rw [hpc]
    exact Nat.le_trans (Nat.le_of_eq (hstock entry).symm) (stock_le_of_step hcall horderly hthread trivial entry)
  have hok : Meets step (fun domain action ↦ ListsInReach domain action ∧
      action.thread ∈ threads ∧ ∀ op, action ≠ .call thread op) entered rest := by
    apply ((hreach.append_right hfirst).2 entered hcall).and
    exact Meets.of_forall_mem fun action hmem _ ↦ ⟨hthreadsRest action hmem, fun op heq ↦ hcalls op (heq ▸ hmem)⟩
  have hfinal := hfree.invariant
    (I := fun domain ↦ Orderly threads domain ∧ Ahead threads entry (handed entry first) domain (domain.pcs thread))
    (by
      intro domain action next hdomain hunprotected _ hok hstep
      exact ⟨hdomain.1.step hok.2.1 hok.1.exitsEmpty hstep,
        hdomain.2.step hdomain.1 hok.2.1 hok.1 hunprotected hok.2.2 hstep⟩)
    hok ⟨hentered, hstart⟩ hrest
  have hsettled : handed entry first ≤ final.settled threads entry := by
    have hahead := hfinal.2
    rw [hdone] at hahead
    exact hahead
  have hnone : (final.pcs thread).batch.count entry = 0 := by
    rw [hdone]
    rfl
  have hmem : thread ∈ threads := hthread
  have hbatches : final.inBatches threads entry =
      ∑ other ∈ threads.erase thread, (final.pcs other).batch.count entry := by
    rw [Domain.inBatches, ← Finset.add_sum_erase threads _ hmem, hnone, Nat.zero_add]
  rw [Domain.settled, hbatches] at hsettled
  omega

/-! ## Executions -/

/-- In every execution in which the lists stay within reach of the scans, a scan that completes has settled all
entries that were handed over before it began and that no slot held meanwhile: each was deleted, or is in
the batch of another `reclaim_all`. -/
theorem scan_reclaims (first rest : List (Event π)) (since entered final : Domain π) (threads : Finset ThreadId)
    (thread : ThreadId) (entry : RetiredPtr π) (hfirst : run execute {} first = some since)
    (hcall : step since (.call thread .scan) = some entered) (hrest : run execute entered rest = some final)
    (hcalls : ∀ op, .act (.call thread op) ∉ rest) (hdone : final.pcs thread = .idle)
    (hthreads : ∀ action, .act action ∈ first ++ .act (.call thread .scan) :: rest → action.thread ∈ threads)
    (hreach : Meets execute (Event.onActions ListsInReach True) {} (first ++ .act (.call thread .scan) :: rest))
    (hfree : Throughout execute (Unprotected entry.ptr) entered rest) :
    handedOver entry first ≤ final.deleterCalls.count entry +
      ∑ other ∈ threads.erase thread, (final.pcs other).batch.count entry := by
  have hkept : Meets execute (Event.onActions TableKept True) {} (first ++ .act (.call thread .scan) :: rest) := by
    refine hreach.mono fun domain event hevent ↦ ?_
    cases event with
    | act action => exact hevent.tableKept
    | anything agent next => trivial
  have hrun : run execute {} (first ++ .act (.call thread .scan) :: rest) = some final := by
    rw [run_append, hfirst, Option.bind_some, run_cons]
    change (step since (.call thread .scan)).bind _ = some final
    rw [hcall, Option.bind_some, hrest]
  obtain ⟨actions, hactions⟩ := exists_actions_of_kept hkept hrun
  obtain ⟨first, later, rfl, rfl, hlater⟩ := List.map_eq_append_iff.mp hactions.symm
  obtain ⟨_, rest, rfl, hscan, rfl⟩ := List.map_eq_cons_iff.mp hlater
  cases hscan
  rw [hactions, meets_execute_map] at hreach
  rw [run_execute_map] at hfirst hrest
  rw [throughout_execute_map] at hfree
  rw [handedOver_map]
  refine reclaimed_of_run first rest since entered final threads thread entry hfirst hcall hrest
    (fun op hmem ↦ hcalls op (act_mem_map.mpr hmem)) hdone (fun action hmem ↦ hthreads action ?_) hreach hfree
  rw [hactions]
  exact act_mem_map.mpr hmem

/-! ## One thread alone -/

/-- Only `thread` has done anything. -/
def Alone (thread : ThreadId) (domain : Domain π) : Prop :=
  ∀ other, other ≠ thread → domain.pcs other = .idle ∧ domain.retiredList other = []

/-- It is registered when it scans its own entries. -/
def ScansOwn (thread : ThreadId) (domain : Domain π) (action : Action π) : Prop :=
  action.thread = thread ∧ action ≠ .exit thread ∧
    (domain.pcs thread = .scan .start → thread ∈ domain.allThreadData)

instance (thread : ThreadId) (domain : Domain π) (action : Action π) : Decidable (ScansOwn thread domain action) :=
  inferInstanceAs (Decidable (_ ∧ _ ∧ _))

section Alone

variable {domain next : Domain π} {thread : ThreadId} {action : Action π}

omit [DecidableEq π] in
theorem ScansOwn.exitsEmpty (h : ScansOwn thread domain action) : ExitsEmpty domain action := by
  cases action with
  | exit mover => exact absurd (congrArg Action.exit h.1) h.2.1
  | _ => trivial

theorem Alone.step (h : Alone thread domain) (hthread : action.thread = thread) (hexits : ExitsEmpty domain action)
    (hstep : step domain action = some next) : Alone thread next := by
  intro other hother
  obtain ⟨hidle, hempty⟩ := h other hother
  obtain ⟨pc', hpcs, hmove⟩ := step_entryMove hexits hstep
  rw [hthread] at hpcs hmove
  refine ⟨by rw [hpcs, Function.update_of_ne hother, hidle], ?_⟩
  cases hmove with
  | stay hretired | erase _ _ _ hretired | delete _ _ hretired => rw [hretired, hempty]
  | append _ _ _ hretired => rw [hretired, Function.update_of_ne hother, hempty]
  | splice owner _ _ _ _ hretired =>
    rw [hretired]
    rcases eq_or_ne other owner with rfl | hne
    · exact Function.update_self ..
    · rw [Function.update_of_ne hne, hempty]

omit [DecidableEq π] in
theorem Alone.listsInReach (h : Alone thread domain) (hown : ScansOwn thread domain action) :
    ListsInReach domain action := by
  obtain ⟨hthread, hexit, hstart⟩ := hown
  cases action with
  | call mover op => trivial
  | exit mover => exact absurd (congrArg Action.exit hthread) hexit
  | step mover =>
    obtain rfl : mover = thread := hthread
    refine ⟨fun hpc owner howner ↦ ?_, fun hchanges scanner ↦ ?_⟩
    · by_cases hother : owner = mover
      · exact hother ▸ hstart hpc
      · exact absurd (h owner hother).2 howner
    · by_cases hother : scanner = mover
      · obtain hpc | ⟨hpc, -⟩ := hchanges <;> rw [hother, hpc] <;> rfl
      · rw [(h scanner hother).1]
        rfl

end Alone

/-- Thread 0 registers and retires 7. -/
def registerAndRetire : List (Action ℕ) :=
  [.call 0 .registerThread, .step 0, .step 0, .step 0, .call 0 (.retirePointer { ptr := 7 }), .step 0, .step 0]

/-- The statements of a scan that finds one entry and deletes it. -/
def scanOne : List (Action ℕ) := List.replicate 13 (.step 0)

theorem scan_reclaims_registered :
    ∃ since entered final, run step {} registerAndRetire = some since ∧
      step since (.call 0 .scan) = some entered ∧ run step entered scanOne = some final ∧
      final.pcs 0 = .idle ∧ 1 ≤ final.deleterCalls.count { ptr := 7 } := by
  have hidle : (run step {} (registerAndRetire ++ .call 0 .scan :: scanOne)).map (fun domain ↦ domain.pcs 0) =
      some .idle := by
    decide +kernel
  obtain ⟨final, hrun, hdone⟩ := Option.map_eq_some_iff.mp hidle
  obtain ⟨since, hsince, hscan⟩ := run_append_some hrun
  obtain ⟨entered, hcall, hrest⟩ := run_cons_some hscan
  have hreach : Meets step ListsInReach {} (registerAndRetire ++ .call 0 .scan :: scanOne) := by
    have hown : Meets step (ScansOwn 0) {} (registerAndRetire ++ .call 0 .scan :: scanOne) := by
      decide +kernel
    apply hown.strengthen (I := Alone 0) (fun _ _ _ h hok hstep ↦ h.step hok.1 hok.exitsEmpty hstep)
      (fun _ _ h hok ↦ h.listsInReach hok)
    exact fun _ _ ↦ ⟨rfl, rfl⟩
  have hfree : Throughout step (Unprotected 7) {} (registerAndRetire ++ .call 0 .scan :: scanOne) := by
    decide +kernel
  have hhanded : handed { ptr := 7 } registerAndRetire = 1 := by
    decide +kernel
  have hthreads : ∀ action ∈ registerAndRetire ++ .call 0 .scan :: scanOne,
      action.thread ∈ ({0} : Finset ThreadId) := by
    decide
  have hevents : (registerAndRetire ++ .call 0 .scan :: scanOne).map (.act : Action ℕ → Event ℕ) =
      registerAndRetire.map .act ++ .act (.call 0 .scan) :: scanOne.map .act := by
    rw [List.map_append, List.map_cons]
  have hreclaimed := scan_reclaims (registerAndRetire.map .act) (scanOne.map .act) since entered final {0} 0
    { ptr := 7 } (by rw [run_execute_map, hsince]) hcall (by rw [run_execute_map, hrest]) (by simp [scanOne]) hdone
    (fun action hmem ↦ hthreads action (act_mem_map.mp (hevents ▸ hmem))) (hevents ▸ meets_execute_map.mpr hreach)
    (throughout_execute_map.mpr ((hfree.append_right hsince).2 entered hcall))
  rw [handedOver_map, hhanded] at hreclaimed
  exact ⟨since, entered, final, hsince, hcall, hrest, hdone, hreclaimed⟩

/-- Thread 0, which is not registered, retires 7. -/
def retireUnregistered : List (Action ℕ) := [.call 0 (.retirePointer { ptr := 7 }), .step 0, .step 0]

/-- The statements of a scan that finds nothing. -/
def scanNone : List (Action ℕ) := List.replicate 8 (.step 0)

/-- The scan of a thread that never registered completes, and 7 is still in the list of the thread, with
nobody else at work. -/
theorem scan_misses_unregistered :
    ∃ since entered final, run step {} retireUnregistered = some since ∧
      step since (.call 0 .scan) = some entered ∧ run step entered scanNone = some final ∧
      Throughout step (Unprotected 7) entered scanNone ∧ final.pcs 0 = .idle ∧
      handed { ptr := 7 } retireUnregistered = 1 ∧ final.retiredList 0 = [{ ptr := 7 }] ∧
      final.deleterCalls = [] ∧ ∀ other, other ≠ 0 → final.pcs other = .idle := by
  have hshown : (run step {} (retireUnregistered ++ .call 0 .scan :: scanNone)).map
      (fun domain ↦ (domain.pcs 0, domain.retiredList 0, domain.deleterCalls)) =
        some (.idle, [{ ptr := 7 }], []) := by
    decide +kernel
  have hfree : Throughout step (Unprotected 7) {} (retireUnregistered ++ .call 0 .scan :: scanNone) := by
    decide +kernel
  obtain ⟨final, hrun, hfinal⟩ := Option.map_eq_some_iff.mp hshown
  simp only [Prod.mk.injEq] at hfinal
  obtain ⟨hidle, hlist, hdeleted⟩ := hfinal
  have hown : Meets step (fun domain action ↦ action.thread = 0 ∧ ExitsEmpty domain action) ({} : Domain ℕ)
      (retireUnregistered ++ .call 0 .scan :: scanNone) := by
    apply Meets.of_forall_mem
    intro action hmem domain
    simp only [retireUnregistered, scanNone, List.cons_append, List.nil_append, List.mem_cons, List.mem_replicate] at hmem
    rcases hmem with rfl | rfl | rfl | rfl | ⟨-, rfl⟩ <;> exact ⟨rfl, trivial⟩
  have halone : Alone 0 final :=
    hown.invariant (I := Alone 0) (fun _ _ _ h hok hstep ↦ h.step hok.1 hok.2 hstep) (fun _ _ ↦ ⟨rfl, rfl⟩) hrun
  obtain ⟨since, hsince, hscan⟩ := run_append_some hrun
  obtain ⟨entered, hcall, hrest⟩ := run_cons_some hscan
  exact ⟨since, entered, final, hsince, hcall, hrest, (hfree.append_right hsince).2 entered hcall, hidle,
    by decide +kernel, hlist, hdeleted, fun other hother ↦ (halone other hother).1⟩

end TinyReactor.Hazard
