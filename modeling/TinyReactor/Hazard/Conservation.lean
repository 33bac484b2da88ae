import TinyReactor.Hazard.Entries
import TinyReactor.Hazard.Locking
import TinyReactor.Hazard.Table

/-!
# Conservation of retired entries

A retired entry is in the list of a thread, in the global list, in the batch of a `reclaim_all`, or its
deleter has been called. The statements that touch these places each move entries from one of them to the
next: the inversion lemma of this module names them, and says that all others leave the places alone. That
the entry which `reclaim_all` moves is the one it has examined needs the mutex: nobody else takes entries
off the global list meanwhile.
-/

namespace TinyReactor.Hazard

open Transition

variable {π : Type*}

/-- A thread that ends leaves no entries behind. -/
def ExitsEmpty (domain : Domain π) : Action π → Prop
  | .exit thread => domain.retiredList thread = []
  | _ => True

/-! ## How entries move -/

/-- A step of `thread` to `pc'`, by what it does to the places of entries. -/
inductive EntryMove (thread : ThreadId) (domain next : Domain π) (pc' : Pc π) : Prop
  | stay (hretired : next.retiredList = domain.retiredList) (hglobal : next.globalRetired = domain.globalRetired)
      (hdeleted : next.deleterCalls = domain.deleterCalls) (hbatch : pc'.batch = (domain.pcs thread).batch)
  | append (entry : RetiredPtr π) (hpc : domain.pcs thread = .retire (.append entry)) (hbatch : pc'.batch = [])
      (hretired : next.retiredList =
        Function.update domain.retiredList thread (domain.retiredList thread ++ [entry]))
      (hglobal : next.globalRetired = domain.globalRetired) (hdeleted : next.deleterCalls = domain.deleterCalls)
  | splice (owner : ThreadId) (howner : owner = thread ∨ owner ∈ domain.allThreadData)
      (hinside : (domain.pcs thread).holds .globalRetired = true) (hbatch : (domain.pcs thread).batch = [])
      (hbatch' : pc'.batch = []) (hretired : next.retiredList = Function.update domain.retiredList owner [])
      (hglobal : next.globalRetired = domain.globalRetired ++ domain.retiredList owner)
      (hdeleted : next.deleterCalls = domain.deleterCalls)
  | erase (it : Cursor π) (hpc : domain.pcs thread = .reclaim (.erase it))
      (hpc' : pc' = .reclaim (.next it.index (it.toReclaim ++ [it.entry])))
      (hretired : next.retiredList = domain.retiredList)
      (hglobal : next.globalRetired = domain.globalRetired.eraseIdx it.index)
      (hdeleted : next.deleterCalls = domain.deleterCalls)
  | delete (entry : RetiredPtr π) (hbatch : (domain.pcs thread).batch = entry :: pc'.batch)
      (hretired : next.retiredList = domain.retiredList) (hglobal : next.globalRetired = domain.globalRetired)
      (hdeleted : next.deleterCalls = domain.deleterCalls ++ [entry])

namespace Domain

variable {domain next : Domain π} {thread : ThreadId}

theorem batch_eq_nil {pc : Pc π} (h : pc.entries = []) : pc.batch = [] :=
  List.subset_nil.mp (h ▸ Pc.batch_subset pc)

/-- A step that moves no entry, from a program point that holds none. -/
theorem NoEntryMoves.entryMove (h : NoEntryMoves thread domain next) (hpc : (domain.pcs thread).batch = []) :
    ∃ pc', next.pcs = Function.update domain.pcs thread pc' ∧ EntryMove thread domain next pc' := by
  obtain ⟨pc', hpcs, hentries⟩ := h.pcs
  refine ⟨pc', hpcs, .stay h.retiredList h.globalRetired h.deleterCalls ?_⟩
  rw [batch_eq_nil hentries, hpc]

theorem retireStep_entryMove {pc : RetirePc π} (hpc : domain.pcs thread = .retire pc)
    (h : domain.retireStep thread pc = some next) :
    ∃ pc', next.pcs = Function.update domain.pcs thread pc' ∧ EntryMove thread domain next pc' := by
  have hnone : (domain.pcs thread).batch = [] := by
    rw [hpc]
    rfl
  cases retireMove_of_step h with
  | append entry => exact ⟨_, rfl, .append entry hpc rfl rfl rfl rfl⟩
  | splice => exact ⟨_, rfl, .splice thread (.inl rfl) (by rw [hpc]; rfl) hnone rfl rfl rfl rfl⟩
  | _ => exact ⟨_, rfl, .stay rfl rfl rfl hnone.symm⟩

theorem scanStep_entryMove {pc : ScanPc} (hpc : domain.pcs thread = .scan pc)
    (h : domain.scanStep thread pc = some next) :
    ∃ pc', next.pcs = Function.update domain.pcs thread pc' ∧ EntryMove thread domain next pc' := by
  have hnone : (domain.pcs thread).batch = [] := by
    rw [hpc]
    rfl
  cases scanMove_of_step h with
  | splice owner hvalid hlt howner =>
    exact ⟨_, rfl, .splice owner (.inr (List.mem_of_getElem? howner)) (by rw [hpc]; rfl) hnone rfl rfl rfl rfl⟩
  | _ => exact ⟨_, rfl, .stay rfl rfl rfl hnone.symm⟩

theorem reclaimStep_entryMove [DecidableEq π] {pc : ReclaimPc π} (hpc : domain.pcs thread = .reclaim pc)
    (h : domain.reclaimStep thread pc = some next) :
    ∃ pc', next.pcs = Function.update domain.pcs thread pc' ∧ EntryMove thread domain next pc' := by
  cases reclaimMove_of_step h with
  | erase it => exact ⟨_, rfl, .erase it hpc rfl rfl rfl rfl⟩
  | delete entry rest => exact ⟨_, rfl, .delete entry (by rw [hpc]; rfl) rfl rfl rfl⟩
  | _ => exact ⟨_, rfl, .stay rfl rfl rfl (by rw [hpc]; rfl)⟩

theorem advance_entryMove [DecidableEq π] (h : domain.advance thread (domain.pcs thread) = some next) :
    ∃ pc', next.pcs = Function.update domain.pcs thread pc' ∧ EntryMove thread domain next pc' := by
  cases hpc : domain.pcs thread with
  | idle | exited =>
    rw [hpc] at h
    cases h
  | acquire holder pc =>
    rw [hpc] at h
    exact (acquireStep_noEntryMoves h).entryMove (by rw [hpc]; rfl)
  | release holder pc source =>
    rw [hpc] at h
    cases h
    exact releaseStep_noEntryMoves.entryMove (by rw [hpc]; rfl)
  | take holder source | protect slot ptr =>
    rw [hpc] at h
    cases h
    exact ⟨_, rfl, .stay rfl rfl rfl (by rw [hpc]; rfl)⟩
  | retire pc =>
    rw [hpc] at h
    exact retireStep_entryMove hpc h
  | scan pc =>
    rw [hpc] at h
    exact scanStep_entryMove hpc h
  | reclaim pc =>
    rw [hpc] at h
    exact reclaimStep_entryMove hpc h
  | register pc | unregister pc =>
    rw [hpc, advance] at h
    refine (registerStep_noEntryMoves ?_ h).entryMove (by rw [hpc]; rfl)
    exact fun _ ↦ rfl

end Domain

/-- Inversion of a step, for the places of entries. -/
theorem step_entryMove [DecidableEq π] {domain next : Domain π} {action : Action π}
    (hexits : ExitsEmpty domain action) (hstep : step domain action = some next) :
    ∃ pc', next.pcs = Function.update domain.pcs action.thread pc' ∧ EntryMove action.thread domain next pc' := by
  cases action with
  | call thread op =>
    have hnone : (domain.pcs thread).batch = [] := by
      rw [(enter_of_call hstep).1]
      rfl
    obtain ⟨entry, rfl, rfl⟩ | ⟨-, hmoves⟩ := call_entries hstep
    · exact ⟨_, rfl, .stay rfl rfl rfl hnone.symm⟩
    · exact hmoves.entryMove hnone
  | step thread => exact Domain.advance_entryMove hstep
  | exit thread =>
    obtain ⟨hidle, rfl⟩ := eq_of_exit hstep
    refine ⟨_, rfl, .stay ?_ rfl rfl (by rw [Action.thread, hidle]; rfl)⟩
    have hempty : domain.retiredList thread = [] := hexits
    exact hempty ▸ Function.update_eq_self thread domain.retiredList

/-! ## The entry under examination -/

/-- Where `reclaim_all` stands, while it examines an entry. -/
def Pc.cursor? : Pc π → Option (Cursor π)
  | .reclaim (.loadHead it) => some it
  | .reclaim (.testHazard it _) => some it
  | .reclaim (.loadNext it _) => some it
  | .reclaim (.erase it) => some it
  | _ => none

theorem Pc.holds_of_cursor {pc : Pc π} {it : Cursor π} (h : pc.cursor? = some it) : pc.holds .globalRetired = true := by
  cases pc with
  | reclaim pc =>
    cases pc with
    | loadHead | testHazard | loadNext | erase => rfl
    | _ => cases h
  | _ => cases h

theorem Pc.mem_entries_of_cursor {pc : Pc π} {it : Cursor π} (h : pc.cursor? = some it) : it.entry ∈ pc.entries := by
  cases pc with
  | reclaim pc =>
    cases pc with
    | loadHead | testHazard | loadNext | erase =>
      cases h
      exact List.mem_cons_self
    | _ => cases h
  | _ => cases h

/-- The examined entry is where the cursor says. -/
def Domain.Cursored (domain : Domain π) : Prop :=
  ∀ thread it, (domain.pcs thread).cursor? = some it → domain.globalRetired[it.index]? = some it.entry

variable [DecidableEq π] {domain next : Domain π} {action : Action π}

theorem reclaimStep_cursor {thread : ThreadId} {pc : ReclaimPc π} {it : Cursor π}
    (hpc : domain.pcs thread = .reclaim pc) (h : domain.reclaimStep thread pc = some next)
    (hit : (next.pcs thread).cursor? = some it) :
    (domain.pcs thread).cursor? = some it ∨
      (domain.globalRetired[it.index]? = some it.entry ∧ next.globalRetired = domain.globalRetired) := by
  rw [hpc]
  cases Domain.reclaimMove_of_step h with
  | examine entry hentry =>
    rw [Domain.setPc_pcs_self] at hit
    cases hit
    exact .inr ⟨hentry, rfl⟩
  | noSlots | newest | pass | oldest | follow =>
    rw [Domain.setPc_pcs_self] at hit
    exact .inl hit
  | _ =>
    rw [Domain.setPc_pcs_self] at hit
    cases hit

/-- A cursor was there before, or has just been set to an entry of the list. -/
theorem step_cursor (hstep : step domain action = some next) {thread : ThreadId} {it : Cursor π}
    (hit : (next.pcs thread).cursor? = some it) :
    (domain.pcs thread).cursor? = some it ∨
      (domain.globalRetired[it.index]? = some it.entry ∧ next.globalRetired = domain.globalRetired) := by
  rcases step_noDecision hstep with ⟨mover, pc, rfl, hpc, hreclaim⟩ | ⟨mover, -, pc', hpcs, hnone⟩
  · rcases eq_or_ne thread mover with rfl | hne
    · exact reclaimStep_cursor hpc hreclaim hit
    · obtain ⟨pc', hpcs, -⟩ := Domain.reclaimStep_entryMove hpc hreclaim
      rw [hpcs, Function.update_of_ne hne] at hit
      exact .inl hit
  · rcases eq_or_ne thread mover with rfl | hne
    · rw [hpcs, Function.update_self] at hit
      rcases hnone with hentries | ⟨entry, rfl⟩
      · have hmem := Pc.mem_entries_of_cursor hit
        rw [hentries] at hmem
        cases hmem
      · cases hit
    · rw [hpcs, Function.update_of_ne hne] at hit
      exact .inl hit

/-- Nobody but the thread with the cursor takes entries off the list. -/
theorem Domain.Cursored.step (h : domain.Cursored) (hexcludes : domain.Excludes) (hexits : ExitsEmpty domain action)
    (hstep : step domain action = some next) : next.Cursored := by
  intro thread it hit
  rcases step_cursor hstep hit with hold | ⟨hnew, hsame⟩
  · have hentry := h thread it hold
    obtain ⟨pc', hpcs, hmove⟩ := step_entryMove hexits hstep
    cases hmove with
    | stay _ hglobal | append _ _ _ _ hglobal | delete _ _ _ hglobal => rw [hglobal, hentry]
    | splice owner _ _ _ _ _ hglobal =>
      rw [hglobal, List.getElem?_append_left (lt_length_of_getElem? hentry), hentry]
    | erase it' hpc hpc' =>
      have hinside : (domain.pcs action.thread).holds .globalRetired = true := by
        rw [hpc]
        rfl
      obtain rfl := (hexcludes .globalRetired).unique (Pc.holds_of_cursor hold) hinside
      rw [hpcs, Function.update_self, hpc'] at hit
      cases hit
  · rw [hsame, hnew]

/-! ## Counting -/

namespace Domain

/-- How often the entry is in the lists of the threads. -/
def inLists (threads : Finset ThreadId) (entry : RetiredPtr π) (domain : Domain π) : ℕ :=
  ∑ thread ∈ threads, (domain.retiredList thread).count entry

/-- How often the entry is in the batches of the threads. -/
def inBatches (threads : Finset ThreadId) (entry : RetiredPtr π) (domain : Domain π) : ℕ :=
  ∑ thread ∈ threads, (domain.pcs thread).batch.count entry

/-- How often the entry is in one of the four places. -/
def stock (threads : Finset ThreadId) (entry : RetiredPtr π) (domain : Domain π) : ℕ :=
  domain.inLists threads entry + domain.globalRetired.count entry + domain.inBatches threads entry +
    domain.deleterCalls.count entry

end Domain

/-- The step is the `emplace_back` of a call of `RetirePointer` with this entry. -/
def appends (entry : RetiredPtr π) (domain : Domain π) : Action π → Bool
  | .step thread => domain.pcs thread == .retire (.append entry)
  | _ => false

/-- How often the entry was handed over in the run. -/
def handed (entry : RetiredPtr π) (actions : List (Action π)) : ℕ := countSteps step (appends entry) {} actions

section Counting

variable {threads : Finset ThreadId} {entry : RetiredPtr π} {thread : ThreadId} {pc' : Pc π}

theorem inLists_update (entry : RetiredPtr π) (hthread : thread ∈ threads) {list : List (RetiredPtr π)}
    (h : next.retiredList = Function.update domain.retiredList thread list) :
    next.inLists threads entry + (domain.retiredList thread).count entry =
      domain.inLists threads entry + list.count entry := by
  unfold Domain.inLists
  rw [h]
  exact sum_update_add (fun list : List (RetiredPtr π) ↦ list.count entry) hthread list

theorem inLists_same (h : next.retiredList = domain.retiredList) :
    next.inLists threads entry = domain.inLists threads entry := by
  rw [Domain.inLists, h, Domain.inLists]

theorem inBatches_update (entry : RetiredPtr π) (hthread : thread ∈ threads)
    (h : next.pcs = Function.update domain.pcs thread pc') :
    next.inBatches threads entry + (domain.pcs thread).batch.count entry =
      domain.inBatches threads entry + pc'.batch.count entry := by
  unfold Domain.inBatches
  rw [h]
  exact sum_update_add (fun pc : Pc π ↦ pc.batch.count entry) hthread pc'

theorem count_eraseIdx_add (entry : RetiredPtr π) {list : List (RetiredPtr π)} {index : ℕ} {old : RetiredPtr π}
    (h : list[index]? = some old) : (list.eraseIdx index).count entry + [old].count entry = list.count entry := by
  obtain ⟨hlt, rfl⟩ := List.getElem?_eq_some_iff.mp h
  rw [List.count_singleton, ← List.count_cons]
  exact (List.getElem_cons_eraseIdx_perm hlt).count_eq entry

/-- A move of entries changes the count only when it brings an entry, or loses a list. -/
theorem EntryMove.stock_eq (hmove : EntryMove thread domain next pc') (hcursored : domain.Cursored)
    (hpcs : next.pcs = Function.update domain.pcs thread pc') (hthread : thread ∈ threads)
    (hknown : ∀ owner ∈ domain.allThreadData, owner ∈ threads)
    (happend : ∀ entry, domain.pcs thread ≠ .retire (.append entry)) :
    next.stock threads entry = domain.stock threads entry := by
  have hbatches := inBatches_update entry hthread hpcs
  unfold Domain.stock
  cases hmove with
  | stay hretired hglobal hdeleted hbatch =>
    rw [inLists_same hretired, hglobal, hdeleted]
    rw [hbatch] at hbatches
    omega
  | append entry' hpc => exact absurd hpc (happend entry')
  | splice owner howner hinside hbatch hbatch' hretired hglobal hdeleted =>
    have howner : owner ∈ threads := by
      rcases howner with rfl | hregistered
      · exact hthread
      · exact hknown owner hregistered
    have hlists := inLists_update entry howner hretired
    rw [hglobal, hdeleted, List.count_append]
    rw [hbatch, hbatch'] at hbatches
    rw [List.count_nil] at hlists
    omega
  | erase it hpc hpc' hretired hglobal hdeleted =>
    have hit : domain.globalRetired[it.index]? = some it.entry := hcursored thread it (by rw [hpc]; rfl)
    have hglobals := count_eraseIdx_add entry hit
    rw [inLists_same hretired, hglobal, hdeleted]
    rw [hpc, hpc'] at hbatches
    change _ + it.toReclaim.count entry = _ + (it.toReclaim ++ [it.entry]).count entry at hbatches
    rw [List.count_append] at hbatches
    omega
  | delete entry' hbatch hretired hglobal hdeleted =>
    rw [inLists_same hretired, hglobal, hdeleted, List.count_append]
    rw [hbatch, ← List.singleton_append, List.count_append] at hbatches
    omega

end Counting

/-! ## Runs -/

/-- The invariant that the conservation of entries rests on. -/
structure Orderly (threads : Finset ThreadId) (domain : Domain π) : Prop where
  excludes : domain.Excludes
  cursored : domain.Cursored
  known : ∀ owner ∈ domain.allThreadData, owner ∈ threads

variable {threads : Finset ThreadId}

omit [DecidableEq π] in
theorem orderly_empty : Orderly threads ({} : Domain π) where
  excludes := excludes_empty
  cursored := by
    intro thread it hit
    cases hit
  known := by
    intro owner howner
    cases howner

theorem Orderly.step (h : Orderly threads domain) (hthread : action.thread ∈ threads)
    (hexits : ExitsEmpty domain action) (hstep : step domain action = some next) : Orderly threads next where
  excludes := h.excludes.step hstep
  cursored := h.cursored.step h.excludes hexits hstep
  known := by
    intro owner howner
    rcases mem_allThreadData_of_step hstep howner with hold | rfl
    · exact h.known owner hold
    · exact hthread

/-- `emplace_back` brings one entry. -/
theorem stock_of_append {thread : ThreadId} {entry' : RetiredPtr π} (hthread : thread ∈ threads)
    (hpc : domain.pcs thread = .retire (.append entry')) (hstep : step domain (.step thread) = some next)
    (entry : RetiredPtr π) :
    next.stock threads entry = domain.stock threads entry + (appends entry domain (.step thread)).toNat := by
  have happends : [entry'].count entry = (appends entry domain (.step thread)).toNat := by
    have hbeq : appends entry domain (.step thread) = (entry' == entry) := by simp [appends, hpc]
    rw [hbeq, List.count_singleton]
    cases entry' == entry <;> rfl
  obtain ⟨hretired, hglobal, hdeleted, hpcs⟩ : next.retiredList = Function.update domain.retiredList thread
        (domain.retiredList thread ++ [entry']) ∧ next.globalRetired = domain.globalRetired ∧
      next.deleterCalls = domain.deleterCalls ∧ next.pcs = Function.update domain.pcs thread (.retire .testSize) := by
    rw [step, hpc] at hstep
    cases hstep
    exact ⟨rfl, rfl, rfl, rfl⟩
  have hlists := inLists_update entry hthread hretired
  have hbatches := inBatches_update entry hthread hpcs
  rw [List.count_append, happends] at hlists
  rw [hpc] at hbatches
  change _ + 0 = _ + 0 at hbatches
  rw [Domain.stock, Domain.stock, hglobal, hdeleted]
  omega

/-- One step: nothing but an `emplace_back` changes the count. -/
theorem stock_of_step (h : Orderly threads domain) (hthread : action.thread ∈ threads)
    (hexits : ExitsEmpty domain action) (hstep : step domain action = some next) (entry : RetiredPtr π) :
    next.stock threads entry = domain.stock threads entry + (appends entry domain action).toNat := by
  by_cases happend : ∃ thread entry', action = .step thread ∧ domain.pcs thread = .retire (.append entry')
  · obtain ⟨thread, entry', rfl, hpc⟩ := happend
    exact stock_of_append hthread hpc hstep entry
  · have hnot : appends entry domain action = false := by
      cases action with
      | step thread => exact beq_eq_false_iff_ne.mpr fun hpc ↦ happend ⟨thread, entry, rfl, hpc⟩
      | _ => rfl
    obtain ⟨pc', hpcs, hmove⟩ := step_entryMove hexits hstep
    rw [hnot]
    apply hmove.stock_eq h.cursored hpcs hthread h.known
    intro entry' hpc
    cases action with
    | step thread => exact happend ⟨thread, entry', rfl, hpc⟩
    | call thread op =>
      rw [Action.thread] at hpc
      rw [step, hpc] at hstep
      cases hstep
    | exit thread =>
      rw [Action.thread] at hpc
      rw [step, hpc] at hstep
      cases hstep

theorem stock_empty (entry : RetiredPtr π) : ({} : Domain π).stock threads entry = 0 := by
  simp [Domain.stock, Domain.inLists, Domain.inBatches, Pc.batch]

theorem stock_of_run {actions : List (Action π)} {final : Domain π} (hrun : run step {} actions = some final)
    (hthreads : ∀ action ∈ actions, action.thread ∈ threads) (hexits : Meets step ExitsEmpty {} actions) :
    Orderly threads final ∧ ∀ entry, final.stock threads entry = handed entry actions := by
  have hacting : Meets step (fun _ action ↦ action.thread ∈ threads) ({} : Domain π) actions :=
    Meets.of_forall_mem fun action hmem _ ↦ hthreads action hmem
  constructor
  · apply (hacting.and hexits).invariant (I := Orderly threads) _ orderly_empty hrun
    exact fun _ _ _ h hok hstep ↦ h.step hok.1 hok.2 hstep
  · intro entry
    have hcount := countSteps_invariant (p := appends entry)
      (I := fun count visited ↦ Orderly threads visited ∧ visited.stock threads entry = count) ?_
      (hacting.and hexits) ⟨orderly_empty, stock_empty entry⟩ hrun
    · rw [hcount.2, Nat.zero_add, handed]
    · intro count state action next hstate hok hstep
      obtain ⟨horderly, rfl⟩ := hstate
      exact ⟨horderly.step hok.1 hok.2 hstep, stock_of_step horderly hok.1 hok.2 hstep entry⟩

/-! ## Entries on their way into the lists -/

/-- The entry that a call of `RetirePointer` has still to append. -/
def Pc.appending : Pc π → List (RetiredPtr π)
  | .retire (.append entry) => [entry]
  | _ => []

/-- What the action hands to `RetirePointer`. -/
def Action.retired : Action π → List (RetiredPtr π)
  | .call _ (.retirePointer entry) => [entry]
  | _ => []

/-- How many calls of `RetirePointer` have still to append the entry. -/
def Domain.inCalls (threads : Finset ThreadId) (entry : RetiredPtr π) (domain : Domain π) : ℕ :=
  ∑ thread ∈ threads, (domain.pcs thread).appending.count entry

omit [DecidableEq π] in
theorem Domain.NoEntryMoves.appending {thread : ThreadId} (h : NoEntryMoves thread domain next) :
    (next.pcs thread).appending = [] := by
  obtain ⟨pc', hpcs, hentries⟩ := h.pcs
  rw [hpcs, Function.update_self]
  cases pc' with
  | retire pc =>
    cases pc with
    | append entry => cases hentries
    | _ => rfl
  | _ => rfl

theorem advance_appending {thread : ThreadId} (h : domain.advance thread (domain.pcs thread) = some next) :
    (next.pcs thread).appending = [] := by
  cases hpc : domain.pcs thread with
  | idle | exited =>
    rw [hpc] at h
    cases h
  | acquire holder pc =>
    rw [hpc] at h
    exact (Domain.acquireStep_noEntryMoves h).appending
  | release holder pc source =>
    rw [hpc] at h
    cases h
    exact Domain.releaseStep_noEntryMoves.appending
  | take holder source | protect slot ptr =>
    rw [hpc] at h
    cases h
    rw [Domain.setPc_pcs_self]
    rfl
  | retire pc =>
    rw [hpc] at h
    cases Domain.retireMove_of_step h <;> rw [Domain.setPc_pcs_self] <;> rfl
  | scan pc =>
    rw [hpc] at h
    cases Domain.scanMove_of_step h <;> rw [Domain.setPc_pcs_self] <;> rfl
  | reclaim pc =>
    rw [hpc] at h
    cases Domain.reclaimMove_of_step h <;> rw [Domain.setPc_pcs_self] <;> rfl
  | register pc | unregister pc =>
    rw [hpc, Domain.advance] at h
    refine (Domain.registerStep_noEntryMoves ?_ h).appending
    exact fun _ ↦ rfl

/-- The call of `RetirePointer` is the only way to its first statement. -/
theorem step_appending (hstep : step domain action = some next) :
    (next.pcs action.thread).appending = action.retired := by
  cases action with
  | call thread op =>
    obtain ⟨entry, rfl, rfl⟩ | ⟨hop, hmoves⟩ := call_entries hstep
    · rw [Action.thread, Domain.setPc_pcs_self]
      rfl
    · have hnot : (Action.call thread op).retired = [] := by
        cases op with
        | retirePointer entry => exact absurd rfl (hop entry)
        | _ => rfl
      rw [hnot]
      exact hmoves.appending
  | step thread => exact advance_appending hstep
  | exit thread =>
    obtain ⟨-, rfl⟩ := eq_of_exit hstep
    rw [Action.thread, Domain.setPc_pcs_self]
    rfl

theorem Pc.count_appending (pc : Pc π) (entry : RetiredPtr π) :
    pc.appending.count entry = (pc == .retire (.append entry)).toNat := by
  by_cases hpc : pc = .retire (.append entry)
  · rw [hpc, beq_self_eq_true]
    exact List.count_singleton_self
  · rw [beq_false_of_ne hpc]
    refine List.count_eq_zero_of_not_mem fun hmem ↦ hpc ?_
    cases pc with
    | retire pc =>
      cases pc with
      | append entry' => rw [List.mem_singleton.mp hmem]
      | _ => cases hmem
    | _ => cases hmem

/-- What is on its way goes into a list by the step of its call. -/
theorem count_appending_of_step (entry : RetiredPtr π) (hstep : step domain action = some next) :
    (domain.pcs action.thread).appending.count entry = (appends entry domain action).toNat := by
  cases action with
  | call thread op =>
    rw [Action.thread, (enter_of_call hstep).1]
    rfl
  | exit thread =>
    rw [Action.thread, (eq_of_exit hstep).1]
    rfl
  | step thread => exact Pc.count_appending _ entry

/-- What was handed over is on its way or in one of the four places. -/
theorem owed_of_step (h : Orderly threads domain) (hthread : action.thread ∈ threads)
    (hexits : ExitsEmpty domain action) (hstep : step domain action = some next) (entry : RetiredPtr π) :
    next.stock threads entry + next.inCalls threads entry =
      domain.stock threads entry + domain.inCalls threads entry + action.retired.count entry := by
  obtain ⟨pc', hpcs, -⟩ := step_entryMove hexits hstep
  have hcalls : next.inCalls threads entry + (domain.pcs action.thread).appending.count entry =
      domain.inCalls threads entry + pc'.appending.count entry := by
    unfold Domain.inCalls
    rw [hpcs]
    exact sum_update_add (fun pc : Pc π ↦ pc.appending.count entry) hthread pc'
  have hnew := step_appending hstep
  rw [hpcs, Function.update_self] at hnew
  rw [count_appending_of_step entry hstep, hnew] at hcalls
  have hstock := stock_of_step h hthread hexits hstep entry
  omega

/-! ## One `reclaim_all` -/

/-- What the call of `isProtected` that the thread at `pc` is in returns, if it returns now. -/
def Domain.answer? (domain : Domain π) : Pc π → Option Bool
  | .reclaim (.loadHead _) => if domain.head = none then some false else none
  | .reclaim (.testHazard it current) =>
      if domain.slots[current]?.bind HazardSlot.hazardPtr = some it.entry.ptr then some true else none
  | .reclaim (.loadNext _ current) =>
      if domain.slots[current]?.bind HazardSlot.next = none then some false else none
  | _ => none

/-- The answers that one thread gets from `isProtected`. -/
def answerTo (thread : ThreadId) (domain : Domain π) (action : Action π) : Option Bool :=
  if action = .step thread then domain.answer? (domain.pcs thread) else none

/-- The entries found were judged one after another, up to `rest`: those judged protected stay, in order,
and the others are in the batch. -/
def Sifted (found : List (RetiredPtr π)) (answers : List Bool) (global : List (RetiredPtr π)) (index : ℕ)
    (toReclaim rest : List (RetiredPtr π)) : Prop :=
  ∃ judged : List (RetiredPtr π × Bool), found = judged.map Prod.fst ++ rest ∧ answers = judged.map Prod.snd ∧
    global = (judged.filter Prod.snd).map Prod.fst ++ rest ∧ index = (judged.filter Prod.snd).length ∧
    toReclaim = (judged.filter fun pair ↦ !pair.2).map Prod.fst

section Sifted

variable {found global toReclaim rest : List (RetiredPtr π)} {answers : List Bool} {index : ℕ} {entry : RetiredPtr π}

omit [DecidableEq π]

theorem Sifted.keep (h : Sifted found answers global index toReclaim (entry :: rest)) :
    Sifted found (answers ++ [true]) global (index + 1) toReclaim rest := by
  obtain ⟨judged, rfl, rfl, rfl, rfl, rfl⟩ := h
  exact ⟨judged ++ [(entry, true)], by simp, by simp, by simp, by simp, by simp⟩

theorem Sifted.take (h : Sifted found answers global index toReclaim (entry :: rest)) :
    Sifted found (answers ++ [false]) (global.eraseIdx index) index (toReclaim ++ [entry]) rest := by
  obtain ⟨judged, rfl, rfl, rfl, rfl, rfl⟩ := h
  refine ⟨judged ++ [(entry, false)], by simp, by simp, ?_, by simp, by simp⟩
  rw [List.eraseIdx_append_of_length_le (by simp)]
  simp

/-- The cursor stands at the first entry that is not judged. -/
theorem Sifted.getElem? (h : Sifted found answers global index toReclaim rest) : global[index]? = rest[0]? := by
  obtain ⟨judged, rfl, rfl, rfl, rfl, rfl⟩ := h
  rw [List.getElem?_append_right (by simp)]
  simp

end Sifted

/-- What has been judged when the thread is at `pc`. Once the mutex is released there is nothing to say. -/
def Sifting (found : List (RetiredPtr π)) (answers : List Bool) (global : List (RetiredPtr π)) : Pc π → Prop
  | .reclaim (.next index toReclaim) => ∃ rest, Sifted found answers global index toReclaim rest
  | .reclaim (.loadHead it) => ∃ rest, Sifted found answers global it.index it.toReclaim (it.entry :: rest)
  | .reclaim (.testHazard it _) => ∃ rest, Sifted found answers global it.index it.toReclaim (it.entry :: rest)
  | .reclaim (.loadNext it _) => ∃ rest, Sifted found answers global it.index it.toReclaim (it.entry :: rest)
  | .reclaim (.erase it) => ∃ earlier rest, answers = earlier ++ [false] ∧
      Sifted found earlier global it.index it.toReclaim (it.entry :: rest)
  | .reclaim (.unlock toReclaim) => ∃ index, Sifted found answers global index toReclaim []
  | .reclaim (.callDeleters _) => True
  | .idle => True
  | .exited => True
  | _ => False

section Sifting

variable {found : List (RetiredPtr π)} {answers : List Bool} {thread : ThreadId}

omit [DecidableEq π] in
theorem Sifting.silent {global : List (RetiredPtr π)} {pc : Pc π} {answer : Option Bool}
    (h : Sifting found answers global pc) (hanswer : answer = none) :
    Sifting found (answers ++ answer.toList) global pc := by
  rw [hanswer, Option.toList_none, List.append_nil]
  exact h

/-- An answer decides about the entry at the cursor, all other statements leave what is judged alone. -/
theorem reclaimStep_sifting {pc : ReclaimPc π} (h : Sifting found answers domain.globalRetired (.reclaim pc))
    (hstep : domain.reclaimStep thread pc = some next) :
    Sifting found (answers ++ (domain.answer? (.reclaim pc)).toList) next.globalRetired (next.pcs thread) := by
  cases Domain.reclaimMove_of_step hstep with
  | lock => exact h.elim
  | finish hnone =>
    obtain ⟨rest, hsifted⟩ := h
    rw [hsifted.getElem?, List.getElem?_eq_none_iff, Nat.le_zero, List.length_eq_zero_iff] at hnone
    subst hnone
    rw [Domain.setPc_pcs_self]
    exact Sifting.silent ⟨_, hsifted⟩ rfl
  | examine entry hentry =>
    obtain ⟨rest, hsifted⟩ := h
    rw [hsifted.getElem?] at hentry
    obtain ⟨later, rfl⟩ : ∃ later, rest = entry :: later := List.head?_eq_some_iff.mp (List.head?_eq_getElem? ▸ hentry)
    rw [Domain.setPc_pcs_self]
    exact Sifting.silent ⟨later, hsifted⟩ rfl
  | noSlots it hhead =>
    obtain ⟨rest, hsifted⟩ := h
    have hanswer : domain.answer? (.reclaim (.loadHead it)) = some false := if_pos hhead
    rw [Domain.setPc_pcs_self, hanswer]
    exact ⟨answers, rest, rfl, hsifted⟩
  | newest it current hhead =>
    rw [Domain.setPc_pcs_self]
    exact Sifting.silent h (if_neg (by rw [hhead]; simp))
  | @keep it current slot hslot hhazard =>
    obtain ⟨rest, hsifted⟩ := h
    have hanswer : domain.answer? (.reclaim (.testHazard it current)) = some true :=
      if_pos (by rw [hslot, Option.bind_some, hhazard])
    rw [Domain.setPc_pcs_self, hanswer]
    exact ⟨rest, hsifted.keep⟩
  | pass it slot hslot hhazard =>
    rw [Domain.setPc_pcs_self]
    exact Sifting.silent h (if_neg (by rwa [hslot, Option.bind_some]))
  | @oldest it current slot hslot hnext =>
    obtain ⟨rest, hsifted⟩ := h
    have hanswer : domain.answer? (.reclaim (.loadNext it current)) = some false :=
      if_pos (by rw [hslot, Option.bind_some, hnext])
    rw [Domain.setPc_pcs_self, hanswer]
    exact ⟨answers, rest, rfl, hsifted⟩
  | follow it slot following hslot hnext =>
    rw [Domain.setPc_pcs_self]
    exact Sifting.silent h (if_neg (by rw [hslot, Option.bind_some, hnext]; simp))
  | erase it =>
    obtain ⟨earlier, rest, rfl, hsifted⟩ := h
    rw [Domain.setPc_pcs_self]
    exact Sifting.silent ⟨rest, hsifted.take⟩ rfl
  | unlock | done | delete =>
    rw [Domain.setPc_pcs_self]
    trivial

omit [DecidableEq π] in
theorem Sifting.of_same {global global' : List (RetiredPtr π)} {pc : Pc π} (h : Sifting found answers global pc)
    (hsame : pc.holds .globalRetired = true → global' = global) : Sifting found answers global' pc := by
  cases pc with
  | reclaim pc =>
    cases pc with
    | lock => exact h
    | callDeleters toReclaim => exact h
    | _ =>
      rw [hsame rfl]
      exact h
  | _ => exact h

/-- While a thread holds the mutex, the others leave the global list alone. -/
theorem globalRetired_of_other (hexcludes : domain.Excludes) (hexits : ExitsEmpty domain action)
    (hstep : step domain action = some next) (hother : action.thread ≠ thread)
    (hinside : (domain.pcs thread).holds .globalRetired = true) : next.globalRetired = domain.globalRetired := by
  obtain ⟨pc', hpcs, hmove⟩ := step_entryMove hexits hstep
  cases hmove with
  | stay _ hglobal | append _ _ _ _ hglobal | delete _ _ _ hglobal => exact hglobal
  | splice owner _ hmover => exact absurd ((hexcludes .globalRetired).unique hmover hinside) hother
  | erase it hpc =>
    have hmover : (domain.pcs action.thread).holds .globalRetired = true := by
      rw [hpc]
      rfl
    exact absurd ((hexcludes .globalRetired).unique hmover hinside) hother

theorem sifting_of_step (h : Sifting found answers domain.globalRetired (domain.pcs thread))
    (hexcludes : domain.Excludes) (hexits : ExitsEmpty domain action) (hcalls : ∀ op, action ≠ .call thread op)
    (hstep : step domain action = some next) :
    Sifting found (answers ++ (answerTo thread domain action).toList) next.globalRetired (next.pcs thread) := by
  by_cases hthread : action.thread = thread
  · cases action with
    | call mover op =>
      obtain rfl : mover = thread := hthread
      exact absurd rfl (hcalls op)
    | step mover =>
      obtain rfl : mover = thread := hthread
      rw [answerTo, if_pos rfl]
      cases hpc : domain.pcs mover with
      | reclaim pc =>
        rw [hpc] at h
        rw [step, hpc] at hstep
        exact reclaimStep_sifting h hstep
      | idle | exited =>
        rw [step, hpc] at hstep
        cases hstep
      | _ =>
        rw [hpc] at h
        exact h.elim
    | exit mover =>
      obtain rfl : mover = thread := hthread
      obtain ⟨-, rfl⟩ := eq_of_exit hstep
      rw [Domain.setPc_pcs_self]
      trivial
  · have hsilent : answerTo thread domain action = none := by
      rw [answerTo, if_neg]
      rintro rfl
      exact hthread rfl
    obtain ⟨pc', hpcs, -⟩ := step_entryMove hexits hstep
    rw [hsilent, Option.toList_none, List.append_nil, hpcs, Function.update_of_ne (Ne.symm hthread)]
    exact h.of_same (globalRetired_of_other hexcludes hexits hstep hthread)

end Sifting

/-- The runs of threads that stay alive: the places of the entries, and what a `reclaim_all` keeps. -/
theorem conserved_of_run (actions : List (Action π)) (final : Domain π) (threads : Finset ThreadId)
    (hrun : run step {} actions = some final) (hthreads : ∀ action ∈ actions, action.thread ∈ threads)
    (halive : ∀ thread, .exit thread ∉ actions) :
    (∀ entry, ∑ thread ∈ threads, (final.retiredList thread).count entry + final.globalRetired.count entry +
        ∑ thread ∈ threads, (final.pcs thread).batch.count entry + final.deleterCalls.count entry =
          handed entry actions) ∧
      (∀ entry, final.deleterCalls.count entry ≤ handed entry actions) ∧
      ∀ (earlier during : List (Action π)) (locked : Domain π) (thread : ThreadId) (toReclaim : List (RetiredPtr π)),
        actions = earlier ++ during → run step {} earlier = some locked →
        locked.pcs thread = .reclaim (.next 0 []) → (∀ op, .call thread op ∉ during) →
        final.pcs thread = .reclaim (.unlock toReclaim) →
        ∃ judged : List (RetiredPtr π × Bool), judged.map Prod.fst = locked.globalRetired ∧
          judged.map Prod.snd = collect step (answerTo thread) locked during ∧
          final.globalRetired = (judged.filter Prod.snd).map Prod.fst ∧
          toReclaim = (judged.filter fun pair ↦ !pair.2).map Prod.fst := by
  have hexits : Meets step ExitsEmpty ({} : Domain π) actions := by
    apply Meets.of_forall_mem
    intro action hmem state
    cases action with
    | exit thread => exact absurd hmem (halive thread)
    | _ => trivial
  obtain ⟨-, hstock⟩ := stock_of_run hrun hthreads hexits
  refine ⟨hstock, fun entry ↦ ?_, ?_⟩
  · have hentry := hstock entry
    unfold Domain.stock at hentry
    omega
  · rintro earlier during locked thread toReclaim rfl hearlier hlocked hcalls hfinal
    have hduring : run step locked during = some final := by
      rwa [run_append, hearlier, Option.bind_some] at hrun
    have hnocall : Meets step (fun _ action ↦ ∀ op, action ≠ .call thread op) locked during :=
      Meets.of_forall_mem fun action hmem _ op heq ↦ hcalls op (heq ▸ hmem)
    have hstart : Sifting locked.globalRetired [] locked.globalRetired (locked.pcs thread) := by
      rw [hlocked]
      exact ⟨locked.globalRetired, [], rfl, rfl, rfl, rfl, rfl⟩
    have hsifting := collect_invariant (f := answerTo thread)
      (I := fun answers visited ↦ visited.Excludes ∧
        Sifting locked.globalRetired answers visited.globalRetired (visited.pcs thread)) ?_
      ((hexits.append_right hearlier).and hnocall) ⟨excludes_of_run hearlier, hstart⟩ hduring
    · rw [hfinal, List.nil_append] at hsifting
      obtain ⟨-, index, judged, hfound, hanswers, hglobal, -, htaken⟩ := hsifting
      rw [List.append_nil] at hfound hglobal
      exact ⟨judged, hfound.symm, hanswers.symm, hglobal, htaken⟩
    · intro answers visited action next hvisited hok hstep
      exact ⟨hvisited.1.step hstep, sifting_of_step hvisited.2 hvisited.1 hok.1 hok.2 hstep⟩

/-! ## Executions -/

/-- How often the entry was handed over in the execution. -/
def handedOver (entry : RetiredPtr π) (events : List (Event π)) : ℕ :=
  countSteps execute (Event.onActions (appends entry) false) {} events

theorem handedOver_map (entry : RetiredPtr π) (actions : List (Action π)) :
    handedOver entry (actions.map .act) = handed entry actions :=
  countSteps_execute_map (appends entry) {} actions

/-- In every execution of threads that stay alive in which the table of threads does not change under a scan,
each time an entry is handed to `RetirePointer` it is from then on in exactly one of the four places, its
deleter is called at most that often, and a `reclaim_all` that is about to release the mutex has kept those of
the entries it found for which `isProtected` answered true. -/
theorem retired_conserved (events : List (Event π)) (final : Domain π) (threads : Finset ThreadId)
    (hrun : run execute {} events = some final) (hthreads : ∀ action, .act action ∈ events → action.thread ∈ threads)
    (halive : ∀ thread, .act (.exit thread) ∉ events)
    (hkept : Meets execute (Event.onActions TableKept True) {} events) :
    (∀ entry, ∑ thread ∈ threads, (final.retiredList thread).count entry + final.globalRetired.count entry +
        ∑ thread ∈ threads, (final.pcs thread).batch.count entry + final.deleterCalls.count entry =
          handedOver entry events) ∧
      (∀ entry, final.deleterCalls.count entry ≤ handedOver entry events) ∧
      ∀ (earlier during : List (Event π)) (locked : Domain π) (thread : ThreadId) (toReclaim : List (RetiredPtr π)),
        events = earlier ++ during → run execute {} earlier = some locked →
        locked.pcs thread = .reclaim (.next 0 []) → (∀ op, .act (.call thread op) ∉ during) →
        final.pcs thread = .reclaim (.unlock toReclaim) →
        ∃ judged : List (RetiredPtr π × Bool), judged.map Prod.fst = locked.globalRetired ∧
          judged.map Prod.snd = collect execute (Event.onActions (answerTo thread) none) locked during ∧
          final.globalRetired = (judged.filter Prod.snd).map Prod.fst ∧
          toReclaim = (judged.filter fun pair ↦ !pair.2).map Prod.fst := by
  obtain ⟨actions, rfl⟩ := exists_actions_of_kept hkept hrun
  rw [run_execute_map] at hrun
  obtain ⟨hplaces, hdeleted, hkeeps⟩ := conserved_of_run actions final threads hrun
    (fun action haction ↦ hthreads action (act_mem_map.mpr haction))
    fun thread hexit ↦ halive thread (act_mem_map.mpr hexit)
  simp only [handedOver_map]
  refine ⟨hplaces, hdeleted, ?_⟩
  rintro earlier during locked thread toReclaim hevents hearlier hlocked hcalls hfinal
  obtain ⟨earlier, during, rfl, rfl, rfl⟩ := List.map_eq_append_iff.mp hevents
  rw [run_execute_map] at hearlier
  rw [collect_execute_map]
  exact hkeeps earlier during locked thread toReclaim rfl hearlier hlocked
    (fun op hcall ↦ hcalls op (act_mem_map.mpr hcall)) hfinal

/-- Thread 0 protects 7; thread 1 retires 7 and 8 and scans, up to the lock of `reclaim_all`. -/
def retireTwoAndLock : List (Action ℕ) :=
  [.call 0 (.construct 0)] ++ List.replicate 7 (.step 0) ++ [.call 0 (.protect 0 (some 7)), .step 0] ++
    [.call 1 .registerThread, .step 1, .step 1, .step 1] ++
    [.call 1 (.retirePointer { ptr := 7 }), .step 1, .step 1] ++
    [.call 1 (.retirePointer { ptr := 8 }), .step 1, .step 1] ++
    [.call 1 .scan, .step 1, .step 1, .step 1, .step 1, .step 1, .step 1]

/-- The statements of `reclaim_all` from there to its unlock. -/
def judgeTwo : List (Action ℕ) := List.replicate 9 (.step 1)

theorem retired_conserved_scanned :
    ∃ locked final, run step {} retireTwoAndLock = some locked ∧
      run step {} (retireTwoAndLock ++ judgeTwo) = some final ∧
      final.globalRetired = [{ ptr := 7 }] ∧
      ∃ judged : List (RetiredPtr ℕ × Bool), judged.map Prod.fst = locked.globalRetired ∧
        judged.map Prod.snd = [true, false] ∧ final.globalRetired = (judged.filter Prod.snd).map Prod.fst := by
  have hshown : (run step {} retireTwoAndLock).map
      (fun domain ↦ (domain.pcs 1, collect step (answerTo 1) domain judgeTwo)) =
        some (.reclaim (.next 0 []), [true, false]) := by
    decide +kernel
  have hshown' : (run step {} (retireTwoAndLock ++ judgeTwo)).map
      (fun domain ↦ (domain.pcs 1, domain.globalRetired)) =
        some (.reclaim (.unlock [{ ptr := 8 }]), [{ ptr := 7 }]) := by
    decide +kernel
  obtain ⟨locked, hlocked, hatLock⟩ := Option.map_eq_some_iff.mp hshown
  obtain ⟨final, hfinal, hatUnlock⟩ := Option.map_eq_some_iff.mp hshown'
  simp only [Prod.mk.injEq] at hatLock hatUnlock
  have hamong : Meets step (KeptAmong {0, 1}) {} (retireTwoAndLock ++ judgeTwo) := by
    decide +kernel
  have hthreads : ∀ action ∈ retireTwoAndLock ++ judgeTwo,
      action.thread ∈ ({0, 1} : Finset ThreadId) := by
    decide
  have halive : ∀ thread, .exit thread ∉ retireTwoAndLock ++ judgeTwo := by
    simp [retireTwoAndLock, judgeTwo]
  obtain ⟨-, -, hsifted⟩ := retired_conserved ((retireTwoAndLock ++ judgeTwo).map .act) final {0, 1}
    (by rw [run_execute_map, hfinal])
    (fun action haction ↦ hthreads action (act_mem_map.mp haction)) (fun thread ↦ mt act_mem_map.mp (halive thread))
    (meets_execute_map.mpr (Meets.tableKept hamong))
  obtain ⟨judged, hfound, hanswers, hkept, -⟩ :=
    hsifted (retireTwoAndLock.map .act) (judgeTwo.map .act) locked 1 _ List.map_append
      (by rw [run_execute_map, hlocked]) hatLock.1 (by simp [judgeTwo]) hatUnlock.1
  rw [collect_execute_map, hatLock.2] at hanswers
  exact ⟨locked, final, hlocked, hfinal, hatUnlock.2, judged, hfound, hanswers, hkept⟩

/-- Thread 0 registers and retires 7. Thread 1 has begun to walk over the table when the `push_back` of thread 2
makes it grow. -/
def registerDuringScan : List (Action ℕ) :=
  [.call 0 .registerThread, .step 0, .step 0, .step 0, .call 0 (.retirePointer { ptr := 7 }), .step 0, .step 0,
    .call 1 .scan, .step 1, .step 1, .call 2 .registerThread, .step 2, .step 2]

/-- The walk of thread 1 goes on with iterators into the vector as it was, which is undefined: 7 need not be in
any place after that. -/
theorem retired_lost_after_push_back :
    ∃ events : List (Event ℕ), ∃ final, events = registerDuringScan.map .act ++ [.anything 1 {}] ∧
      run execute {} events = some final ∧ (∀ thread, .act (.exit thread) ∉ events) ∧
      handedOver { ptr := 7 } events = 1 ∧ ∀ threads : Finset ThreadId,
        ∑ thread ∈ threads, (final.retiredList thread).count { ptr := 7 } + final.globalRetired.count { ptr := 7 } +
          ∑ thread ∈ threads, (final.pcs thread).batch.count { ptr := 7 } +
            final.deleterCalls.count { ptr := 7 } = 0 := by
  have hshown : (run step {} registerDuringScan).map (fun domain ↦ domain.undefined 1) = some true := by
    decide +kernel
  obtain ⟨before, hbefore, hundefined⟩ := Option.map_eq_some_iff.mp hshown
  have hrun : run execute {} (registerDuringScan.map .act) = some before := by
    rw [run_execute_map, hbefore]
  refine ⟨_, {}, rfl, run_concat hrun (if_pos hundefined), ?_, by decide +kernel, fun threads ↦ ?_⟩
  · simp [registerDuringScan]
  · simp [Pc.batch]

end TinyReactor.Hazard
