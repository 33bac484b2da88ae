import TinyReactor.Hazard.Moves

/-!
# Retired entries

An entry enters the domain by a call of `RetirePointer` and then only moves: from the call to the
thread's own list, to the global list, to the batch of a `reclaim_all` and to the deleter. So what
holds of every entry that is handed over holds of every entry in the domain.
-/

namespace TinyReactor.Hazard

open Transition

variable {π : Type*}

/-- The entries a thread has in its hands. -/
def Pc.entries : Pc π → List (RetiredPtr π)
  | .retire (.append entry) => [entry]
  | .reclaim (.next _ toReclaim) | .reclaim (.unlock toReclaim) | .reclaim (.callDeleters toReclaim) => toReclaim
  | .reclaim (.loadHead it) | .reclaim (.testHazard it _) | .reclaim (.loadNext it _) | .reclaim (.erase it) =>
      it.entry :: it.toReclaim
  | _ => []

/-- Every entry in the domain satisfies `P`. -/
structure Domain.Entries (P : RetiredPtr π → Prop) (domain : Domain π) : Prop where
  retiredList : ∀ thread, ∀ entry ∈ domain.retiredList thread, P entry
  globalRetired : ∀ entry ∈ domain.globalRetired, P entry
  pcs : ∀ thread, ∀ entry ∈ (domain.pcs thread).entries, P entry
  deleterCalls : ∀ entry ∈ domain.deleterCalls, P entry

namespace Domain

variable {P : RetiredPtr π → Prop} {domain next : Domain π} {thread : ThreadId} {pc' : Pc π}

theorem entries_empty : ({} : Domain π).Entries P where
  retiredList := nofun
  globalRetired := nofun
  pcs := nofun
  deleterCalls := nofun

theorem Entries.mono {Q : RetiredPtr π → Prop} (h : domain.Entries P) (hPQ : ∀ entry, P entry → Q entry) :
    domain.Entries Q where
  retiredList thread entry hentry := hPQ entry (h.retiredList thread entry hentry)
  globalRetired entry hentry := hPQ entry (h.globalRetired entry hentry)
  pcs thread entry hentry := hPQ entry (h.pcs thread entry hentry)
  deleterCalls entry hentry := hPQ entry (h.deleterCalls entry hentry)

theorem Entries.update_pcs (h : domain.Entries P) (hpc : ∀ entry ∈ pc'.entries, P entry) (other : ThreadId) :
    ∀ entry ∈ (Function.update domain.pcs thread pc' other).entries, P entry := by
  revert other
  rw [Function.forall_update_iff domain.pcs (p := fun _ pc ↦ ∀ entry ∈ pc.entries, P entry)]
  exact ⟨hpc, fun other _ ↦ h.pcs other⟩

theorem Entries.update_retiredList (h : domain.Entries P) {owner : ThreadId} {entries : List (RetiredPtr π)}
    (hentries : ∀ entry ∈ entries, P entry) (other : ThreadId) :
    ∀ entry ∈ Function.update domain.retiredList owner entries other, P entry := by
  revert other
  rw [Function.forall_update_iff domain.retiredList (p := fun _ list ↦ ∀ entry ∈ list, P entry)]
  exact ⟨hentries, fun other _ ↦ h.retiredList other⟩

/-- A step of one thread that leaves the three lists as they are. -/
theorem Entries.move (h : domain.Entries P) (hretired : next.retiredList = domain.retiredList)
    (hglobal : next.globalRetired = domain.globalRetired) (hcalls : next.deleterCalls = domain.deleterCalls)
    (hpcs : next.pcs = Function.update domain.pcs thread pc') (hpc : ∀ entry ∈ pc'.entries, P entry) :
    next.Entries P where
  retiredList := hretired ▸ h.retiredList
  globalRetired := hglobal ▸ h.globalRetired
  pcs := hpcs ▸ h.update_pcs hpc
  deleterCalls := hcalls ▸ h.deleterCalls

/-- What the steps of holders and registrations have in common: no entry moves. -/
structure NoEntryMoves (thread : ThreadId) (domain next : Domain π) : Prop where
  retiredList : next.retiredList = domain.retiredList
  globalRetired : next.globalRetired = domain.globalRetired
  deleterCalls : next.deleterCalls = domain.deleterCalls
  pcs : ∃ pc' : Pc π, next.pcs = Function.update domain.pcs thread pc' ∧ pc'.entries = []

theorem NoEntryMoves.entries (h : NoEntryMoves thread domain next) (hentries : domain.Entries P) :
    next.Entries P := by
  obtain ⟨pc', hpcs, hnone⟩ := h.pcs
  apply hentries.move h.retiredList h.globalRetired h.deleterCalls hpcs
  rw [hnone]
  nofun

theorem acquireStep_noEntryMoves {holder : HolderId} {pc : AcquirePc}
    (h : domain.acquireStep thread holder pc = some next) : NoEntryMoves thread domain next := by
  cases acquireMove_of_step h <;> exact ⟨rfl, rfl, rfl, _, rfl, rfl⟩

theorem releaseStep_noEntryMoves {holder : HolderId} {source : Option HolderId} {pc : ReleasePc} :
    NoEntryMoves thread domain (domain.releaseStep thread holder source pc) := by
  cases pc with
  | clearSlot =>
    refine ⟨rfl, rfl, rfl, _, rfl, ?_⟩
    cases source <;> rfl
  | _ => exact ⟨rfl, rfl, rfl, _, rfl, rfl⟩

theorem registerStep_noEntryMoves {wrap : RegisterPc → Pc π} {update : Option (List ThreadId)} {pc : RegisterPc}
    (hwrap : ∀ pc, (wrap pc).entries = []) (h : domain.registerStep thread wrap update pc = some next) :
    NoEntryMoves thread domain next := by
  cases registerMove_of_step h with
  | lock | update => exact ⟨rfl, rfl, rfl, _, rfl, hwrap _⟩
  | unlock => exact ⟨rfl, rfl, rfl, _, rfl, rfl⟩

theorem retireStep_entries {pc : RetirePc π} (hentries : domain.Entries P)
    (hpc : domain.pcs thread = .retire pc) (h : domain.retireStep thread pc = some next) : next.Entries P := by
  have hheld := hentries.pcs thread
  rw [hpc] at hheld
  cases retireMove_of_step h with
  | append entry =>
    refine { hentries with retiredList := hentries.update_retiredList ?_, pcs := hentries.update_pcs nofun }
    intro other hother
    rcases List.mem_append.mp hother with hold | hnew
    · exact hentries.retiredList thread other hold
    · exact hheld other hnew
  | splice =>
    refine
      { hentries with
        retiredList := hentries.update_retiredList nofun, globalRetired := ?_, pcs := hentries.update_pcs nofun }
    intro entry hentry
    exact (List.mem_append.mp hentry).elim (hentries.globalRetired entry) (hentries.retiredList thread entry)
  | _ => exact hentries.move rfl rfl rfl rfl nofun

theorem scanStep_entries {pc : ScanPc} (hentries : domain.Entries P)
    (h : domain.scanStep thread pc = some next) : next.Entries P := by
  cases scanMove_of_step h with
  | splice owner =>
    refine
      { hentries with
        retiredList := hentries.update_retiredList nofun, globalRetired := ?_, pcs := hentries.update_pcs nofun }
    intro entry hentry
    exact (List.mem_append.mp hentry).elim (hentries.globalRetired entry) (hentries.retiredList owner entry)
  | _ => exact hentries.move rfl rfl rfl rfl nofun

theorem reclaimStep_entries [DecidableEq π] {pc : ReclaimPc π} (hentries : domain.Entries P)
    (hpc : domain.pcs thread = .reclaim pc) (h : domain.reclaimStep thread pc = some next) : next.Entries P := by
  have hheld := hentries.pcs thread
  rw [hpc] at hheld
  cases reclaimMove_of_step h with
  | examine entry hentry =>
    refine hentries.move rfl rfl rfl rfl ?_
    exact List.forall_mem_cons.mpr ⟨hentries.globalRetired entry (List.mem_of_getElem? hentry), hheld⟩
  | finish | noSlots | newest | pass | oldest | follow | unlock => exact hentries.move rfl rfl rfl rfl hheld
  | keep it => exact hentries.move rfl rfl rfl rfl (List.forall_mem_cons.mp hheld).2
  | erase it =>
    refine { hentries with globalRetired := ?_, pcs := hentries.update_pcs ?_ }
    · intro entry hentry
      exact hentries.globalRetired entry (List.mem_of_mem_eraseIdx hentry)
    · obtain ⟨hentry, hold⟩ := List.forall_mem_cons.mp hheld
      exact forall_mem_append_singleton hold hentry
  | lock | done => exact hentries.move rfl rfl rfl rfl nofun
  | delete entry rest =>
    obtain ⟨hentry, hrest⟩ := List.forall_mem_cons.mp hheld
    exact
      { hentries with
        pcs := hentries.update_pcs hrest
        deleterCalls := forall_mem_append_singleton hentries.deleterCalls hentry }

theorem advance_entries [DecidableEq π] (hentries : domain.Entries P)
    (h : domain.advance thread (domain.pcs thread) = some next) : next.Entries P := by
  cases hpc : domain.pcs thread with
  | idle | exited =>
    rw [hpc] at h
    cases h
  | acquire holder pc =>
    rw [hpc] at h
    exact (acquireStep_noEntryMoves h).entries hentries
  | release holder pc source =>
    rw [hpc] at h
    cases h
    exact releaseStep_noEntryMoves.entries hentries
  | take holder source | protect slot ptr =>
    rw [hpc] at h
    cases h
    exact hentries.move rfl rfl rfl rfl nofun
  | retire pc =>
    rw [hpc] at h
    exact retireStep_entries hentries hpc h
  | scan pc =>
    rw [hpc] at h
    exact scanStep_entries hentries h
  | reclaim pc =>
    rw [hpc] at h
    exact reclaimStep_entries hentries hpc h
  | register pc | unregister pc =>
    rw [hpc, advance] at h
    refine (registerStep_noEntryMoves ?_ h).entries hentries
    exact fun _ ↦ rfl

/-- A call other than of `RetirePointer` brings no entry. -/
theorem enter_noEntryMoves {op : Op π} (hidle : domain.pcs thread = .idle) (hop : ∀ entry, op ≠ .retirePointer entry)
    (h : domain.enter thread op = some next) : NoEntryMoves thread domain next := by
  have hstays : domain.pcs = Function.update domain.pcs thread .idle := by
    rw [← hidle, Function.update_eq_self]
  cases op with
  | construct holder =>
    simp only [enter] at h
    split at h <;> cases h
    exact ⟨rfl, rfl, rfl, _, rfl, rfl⟩
  | moveConstruct holder source =>
    simp only [enter] at h
    split at h <;> cases h
    exact ⟨rfl, rfl, rfl, .idle, hstays, rfl⟩
  | moveAssign holder source =>
    simp only [enter] at h
    split at h <;> cases h
    · exact ⟨rfl, rfl, rfl, .idle, hstays, rfl⟩
    · refine ⟨rfl, rfl, rfl, _, rfl, ?_⟩
      unfold enterRelease
      cases domain.holders holder <;> rfl
  | release holder =>
    cases h
    refine ⟨rfl, rfl, rfl, _, rfl, ?_⟩
    unfold enterRelease
    cases domain.holders holder <;> rfl
  | protect holder ptr =>
    cases h
    refine ⟨rfl, rfl, rfl, _, rfl, ?_⟩
    cases domain.holders holder <;> rfl
  | retirePointer entry => exact absurd rfl (hop entry)
  | _ =>
    cases h
    exact ⟨rfl, rfl, rfl, _, rfl, rfl⟩

theorem enter_retirePointer {entry : RetiredPtr π} (h : domain.enter thread (.retirePointer entry) = some next) :
    next = domain.setPc thread (.retire (.append entry)) := by
  cases h
  rfl

end Domain

/-- A call starts `RetirePointer` with its entry, or moves none. -/
theorem call_entries [DecidableEq π] {domain next : Domain π} {thread : ThreadId} {op : Op π}
    (hstep : step domain (.call thread op) = some next) :
    (∃ entry, op = .retirePointer entry ∧ next = domain.setPc thread (.retire (.append entry))) ∨
      ((∀ entry, op ≠ .retirePointer entry) ∧ Domain.NoEntryMoves thread domain next) := by
  obtain ⟨hidle, henter⟩ := enter_of_call hstep
  by_cases hop : ∃ entry, op = .retirePointer entry
  · obtain ⟨entry, rfl⟩ := hop
    exact .inl ⟨entry, rfl, Domain.enter_retirePointer henter⟩
  · have hnot : ∀ entry, op ≠ .retirePointer entry := fun entry heq ↦ hop ⟨entry, heq⟩
    exact .inr ⟨hnot, Domain.enter_noEntryMoves hidle hnot henter⟩

/-- Only a call of `RetirePointer` can bring an entry that is not as the others. -/
theorem entries_of_step [DecidableEq π] {P : RetiredPtr π → Prop} {domain next : Domain π} {action : Action π}
    (hentries : domain.Entries P) (hnew : ∀ thread entry, action = .call thread (.retirePointer entry) → P entry)
    (hstep : step domain action = some next) : next.Entries P := by
  cases action with
  | call thread op =>
    obtain ⟨entry, rfl, rfl⟩ | ⟨-, hmoves⟩ := call_entries hstep
    · refine hentries.move rfl rfl rfl rfl ?_
      exact fun other hother ↦ List.mem_singleton.mp hother ▸ hnew thread entry rfl
    · exact hmoves.entries hentries
  | step thread => exact Domain.advance_entries hentries hstep
  | exit thread =>
    obtain ⟨-, rfl⟩ := eq_of_exit hstep
    exact { hentries with retiredList := hentries.update_retiredList nofun, pcs := hentries.update_pcs nofun }

theorem entries_of_run [DecidableEq π] {P : RetiredPtr π → Prop} {domain final : Domain π} {actions : List (Action π)}
    (hentries : domain.Entries P)
    (hnew : ∀ thread entry, .call thread (.retirePointer entry) ∈ actions → P entry)
    (hrun : run step domain actions = some final) : final.Entries P := by
  have hok : Meets step (fun _ action ↦ ∀ thread entry, action = .call thread (.retirePointer entry) → P entry)
      domain actions := by
    apply Meets.of_forall_mem
    intro action hmem _ thread entry heq
    exact hnew thread entry (heq ▸ hmem)
  exact hok.invariant (fun _ _ _ hentries hnew hstep ↦ entries_of_step hentries hnew hstep) hentries hrun

/-! ## Decisions to delete -/

namespace Domain

variable {domain next : Domain π} {thread : ThreadId}

/-- A step of a thread that is not inside `reclaim_all`, or only now enters it. -/
structure NoDecision (thread : ThreadId) (domain next : Domain π) : Prop where
  deleterCalls : next.deleterCalls = domain.deleterCalls
  pcs : ∃ pc' : Pc π, next.pcs = Function.update domain.pcs thread pc' ∧
    (pc'.entries = [] ∨ ∃ entry, pc' = .retire (.append entry))

theorem NoEntryMoves.noDecision (h : NoEntryMoves thread domain next) : NoDecision thread domain next := by
  obtain ⟨pc', hpcs, hentries⟩ := h.pcs
  exact ⟨h.deleterCalls, pc', hpcs, .inl hentries⟩

theorem retireStep_noDecision {pc : RetirePc π} (h : domain.retireStep thread pc = some next) :
    NoDecision thread domain next := by
  cases retireMove_of_step h with
  | _ => exact ⟨rfl, _, rfl, .inl rfl⟩

theorem scanStep_noDecision {pc : ScanPc} (h : domain.scanStep thread pc = some next) :
    NoDecision thread domain next := by
  cases scanMove_of_step h with
  | _ => exact ⟨rfl, _, rfl, .inl rfl⟩

theorem advance_noDecision [DecidableEq π] (hpc : ∀ pc, domain.pcs thread ≠ .reclaim pc)
    (h : domain.advance thread (domain.pcs thread) = some next) : NoDecision thread domain next := by
  cases hthread : domain.pcs thread with
  | idle | exited =>
    rw [hthread] at h
    cases h
  | acquire holder pc =>
    rw [hthread] at h
    exact (acquireStep_noEntryMoves h).noDecision
  | release holder pc source =>
    rw [hthread] at h
    cases h
    exact releaseStep_noEntryMoves.noDecision
  | take holder source | protect slot ptr =>
    rw [hthread] at h
    cases h
    exact ⟨rfl, _, rfl, .inl rfl⟩
  | retire pc =>
    rw [hthread] at h
    exact retireStep_noDecision h
  | scan pc =>
    rw [hthread] at h
    exact scanStep_noDecision h
  | reclaim pc => exact absurd hthread (hpc pc)
  | register pc | unregister pc =>
    rw [hthread, advance] at h
    refine (registerStep_noEntryMoves ?_ h).noDecision
    exact fun _ ↦ rfl

end Domain

/-- A step is one of `reclaim_all`, or decides nothing. -/
theorem step_noDecision [DecidableEq π] {domain next : Domain π} {action : Action π}
    (hstep : step domain action = some next) :
    (∃ thread pc, action = .step thread ∧ domain.pcs thread = .reclaim pc ∧
      domain.reclaimStep thread pc = some next) ∨ ∃ thread, Domain.NoDecision thread domain next := by
  cases action with
  | call thread op =>
    refine .inr ⟨thread, ?_⟩
    obtain ⟨entry, rfl, rfl⟩ | ⟨-, hmoves⟩ := call_entries hstep
    · exact ⟨rfl, _, rfl, .inr ⟨entry, rfl⟩⟩
    · exact hmoves.noDecision
  | step thread =>
    by_cases hpc : ∃ pc, domain.pcs thread = .reclaim pc
    · obtain ⟨pc, hpc⟩ := hpc
      rw [step, hpc] at hstep
      exact .inl ⟨thread, pc, rfl, hpc, hstep⟩
    · exact .inr ⟨thread, Domain.advance_noDecision (fun pc heq ↦ hpc ⟨pc, heq⟩) hstep⟩
  | exit thread =>
    obtain ⟨-, rfl⟩ := eq_of_exit hstep
    exact .inr ⟨thread, rfl, _, rfl, .inl rfl⟩

/-! ## Entries that will be deleted -/

/-- The entries `reclaim_all` has taken off the global list. -/
def Pc.batch : Pc π → List (RetiredPtr π)
  | .reclaim (.next _ toReclaim) | .reclaim (.unlock toReclaim) | .reclaim (.callDeleters toReclaim) => toReclaim
  | .reclaim (.loadHead it) | .reclaim (.testHazard it _) | .reclaim (.loadNext it _) | .reclaim (.erase it) =>
      it.toReclaim
  | _ => []

/-- Every entry that was deleted, or is in a batch to be deleted, satisfies `P`. -/
structure Domain.Batched (P : RetiredPtr π → Prop) (domain : Domain π) : Prop where
  pcs : ∀ thread, ∀ entry ∈ (domain.pcs thread).batch, P entry
  deleterCalls : ∀ entry ∈ domain.deleterCalls, P entry

theorem Pc.batch_subset (pc : Pc π) : pc.batch ⊆ pc.entries := by
  cases pc with
  | reclaim pc =>
    cases pc with
    | loadHead | testHazard | loadNext | erase => exact List.subset_cons_self ..
    | _ => exact List.Subset.refl _
  | _ => exact List.nil_subset _

namespace Domain

variable {P : RetiredPtr π → Prop} {domain next : Domain π} {thread : ThreadId} {pc' : Pc π}

theorem Entries.batched (h : domain.Entries P) : domain.Batched P :=
  ⟨fun thread entry hentry ↦ h.pcs thread entry (Pc.batch_subset _ hentry), h.deleterCalls⟩

theorem Batched.imp {Q R : RetiredPtr π → Prop} (hP : domain.Batched P) (hQ : domain.Batched Q)
    (h : ∀ entry, P entry → Q entry → R entry) : domain.Batched R :=
  ⟨fun thread entry hentry ↦ h entry (hP.pcs thread entry hentry) (hQ.pcs thread entry hentry),
    fun entry hentry ↦ h entry (hP.deleterCalls entry hentry) (hQ.deleterCalls entry hentry)⟩

theorem Batched.move (h : domain.Batched P) (hcalls : next.deleterCalls = domain.deleterCalls)
    (hpcs : next.pcs = Function.update domain.pcs thread pc') (hpc : ∀ entry ∈ pc'.batch, P entry) : next.Batched P where
  pcs := by
    rw [hpcs, Function.forall_update_iff domain.pcs (p := fun _ pc ↦ ∀ entry ∈ pc.batch, P entry)]
    exact ⟨hpc, fun other _ ↦ h.pcs other⟩
  deleterCalls := hcalls ▸ h.deleterCalls

theorem NoDecision.batched (hmoves : NoDecision thread domain next) (h : domain.Batched P) : next.Batched P := by
  obtain ⟨pc', hpcs, hentries | ⟨entry, rfl⟩⟩ := hmoves.pcs
  · refine h.move hmoves.deleterCalls hpcs fun entry hentry ↦ ?_
    have hmem := Pc.batch_subset pc' hentry
    rw [hentries] at hmem
    cases hmem
  · exact h.move hmoves.deleterCalls hpcs (List.forall_mem_nil _)

theorem reclaimStep_batched [DecidableEq π] {pc : ReclaimPc π} (h : domain.Batched P)
    (hpc : domain.pcs thread = .reclaim pc) (herase : ∀ it, pc = .erase it → P it.entry)
    (hstep : domain.reclaimStep thread pc = some next) : next.Batched P := by
  have hbatch := h.pcs thread
  rw [hpc] at hbatch
  cases reclaimMove_of_step hstep with
  | lock | done => exact h.move rfl rfl nofun
  | erase it => exact h.move rfl rfl (forall_mem_append_singleton hbatch (herase it rfl))
  | delete entry rest =>
    obtain ⟨hentry, hrest⟩ := List.forall_mem_cons.mp hbatch
    have hmoved : (domain.setPc thread (.reclaim (.callDeleters rest))).Batched P := h.move rfl rfl hrest
    exact ⟨hmoved.pcs, forall_mem_append_singleton h.deleterCalls hentry⟩
  | _ => exact h.move rfl rfl hbatch

end Domain

/-- Only `reclaim_all` adds to a batch, when it has found an entry unprotected. -/
theorem batched_of_step [DecidableEq π] {P : RetiredPtr π → Prop} {domain next : Domain π} {action : Action π}
    (h : domain.Batched P) (hstep : step domain action = some next)
    (herase : ∀ thread it, action = .step thread → domain.pcs thread = .reclaim (.erase it) → P it.entry) :
    next.Batched P := by
  rcases step_noDecision hstep with ⟨thread, pc, rfl, hpc, hreclaim⟩ | ⟨thread, hmoves⟩
  · exact Domain.reclaimStep_batched h hpc (fun it heq ↦ herase thread it rfl (heq ▸ hpc)) hreclaim
  · exact hmoves.batched h

end TinyReactor.Hazard
