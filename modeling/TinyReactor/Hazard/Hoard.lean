import Mathlib.Algebra.Order.BigOperators.Group.Finset
import TinyReactor.Hazard.Conservation

/-!
# Entries that are never reclaimed

`RetirePointer` is the only function of the library that calls `Scan` by itself, and it does so with
`global_retired_mutex_` held. So a program that leaves reclamation to the library reclaims nothing: the entries pile
up, at most a hundred with each thread and the rest in the global list, until a splice takes this list past its
threshold. The thread that has made it waits for its own mutex from then on, and the others fill their lists and wait
for it too. What the program can retire in its whole life is bounded by that.
-/

namespace TinyReactor.Hazard

open Transition

variable {π : Type*}

/-- The program calls neither `Scan` nor `reclaim_all`. -/
def LeavesReclaiming (_ : Domain π) : Action π → Prop
  | .call _ .scan | .call _ .reclaimAll => False
  | _ => True

/-- A call of `RetirePointer`. -/
def callsRetire (_ : Domain π) : Action π → Bool
  | .call _ (.retirePointer _) => true
  | _ => false

/-! ## Program points -/

namespace Pc

/-- Outside `RetirePointer` and what it calls. -/
def plain : Pc π → Bool
  | .retire _ | .scan _ | .reclaim _ | .exited => false
  | _ => true

/-- In `reclaim_all`, or in `Scan` and past its first lock. -/
def sweeps : Pc π → Bool
  | .reclaim _ => true
  | .scan .lock => false
  | .scan _ => true
  | _ => false

/-- The list of the thread may have reached its threshold. -/
def full : Pc π → Bool
  | .retire .testSize | .retire .lock | .retire .splice => true
  | _ => false

/-- The list of the thread was spliced, and the global list is not yet known to be within its threshold. -/
def spliced : Pc π → Bool
  | .retire .testGlobalSize | .scan .lock => true
  | _ => false

/-- The entries that a thread with so many in its list has retired and not yet spliced. Those that went with a thread
count as ninety-nine. -/
def holdings (retired : ℕ) : Pc π → ℕ
  | .exited => 99
  | .retire (.append _) => retired + 1
  | _ => retired

theorem of_plain {pc : Pc π} (h : pc.plain = true) :
    pc.sweeps = false ∧ pc.full = false ∧ pc.spliced = false ∧ ∀ retired, pc.holdings retired = retired := by
  cases pc with
  | retire | scan | reclaim | exited => cases h
  | _ => exact ⟨rfl, rfl, rfl, fun _ ↦ rfl⟩

end Pc

def Domain.holdings (domain : Domain π) (thread : ThreadId) : ℕ :=
  (domain.pcs thread).holdings (domain.retiredList thread).length

/-! ## Steps of a program that leaves reclaiming to the library -/

/-- A step of `thread` from a program point that does not sweep. -/
inductive HoardMove (thread : ThreadId) (domain next : Domain π) : Prop
  | aside (pc' : Pc π) (hpcs : next.pcs = Function.update domain.pcs thread pc')
      (hplain : (domain.pcs thread).plain = true) (hplain' : pc'.plain = true)
      (hretired : next.retiredList = domain.retiredList) (hglobal : next.globalRetired = domain.globalRetired)
      (hdeleted : next.deleterCalls = domain.deleterCalls)
      (hmutex : next.globalRetiredMutex = domain.globalRetiredMutex)
  | calls (entry : RetiredPtr π) (hidle : domain.pcs thread = .idle)
      (hnext : next = domain.setPc thread (.retire (.append entry)))
  | retires (pc : RetirePc π) (hpc : domain.pcs thread = .retire pc) (hmove : Domain.RetireMove thread domain pc next)
  | exits (hidle : domain.pcs thread = .idle)
      (hnext : next = { domain with retiredList := Function.update domain.retiredList thread [] }.setPc thread .exited)

namespace Domain

variable {domain next : Domain π} {thread : ThreadId}

theorem acquireStep_hoardMove {holder : HolderId} {pc : AcquirePc} (hpc : domain.pcs thread = .acquire holder pc)
    (h : domain.acquireStep thread holder pc = some next) : HoardMove thread domain next := by
  cases acquireMove_of_step h <;> exact .aside _ rfl (by rw [hpc]; rfl) rfl rfl rfl rfl rfl

theorem releaseStep_hoardMove {holder : HolderId} {source : Option HolderId} {pc : ReleasePc}
    (hpc : domain.pcs thread = .release holder pc source) :
    HoardMove thread domain (domain.releaseStep thread holder source pc) := by
  have hplain : (domain.pcs thread).plain = true := by
    rw [hpc]
    rfl
  cases pc with
  | clearSlot =>
    refine .aside _ rfl hplain ?_ rfl rfl rfl rfl
    cases source <;> rfl
  | _ => exact .aside _ rfl hplain rfl rfl rfl rfl rfl

theorem registerStep_hoardMove {wrap : RegisterPc → Pc π} {update : Option (List ThreadId)} {pc : RegisterPc}
    (hwrap : ∀ pc, (wrap pc).plain = true) (hpc : domain.pcs thread = wrap pc)
    (h : domain.registerStep thread wrap update pc = some next) : HoardMove thread domain next := by
  have hplain : (domain.pcs thread).plain = true := by
    rw [hpc]
    exact hwrap pc
  cases registerMove_of_step h with
  | lock | update => exact .aside _ rfl hplain (hwrap _) rfl rfl rfl rfl
  | unlock => exact .aside _ rfl hplain rfl rfl rfl rfl rfl

/-- A thread at the first lock of `Scan` does not get past it. -/
theorem advance_hoardMove [DecidableEq π] (hsweeps : (domain.pcs thread).sweeps = false)
    (hstuck : domain.pcs thread = .scan .lock → domain.globalRetiredMutex = some thread)
    (h : domain.advance thread (domain.pcs thread) = some next) : HoardMove thread domain next := by
  cases hpc : domain.pcs thread with
  | idle | exited =>
    rw [hpc] at h
    cases h
  | acquire holder pc =>
    rw [hpc] at h
    exact acquireStep_hoardMove hpc h
  | release holder pc source =>
    rw [hpc] at h
    cases h
    exact releaseStep_hoardMove hpc
  | take holder source | protect slot ptr =>
    rw [hpc] at h
    cases h
    exact .aside _ rfl (by rw [hpc]; rfl) rfl rfl rfl rfl rfl
  | retire pc =>
    rw [hpc] at h
    exact .retires pc hpc (retireMove_of_step h)
  | scan pc =>
    rw [hpc] at h hsweeps
    cases pc with
    | lock =>
      simp only [advance, scanStep, hstuck hpc] at h
      cases h
    | _ => cases hsweeps
  | reclaim pc =>
    rw [hpc] at hsweeps
    cases hsweeps
  | register pc | unregister pc =>
    rw [hpc, advance] at h
    exact registerStep_hoardMove (fun _ ↦ rfl) hpc h

theorem enterRelease_plain (domain : Domain π) (holder : HolderId) (source : Option HolderId) :
    (domain.enterRelease holder source).plain = true := by
  unfold enterRelease
  cases domain.holders holder with
  | none => cases source <;> rfl
  | some slot => rfl

theorem enter_hoardMove {op : Op π} (hidle : domain.pcs thread = .idle) (hscan : op ≠ .scan)
    (hreclaim : op ≠ .reclaimAll) (h : domain.enter thread op = some next) : HoardMove thread domain next := by
  have hplain : (domain.pcs thread).plain = true := by
    rw [hidle]
    rfl
  have hstays : domain.pcs = Function.update domain.pcs thread .idle := by
    rw [← hidle, Function.update_eq_self]
  cases op with
  | construct holder =>
    simp only [enter] at h
    split at h <;> cases h
    exact .aside _ rfl hplain rfl rfl rfl rfl rfl
  | moveConstruct holder source =>
    simp only [enter] at h
    split at h <;> cases h
    exact .aside .idle hstays hplain rfl rfl rfl rfl rfl
  | moveAssign holder source =>
    simp only [enter] at h
    split at h <;> cases h
    · exact .aside .idle hstays hplain rfl rfl rfl rfl rfl
    · exact .aside _ rfl hplain (domain.enterRelease_plain holder (some source)) rfl rfl rfl rfl
  | release holder =>
    cases h
    exact .aside _ rfl hplain (domain.enterRelease_plain holder none) rfl rfl rfl rfl
  | protect holder ptr =>
    cases h
    refine .aside _ rfl hplain ?_ rfl rfl rfl rfl
    cases domain.holders holder <;> rfl
  | retirePointer entry =>
    cases h
    exact .calls entry hidle rfl
  | scan => exact absurd rfl hscan
  | reclaimAll => exact absurd rfl hreclaim
  | registerThread | unregisterThread =>
    cases h
    exact .aside _ rfl hplain rfl rfl rfl rfl rfl

end Domain

variable {domain next : Domain π} {thread : ThreadId} {threads : Finset ThreadId} {action : Action π}

/-! ## Where the entries are -/

/-- Nobody sweeps and nothing was deleted. The lists of the threads are below their threshold, but for one that is
about to be spliced. The global list is within its own, or the thread that has taken it past has an empty list, and
never leaves the mutex. -/
structure Domain.Hoards (threads : Finset ThreadId) (domain : Domain π) : Prop where
  excludes : domain.Excludes
  sweeps : ∀ thread, (domain.pcs thread).sweeps = false
  stuck : ∀ thread, domain.pcs thread = .scan .lock → domain.globalRetiredMutex = some thread
  spliced : ∀ thread, (domain.pcs thread).spliced = true → domain.retiredList thread = []
  short : ∀ thread, (domain.retiredList thread).length ≤ 99 + (domain.pcs thread).full.toNat
  global : domain.globalRetired.length ≤ globalThreshold ∨
    domain.globalRetired.length ≤ globalThreshold + scanThreshold ∧ ∃ thread, (domain.pcs thread).spliced = true
  deleted : domain.deleterCalls = []
  outside : ∀ thread, thread ∉ threads → domain.pcs thread = .idle

theorem hoards_empty (threads : Finset ThreadId) : ({} : Domain π).Hoards threads where
  excludes := excludes_empty
  sweeps _ := rfl
  stuck _ h := by cases h
  spliced _ _ := rfl
  short _ := Nat.zero_le _
  global := .inl (Nat.zero_le _)
  deleted := rfl
  outside _ _ := rfl

/-- What is to be checked of a step: the thread that moves, and the mutex of a thread that is stuck. -/
theorem Domain.Hoards.move (h : domain.Hoards threads) (hexcludes : next.Excludes) (hthread : thread ∈ threads)
    {pc' : Pc π} (hpcs : next.pcs = Function.update domain.pcs thread pc')
    (hretired : ∀ other, other ≠ thread → next.retiredList other = domain.retiredList other)
    (hmutex : ∀ other, other ≠ thread → domain.globalRetiredMutex = some other →
      next.globalRetiredMutex = some other)
    (hsweeps : pc'.sweeps = false) (hstuck : pc' = .scan .lock → next.globalRetiredMutex = some thread)
    (hspliced : pc'.spliced = true → next.retiredList thread = [])
    (hshort : (next.retiredList thread).length ≤ 99 + pc'.full.toNat)
    (hglobal : next.globalRetired.length ≤ globalThreshold ∨
      next.globalRetired.length ≤ globalThreshold + scanThreshold ∧ ∃ thread, (next.pcs thread).spliced = true)
    (hdeleted : next.deleterCalls = domain.deleterCalls) : next.Hoards threads := by
  have hself : next.pcs thread = pc' := by rw [hpcs, Function.update_self]
  have hother {other : ThreadId} (hne : other ≠ thread) : next.pcs other = domain.pcs other := by
    rw [hpcs, Function.update_of_ne hne]
  refine ⟨hexcludes, fun other ↦ ?_, fun other hlock ↦ ?_, fun other hother' ↦ ?_, fun other ↦ ?_, hglobal,
    hdeleted.trans h.deleted, fun other houtside ↦ ?_⟩
  · rcases eq_or_ne other thread with rfl | hne
    · rwa [hself]
    · rw [hother hne]
      exact h.sweeps other
  · rcases eq_or_ne other thread with rfl | hne
    · exact hstuck (hself ▸ hlock)
    · exact hmutex other hne (h.stuck other (hother hne ▸ hlock))
  · rcases eq_or_ne other thread with rfl | hne
    · exact hspliced (hself ▸ hother')
    · rw [hretired other hne]
      exact h.spliced other (hother hne ▸ hother')
  · rcases eq_or_ne other thread with rfl | hne
    · rwa [hself]
    · rw [hretired other hne, hother hne]
      exact h.short other
  · have hne : other ≠ thread := fun heq ↦ houtside (heq ▸ hthread)
    rw [hother hne]
    exact h.outside other houtside

theorem Domain.Hoards.move_unspliced (h : domain.Hoards threads) (hexcludes : next.Excludes)
    (hthread : thread ∈ threads) {pc' : Pc π} (hpcs : next.pcs = Function.update domain.pcs thread pc')
    (hretired : ∀ other, other ≠ thread → next.retiredList other = domain.retiredList other)
    (hmutex : ∀ other, other ≠ thread → domain.globalRetiredMutex = some other →
      next.globalRetiredMutex = some other)
    (hsweeps : pc'.sweeps = false) (hspliced : pc'.spliced = false)
    (hshort : (next.retiredList thread).length ≤ 99 + pc'.full.toNat)
    (hglobal : next.globalRetired.length ≤ globalThreshold ∨
      next.globalRetired.length ≤ globalThreshold + scanThreshold ∧ ∃ thread, (next.pcs thread).spliced = true)
    (hdeleted : next.deleterCalls = domain.deleterCalls) : next.Hoards threads := by
  refine h.move hexcludes hthread hpcs hretired hmutex hsweeps ?_ (fun hsome ↦ ?_) hshort hglobal hdeleted
  · rintro rfl
    cases hspliced
  · rw [hspliced] at hsome
    cases hsome

/-- A thread that has not spliced its list leaves the one that has where it is. -/
theorem Domain.Hoards.global_of_same (h : domain.Hoards threads) {pc' : Pc π}
    (hpcs : next.pcs = Function.update domain.pcs thread pc') (hglobal : next.globalRetired = domain.globalRetired)
    (hspliced : (domain.pcs thread).spliced = false) :
    next.globalRetired.length ≤ globalThreshold ∨
      next.globalRetired.length ≤ globalThreshold + scanThreshold ∧ ∃ thread, (next.pcs thread).spliced = true := by
  rw [hglobal]
  obtain hwithin | ⟨hbeyond, other, hother⟩ := h.global
  · exact .inl hwithin
  · have hne : other ≠ thread := by
      rintro rfl
      rw [hspliced] at hother
      cases hother
    refine .inr ⟨hbeyond, other, ?_⟩
    rw [hpcs, Function.update_of_ne hne]
    exact hother

/-- While a thread is inside the mutex nobody else has taken the global list past its threshold. -/
theorem Domain.Hoards.global_of_inside (h : domain.Hoards threads)
    (hinside : (domain.pcs thread).holds .globalRetired = true) (hspliced : (domain.pcs thread).spliced = false) :
    domain.globalRetired.length ≤ globalThreshold := by
  obtain hwithin | ⟨-, other, hother⟩ := h.global
  · exact hwithin
  · have howner := h.excludes .globalRetired thread hinside
    have heq : other = thread := by
      cases hpc : domain.pcs other with
      | retire pc =>
        refine (h.excludes .globalRetired).unique ?_ hinside
        rw [hpc] at hother ⊢
        cases pc with
        | testGlobalSize => rfl
        | _ => cases hother
      | scan pc =>
        rw [hpc] at hother
        cases pc with
        | lock => exact Option.some.inj ((h.stuck other hpc).symm.trans howner)
        | _ => cases hother
      | _ =>
        rw [hpc] at hother
        cases hother
    rw [heq, hspliced] at hother
    cases hother

/-- The statements of `RetirePointer`. -/
theorem Domain.Hoards.retire (h : domain.Hoards threads) (hexcludes : next.Excludes) (hthread : thread ∈ threads)
    {pc : RetirePc π} (hpc : domain.pcs thread = .retire pc) (hmove : Domain.RetireMove thread domain pc next) :
    next.Hoards threads := by
  have hshort := h.short thread
  have hkeep (other : ThreadId) (_ : other ≠ thread) (howner : domain.globalRetiredMutex = some other) :
      domain.globalRetiredMutex = some other := howner
  have hglobal (hspliced : (domain.pcs thread).spliced = false) {next : Domain π} {pc' : Pc π}
      (hpcs : next.pcs = Function.update domain.pcs thread pc')
      (hsame : next.globalRetired = domain.globalRetired) := h.global_of_same hpcs hsame hspliced
  rw [hpc] at hshort hglobal
  cases hmove with
  | append entry =>
    refine h.move_unspliced hexcludes hthread rfl (fun other hne ↦ Function.update_of_ne hne ..) hkeep rfl rfl ?_
      (hglobal rfl rfl rfl) rfl
    change (Function.update domain.retiredList thread _ thread).length ≤ 99 + 1
    rw [Function.update_self, List.length_append]
    exact Nat.add_le_add_right hshort 1
  | finish hsize =>
    exact h.move_unspliced hexcludes hthread rfl (fun _ _ ↦ rfl) hkeep rfl rfl (Nat.le_of_lt_succ hsize)
      (hglobal rfl rfl rfl) rfl
  | full hsize =>
    exact h.move_unspliced hexcludes hthread rfl (fun _ _ ↦ rfl) hkeep rfl rfl hshort (hglobal rfl rfl rfl) rfl
  | lock hfree =>
    refine h.move_unspliced hexcludes hthread rfl (fun _ _ ↦ rfl) (fun other _ howner ↦ ?_) rfl rfl hshort
      (hglobal rfl rfl rfl) rfl
    rw [hfree] at howner
    cases howner
  | splice =>
    have hwithin := h.global_of_inside (by rw [hpc]; rfl) (by rw [hpc]; rfl)
    refine h.move hexcludes hthread rfl (fun other hne ↦ Function.update_of_ne hne ..) hkeep rfl (by simp) (fun _ ↦ ?_)
      ?_ (.inr ⟨?_, thread, ?_⟩) rfl
    · exact Function.update_self ..
    · change (Function.update domain.retiredList thread [] thread).length ≤ 99
      rw [Function.update_self]
      exact Nat.zero_le _
    · change (domain.globalRetired ++ domain.retiredList thread).length ≤ _
      rw [List.length_append]
      exact Nat.add_le_add hwithin hshort
    · rw [Domain.setPc_pcs_self]
      rfl
  | within hsize =>
    exact h.move_unspliced hexcludes hthread rfl (fun _ _ ↦ rfl) hkeep rfl rfl hshort (.inl hsize) rfl
  | beyond hsize =>
    have hempty := h.spliced thread (by rw [hpc]; rfl)
    have howner := h.excludes .globalRetired thread (by rw [hpc]; rfl)
    refine h.move hexcludes hthread rfl (fun _ _ ↦ rfl) hkeep rfl (fun _ ↦ howner) (fun _ ↦ hempty) hshort ?_ rfl
    obtain hwithin | ⟨hbeyond, -⟩ := h.global
    · exact .inl hwithin
    · refine .inr ⟨hbeyond, thread, ?_⟩
      rw [Domain.setPc_pcs_self]
      rfl
  | unlock =>
    have howner := h.excludes .globalRetired thread (by rw [hpc]; rfl)
    refine h.move_unspliced hexcludes hthread rfl (fun _ _ ↦ rfl) (fun other hne hother ↦ ?_) rfl rfl hshort
      (hglobal rfl rfl rfl) rfl
    exact absurd (Option.some.inj (hother.symm.trans howner)) hne

theorem Domain.Hoards.hoardMove (h : domain.Hoards threads) (hexcludes : next.Excludes) (hthread : thread ∈ threads)
    (hmove : HoardMove thread domain next) : next.Hoards threads := by
  have hshort := h.short thread
  cases hmove with
  | aside pc' hpcs hplain hplain' hretired hglobal hdeleted hmutex =>
    obtain ⟨-, hfull, hspliced, -⟩ := Pc.of_plain hplain
    obtain ⟨hsweeps', hfull', hspliced', -⟩ := Pc.of_plain hplain'
    refine h.move_unspliced hexcludes hthread hpcs (fun other _ ↦ by rw [hretired])
      (fun other _ howner ↦ hmutex.trans howner) hsweeps' hspliced' ?_ (h.global_of_same hpcs hglobal hspliced) hdeleted
    rw [hretired, hfull']
    rw [hfull] at hshort
    exact hshort
  | calls entry hidle hnext =>
    subst hnext
    rw [hidle] at hshort
    exact h.move_unspliced hexcludes hthread rfl (fun _ _ ↦ rfl) (fun _ _ howner ↦ howner) rfl rfl hshort
      (h.global_of_same rfl rfl (by rw [hidle]; rfl)) rfl
  | retires pc hpc hmove => exact h.retire hexcludes hthread hpc hmove
  | exits hidle hnext =>
    subst hnext
    refine h.move_unspliced hexcludes hthread rfl (fun other hne ↦ Function.update_of_ne hne ..)
      (fun _ _ howner ↦ howner) rfl rfl ?_ (h.global_of_same rfl rfl (by rw [hidle]; rfl)) rfl
    change (Function.update domain.retiredList thread [] thread).length ≤ 99
    rw [Function.update_self]
    exact Nat.zero_le _

/-! ## How many there are -/

/-- The entries retired so far, where those that went with a thread may be overestimated. -/
def Domain.hoard (threads : Finset ThreadId) (domain : Domain π) : ℕ :=
  domain.globalRetired.length + ∑ thread ∈ threads, domain.holdings thread

/-- The thread that moves is the only one whose holdings change. -/
theorem Domain.hoard_le_of_move (hthread : thread ∈ threads) {pc' : Pc π}
    (hpcs : next.pcs = Function.update domain.pcs thread pc')
    (hretired : ∀ other, other ≠ thread → next.retiredList other = domain.retiredList other) (gain : ℕ)
    (hholdings : domain.globalRetired.length + domain.holdings thread + gain ≤
      next.globalRetired.length + pc'.holdings (next.retiredList thread).length) :
    domain.hoard threads + gain ≤ next.hoard threads := by
  have hself : next.holdings thread = pc'.holdings (next.retiredList thread).length := by
    rw [Domain.holdings, hpcs, Function.update_self]
  have hothers : ∑ other ∈ threads.erase thread, next.holdings other =
      ∑ other ∈ threads.erase thread, domain.holdings other := by
    apply Finset.sum_congr rfl
    intro other hmem
    have hne := Finset.ne_of_mem_erase hmem
    rw [Domain.holdings, Domain.holdings, hpcs, Function.update_of_ne hne, hretired other hne]
  unfold Domain.hoard
  rw [← Finset.add_sum_erase threads next.holdings hthread, ← Finset.add_sum_erase threads domain.holdings hthread,
    hothers, hself]
  omega

theorem Domain.hoard_le_of_kept (hthread : thread ∈ threads) {pc' : Pc π}
    (hpcs : next.pcs = Function.update domain.pcs thread pc')
    (hretired : ∀ other, other ≠ thread → next.retiredList other = domain.retiredList other)
    (hholdings : domain.globalRetired.length + domain.holdings thread ≤
      next.globalRetired.length + pc'.holdings (next.retiredList thread).length) :
    domain.hoard threads ≤ next.hoard threads :=
  Domain.hoard_le_of_move hthread hpcs hretired 0 hholdings

/-- No statement of `RetirePointer` loses an entry. -/
theorem Domain.RetireMove.hoard_le {pc : RetirePc π} (hmove : Domain.RetireMove thread domain pc next)
    (hpc : domain.pcs thread = .retire pc) (hthread : thread ∈ threads) :
    domain.hoard threads ≤ next.hoard threads := by
  have hholdings : domain.holdings thread = (Pc.retire pc).holdings (domain.retiredList thread).length := by
    rw [Domain.holdings, hpc]
  cases hmove with
  | append entry =>
    refine hoard_le_of_kept hthread rfl (fun other hne ↦ Function.update_of_ne hne ..) ?_
    change _ ≤ _ + (Function.update domain.retiredList thread _ thread).length
    rw [hholdings, Function.update_self, List.length_append]
    exact Nat.le_refl _
  | splice =>
    refine hoard_le_of_kept hthread rfl (fun other hne ↦ Function.update_of_ne hne ..) ?_
    change _ ≤ (domain.globalRetired ++ _).length + (Function.update domain.retiredList thread _ thread).length
    rw [hholdings, Function.update_self, List.length_append]
    exact Nat.le_refl _
  | _ =>
    refine hoard_le_of_kept hthread rfl (fun _ _ ↦ rfl) ?_
    rw [hholdings]
    exact Nat.le_refl _

theorem Domain.Hoards.hoard_le (h : domain.Hoards threads) (hthread : thread ∈ threads)
    (hmove : HoardMove thread domain next) : domain.hoard threads ≤ next.hoard threads := by
  cases hmove with
  | aside pc' hpcs hplain hplain' hretired hglobal =>
    refine Domain.hoard_le_of_kept hthread hpcs (fun other _ ↦ by rw [hretired]) ?_
    rw [Domain.holdings, (Pc.of_plain hplain).2.2.2, (Pc.of_plain hplain').2.2.2, hretired, hglobal]
  | calls entry hidle hnext =>
    subst hnext
    refine Domain.hoard_le_of_kept hthread rfl (fun _ _ ↦ rfl) ?_
    rw [Domain.holdings, hidle]
    exact Nat.add_le_add_left (Nat.le_succ _) _
  | retires pc hpc hmove => exact hmove.hoard_le hpc hthread
  | exits hidle hnext =>
    subst hnext
    refine Domain.hoard_le_of_kept hthread rfl (fun other hne ↦ Function.update_of_ne hne ..) ?_
    have hshort := h.short thread
    rw [hidle] at hshort
    rw [Domain.holdings, hidle]
    exact Nat.add_le_add_left hshort _

theorem hoardMove_of_step [DecidableEq π] (h : domain.Hoards threads) (hleaves : LeavesReclaiming domain action)
    (hstep : step domain action = some next) : HoardMove action.thread domain next := by
  cases action with
  | call thread op =>
    obtain ⟨hidle, henter⟩ := enter_of_call hstep
    refine Domain.enter_hoardMove hidle ?_ ?_ henter
    · rintro rfl
      exact hleaves
    · rintro rfl
      exact hleaves
  | step thread => exact Domain.advance_hoardMove (h.sweeps thread) (h.stuck thread) hstep
  | exit thread =>
    obtain ⟨hidle, hnext⟩ := eq_of_exit hstep
    exact .exits hidle hnext

theorem Domain.Hoards.step [DecidableEq π] (h : domain.Hoards threads) (hthread : action.thread ∈ threads)
    (hleaves : LeavesReclaiming domain action) (hstep : step domain action = some next) : next.Hoards threads :=
  h.hoardMove (h.excludes.step hstep) hthread (hoardMove_of_step h hleaves hstep)

/-- A call of `RetirePointer` adds an entry, and no step takes one away. -/
theorem Domain.Hoards.hoard_step [DecidableEq π] (h : domain.Hoards threads) (hthread : action.thread ∈ threads)
    (hleaves : LeavesReclaiming domain action) (hstep : Hazard.step domain action = some next) :
    domain.hoard threads + (callsRetire domain action).toNat ≤ next.hoard threads := by
  cases hcalls : callsRetire domain action with
  | false => exact h.hoard_le hthread (hoardMove_of_step h hleaves hstep)
  | true =>
    cases action with
    | call thread op =>
      cases op with
      | retirePointer entry =>
        obtain ⟨hidle, henter⟩ := enter_of_call hstep
        obtain rfl := Option.some.inj henter
        have hpcs : (domain.setPc thread (.retire (.append entry))).pcs = _ := rfl
        refine Domain.hoard_le_of_move hthread hpcs (fun _ _ ↦ rfl) 1 ?_
        rw [Domain.holdings, Action.thread, hidle]
        exact Nat.le_refl _
      | _ => cases hcalls
    | _ => cases hcalls

theorem Domain.Hoards.holdings_le (h : domain.Hoards threads) (thread : ThreadId) :
    domain.holdings thread ≤ scanThreshold := by
  have hshort := h.short thread
  unfold Domain.holdings
  cases hpc : domain.pcs thread with
  | exited => exact (by decide : 99 ≤ 100)
  | retire pc =>
    rw [hpc] at hshort
    cases pc with
    | append entry => exact Nat.succ_le_succ hshort
    | testSize | lock | splice => exact hshort
    | _ => exact Nat.le_succ_of_le hshort
  | _ =>
    rw [hpc] at hshort
    exact Nat.le_succ_of_le hshort

theorem Domain.Hoards.holdings_spliced (h : domain.Hoards threads) (hspliced : (domain.pcs thread).spliced = true) :
    domain.holdings thread = 0 := by
  have hempty := h.spliced thread hspliced
  unfold Domain.holdings
  rw [hempty]
  cases hpc : domain.pcs thread with
  | retire pc =>
    rw [hpc] at hspliced
    cases pc with
    | testGlobalSize => rfl
    | _ => cases hspliced
  | exited =>
    rw [hpc] at hspliced
    cases hspliced
  | _ => rfl

/-- The thread that has taken the global list past its threshold has nothing left of its own. -/
theorem Domain.Hoards.hoard_le_bound (h : domain.Hoards threads) :
    domain.hoard threads ≤ globalThreshold + scanThreshold * threads.card := by
  have hsum (some : Finset ThreadId) : ∑ thread ∈ some, domain.holdings thread ≤ scanThreshold * some.card := by
    rw [Nat.mul_comm]
    exact Finset.sum_le_card_nsmul some domain.holdings scanThreshold fun thread _ ↦ h.holdings_le thread
  unfold Domain.hoard
  obtain hwithin | ⟨hbeyond, thread, hspliced⟩ := h.global
  · exact Nat.add_le_add hwithin (hsum threads)
  · have hthread : thread ∈ threads := by
      by_contra houtside
      rw [h.outside thread houtside] at hspliced
      cases hspliced
    have hothers := hsum (threads.erase thread)
    have hcard := Finset.card_erase_add_one hthread
    rw [← Finset.add_sum_erase threads domain.holdings hthread, h.holdings_spliced hspliced, ← hcard, Nat.mul_add]
    omega

/-! ## Runs -/

variable [DecidableEq π]

/-- What every run keeps of the calls of `RetirePointer` made so far. -/
theorem hoards_of_run {actions : List (Action π)} {final : Domain π} (hrun : run step {} actions = some final)
    (hthreads : ∀ action ∈ actions, action.thread ∈ threads) (hleaves : Meets step LeavesReclaiming {} actions) :
    final.Hoards threads ∧ countSteps step callsRetire {} actions ≤ final.hoard threads := by
  have hok : Meets step (fun domain action ↦ action.thread ∈ threads ∧ LeavesReclaiming domain action) {} actions :=
    (Meets.of_forall_mem fun action haction _ ↦ hthreads action haction).and hleaves
  have hcount := countSteps_invariant (p := callsRetire)
    (I := fun count visited ↦ visited.Hoards threads ∧ count ≤ visited.hoard threads)
    (fun count visited action next hvisited hok hstep ↦ ?_) hok ⟨hoards_empty threads, Nat.zero_le _⟩ hrun
  · rw [Nat.zero_add] at hcount
    exact hcount
  · have hgain := hvisited.1.hoard_step hok.1 hok.2 hstep
    exact ⟨hvisited.1.step hok.1 hok.2 hstep, by omega⟩

/-- In every run of a program that calls neither `Scan` nor `reclaim_all`, with threads that come and go, no deleter is
ever called, and `RetirePointer` is called no more often than the thresholds leave room for entries. -/
theorem retirements_bounded (actions : List (Action π)) (final : Domain π) (threads : Finset ThreadId)
    (hrun : run step {} actions = some final) (hthreads : ∀ action ∈ actions, action.thread ∈ threads)
    (hleaves : Meets step LeavesReclaiming {} actions) :
    final.deleterCalls = [] ∧
      countSteps step callsRetire {} actions ≤ globalThreshold + scanThreshold * threads.card := by
  obtain ⟨hhoards, hcount⟩ := hoards_of_run hrun hthreads hleaves
  exact ⟨hhoards.deleted, Nat.le_trans hcount hhoards.hoard_le_bound⟩

/-- Two threads retire a pointer each, and one of them ends. -/
def retireAndLeave : List (Action ℕ) :=
  [.call 0 (.retirePointer { ptr := 7 }), .step 0, .call 1 (.retirePointer { ptr := 8 }), .step 0, .step 1, .exit 0,
    .step 1]

theorem retirements_bounded_leave :
    ∃ final, run step {} retireAndLeave = some final ∧ final.deleterCalls = [] ∧
      countSteps step callsRetire {} retireAndLeave = 2 ∧
      countSteps step callsRetire {} retireAndLeave ≤ 5000 + 100 * 2 := by
  have hrun : run step {} retireAndLeave = some _ := rfl
  have hleaves : Meets step LeavesReclaiming {} retireAndLeave := by
    apply Meets.of_forall_mem
    intro action haction _
    simp only [retireAndLeave, List.mem_cons, List.not_mem_nil, or_false] at haction
    rcases haction with rfl | rfl | rfl | rfl | rfl | rfl | rfl <;> trivial
  obtain ⟨hdeleted, hcount⟩ := retirements_bounded retireAndLeave _ {0, 1} hrun (by decide) hleaves
  exact ⟨_, hrun, hdeleted, rfl, hcount⟩

end TinyReactor.Hazard
