import TinyReactor.Hazard.Moves
import TinyReactor.Transition.Mutex

/-!
# The mutexes of the domain

Every function of the domain locks one mutex at a time and leaves it before it returns, with one exception:
`RetirePointer` calls `Scan` with `global_retired_mutex_` held, when the global list has grown past its
threshold, and `Scan` locks the same mutex.
-/

namespace TinyReactor.Hazard

open Transition

variable {π : Type*}

inductive Mutex
  | list
  | globalRetired
  | threadData
  deriving DecidableEq, Repr

def Domain.owner (domain : Domain π) : Mutex → Option ThreadId
  | .list => domain.listMutex
  | .globalRetired => domain.globalRetiredMutex
  | .threadData => domain.threadDataMutex

/-- The mutex that the next statement locks. -/
def Pc.locks? : Pc π → Option Mutex
  | .acquire _ .lock => some .list
  | .retire .lock => some .globalRetired
  | .scan .lock => some .globalRetired
  | .reclaim .lock => some .globalRetired
  | .register .lock => some .threadData
  | .unregister .lock => some .threadData
  | _ => none

/-- Past the lock of `list_mutex_` and not past its unlock. -/
def Pc.holdsList : Pc π → Bool
  | .acquire _ .lock => false
  | .acquire _ _ => true
  | _ => false

def Pc.holdsGlobalRetired : Pc π → Bool
  | .retire .splice => true
  | .retire .testGlobalSize => true
  | .retire .unlock => true
  | .scan .lock => false
  | .scan _ => true
  | .reclaim .lock => false
  | .reclaim (.callDeleters _) => false
  | .reclaim _ => true
  | _ => false

def Pc.holdsThreadData : Pc π → Bool
  | .register .lock => false
  | .register _ => true
  | .unregister .lock => false
  | .unregister _ => true
  | _ => false

def Pc.holds : Mutex → Pc π → Bool
  | .list => Pc.holdsList
  | .globalRetired => Pc.holdsGlobalRetired
  | .threadData => Pc.holdsThreadData

/-- Some thread is about to lock a mutex that it holds. -/
def Domain.SelfLocks (domain : Domain π) : Prop :=
  ∃ thread mutex, (domain.pcs thread).locks? = some mutex ∧ domain.owner mutex = some thread

/-- `RetirePointer` finds the global list within its threshold when it looks. -/
def WithinThreshold (domain : Domain π) : Action π → Prop
  | .step thread =>
      domain.pcs thread = .retire .testGlobalSize → domain.globalRetired.length ≤ globalThreshold
  | _ => True

/-! ## Locks and unlocks -/

/-- The thread moves, and treats every mutex properly. -/
def LockMoves (thread : ThreadId) (domain next : Domain π) : Prop :=
  ∃ pc' : Pc π, next.pcs = Function.update domain.pcs thread pc' ∧
    ∀ mutex, LockMove thread (domain.owner mutex) (next.owner mutex) ((domain.pcs thread).holds mutex) (pc'.holds mutex)

namespace Domain

variable {domain next : Domain π} {thread : ThreadId}

theorem setPc_pcs_self (domain : Domain π) {pc : Pc π} : (domain.setPc thread pc).pcs thread = pc :=
  Function.update_self ..

theorem lockMoves_keep {pc pc' : Pc π} (hpc : domain.pcs thread = pc)
    (hpcs : next.pcs = Function.update domain.pcs thread pc') (howner : ∀ mutex, next.owner mutex = domain.owner mutex)
    (hholds : ∀ mutex, pc'.holds mutex = pc.holds mutex) : LockMoves thread domain next :=
  ⟨pc', hpcs, fun mutex ↦ .inl ⟨howner mutex, hpc ▸ hholds mutex⟩⟩

/-- `RetirePointer`, `Scan` and `reclaim_all` each lock `global_retired_mutex_`. -/
theorem lockMoves_lock {pc pc' : Pc π} (hpc : domain.pcs thread = pc) (hfree : domain.globalRetiredMutex = none)
    (hinside : pc'.holdsGlobalRetired = true) (hlist : pc'.holdsList = pc.holdsList)
    (hthreadData : pc'.holdsThreadData = pc.holdsThreadData) :
    LockMoves thread domain ({ domain with globalRetiredMutex := some thread }.setPc thread pc') := by
  refine ⟨pc', rfl, fun mutex ↦ ?_⟩
  rw [hpc]
  cases mutex with
  | list => exact .inl ⟨rfl, hlist⟩
  | globalRetired => exact .inr (.inl ⟨hfree, rfl, hinside⟩)
  | threadData => exact .inl ⟨rfl, hthreadData⟩

theorem lockMoves_unlock {pc pc' : Pc π} (hpc : domain.pcs thread = pc) (hinside : pc.holdsGlobalRetired = true)
    (houtside : pc'.holdsGlobalRetired = false) (hlist : pc'.holdsList = pc.holdsList)
    (hthreadData : pc'.holdsThreadData = pc.holdsThreadData) :
    LockMoves thread domain ({ domain with globalRetiredMutex := none }.setPc thread pc') := by
  refine ⟨pc', rfl, fun mutex ↦ ?_⟩
  rw [hpc]
  cases mutex with
  | list => exact .inl ⟨rfl, hlist⟩
  | globalRetired => exact .inr (.inr ⟨hinside, rfl, houtside⟩)
  | threadData => exact .inl ⟨rfl, hthreadData⟩

theorem acquireStep_lockMoves {holder : HolderId} {pc : AcquirePc} (hpc : domain.pcs thread = .acquire holder pc)
    (h : domain.acquireStep thread holder pc = some next) : LockMoves thread domain next := by
  cases acquireMove_of_step h with
  | lock hfree =>
    refine ⟨_, rfl, fun mutex ↦ ?_⟩
    rw [hpc]
    cases mutex with
    | list => exact .inr (.inl ⟨hfree, rfl, rfl⟩)
    | _ => exact .inl ⟨rfl, rfl⟩
  | unlock slot =>
    refine ⟨_, rfl, fun mutex ↦ ?_⟩
    rw [hpc]
    cases mutex with
    | list => exact .inr (.inr ⟨rfl, rfl, rfl⟩)
    | _ => exact .inl ⟨rfl, rfl⟩
  | _ =>
    refine lockMoves_keep hpc rfl (fun mutex ↦ ?_) fun mutex ↦ ?_
    · cases mutex <;> rfl
    · cases mutex <;> rfl

theorem releaseStep_lockMoves {holder : HolderId} {source : Option HolderId} {pc : ReleasePc}
    (hpc : domain.pcs thread = .release holder pc source) :
    LockMoves thread domain (domain.releaseStep thread holder source pc) := by
  cases pc with
  | clearSlot =>
    refine lockMoves_keep hpc rfl (fun mutex ↦ ?_) fun mutex ↦ ?_
    · cases mutex <;> rfl
    · cases source <;> cases mutex <;> rfl
  | _ =>
    refine lockMoves_keep hpc rfl (fun mutex ↦ ?_) fun mutex ↦ ?_
    · cases mutex <;> rfl
    · cases mutex <;> rfl

/-- `RetirePointer`, as long as it does not call `Scan`. -/
theorem retireStep_lockMoves {pc : RetirePc π} (hpc : domain.pcs thread = .retire pc)
    (hwithin : pc = .testGlobalSize → domain.globalRetired.length ≤ globalThreshold)
    (h : domain.retireStep thread pc = some next) : LockMoves thread domain next := by
  cases retireMove_of_step h with
  | lock hfree => exact lockMoves_lock hpc hfree rfl rfl rfl
  | beyond hsize => exact absurd hsize (Nat.not_lt.mpr (hwithin rfl))
  | unlock => exact lockMoves_unlock hpc rfl rfl rfl rfl
  | _ =>
    refine lockMoves_keep hpc rfl (fun mutex ↦ ?_) fun mutex ↦ ?_
    · cases mutex <;> rfl
    · cases mutex <;> rfl

theorem scanStep_lockMoves {pc : ScanPc} (hpc : domain.pcs thread = .scan pc)
    (h : domain.scanStep thread pc = some next) : LockMoves thread domain next := by
  cases scanMove_of_step h with
  | lock hfree => exact lockMoves_lock hpc hfree rfl rfl rfl
  | unlock => exact lockMoves_unlock hpc rfl rfl rfl rfl
  | _ =>
    refine lockMoves_keep hpc rfl (fun mutex ↦ ?_) fun mutex ↦ ?_
    · cases mutex <;> rfl
    · cases mutex <;> rfl

theorem reclaimStep_lockMoves [DecidableEq π] {pc : ReclaimPc π} (hpc : domain.pcs thread = .reclaim pc)
    (h : domain.reclaimStep thread pc = some next) : LockMoves thread domain next := by
  cases reclaimMove_of_step h with
  | lock hfree => exact lockMoves_lock hpc hfree rfl rfl rfl
  | unlock toReclaim => exact lockMoves_unlock hpc rfl rfl rfl rfl
  | _ =>
    refine lockMoves_keep hpc rfl (fun mutex ↦ ?_) fun mutex ↦ ?_
    · cases mutex <;> rfl
    · cases mutex <;> rfl

/-- `RegisterThread` and `UnregisterThread` differ in the program points and in what they make of the list. -/
theorem registerStep_lockMoves {wrap : RegisterPc → Pc π} {update : Option (List ThreadId)} {pc : RegisterPc}
    (hwrap : wrap = .register ∨ wrap = .unregister) (hpc : domain.pcs thread = wrap pc)
    (h : domain.registerStep thread wrap update pc = some next) : LockMoves thread domain next := by
  rcases hwrap with rfl | rfl <;> cases registerMove_of_step h with
  | lock hfree =>
    refine ⟨_, rfl, fun mutex ↦ ?_⟩
    rw [hpc]
    cases mutex with
    | threadData => exact .inr (.inl ⟨hfree, rfl, rfl⟩)
    | _ => exact .inl ⟨rfl, rfl⟩
  | update =>
    refine lockMoves_keep hpc rfl (fun mutex ↦ ?_) fun mutex ↦ ?_ <;> cases mutex <;> rfl
  | unlock =>
    refine ⟨_, rfl, fun mutex ↦ ?_⟩
    rw [hpc]
    cases mutex with
    | threadData => exact .inr (.inr ⟨rfl, rfl, rfl⟩)
    | _ => exact .inl ⟨rfl, rfl⟩

theorem advance_lockMoves [DecidableEq π]
    (hwithin : domain.pcs thread = .retire .testGlobalSize → domain.globalRetired.length ≤ globalThreshold)
    (h : domain.advance thread (domain.pcs thread) = some next) : LockMoves thread domain next := by
  cases hpc : domain.pcs thread with
  | idle | exited =>
    rw [hpc] at h
    cases h
  | acquire holder pc =>
    rw [hpc] at h
    exact acquireStep_lockMoves hpc h
  | release holder pc source =>
    rw [hpc] at h
    cases h
    exact releaseStep_lockMoves hpc
  | take holder source | protect slot ptr =>
    rw [hpc] at h
    cases h
    refine lockMoves_keep hpc rfl (fun mutex ↦ ?_) fun mutex ↦ ?_ <;> cases mutex <;> rfl
  | retire pc =>
    rw [hpc] at h
    refine retireStep_lockMoves hpc ?_ h
    rintro rfl
    exact hwithin hpc
  | scan pc =>
    rw [hpc] at h
    exact scanStep_lockMoves hpc h
  | reclaim pc =>
    rw [hpc] at h
    exact reclaimStep_lockMoves hpc h
  | register pc =>
    rw [hpc, advance] at h
    exact registerStep_lockMoves (.inl rfl) hpc h
  | unregister pc =>
    rw [hpc, advance] at h
    exact registerStep_lockMoves (.inr rfl) hpc h

/-- A call only enters its function. -/
theorem enter_lockMoves {op : Op π} (hidle : domain.pcs thread = .idle) (h : domain.enter thread op = some next) :
    LockMoves thread domain next := by
  have hstays : domain.pcs = Function.update domain.pcs thread .idle := by
    rw [← hidle, Function.update_eq_self]
  cases op with
  | construct holder =>
    simp only [enter] at h
    split at h <;> cases h
    refine lockMoves_keep hidle rfl (fun _ ↦ rfl) fun mutex ↦ ?_
    cases mutex <;> rfl
  | moveConstruct holder source =>
    simp only [enter] at h
    split at h <;> cases h
    refine lockMoves_keep hidle hstays (fun mutex ↦ ?_) fun _ ↦ rfl
    cases mutex <;> rfl
  | moveAssign holder source =>
    simp only [enter] at h
    split at h <;> cases h
    · exact lockMoves_keep hidle hstays (fun _ ↦ rfl) fun _ ↦ rfl
    · refine lockMoves_keep hidle rfl (fun _ ↦ rfl) fun mutex ↦ ?_
      unfold enterRelease
      cases domain.holders holder <;> cases mutex <;> rfl
  | release holder =>
    cases h
    refine lockMoves_keep hidle rfl (fun _ ↦ rfl) fun mutex ↦ ?_
    unfold enterRelease
    cases domain.holders holder <;> cases mutex <;> rfl
  | protect holder ptr =>
    cases h
    refine lockMoves_keep hidle rfl (fun _ ↦ rfl) fun mutex ↦ ?_
    cases domain.holders holder <;> cases mutex <;> rfl
  | _ =>
    cases h
    refine lockMoves_keep hidle rfl (fun _ ↦ rfl) fun mutex ↦ ?_
    cases mutex <;> rfl

end Domain

variable {domain next : Domain π} {action : Action π}

/-! ## Owners -/

/-- Each mutex is owned by the thread between its lock and its unlock. -/
def Domain.Excludes (domain : Domain π) : Prop :=
  ∀ mutex, Exclusive (Pc.holds mutex) domain.pcs (domain.owner mutex)

/-- The owner of each mutex is between its lock and its unlock. -/
def Domain.OwnersInside (domain : Domain π) : Prop :=
  ∀ mutex, OwnerInside (Pc.holds mutex) domain.pcs (domain.owner mutex)

theorem excludes_empty : ({} : Domain π).Excludes := by
  intro mutex thread hinside
  cases mutex <;> cases hinside

theorem ownersInside_empty : ({} : Domain π).OwnersInside := by
  intro mutex thread howner
  cases mutex <;> cases howner

/-- No program point inside a mutex is one that locks it. -/
theorem Pc.not_holds_of_locks {pc : Pc π} {mutex : Mutex} (h : pc.locks? = some mutex) : pc.holds mutex = false := by
  cases pc with
  | acquire holder pc =>
    cases pc with
    | lock => cases h; rfl
    | _ => cases h
  | retire pc =>
    cases pc with
    | lock => cases h; rfl
    | _ => cases h
  | scan pc =>
    cases pc with
    | lock => cases h; rfl
    | _ => cases h
  | reclaim pc =>
    cases pc with
    | lock => cases h; rfl
    | _ => cases h
  | register pc =>
    cases pc with
    | lock => cases h; rfl
    | _ => cases h
  | unregister pc =>
    cases pc with
    | lock => cases h; rfl
    | _ => cases h
  | _ => cases h

theorem Domain.OwnersInside.not_selfLocks (h : domain.OwnersInside) : ¬ domain.SelfLocks := by
  rintro ⟨thread, mutex, hlocks, howner⟩
  have hinside := h mutex thread howner
  rw [Pc.not_holds_of_locks hlocks] at hinside
  cases hinside

variable [DecidableEq π]

/-! ## Steps -/

theorem step_lockMoves (hwithin : WithinThreshold domain action) (hstep : step domain action = some next) :
    ∃ thread, LockMoves thread domain next := by
  cases action with
  | call thread op =>
    obtain ⟨hidle, henter⟩ := enter_of_call hstep
    exact ⟨thread, Domain.enter_lockMoves hidle henter⟩
  | step thread => exact ⟨thread, Domain.advance_lockMoves hwithin hstep⟩
  | exit thread =>
    obtain ⟨hidle, rfl⟩ := eq_of_exit hstep
    refine ⟨thread, Domain.lockMoves_keep hidle rfl (fun mutex ↦ ?_) fun mutex ↦ ?_⟩ <;> cases mutex <;> rfl

/-- The step that calls `Scan` in `RetirePointer`. -/
theorem step_beyond_threshold (hbeyond : ¬ WithinThreshold domain action) :
    ∃ thread, domain.pcs thread = .retire .testGlobalSize ∧
      step domain action = some (domain.setPc thread (.scan .lock)) := by
  cases action with
  | step thread =>
    simp only [WithinThreshold, Classical.not_imp, Nat.not_le] at hbeyond
    obtain ⟨hpc, hlong⟩ := hbeyond
    refine ⟨thread, hpc, ?_⟩
    simp only [step, hpc, Domain.advance, Domain.retireStep, if_pos hlong]
  | _ => exact absurd trivial hbeyond

/-! ## Runs -/

theorem Domain.Excludes.step (h : domain.Excludes) (hstep : step domain action = some next) : next.Excludes := by
  by_cases hwithin : WithinThreshold domain action
  · obtain ⟨thread, pc', hpcs, hmoves⟩ := step_lockMoves hwithin hstep
    intro mutex
    rw [hpcs]
    exact (h mutex).move (hmoves mutex)
  · -- the thread stays outside from here on, with the mutex locked
    obtain ⟨thread, hpc, hscan⟩ := step_beyond_threshold hwithin
    obtain rfl := Option.some.inj (hscan.symm.trans hstep)
    intro mutex
    have houtside : (Pc.scan .lock : Pc π).holds mutex = false := by cases mutex <;> rfl
    have hleave : Exclusive (Pc.holds mutex) (Function.update domain.pcs thread (.scan .lock)) (domain.owner mutex) :=
      (h mutex).leave houtside
    cases mutex <;> exact hleave

theorem excludes_of_run {actions : List (Action π)} (hrun : run step {} actions = some domain) : domain.Excludes :=
  run_invariant (I := Domain.Excludes) (fun _ _ _ h hstep ↦ h.step hstep) excludes_empty hrun

theorem Domain.OwnersInside.step (h : domain.OwnersInside) (hwithin : WithinThreshold domain action)
    (hstep : step domain action = some next) : next.OwnersInside := by
  obtain ⟨thread, pc', hpcs, hmoves⟩ := step_lockMoves hwithin hstep
  intro mutex
  rw [hpcs]
  exact (h mutex).move (hmoves mutex)

/-- Past the threshold the thread waits for a mutex that it holds. -/
theorem selfLocks_beyond_threshold (h : domain.Excludes) (hbeyond : ¬ WithinThreshold domain action) :
    ∃ next, Hazard.step domain action = some next ∧ next.SelfLocks := by
  obtain ⟨thread, hpc, hscan⟩ := step_beyond_threshold hbeyond
  refine ⟨_, hscan, thread, .globalRetired, ?_, ?_⟩
  · rw [domain.setPc_pcs_self]
    rfl
  · exact h .globalRetired thread (by rw [hpc]; rfl)

theorem not_selfLocks_throughout_iff (hexcludes : domain.Excludes) (hinside : domain.OwnersInside)
    (actions : List (Action π)) :
    Throughout step (fun visited ↦ ¬ visited.SelfLocks) domain actions ↔ Meets step WithinThreshold domain actions := by
  induction actions generalizing domain with
  | nil => exact iff_of_true hinside.not_selfLocks trivial
  | cons action rest ih =>
    by_cases hwithin : WithinThreshold domain action
    · constructor
      · rintro ⟨-, hrest⟩
        exact ⟨hwithin, fun next hnext ↦
          (ih (hexcludes.step hnext) (hinside.step hwithin hnext)).mp (hrest next hnext)⟩
      · rintro ⟨-, hrest⟩
        exact ⟨hinside.not_selfLocks, fun next hnext ↦
          (ih (hexcludes.step hnext) (hinside.step hwithin hnext)).mpr (hrest next hnext)⟩
    · obtain ⟨next, hnext, hself⟩ := selfLocks_beyond_threshold hexcludes hwithin
      constructor
      · rintro ⟨-, hrest⟩
        exact absurd hself (hrest next hnext).here
      · rintro ⟨hmeets, -⟩
        exact absurd hmeets hwithin

/-- No thread ever tries to lock a mutex that it holds, exactly when `RetirePointer` finds the global list
within its threshold every time it looks. -/
theorem no_self_lock_iff (actions : List (Action π)) :
    Throughout step (fun domain ↦ ¬ domain.SelfLocks) {} actions ↔
      Meets step WithinThreshold ({} : Domain π) actions :=
  not_selfLocks_throughout_iff excludes_empty ownersInside_empty actions

/-! ## A long history of one thread -/

/-- `RetirePointer(ptr)` by thread 0, up to the test of the size of its list. -/
def retireOne (ptr : ℕ) : List (Action ℕ) := [.call 0 (.retirePointer { ptr := ptr }), .step 0, .step 0]

/-- A hundred calls, the last of which moves the list to the global one. -/
def retireBatch (batch : ℕ) : List (Action ℕ) :=
  (List.range 99).flatMap (fun i ↦ retireOne (100 * batch + i)) ++ retireOne (100 * batch + 99) ++
    [.step 0, .step 0, .step 0, .step 0]

/-- The call that moves the list of the 51st hundred. -/
def retirePastThreshold : List (Action ℕ) :=
  (List.range 50).flatMap retireBatch ++ ((List.range 99).flatMap (fun i ↦ retireOne (5000 + i)) ++
    retireOne 5099 ++ [.step 0, .step 0, .step 0])

/-- Thread 0 is at `pc`, with `own` entries in its list and `shared` in the global one. -/
structure Retired (pc : Pc ℕ) (owner : Option ThreadId) (own shared : ℕ) (domain : Domain ℕ) : Prop where
  pc : domain.pcs 0 = pc
  owner : domain.globalRetiredMutex = owner
  own : (domain.retiredList 0).length = own
  shared : domain.globalRetired.length = shared

namespace Retired

variable {own shared : ℕ} {domain : Domain ℕ}

theorem step_eq {pc : RetirePc ℕ} {owner : Option ThreadId} (h : Retired (.retire pc) owner own shared domain) :
    step domain (.step 0) = domain.retireStep 0 pc := by
  rw [step, h.pc]
  rfl

theorem call (h : Retired .idle none own shared domain) (entry : RetiredPtr ℕ) :
    ∃ next, step domain (.call 0 (.retirePointer entry)) = some next ∧
      Retired (.retire (.append entry)) none own shared next := by
  have hstep : step domain (.call 0 (.retirePointer entry)) = some (domain.setPc 0 (.retire (.append entry))) := by
    rw [step, h.pc]
    rfl
  exact ⟨_, hstep, domain.setPc_pcs_self, h.owner, h.own, h.shared⟩

theorem append {entry : RetiredPtr ℕ} (h : Retired (.retire (.append entry)) none own shared domain) :
    ∃ next, step domain (.step 0) = some next ∧ Retired (.retire .testSize) none (own + 1) shared next := by
  refine ⟨_, h.step_eq.trans rfl, Domain.setPc_pcs_self _, h.owner, ?_, h.shared⟩
  simp [Domain.setPc, h.own]

theorem testSize (h : Retired (.retire .testSize) none own shared domain) :
    ∃ next, step domain (.step 0) = some next ∧
      Retired (if scanThreshold ≤ own then .retire .lock else .idle) none own shared next := by
  rw [← h.own]
  exact ⟨_, h.step_eq.trans rfl, Domain.setPc_pcs_self _, h.owner, rfl, h.shared⟩

theorem lock (h : Retired (.retire .lock) none own shared domain) :
    ∃ next, step domain (.step 0) = some next ∧ Retired (.retire .splice) (some 0) own shared next :=
  ⟨_, h.step_eq.trans (if_pos h.owner), Domain.setPc_pcs_self _, rfl, h.own, h.shared⟩

theorem splice (h : Retired (.retire .splice) (some 0) own shared domain) :
    ∃ next, step domain (.step 0) = some next ∧
      Retired (.retire .testGlobalSize) (some 0) 0 (shared + own) next := by
  refine ⟨_, h.step_eq.trans rfl, Domain.setPc_pcs_self _, h.owner, ?_, ?_⟩
  · simp [Domain.setPc]
  · simp [Domain.setPc, h.own, h.shared]

theorem testGlobalSize (h : Retired (.retire .testGlobalSize) (some 0) own shared domain) :
    ∃ next, step domain (.step 0) = some next ∧
      Retired (if globalThreshold < shared then .scan .lock else .retire .unlock) (some 0) own shared next := by
  rw [← h.shared]
  exact ⟨_, h.step_eq.trans rfl, Domain.setPc_pcs_self _, h.owner, h.own, rfl⟩

theorem unlock (h : Retired (.retire .unlock) (some 0) own shared domain) :
    ∃ next, step domain (.step 0) = some next ∧ Retired .idle none own shared next :=
  ⟨_, h.step_eq.trans rfl, Domain.setPc_pcs_self _, rfl, h.own, h.shared⟩

end Retired

theorem retireOne_leads (ptr own shared : ℕ) :
    Leads step (Retired .idle none own shared) (retireOne ptr)
      (Retired (if scanThreshold ≤ own + 1 then .retire .lock else .idle) none (own + 1) shared) :=
  .cons (fun _ h ↦ h.call _) (.cons (fun _ h ↦ h.append) (.cons (fun _ h ↦ h.testSize) (.nil fun _ h ↦ h)))

/-- The calls that fill the list and the one that empties it. -/
theorem retireHundred_leads (base shared : ℕ) :
    Leads step (Retired .idle none 0 shared) ((List.range 99).flatMap (fun i ↦ retireOne (base + i)) ++ retireOne (base + 99))
      (Retired (.retire .lock) none 100 shared) := by
  apply Leads.append (Q := Retired .idle none 99 shared)
  · apply Leads.rounds (S := fun own ↦ Retired .idle none own shared)
    intro round hround
    have hone := retireOne_leads (base + round) round shared
    rwa [if_neg (show ¬ scanThreshold ≤ round + 1 from Nat.not_le.mpr (by unfold scanThreshold; omega))] at hone
  · exact retireOne_leads (base + 99) 99 shared

theorem retireBatch_leads (batch : ℕ) (hbatch : batch < 50) :
    Leads step (Retired .idle none 0 (100 * batch)) (retireBatch batch) (Retired .idle none 0 (100 * (batch + 1))) := by
  apply (retireHundred_leads (100 * batch) (100 * batch)).append
  refine .cons (fun _ h ↦ h.lock) (.cons (fun _ h ↦ h.splice) (.cons (fun _ h ↦ h.testGlobalSize) ?_))
  rw [if_neg (Nat.not_lt.mpr (by unfold globalThreshold; omega))]
  exact .cons (fun _ h ↦ h.unlock) (.nil fun _ h ↦ h)

/-- Thread 0 has retired 5100 pointers and waits for the mutex it holds. -/
theorem self_lock_past_threshold :
    ∃ domain, run step {} retirePastThreshold = some domain ∧ domain.pcs 0 = .scan .lock ∧
      domain.globalRetiredMutex = some 0 ∧ domain.SelfLocks := by
  have hleads : Leads step (Retired .idle none 0 0) retirePastThreshold (Retired (.scan .lock) (some 0) 0 5100) := by
    apply Leads.append
    · exact Leads.rounds (S := fun batch ↦ Retired .idle none 0 (100 * batch)) retireBatch_leads
    · apply (retireHundred_leads 5000 5000).append
      exact .cons (fun _ h ↦ h.lock) (.cons (fun _ h ↦ h.splice) (.cons (fun _ h ↦ h.testGlobalSize) (.nil fun _ h ↦ h)))
  obtain ⟨domain, hrun, hdomain⟩ := hleads {} ⟨rfl, rfl, rfl, rfl⟩
  refine ⟨domain, hrun, hdomain.pc, hdomain.owner, 0, .globalRetired, ?_, hdomain.owner⟩
  rw [hdomain.pc]
  rfl

end TinyReactor.Hazard
