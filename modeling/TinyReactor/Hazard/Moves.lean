import TinyReactor.Hazard.Model

/-!
# Inversion of the statements

The outcomes of the statements of `acquire`, `RetirePointer`, `Scan`, `RegisterThread` and `reclaim_all`, one
constructor each. What the statements keep is argued by cases on these; nothing unfolds the statements again.
-/

namespace TinyReactor.Hazard.Domain

variable {π : Type*}

section

variable (thread : ThreadId) (domain : Domain π)

/-- The outcomes of a statement of `acquire`. -/
inductive AcquireMove (holder : HolderId) : AcquirePc → Domain π → Prop
  | lock (hfree : domain.listMutex = none) : AcquireMove holder .lock
      ({ domain with listMutex := some thread }.setPc thread (.acquire holder .loadHead))
  | noSlots (hhead : domain.head = none) :
      AcquireMove holder .loadHead (domain.setPc thread (.acquire holder .allocate))
  | newest (current : ℕ) (hhead : domain.head = some current) :
      AcquireMove holder .loadHead (domain.setPc thread (.acquire holder (.testOwner current)))
  | unowned {current : ℕ} (slot : HazardSlot π) (hslot : domain.slots[current]? = some slot)
      (howner : slot.owner = none) :
      AcquireMove holder (.testOwner current) (domain.setPc thread (.acquire holder (.claim current)))
  | owned {current : ℕ} (slot : HazardSlot π) (hslot : domain.slots[current]? = some slot)
      (howner : slot.owner ≠ none) :
      AcquireMove holder (.testOwner current) (domain.setPc thread (.acquire holder (.loadNext current)))
  | claim (current : ℕ) : AcquireMove holder (.claim current)
      ((domain.setSlot current fun slot ↦ { slot with owner := some thread }).setPc thread
        (.acquire holder (.unlock current)))
  | oldest {current : ℕ} (slot : HazardSlot π) (hslot : domain.slots[current]? = some slot)
      (hnext : slot.next = none) :
      AcquireMove holder (.loadNext current) (domain.setPc thread (.acquire holder .allocate))
  | follow {current : ℕ} (slot : HazardSlot π) (following : ℕ) (hslot : domain.slots[current]? = some slot)
      (hnext : slot.next = some following) :
      AcquireMove holder (.loadNext current) (domain.setPc thread (.acquire holder (.testOwner following)))
  | allocate : AcquireMove holder .allocate
      ({ domain with slots := domain.slots ++ [({ owner := some thread } : HazardSlot π)] }.setPc thread
        (.acquire holder (.readOldHead domain.slots.length)))
  | readOldHead (newHp : ℕ) : AcquireMove holder (.readOldHead newHp)
      (domain.setPc thread (.acquire holder (.publish newHp domain.head)))
  | publish (newHp : ℕ) (oldHead : Option ℕ) : AcquireMove holder (.publish newHp oldHead)
      ({ domain with head := some newHp }.setPc thread (.acquire holder (.link newHp oldHead)))
  | link (newHp : ℕ) (oldHead : Option ℕ) : AcquireMove holder (.link newHp oldHead)
      ((domain.setSlot newHp fun slot ↦ { slot with next := oldHead }).setPc thread
        (.acquire holder (.unlock newHp)))
  | unlock (slot : ℕ) : AcquireMove holder (.unlock slot)
      (({ domain with listMutex := none }.setHolder holder (some slot)).setPc thread .idle)

/-- The outcomes of a statement of `RetirePointer`. -/
inductive RetireMove : RetirePc π → Domain π → Prop
  | append (entry : RetiredPtr π) : RetireMove (.append entry)
      ({ domain with
        retiredList := Function.update domain.retiredList thread (domain.retiredList thread ++ [entry]) }.setPc
        thread (.retire .testSize))
  | finish (hsize : (domain.retiredList thread).length < scanThreshold) :
      RetireMove .testSize (domain.setPc thread .idle)
  | full (hsize : scanThreshold ≤ (domain.retiredList thread).length) :
      RetireMove .testSize (domain.setPc thread (.retire .lock))
  | lock (hfree : domain.globalRetiredMutex = none) : RetireMove .lock
      ({ domain with globalRetiredMutex := some thread }.setPc thread (.retire .splice))
  | splice : RetireMove .splice
      ({ domain with
        globalRetired := domain.globalRetired ++ domain.retiredList thread
        retiredList := Function.update domain.retiredList thread [] }.setPc thread (.retire .testGlobalSize))
  | within (hsize : domain.globalRetired.length ≤ globalThreshold) :
      RetireMove .testGlobalSize (domain.setPc thread (.retire .unlock))
  | beyond (hsize : globalThreshold < domain.globalRetired.length) :
      RetireMove .testGlobalSize (domain.setPc thread (.scan .lock))
  | unlock : RetireMove .unlock ({ domain with globalRetiredMutex := none }.setPc thread .idle)

/-- The outcomes of a statement of `Scan`. -/
inductive ScanMove : ScanPc → Domain π → Prop
  | lock (hfree : domain.globalRetiredMutex = none) : ScanMove .lock
      ({ domain with globalRetiredMutex := some thread }.setPc thread (.scan .start))
  | start : ScanMove .start
      ({ domain with iteratorsValid := Function.update domain.iteratorsValid thread true }.setPc thread
        (.scan (.loop 0 domain.allThreadData.length)))
  | splice {index count : ℕ} (owner : ThreadId) (hvalid : domain.iteratorsValid thread = true) (hlt : index < count)
      (howner : domain.allThreadData[index]? = some owner) (halive : (domain.pcs owner).isExited = false) :
      ScanMove (.loop index count)
      ({ domain with
        globalRetired := domain.globalRetired ++ domain.retiredList owner
        retiredList := Function.update domain.retiredList owner [] }.setPc thread (.scan (.loop (index + 1) count)))
  | finish {index count : ℕ} (hvalid : domain.iteratorsValid thread = true) (hge : count ≤ index) :
      ScanMove (.loop index count) (domain.setPc thread (.scan .unlock))
  | unlock : ScanMove .unlock ({ domain with globalRetiredMutex := none }.setPc thread (.reclaim .lock))

/-- The outcomes of a statement of `RegisterThread` or `UnregisterThread`. -/
inductive RegisterMove (wrap : RegisterPc → Pc π) (update : Option (List ThreadId)) : RegisterPc → Domain π → Prop
  | lock (hfree : domain.threadDataMutex = none) : RegisterMove wrap update .lock
      ({ domain with threadDataMutex := some thread }.setPc thread (wrap .update))
  | update (table : List ThreadId) (htable : update = some table) : RegisterMove wrap update .update
      ({ domain with
        allThreadData := table
        iteratorsValid := if table = domain.allThreadData then domain.iteratorsValid else fun _ ↦ false }.setPc
        thread (wrap .unlock))
  | unlock : RegisterMove wrap update .unlock ({ domain with threadDataMutex := none }.setPc thread .idle)

/-- The outcomes of a statement of `reclaim_all` or of its `isProtected`. -/
inductive ReclaimMove : ReclaimPc π → Domain π → Prop
  | lock (hfree : domain.globalRetiredMutex = none) : ReclaimMove .lock
      ({ domain with globalRetiredMutex := some thread }.setPc thread (.reclaim (.next 0 [])))
  | finish {index : ℕ} {toReclaim : List (RetiredPtr π)} (hnone : domain.globalRetired[index]? = none) :
      ReclaimMove (.next index toReclaim) (domain.setPc thread (.reclaim (.unlock toReclaim)))
  | examine {index : ℕ} {toReclaim : List (RetiredPtr π)} (entry : RetiredPtr π)
      (hentry : domain.globalRetired[index]? = some entry) : ReclaimMove (.next index toReclaim)
      (domain.setPc thread (.reclaim (.loadHead ⟨index, entry, toReclaim⟩)))
  | noSlots (it : Cursor π) (hhead : domain.head = none) :
      ReclaimMove (.loadHead it) (domain.setPc thread (.reclaim (.erase it)))
  | newest (it : Cursor π) (current : ℕ) (hhead : domain.head = some current) :
      ReclaimMove (.loadHead it) (domain.setPc thread (.reclaim (.testHazard it current)))
  | keep (it : Cursor π) {current : ℕ} (slot : HazardSlot π) (hslot : domain.slots[current]? = some slot)
      (hhazard : slot.hazardPtr = some it.entry.ptr) : ReclaimMove (.testHazard it current)
      (domain.setPc thread (.reclaim (.next (it.index + 1) it.toReclaim)))
  | pass (it : Cursor π) {current : ℕ} (slot : HazardSlot π) (hslot : domain.slots[current]? = some slot)
      (hhazard : slot.hazardPtr ≠ some it.entry.ptr) : ReclaimMove (.testHazard it current)
      (domain.setPc thread (.reclaim (.loadNext it current)))
  | oldest (it : Cursor π) {current : ℕ} (slot : HazardSlot π) (hslot : domain.slots[current]? = some slot)
      (hnext : slot.next = none) : ReclaimMove (.loadNext it current)
      (domain.setPc thread (.reclaim (.erase it)))
  | follow (it : Cursor π) {current : ℕ} (slot : HazardSlot π) (following : ℕ)
      (hslot : domain.slots[current]? = some slot) (hnext : slot.next = some following) :
      ReclaimMove (.loadNext it current)
      (domain.setPc thread (.reclaim (.testHazard it following)))
  | erase (it : Cursor π) : ReclaimMove (.erase it)
      ({ domain with globalRetired := domain.globalRetired.eraseIdx it.index }.setPc thread
        (.reclaim (.next it.index (it.toReclaim ++ [it.entry]))))
  | unlock (toReclaim : List (RetiredPtr π)) : ReclaimMove (.unlock toReclaim)
      ({ domain with globalRetiredMutex := none }.setPc thread (.reclaim (.callDeleters toReclaim)))
  | done : ReclaimMove (.callDeleters []) (domain.setPc thread .idle)
  | delete (entry : RetiredPtr π) (rest : List (RetiredPtr π)) :
      ReclaimMove (.callDeleters (entry :: rest))
      ({ domain with deleterCalls := domain.deleterCalls ++ [entry] }.setPc thread
        (.reclaim (.callDeleters rest)))

end

variable {domain next : Domain π} {thread : ThreadId}

theorem acquireMove_of_step {holder : HolderId} {pc : AcquirePc}
    (h : domain.acquireStep thread holder pc = some next) : AcquireMove thread domain holder pc next := by
  cases pc with
  | lock =>
    simp only [acquireStep] at h
    split at h
    · rename_i hfree
      cases h
      exact .lock hfree
    · cases h
  | loadHead =>
    cases h
    cases hhead : domain.head with
    | none => exact .noSlots hhead
    | some current => exact .newest current hhead
  | testOwner current =>
    obtain ⟨slot, hslot, rfl⟩ := Option.map_eq_some_iff.mp h
    split
    · rename_i howner
      exact .unowned slot hslot howner
    · rename_i howner
      exact .owned slot hslot howner
  | loadNext current =>
    obtain ⟨slot, hslot, rfl⟩ := Option.map_eq_some_iff.mp h
    cases hnext : slot.next with
    | none => exact .oldest slot hslot hnext
    | some following => exact .follow slot following hslot hnext
  | _ =>
    cases h
    constructor

theorem retireMove_of_step {pc : RetirePc π} (h : domain.retireStep thread pc = some next) :
    RetireMove thread domain pc next := by
  cases pc with
  | testSize =>
    cases h
    split
    · rename_i hsize
      exact .full hsize
    · rename_i hsize
      exact .finish (Nat.lt_of_not_le hsize)
  | lock =>
    simp only [retireStep] at h
    split at h
    · rename_i hfree
      cases h
      exact .lock hfree
    · cases h
  | testGlobalSize =>
    cases h
    split
    · rename_i hsize
      exact .beyond hsize
    · rename_i hsize
      exact .within (Nat.le_of_not_lt hsize)
  | append entry =>
    cases h
    exact .append entry
  | splice =>
    cases h
    exact .splice
  | unlock =>
    cases h
    exact .unlock

theorem scanMove_of_step {pc : ScanPc} (h : domain.scanStep thread pc = some next) :
    ScanMove thread domain pc next := by
  cases pc with
  | lock =>
    simp only [scanStep] at h
    split at h
    · rename_i hfree
      cases h
      exact .lock hfree
    · cases h
  | loop index count =>
    simp only [scanStep] at h
    split at h
    · rename_i hvalid
      split at h
      · rename_i hlt
        obtain ⟨owner, howner, halive⟩ := Option.bind_eq_some_iff.mp h
        split at halive
        · cases halive
        · rename_i hexited
          cases halive
          exact .splice owner hvalid hlt howner (Bool.eq_false_iff.mpr hexited)
      · rename_i hge
        cases h
        exact .finish hvalid (Nat.le_of_not_lt hge)
    · cases h
  | start =>
    cases h
    exact .start
  | unlock =>
    cases h
    exact .unlock

theorem registerMove_of_step {wrap : RegisterPc → Pc π} {update : Option (List ThreadId)} {pc : RegisterPc}
    (h : domain.registerStep thread wrap update pc = some next) : RegisterMove thread domain wrap update pc next := by
  cases pc with
  | lock =>
    simp only [registerStep] at h
    split at h
    · rename_i hfree
      cases h
      exact .lock hfree
    · cases h
  | update =>
    obtain ⟨table, htable, rfl⟩ := Option.map_eq_some_iff.mp h
    exact .update table htable
  | unlock =>
    cases h
    exact .unlock

theorem reclaimMove_of_step [DecidableEq π] {pc : ReclaimPc π} (h : domain.reclaimStep thread pc = some next) :
    ReclaimMove thread domain pc next := by
  cases pc with
  | lock =>
    simp only [reclaimStep] at h
    split at h
    · rename_i hfree
      cases h
      exact .lock hfree
    · cases h
  | next index toReclaim =>
    cases h
    cases hentry : domain.globalRetired[index]? with
    | none => exact .finish hentry
    | some entry => exact .examine entry hentry
  | loadHead it =>
    cases h
    cases hhead : domain.head with
    | none => exact .noSlots it hhead
    | some current => exact .newest it current hhead
  | testHazard it current =>
    obtain ⟨slot, hslot, rfl⟩ := Option.map_eq_some_iff.mp h
    split
    · rename_i hhazard
      exact .keep it slot hslot hhazard
    · rename_i hhazard
      exact .pass it slot hslot hhazard
  | loadNext it current =>
    obtain ⟨slot, hslot, rfl⟩ := Option.map_eq_some_iff.mp h
    cases hnext : slot.next with
    | none => exact .oldest it slot hslot hnext
    | some following => exact .follow it slot following hslot hnext
  | erase it =>
    cases h
    exact .erase it
  | unlock toReclaim =>
    cases h
    exact .unlock toReclaim
  | callDeleters toReclaim =>
    cases toReclaim with
    | nil =>
      cases h
      exact .done
    | cons entry rest =>
      cases h
      exact .delete entry rest

end TinyReactor.Hazard.Domain

namespace TinyReactor.Hazard

/-- A call is made by an idle thread. -/
theorem enter_of_call {π : Type*} [DecidableEq π] {domain next : Domain π} {thread : ThreadId} {op : Op π}
    (h : step domain (.call thread op) = some next) :
    domain.pcs thread = .idle ∧ domain.enter thread op = some next := by
  simp only [step] at h
  split at h
  · rename_i hidle
    exact ⟨hidle, h⟩
  · cases h

/-- So is an exit, and the list of the thread goes with it. -/
theorem eq_of_exit {π : Type*} [DecidableEq π] {domain next : Domain π} {thread : ThreadId}
    (h : step domain (.exit thread) = some next) :
    domain.pcs thread = .idle ∧
      next = { domain with retiredList := Function.update domain.retiredList thread [] }.setPc thread .exited := by
  simp only [step] at h
  split at h
  · rename_i hidle
    cases h
    exact ⟨hidle, rfl⟩
  · cases h

end TinyReactor.Hazard
