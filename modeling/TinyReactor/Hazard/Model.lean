import TinyReactor.Transition.Runs
import TinyReactor.Transition.ThreadTable

/-!
# Hazard pointers

`HazPtrDomain`, `HazPtrHolder` and `RetirePointer` of `src/common/include/hazard_pointer.hpp`. Every
read and write of a shared location is one step, the plain accesses to `head_` and `next_` included,
and memory is sequentially consistent; each append, splice or erase of a list is one step. A slot is
named by the order of its allocation and is never freed while the domain lives. Threads and holders
are numbered, and any of them may act.

Two things the code does are undefined: to go on with iterators into `all_thread_data_` after the vector has
changed, and to read the `thread_local` data of a thread that has exited. There is no step for either.

`deleterCalls` records the calls of deleters; no step reads it.
-/

namespace TinyReactor.Hazard

abbrev ThreadId := ℕ
abbrev HolderId := ℕ

/-- `HazardPointer<T>`. -/
structure HazardSlot (π : Type*) where
  hazardPtr : Option π := none
  owner : Option ThreadId := none
  next : Option ℕ := none
  deriving DecidableEq, Repr

/-- `RetiredPtr<T>`; a deleter is a name. -/
structure RetiredPtr (π : Type*) where
  ptr : π
  deleter : ℕ := 0
  deriving DecidableEq, Repr

variable {π : Type*}

/-! ## Program points -/

/-- `HazPtrDomain::acquire` (lines 115 to 135). -/
inductive AcquirePc
  | lock
  | loadHead
  | testOwner (current : ℕ)
  | claim (current : ℕ)
  | loadNext (current : ℕ)
  | allocate
  | readOldHead (newHp : ℕ)
  | publish (newHp : ℕ) (oldHead : Option ℕ)
  | link (newHp : ℕ) (oldHead : Option ℕ)
  | unlock (slot : ℕ)
  deriving DecidableEq, Repr

/-- `HazPtrHolder::release` with the `HazPtrDomain::release` it calls. -/
inductive ReleasePc
  | clearHazard (slot : ℕ)
  | clearOwner (slot : ℕ)
  | clearSlot
  deriving DecidableEq, Repr

/-- `it` and `to_reclaim` of `reclaim_all`: the position in `global_retired_`, the entry there, and what was
taken out so far. -/
structure Cursor (π : Type*) where
  index : ℕ
  entry : RetiredPtr π
  toReclaim : List (RetiredPtr π)
  deriving DecidableEq, Repr

/-- `reclaim_all` with the calls of `isProtected` it makes (lines 148 to 157 and 174 to 190). -/
inductive ReclaimPc (π : Type*)
  | lock
  | next (index : ℕ) (toReclaim : List (RetiredPtr π))
  | loadHead (it : Cursor π)
  | testHazard (it : Cursor π) (current : ℕ)
  | loadNext (it : Cursor π) (current : ℕ)
  | erase (it : Cursor π)
  | unlock (toReclaim : List (RetiredPtr π))
  | callDeleters (toReclaim : List (RetiredPtr π))
  deriving DecidableEq, Repr

/-- `RetirePointer` (lines 265 to 289). -/
inductive RetirePc (π : Type*)
  | append (entry : RetiredPtr π)
  | testSize
  | lock
  | splice
  | testGlobalSize
  | unlock
  deriving DecidableEq, Repr

/-- `Scan` up to its call of `reclaim_all` (lines 159 to 170). -/
inductive ScanPc
  | lock
  | start
  | loop (index count : ℕ)
  | unlock
  deriving DecidableEq, Repr

/-- `RegisterThread` and `UnregisterThread`. -/
inductive RegisterPc
  | lock
  | update
  | unlock
  deriving DecidableEq, Repr

inductive Pc (π : Type*)
  | idle
  | acquire (holder : HolderId) (pc : AcquirePc)
  | release (holder : HolderId) (pc : ReleasePc) (source : Option HolderId)
  | take (holder source : HolderId)
  | protect (slot : ℕ) (ptr : Option π)
  | retire (pc : RetirePc π)
  | scan (pc : ScanPc)
  | reclaim (pc : ReclaimPc π)
  | register (pc : RegisterPc)
  | unregister (pc : RegisterPc)
  | exited
  deriving DecidableEq, Repr

def Pc.isExited : Pc π → Bool
  | .exited => true
  | _ => false

/-- The members of the domain, `hazard_ptr_slot_` of every holder, and for every thread its
`thread_local` list and its program point. `iteratorsValid` tells whether the iterators of the thread's loop
over `all_thread_data_` may still be used. -/
structure Domain (π : Type*) where
  slots : List (HazardSlot π) := []
  head : Option ℕ := none
  listMutex : Option ThreadId := none
  globalRetired : List (RetiredPtr π) := []
  globalRetiredMutex : Option ThreadId := none
  allThreadData : List ThreadId := []
  iteratorsValid : ThreadId → Bool := fun _ ↦ false
  threadDataMutex : Option ThreadId := none
  retiredList : ThreadId → List (RetiredPtr π) := fun _ ↦ []
  holders : HolderId → Option ℕ := fun _ ↦ none
  pcs : ThreadId → Pc π := fun _ ↦ .idle
  deleterCalls : List (RetiredPtr π) := []

/-- `ThreadData::scan_threshold_`. -/
def scanThreshold : ℕ := 100

def globalThreshold : ℕ := 5000

namespace Domain

def setPc (domain : Domain π) (thread : ThreadId) (pc : Pc π) : Domain π :=
  { domain with pcs := Function.update domain.pcs thread pc }

def setSlot (domain : Domain π) (slot : ℕ) (f : HazardSlot π → HazardSlot π) : Domain π :=
  { domain with slots := domain.slots.modify slot f }

def setHolder (domain : Domain π) (holder : HolderId) (slot : Option ℕ) : Domain π :=
  { domain with holders := Function.update domain.holders holder slot }

/-- `HazPtrHolder::get`. -/
def get (domain : Domain π) (holder : HolderId) : Option π :=
  (domain.holders holder).bind fun slot ↦ domain.slots[slot]?.bind HazardSlot.hazardPtr

/-! ## Statements -/

def acquireStep (domain : Domain π) (thread : ThreadId) (holder : HolderId) : AcquirePc → Option (Domain π)
  | .lock =>
      if domain.listMutex = none then
        some ({ domain with listMutex := some thread }.setPc thread (.acquire holder .loadHead))
      else none
  | .loadHead => some (domain.setPc thread (.acquire holder (domain.head.elim .allocate .testOwner)))
  | .testOwner current =>
      domain.slots[current]?.map fun slot ↦
        domain.setPc thread (.acquire holder (if slot.owner = none then .claim current else .loadNext current))
  | .claim current =>
      some ((domain.setSlot current fun slot ↦ { slot with owner := some thread }).setPc thread
        (.acquire holder (.unlock current)))
  | .loadNext current =>
      domain.slots[current]?.map fun slot ↦
        domain.setPc thread (.acquire holder (slot.next.elim .allocate .testOwner))
  | .allocate =>
      some ({ domain with slots := domain.slots ++ [({ owner := some thread } : HazardSlot π)] }.setPc thread
        (.acquire holder (.readOldHead domain.slots.length)))
  | .readOldHead newHp => some (domain.setPc thread (.acquire holder (.publish newHp domain.head)))
  | .publish newHp oldHead =>
      some ({ domain with head := some newHp }.setPc thread (.acquire holder (.link newHp oldHead)))
  | .link newHp oldHead =>
      some ((domain.setSlot newHp fun slot ↦ { slot with next := oldHead }).setPc thread
        (.acquire holder (.unlock newHp)))
  | .unlock slot => some (({ domain with listMutex := none }.setHolder holder (some slot)).setPc thread .idle)

/-- `source` is the holder to take from after the release, in a move assignment. -/
def releaseStep (domain : Domain π) (thread : ThreadId) (holder : HolderId) (source : Option HolderId) :
    ReleasePc → Domain π
  | .clearHazard slot =>
      (domain.setSlot slot fun entry ↦ { entry with hazardPtr := none }).setPc thread
        (.release holder (.clearOwner slot) source)
  | .clearOwner slot =>
      (domain.setSlot slot fun entry ↦ { entry with owner := none }).setPc thread
        (.release holder .clearSlot source)
  | .clearSlot => (domain.setHolder holder none).setPc thread (source.elim .idle (.take holder))

def retireStep (domain : Domain π) (thread : ThreadId) : RetirePc π → Option (Domain π)
  | .append entry =>
      some ({ domain with
        retiredList := Function.update domain.retiredList thread (domain.retiredList thread ++ [entry]) }.setPc
        thread (.retire .testSize))
  | .testSize =>
      some (domain.setPc thread
        (if scanThreshold ≤ (domain.retiredList thread).length then .retire .lock else .idle))
  | .lock =>
      if domain.globalRetiredMutex = none then
        some ({ domain with globalRetiredMutex := some thread }.setPc thread (.retire .splice))
      else none
  | .splice =>
      some ({ domain with
        globalRetired := domain.globalRetired ++ domain.retiredList thread
        retiredList := Function.update domain.retiredList thread [] }.setPc thread (.retire .testGlobalSize))
  | .testGlobalSize =>
      -- `Scan` is called with `global_retired_mutex_` held, and locks it again
      some (domain.setPc thread
        (if globalThreshold < domain.globalRetired.length then .scan .lock else .retire .unlock))
  | .unlock => some ({ domain with globalRetiredMutex := none }.setPc thread .idle)

def scanStep (domain : Domain π) (thread : ThreadId) : ScanPc → Option (Domain π)
  | .lock =>
      if domain.globalRetiredMutex = none then
        some ({ domain with globalRetiredMutex := some thread }.setPc thread (.scan .start))
      else none
  | .start =>
      some ({ domain with iteratorsValid := Function.update domain.iteratorsValid thread true }.setPc thread
        (.scan (.loop 0 domain.allThreadData.length)))
  | .loop index count =>
      if domain.iteratorsValid thread then
        if index < count then
          domain.allThreadData[index]?.bind fun owner ↦
            -- the list of a thread that has exited is gone, its entry in the table is not
            if (domain.pcs owner).isExited then none
            else some ({ domain with
              globalRetired := domain.globalRetired ++ domain.retiredList owner
              retiredList := Function.update domain.retiredList owner [] }.setPc thread
              (.scan (.loop (index + 1) count)))
        else some (domain.setPc thread (.scan .unlock))
      else none
  | .unlock => some ({ domain with globalRetiredMutex := none }.setPc thread (.reclaim .lock))

def reclaimStep [DecidableEq π] (domain : Domain π) (thread : ThreadId) : ReclaimPc π → Option (Domain π)
  | .lock =>
      if domain.globalRetiredMutex = none then
        some ({ domain with globalRetiredMutex := some thread }.setPc thread (.reclaim (.next 0 [])))
      else none
  | .next index toReclaim =>
      some (domain.setPc thread (.reclaim (domain.globalRetired[index]?.elim (.unlock toReclaim)
        fun entry ↦ .loadHead ⟨index, entry, toReclaim⟩)))
  | .loadHead it => some (domain.setPc thread (.reclaim (domain.head.elim (.erase it) (.testHazard it))))
  | .testHazard it current =>
      domain.slots[current]?.map fun slot ↦
        domain.setPc thread (.reclaim
          (if slot.hazardPtr = some it.entry.ptr then .next (it.index + 1) it.toReclaim
          else .loadNext it current))
  | .loadNext it current =>
      domain.slots[current]?.map fun slot ↦
        domain.setPc thread (.reclaim (slot.next.elim (.erase it) (.testHazard it)))
  | .erase it =>
      some ({ domain with globalRetired := domain.globalRetired.eraseIdx it.index }.setPc thread
        (.reclaim (.next it.index (it.toReclaim ++ [it.entry]))))
  | .unlock toReclaim =>
      some ({ domain with globalRetiredMutex := none }.setPc thread (.reclaim (.callDeleters toReclaim)))
  | .callDeleters [] => some (domain.setPc thread .idle)
  | .callDeleters (entry :: rest) =>
      some ({ domain with deleterCalls := domain.deleterCalls ++ [entry] }.setPc thread
        (.reclaim (.callDeleters rest)))

/-- The `remove_if` of `UnregisterThread`, which reads the thread id of every entry. -/
def removeThread (domain : Domain π) (thread : ThreadId) : Option (List ThreadId) :=
  if domain.allThreadData.any fun owner ↦ (domain.pcs owner).isExited then none
  else some (domain.allThreadData.filter (· ≠ thread))

/-- `update` is what the statement between lock and unlock makes of `all_thread_data_`. Iterators do not
survive a change of the vector. -/
def registerStep (domain : Domain π) (thread : ThreadId) (wrap : RegisterPc → Pc π)
    (update : Option (List ThreadId)) : RegisterPc → Option (Domain π)
  | .lock =>
      if domain.threadDataMutex = none then
        some ({ domain with threadDataMutex := some thread }.setPc thread (wrap .update))
      else none
  | .update =>
      update.map fun table ↦ { domain with
        allThreadData := table
        iteratorsValid := if table = domain.allThreadData then domain.iteratorsValid else fun _ ↦ false }.setPc
        thread (wrap .unlock)
  | .unlock => some ({ domain with threadDataMutex := none }.setPc thread .idle)

/-- The next statement of a thread. -/
def advance [DecidableEq π] (domain : Domain π) (thread : ThreadId) : Pc π → Option (Domain π)
  | .idle | .exited => none
  | .acquire holder pc => domain.acquireStep thread holder pc
  | .release holder pc source => some (domain.releaseStep thread holder source pc)
  | .take holder source =>
      some (((domain.setHolder holder (domain.holders source)).setHolder source none).setPc thread .idle)
  | .protect slot ptr =>
      some ((domain.setSlot slot fun entry ↦ { entry with hazardPtr := ptr }).setPc thread .idle)
  | .retire pc => domain.retireStep thread pc
  | .scan pc => domain.scanStep thread pc
  | .reclaim pc => domain.reclaimStep thread pc
  | .register pc => domain.registerStep thread .register (some (domain.allThreadData ++ [thread])) pc
  | .unregister pc => domain.registerStep thread .unregister (domain.removeThread thread) pc

end Domain

/-- The calls a thread can make. The destructor of a holder is a `release`. -/
inductive Op (π : Type*)
  | construct (holder : HolderId)
  | moveConstruct (holder source : HolderId)
  | moveAssign (holder source : HolderId)
  | release (holder : HolderId)
  | protect (holder : HolderId) (ptr : Option π)
  | retirePointer (entry : RetiredPtr π)
  | scan
  | reclaimAll
  | registerThread
  | unregisterThread
  deriving DecidableEq, Repr

namespace Domain

/-- The first program point of a release, or what follows it when the holder has no slot. -/
def enterRelease (domain : Domain π) (holder : HolderId) (source : Option HolderId) : Pc π :=
  (domain.holders holder).elim (source.elim .idle (.take holder))
    fun slot ↦ .release holder (.clearHazard slot) source

/-- A call enters its function. A holder is constructed only where there is none. -/
def enter (domain : Domain π) (thread : ThreadId) : Op π → Option (Domain π)
  | .construct holder =>
      if domain.holders holder = none then some (domain.setPc thread (.acquire holder .lock)) else none
  | .moveConstruct holder source =>
      if domain.holders holder = none ∧ holder ≠ source then
        some ((domain.setHolder holder (domain.holders source)).setHolder source none)
      else none
  | .moveAssign holder source =>
      if holder = source then some domain else some (domain.setPc thread (domain.enterRelease holder (some source)))
  | .release holder => some (domain.setPc thread (domain.enterRelease holder none))
  | .protect holder ptr =>
      some (domain.setPc thread ((domain.holders holder).elim .idle fun slot ↦ .protect slot ptr))
  | .retirePointer entry => some (domain.setPc thread (.retire (.append entry)))
  | .scan => some (domain.setPc thread (.scan .lock))
  | .reclaimAll => some (domain.setPc thread (.reclaim .lock))
  | .registerThread => some (domain.setPc thread (.register .lock))
  | .unregisterThread => some (domain.setPc thread (.unregister .lock))

end Domain

inductive Action (π : Type*)
  | call (thread : ThreadId) (op : Op π)
  | step (thread : ThreadId)
  | exit (thread : ThreadId)
  deriving DecidableEq, Repr

def Action.thread : Action π → ThreadId
  | .call thread _ => thread
  | .step thread => thread
  | .exit thread => thread

/-- An idle thread may call or exit; its `thread_local` list goes with it, its entry in `all_thread_data_`
does not. -/
def step [DecidableEq π] (domain : Domain π) : Action π → Option (Domain π)
  | .call thread op =>
      match domain.pcs thread with
      | .idle => domain.enter thread op
      | _ => none
  | .step thread => domain.advance thread (domain.pcs thread)
  | .exit thread =>
      match domain.pcs thread with
      | .idle =>
          some ({ domain with retiredList := Function.update domain.retiredList thread [] }.setPc thread .exited)
      | _ => none

end TinyReactor.Hazard
