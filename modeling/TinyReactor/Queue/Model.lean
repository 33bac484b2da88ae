import TinyReactor.Hazard.Model

/-!
# The lock-free queue

`MPMCQueue` of `src/common/include/mpmc_queue.hpp` together with the hazard-pointer domain it
reclaims nodes through. Every atomic load, store and compare-exchange is one sequentially consistent
step, and a weak compare-exchange may fail although it could succeed. `TestObject` is read as
`Node<T>` and `release_hazard_pointer(h)` as `h.release()`. Node addresses are numbers in the order of
allocation and are never reused; a deleted node keeps its contents, and who touches it is a question
for the theorems.

A thread that has called into the domain runs there until the call returns; its queue program point
is the statement after the call. `linked` and `taken` record the nodes in the order of the successful
compare-exchanges of lines 59 and 115, and `history` the calls and returns; no step reads them.
-/

namespace TinyReactor.Queue

open Hazard

structure Node (α : Type*) where
  data : α
  next : Option ℕ := none
  deriving DecidableEq, Repr

/-- `enqueue` (lines 48 to 77). -/
inductive EnqueuePc (α : Type*)
  | allocate (data : α)
  | loadTail (newNode : ℕ)
  | loadNext (newNode currTail : ℕ)
  | recheckTail (newNode currTail : ℕ) (next : Option ℕ)
  | linkNode (newNode currTail : ℕ)
  | swingTail (newNode currTail : ℕ)
  | helpTail (newNode currTail next : ℕ)
  | returns
  deriving DecidableEq, Repr

/-- `dequeue` (lines 80 to 132). -/
inductive DequeuePc (α : Type*)
  | constructHead
  | constructNext
  | loadHead
  | protectHead (currHead : ℕ)
  | recheckHead (currHead : ℕ)
  | loadTail (currHead : ℕ)
  | loadNext (currHead currTail : ℕ)
  | protectNext (currHead currTail : ℕ) (next : Option ℕ)
  | recheckAgain (currHead currTail : ℕ) (next : Option ℕ)
  | helpTail (currTail next : ℕ)
  | swingHead (currHead next : ℕ)
  | readData (currHead next : ℕ)
  | releaseHead (retired : Option (ℕ × α))
  | releaseNext (retired : Option (ℕ × α))
  | retire (currHead : ℕ) (result : α)
  | returns (result : Option α)
  deriving DecidableEq, Repr

inductive Pc (α : Type*)
  | idle
  | enqueue (pc : EnqueuePc α)
  | dequeue (pc : DequeuePc α)
  deriving DecidableEq, Repr

inductive Event (α : Type*)
  | callEnqueue (thread : ThreadId) (data : α)
  | returnEnqueue (thread : ThreadId)
  | callDequeue (thread : ThreadId)
  | returnDequeue (thread : ThreadId) (result : Option α)
  deriving DecidableEq, Repr

structure System (α : Type*) where
  nodes : List (Node α)
  head : ℕ := 0
  tail : ℕ := 0
  domain : Domain ℕ := {}
  pcs : ThreadId → Pc α := fun _ ↦ .idle
  linked : List ℕ := []
  taken : List ℕ := []
  history : List (Event α) := []

/-- The constructor. The data of the dummy node are whatever default initialisation leaves. -/
def System.create {α : Type*} (dummyData : α) : System α where
  nodes := [{ data := dummyData }]

variable {α : Type*}

/-- The two holders of a thread's `dequeue`. -/
def hpHead (thread : ThreadId) : HolderId := 2 * thread

def hpNext (thread : ThreadId) : HolderId := 2 * thread + 1

namespace System

def setPc (system : System α) (thread : ThreadId) (pc : Pc α) : System α :=
  { system with pcs := Function.update system.pcs thread pc }

def record (system : System α) (event : Event α) : System α :=
  { system with history := system.history ++ [event] }

/-- `tail.compare_exchange_weak(expected, desired)`. -/
def exchangeTail (system : System α) (spurious : Bool) (expected desired : ℕ) : System α :=
  if system.tail = expected ∧ spurious = false then { system with tail := desired } else system

/-- A successful `curr_tail->next.compare_exchange_weak(next, new_node)`. -/
def link (system : System α) (newNode currTail : ℕ) : System α :=
  { system with
    nodes := system.nodes.modify currTail fun node ↦ { node with next := some newNode }
    linked := system.linked ++ [newNode] }

/-- A successful `head.compare_exchange_weak(curr_head, next)`. -/
def unlink (system : System α) (next : ℕ) : System α :=
  { system with head := next, taken := system.taken ++ [next] }

/-- A call into the domain. -/
def callDomain (system : System α) (thread : ThreadId) (op : Op ℕ) (pc : Pc α) : Option (System α) :=
  (Hazard.step system.domain (.call thread op)).map fun domain ↦
    { system with domain := domain }.setPc thread pc

def enqueueStep (system : System α) (thread : ThreadId) (spurious : Bool) : EnqueuePc α → Option (System α)
  | .allocate data =>
      some ({ system with nodes := system.nodes ++ [({ data := data } : Node α)] }.setPc thread
        (.enqueue (.loadTail system.nodes.length)))
  | .loadTail newNode => some (system.setPc thread (.enqueue (.loadNext newNode system.tail)))
  | .loadNext newNode currTail =>
      system.nodes[currTail]?.map fun node ↦
        system.setPc thread (.enqueue (.recheckTail newNode currTail node.next))
  | .recheckTail newNode currTail next =>
      some (system.setPc thread (.enqueue
        (if currTail = system.tail then next.elim (.linkNode newNode currTail) (.helpTail newNode currTail)
        else .loadTail newNode)))
  | .linkNode newNode currTail =>
      system.nodes[currTail]?.map fun node ↦
        if node.next = none ∧ spurious = false then
          (system.link newNode currTail).setPc thread (.enqueue (.swingTail newNode currTail))
        else system.setPc thread (.enqueue (.loadTail newNode))
  | .swingTail newNode currTail =>
      some ((system.exchangeTail spurious currTail newNode).setPc thread (.enqueue .returns))
  | .helpTail newNode currTail next =>
      some ((system.exchangeTail spurious currTail next).setPc thread (.enqueue (.loadTail newNode)))
  | .returns => some ((system.record (.returnEnqueue thread)).setPc thread .idle)

/-- The holders' destructors find both slots released. -/
def dequeueStep (system : System α) (thread : ThreadId) (spurious : Bool) : DequeuePc α → Option (System α)
  | .constructHead => system.callDomain thread (.construct (hpHead thread)) (.dequeue .constructNext)
  | .constructNext => system.callDomain thread (.construct (hpNext thread)) (.dequeue .loadHead)
  | .loadHead => some (system.setPc thread (.dequeue (.protectHead system.head)))
  | .protectHead currHead =>
      system.callDomain thread (.protect (hpHead thread) (some currHead)) (.dequeue (.recheckHead currHead))
  | .recheckHead currHead =>
      some (system.setPc thread (.dequeue (if currHead = system.head then .loadTail currHead else .loadHead)))
  | .loadTail currHead => some (system.setPc thread (.dequeue (.loadNext currHead system.tail)))
  | .loadNext currHead currTail =>
      system.nodes[currHead]?.map fun node ↦
        system.setPc thread (.dequeue (.protectNext currHead currTail node.next))
  | .protectNext currHead currTail next =>
      system.callDomain thread (.protect (hpNext thread) next) (.dequeue (.recheckAgain currHead currTail next))
  | .recheckAgain currHead currTail next =>
      some (system.setPc thread (.dequeue
        (if currHead = system.head then
          next.elim (.releaseHead none) fun next ↦
            if currHead = currTail then .helpTail currTail next else .swingHead currHead next
        else .loadHead)))
  | .helpTail currTail next =>
      some ((system.exchangeTail spurious currTail next).setPc thread (.dequeue .loadHead))
  | .swingHead currHead next =>
      some (if system.head = currHead ∧ spurious = false then
        (system.unlink next).setPc thread (.dequeue (.readData currHead next))
      else system.setPc thread (.dequeue .loadHead))
  | .readData currHead next =>
      system.nodes[next]?.map fun node ↦
        system.setPc thread (.dequeue (.releaseHead (some (currHead, node.data))))
  | .releaseHead retired =>
      system.callDomain thread (.release (hpHead thread)) (.dequeue (.releaseNext retired))
  | .releaseNext retired =>
      system.callDomain thread (.release (hpNext thread))
        (.dequeue (retired.elim (.returns none) fun (currHead, result) ↦ .retire currHead result))
  | .retire currHead result =>
      system.callDomain thread (.retirePointer { ptr := currHead }) (.dequeue (.returns (some result)))
  | .returns result => some ((system.record (.returnDequeue thread result)).setPc thread .idle)

/-- The next statement of a thread that is not inside the domain. -/
def advance (system : System α) (thread : ThreadId) (spurious : Bool) : Pc α → Option (System α)
  | .idle => none
  | .enqueue pc => system.enqueueStep thread spurious pc
  | .dequeue pc => system.dequeueStep thread spurious pc

end System

/-- What a program does with the domain besides using the queue. -/
inductive Maintenance
  | scan
  | reclaimAll
  | registerThread
  | unregisterThread
  deriving DecidableEq, Repr

def Maintenance.op : Maintenance → Op ℕ
  | .scan => .scan
  | .reclaimAll => .reclaimAll
  | .registerThread => .registerThread
  | .unregisterThread => .unregisterThread

/-- `spurious` makes a weak compare-exchange fail. -/
inductive Action (α : Type*)
  | enqueue (thread : ThreadId) (data : α)
  | dequeue (thread : ThreadId)
  | maintain (thread : ThreadId) (call : Maintenance)
  | step (thread : ThreadId) (spurious : Bool)
  deriving DecidableEq, Repr

def Pc.isIdle : Pc α → Bool
  | .idle => true
  | _ => false

/-- A thread calls when it is idle here and in the domain; otherwise it executes its next statement,
first those of the domain. -/
def step (system : System α) : Action α → Option (System α)
  | .enqueue thread data =>
      if (system.pcs thread).isIdle ∧ system.domain.pcs thread = .idle then
        some ((system.record (.callEnqueue thread data)).setPc thread (.enqueue (.allocate data)))
      else none
  | .dequeue thread =>
      if (system.pcs thread).isIdle ∧ system.domain.pcs thread = .idle then
        some ((system.record (.callDequeue thread)).setPc thread (.dequeue .constructHead))
      else none
  | .maintain thread call =>
      if (system.pcs thread).isIdle then
        (Hazard.step system.domain (.call thread call.op)).map fun domain ↦ { system with domain := domain }
      else none
  | .step thread spurious =>
      if system.domain.pcs thread = .idle then system.advance thread spurious (system.pcs thread)
      else
        (Hazard.step system.domain (.step thread)).map fun domain ↦ { system with domain := domain }

end TinyReactor.Queue
