import Mathlib.Data.List.Perm.Subperm
import TinyReactor.Queue.Model
import TinyReactor.Transition.Simulation

/-!
# The atomic queue

A concurrent FIFO queue whose operations take effect at one moment between call and return: a history
of calls and returns is linearizable when this system can show it. `added` and `removed` record the
values in the order in which they went in and came out.

The second system differs in one point. Its `dequeue` does not decide that it found the queue empty
when it looks, but when it returns, provided it saw the queue empty at some moment of the call. Every
history of the second system is one of the first, by a simulation that runs backwards: whether a look
at the empty queue was the moment of the operation is known at the return.
-/

namespace TinyReactor.Queue

open Hazard Transition

variable {α : Type*}

/-- What the queue knows of a thread's call. -/
inductive Call (α : Type*)
  | idle
  | enqueue (data : α)
  | enqueued
  | dequeue
  | dequeued (result : Option α)
  deriving DecidableEq, Repr

structure Fifo (α : Type*) where
  items : List α := []
  added : List α := []
  removed : List α := []
  calls : ThreadId → Call α := fun _ ↦ .idle

namespace Fifo

def setCall (fifo : Fifo α) (thread : ThreadId) (call : Call α) : Fifo α :=
  { fifo with calls := Function.update fifo.calls thread call }

@[simp] theorem calls_setCall_self (fifo : Fifo α) (thread : ThreadId) (call : Call α) :
    (fifo.setCall thread call).calls thread = call :=
  Function.update_self ..

def push (fifo : Fifo α) (data : α) : Fifo α :=
  { fifo with items := fifo.items ++ [data], added := fifo.added ++ [data] }

/-- Take `data` out and leave `rest`. -/
def pop (fifo : Fifo α) (data : α) (rest : List α) : Fifo α :=
  { fifo with items := rest, removed := fifo.removed ++ [data] }

end Fifo

/-- The steps of the atomic queue. -/
inductive AtomicStep : Fifo α → Option (Event α) → Fifo α → Prop
  | callEnqueue {fifo : Fifo α} {thread : ThreadId} (data : α) (hcall : fifo.calls thread = .idle) :
      AtomicStep fifo (some (.callEnqueue thread data)) (fifo.setCall thread (.enqueue data))
  | add {fifo : Fifo α} {thread : ThreadId} {data : α} (hcall : fifo.calls thread = .enqueue data) :
      AtomicStep fifo none ((fifo.push data).setCall thread .enqueued)
  | returnEnqueue {fifo : Fifo α} {thread : ThreadId} (hcall : fifo.calls thread = .enqueued) :
      AtomicStep fifo (some (.returnEnqueue thread)) (fifo.setCall thread .idle)
  | callDequeue {fifo : Fifo α} {thread : ThreadId} (hcall : fifo.calls thread = .idle) :
      AtomicStep fifo (some (.callDequeue thread)) (fifo.setCall thread .dequeue)
  | remove {fifo : Fifo α} {thread : ThreadId} {data : α} {rest : List α} (hcall : fifo.calls thread = .dequeue)
      (hitems : fifo.items = data :: rest) :
      AtomicStep fifo none ((fifo.pop data rest).setCall thread (.dequeued (some data)))
  | removeNothing {fifo : Fifo α} {thread : ThreadId} (hcall : fifo.calls thread = .dequeue)
      (hitems : fifo.items = []) : AtomicStep fifo none (fifo.setCall thread (.dequeued none))
  | returnDequeue {fifo : Fifo α} {thread : ThreadId} {result : Option α}
      (hcall : fifo.calls thread = .dequeued result) :
      AtomicStep fifo (some (.returnDequeue thread result)) (fifo.setCall thread .idle)

/-- A history of the atomic queue, started empty, that leaves it in the state `fifo`. -/
def Linearizes (history : List (Event α)) (fifo : Fifo α) : Prop := Exec AtomicStep {} history fifo

/-- What went in is what came out, in the same order, followed by what is left. -/
theorem added_eq_of_atomicStep {fifo next : Fifo α} {label : Option (Event α)} (h : AtomicStep fifo label next)
    (hfifo : fifo.added = fifo.removed ++ fifo.items) : next.added = next.removed ++ next.items := by
  cases h with
  | add hcall =>
    change fifo.added ++ [_] = fifo.removed ++ (fifo.items ++ [_])
    rw [hfifo, List.append_assoc]
  | remove hcall hitems =>
    change fifo.added = fifo.removed ++ [_] ++ _
    rw [hfifo, hitems, List.append_assoc, List.singleton_append]
    rfl
  | _ => exact hfifo

theorem Linearizes.added_eq {history : List (Event α)} {fifo : Fifo α} (h : Linearizes history fifo) :
    fifo.added = fifo.removed ++ fifo.items := by
  refine Exec.invariant (I := fun _ fifo ↦ fifo.added = fifo.removed ++ fifo.items) ?_ h [] rfl
  intro _ state label next hfifo hstep
  exact added_eq_of_atomicStep hstep hfifo

/-! ## What the calls return -/

/-- The value a `dequeue` returns. -/
def Event.returned? : Event α → Option α
  | .returnDequeue _ result => result
  | _ => none

/-- Every value that was removed was returned once, or belongs to one call that has still to return. -/
structure Accounts (history : List (Event α)) (fifo : Fifo α) (pending : List (ThreadId × α)) : Prop where
  removed : fifo.removed.Perm (history.filterMap Event.returned? ++ pending.map Prod.snd)
  calls : ∀ thread data, fifo.calls thread = .dequeued (some data) ↔ (thread, data) ∈ pending
  nodup : (pending.map Prod.fst).Nodup

namespace Accounts

variable {history : List (Event α)} {fifo : Fifo α} {pending pending' : List (ThreadId × α)} {thread : ThreadId}
  {label : Option (Event α)} {call call' : Call α}

/-- A step that neither removes nor returns a value. -/
theorem same {next : Fifo α} (h : Accounts history fifo pending)
    (hcall : fifo.calls thread = call) (hcalls : next.calls = Function.update fifo.calls thread call')
    (hremoved : next.removed = fifo.removed) (hlabel : label.toList.filterMap Event.returned? = [])
    (hnot : ∀ data, call ≠ .dequeued (some data)) (hnot' : ∀ data, call' ≠ .dequeued (some data)) :
    Accounts (history ++ label.toList) next pending where
  removed := by
    rw [hremoved, List.filterMap_append, hlabel, List.append_nil]
    exact h.removed
  calls := by
    rw [hcalls, Function.forall_update_iff fifo.calls (p := fun thread call ↦
      ∀ data, call = .dequeued (some data) ↔ (thread, data) ∈ pending)]
    refine ⟨fun data ↦ iff_of_false (hnot' data) fun hmem ↦ ?_, fun other _ ↦ h.calls other⟩
    exact hnot data (hcall.symm.trans ((h.calls thread data).mpr hmem))
  nodup := h.nodup

theorem remove {data : α} {rest : List α} (h : Accounts history fifo pending)
    (hcall : fifo.calls thread = .dequeue) :
    Accounts (history ++ []) ((fifo.pop data rest).setCall thread (.dequeued (some data)))
      ((thread, data) :: pending) where
  removed := by
    rw [List.append_nil, List.map_cons]
    exact ((List.perm_append_singleton data _).trans (h.removed.cons data)).trans List.perm_middle.symm
  calls := by
    change ∀ other data', Function.update fifo.calls thread _ other = _ ↔ _
    rw [Function.forall_update_iff fifo.calls (p := fun other call ↦
      ∀ data', call = .dequeued (some data') ↔ (other, data') ∈ (thread, data) :: pending)]
    refine ⟨fun data' ↦ ⟨?_, fun hmem ↦ ?_⟩, fun other hother data' ↦ ?_⟩
    · rintro ⟨⟩
      exact List.mem_cons_self
    · rcases List.mem_cons.mp hmem with heq | hold
      · cases heq
        rfl
      · cases hcall.symm.trans ((h.calls thread data').mpr hold)
    · rw [h.calls other data', List.mem_cons]
      refine ⟨.inr, fun hmem ↦ hmem.resolve_left ?_⟩
      rintro ⟨⟩
      exact hother rfl
  nodup := by
    refine List.nodup_cons.mpr ⟨fun hmem ↦ ?_, h.nodup⟩
    obtain ⟨⟨_, data'⟩, hpair, rfl⟩ := List.mem_map.mp hmem
    cases hcall.symm.trans ((h.calls _ data').mpr hpair)

theorem returnValue {data : α} (h : Accounts history fifo pending)
    (hcall : fifo.calls thread = .dequeued (some data)) :
    ∃ pending', Accounts (history ++ [.returnDequeue thread (some data)]) (fifo.setCall thread .idle) pending' := by
  obtain ⟨first, second, rfl⟩ := List.append_of_mem ((h.calls thread data).mp hcall)
  have hperm : (first ++ (thread, data) :: second).Perm ((thread, data) :: (first ++ second)) := List.perm_middle
  obtain ⟨hnot, hnodup⟩ := List.nodup_cons.mp ((hperm.map Prod.fst).nodup h.nodup)
  refine ⟨first ++ second, ?_, ?_, hnodup⟩
  · rw [List.filterMap_append, List.append_assoc]
    exact h.removed.trans ((hperm.map Prod.snd).append_left _)
  · change ∀ other data', Function.update fifo.calls thread _ other = _ ↔ _
    rw [Function.forall_update_iff fifo.calls (p := fun other call ↦
      ∀ data', call = .dequeued (some data') ↔ (other, data') ∈ first ++ second)]
    refine ⟨fun data' ↦ iff_of_false nofun fun hmem ↦ ?_, fun other hother data' ↦ ?_⟩
    · exact hnot (List.mem_map.mpr ⟨(thread, data'), hmem, rfl⟩)
    · rw [h.calls other data', hperm.mem_iff, List.mem_cons]
      refine ⟨fun hmem ↦ hmem.resolve_left ?_, .inr⟩
      rintro ⟨⟩
      exact hother rfl

theorem of_atomicStep {next : Fifo α} (h : Accounts history fifo pending) (hstep : AtomicStep fifo label next) :
    ∃ pending', Accounts (history ++ label.toList) next pending' := by
  cases hstep with
  | remove hcall hitems => exact ⟨_, h.remove hcall⟩
  | @returnDequeue thread result hcall =>
    cases result with
    | none => exact ⟨pending, h.same hcall rfl rfl rfl nofun nofun⟩
    | some data => exact h.returnValue hcall
  | callEnqueue data hcall | callDequeue hcall => exact ⟨pending, h.same hcall rfl rfl rfl nofun nofun⟩
  | add hcall | removeNothing hcall | returnEnqueue hcall =>
    exact ⟨pending, h.same hcall rfl rfl rfl nofun nofun⟩

end Accounts

theorem Linearizes.accounts {history : List (Event α)} {fifo : Fifo α} (h : Linearizes history fifo) :
    ∃ pending, Accounts history fifo pending := by
  refine Exec.invariant (I := fun history fifo ↦ ∃ pending, Accounts history fifo pending) ?_ h [] ⟨[], ?_⟩
  · rintro shown fifo label next ⟨pending, hpending⟩ hstep
    exact hpending.of_atomicStep hstep
  · exact ⟨.refl [], fun _ _ ↦ iff_of_false nofun nofun, List.nodup_nil⟩

/-- No value is returned more often than it was removed. -/
theorem Linearizes.returned_subperm {history : List (Event α)} {fifo : Fifo α} (h : Linearizes history fifo) :
    (history.filterMap Event.returned?).Subperm fifo.removed := by
  obtain ⟨pending, haccounts⟩ := h.accounts
  exact (List.sublist_append_left ..).subperm.trans haccounts.removed.symm.subperm

/-- When no call is in progress, every value removed was returned. -/
theorem Linearizes.returned_perm {history : List (Event α)} {fifo : Fifo α} (h : Linearizes history fifo)
    (hidle : ∀ thread, fifo.calls thread = .idle) : (history.filterMap Event.returned?).Perm fifo.removed := by
  obtain ⟨pending, haccounts⟩ := h.accounts
  have hnone : pending = [] := by
    refine List.eq_nil_iff_forall_not_mem.mpr fun pair hmem ↦ ?_
    cases (hidle pair.1).symm.trans ((haccounts.calls pair.1 pair.2).mpr hmem)
  have hperm := haccounts.removed.symm
  rwa [hnone, List.map_nil, List.append_nil] at hperm

/-! ## The queue that looks -/

structure Observing (α : Type*) extends Fifo α where
  sawEmpty : ThreadId → Bool := fun _ ↦ false

def Observing.see (observing : Observing α) (thread : ThreadId) (empty : Bool) : Observing α :=
  { observing with sawEmpty := Function.update observing.sawEmpty thread empty }

inductive ObservingStep : Observing α → Option (Event α) → Observing α → Prop
  | callEnqueue {observing : Observing α} {thread : ThreadId} (data : α) (hcall : observing.calls thread = .idle) :
      ObservingStep observing (some (.callEnqueue thread data))
        { observing with toFifo := observing.setCall thread (.enqueue data) }
  | add {observing : Observing α} {thread : ThreadId} {data : α} (hcall : observing.calls thread = .enqueue data) :
      ObservingStep observing none
        { observing with toFifo := (observing.push data).setCall thread .enqueued }
  | returnEnqueue {observing : Observing α} {thread : ThreadId} (hcall : observing.calls thread = .enqueued) :
      ObservingStep observing (some (.returnEnqueue thread))
        { observing with toFifo := observing.setCall thread .idle }
  | callDequeue {observing : Observing α} {thread : ThreadId} (hcall : observing.calls thread = .idle) :
      ObservingStep observing (some (.callDequeue thread))
        ({ observing with toFifo := observing.setCall thread .dequeue }.see thread false)
  | seeEmpty {observing : Observing α} {thread : ThreadId} (hcall : observing.calls thread = .dequeue)
      (hitems : observing.items = []) : ObservingStep observing none (observing.see thread true)
  | remove {observing : Observing α} {thread : ThreadId} {data : α} {rest : List α}
      (hcall : observing.calls thread = .dequeue) (hitems : observing.items = data :: rest) :
      ObservingStep observing none
        { observing with toFifo := (observing.pop data rest).setCall thread (.dequeued (some data)) }
  | returnValue {observing : Observing α} {thread : ThreadId} {data : α}
      (hcall : observing.calls thread = .dequeued (some data)) :
      ObservingStep observing (some (.returnDequeue thread (some data)))
        { observing with toFifo := observing.setCall thread .idle }
  | returnEmpty {observing : Observing α} {thread : ThreadId} (hcall : observing.calls thread = .dequeue)
      (hsaw : observing.sawEmpty thread = true) :
      ObservingStep observing (some (.returnDequeue thread none))
        { observing with toFifo := observing.setCall thread .idle }

/-- The atomic queue has the same values, and its calls are the same, except that a call that has seen
the queue empty may already have taken effect. -/
structure Decides (observing : Observing α) (fifo : Fifo α) : Prop where
  items : fifo.items = observing.items
  added : fifo.added = observing.added
  removed : fifo.removed = observing.removed
  calls : ∀ thread, fifo.calls thread = observing.calls thread ∨
    (observing.calls thread = .dequeue ∧ observing.sawEmpty thread = true ∧ fifo.calls thread = .dequeued none)

namespace Decides

variable {observing next : Observing α} {fifo : Fifo α} {thread : ThreadId} {call call' : Call α}
  {label : Option (Event α)}

/-- A thread that is not waiting for an empty answer is in the same place in both queues. -/
theorem calls_eq (h : Decides next fifo) (hcall : next.calls thread = call')
    (hnot : call' ≠ .dequeue ∨ next.sawEmpty thread = false) : fifo.calls thread = call' := by
  rcases h.calls thread with heq | ⟨hdequeue, hsaw, -⟩
  · rw [heq, hcall]
  · rcases hnot with hnot | hnot
    · exact absurd (hcall.symm.trans hdequeue) hnot
    · rw [hsaw] at hnot
      cases hnot

/-- A step of the atomic queue that leads to `fifo`, given what it does to the values and that it moves
`thread` from `call` to `call'`. -/
theorem answer (label : Option (Event α)) (h : Decides next fifo)
    (hcalls : ∀ other, other ≠ thread → next.calls other = observing.calls other)
    (hsaw : ∀ other, other ≠ thread → next.sawEmpty other = observing.sawEmpty other)
    (hcall : observing.calls thread = call ∨
      (observing.calls thread = .dequeue ∧ observing.sawEmpty thread = true ∧ call = .dequeued none))
    (hfifo : fifo.calls thread = call')
    (hstep : ∀ before : Fifo α, before.items = observing.items → before.added = observing.added →
      before.removed = observing.removed → before.calls thread = call →
      AtomicStep before label
        ⟨next.items, next.added, next.removed, Function.update before.calls thread call'⟩) :
    ∃ before, Exec AtomicStep before label.toList fifo ∧ Decides observing before := by
  have hafter : (⟨next.items, next.added, next.removed,
      Function.update (Function.update fifo.calls thread call) thread call'⟩ : Fifo α) = fifo := by
    rw [Function.update_idem, ← hfifo, Function.update_eq_self, ← h.items, ← h.added, ← h.removed]
  let before : Fifo α :=
    ⟨observing.items, observing.added, observing.removed, Function.update fifo.calls thread call⟩
  refine ⟨before, ?_, ?_⟩
  · rw [← hafter]
    exact Exec.single (hstep before rfl rfl rfl (Function.update_self ..))
  · refine ⟨rfl, rfl, rfl, ?_⟩
    rw [Function.forall_update_iff fifo.calls (p := fun other call ↦
      call = observing.calls other ∨
        (observing.calls other = .dequeue ∧ observing.sawEmpty other = true ∧ call = .dequeued none))]
    refine ⟨hcall.imp_left Eq.symm, fun other hother ↦ ?_⟩
    rw [← hcalls other hother, ← hsaw other hother]
    exact h.calls other

/-- Looking at an empty queue: either nothing happens yet, or this is the moment of the operation. -/
theorem back_seeEmpty (hcall : observing.calls thread = .dequeue) (hitems : observing.items = [])
    (h : Decides (observing.see thread true) fifo) :
    ∃ before, Exec AtomicStep before [] fifo ∧ Decides observing before := by
  have hsaw : ∀ other, other ≠ thread → (observing.see thread true).sawEmpty other = observing.sawEmpty other :=
    fun other hother ↦ Function.update_of_ne hother ..
  rcases h.calls thread with hsame | ⟨-, -, hdone⟩
  · refine ⟨fifo, .refl fifo, h.items, h.added, h.removed, fun other ↦ ?_⟩
    by_cases hother : other = thread
    · subst hother
      exact .inl hsame
    · rw [← hsaw other hother]
      exact h.calls other
  · refine h.answer none (fun _ _ ↦ rfl) hsaw (.inl hcall) hdone ?_
    rintro ⟨items, added, removed, calls⟩ rfl rfl rfl hbefore
    exact .removeNothing hbefore hitems

/-- Backwards through one step of the observing queue. -/
theorem back (hstep : ObservingStep observing label next) (h : Decides next fifo) :
    ∃ before, Exec AtomicStep before label.toList fifo ∧ Decides observing before := by
  cases hstep with
  | callEnqueue data hcall =>
    refine h.answer _ (fun _ hother ↦ Function.update_of_ne hother ..) (fun _ _ ↦ rfl) (.inl hcall)
      (h.calls_eq (Function.update_self ..) (.inl nofun)) ?_
    rintro ⟨items, added, removed, calls⟩ rfl rfl rfl hbefore
    exact .callEnqueue data hbefore
  | add hcall =>
    refine h.answer _ (fun _ hother ↦ Function.update_of_ne hother ..) (fun _ _ ↦ rfl) (.inl hcall)
      (h.calls_eq (Function.update_self ..) (.inl nofun)) ?_
    rintro ⟨items, added, removed, calls⟩ rfl rfl rfl hbefore
    exact .add hbefore
  | returnEnqueue hcall =>
    refine h.answer _ (fun _ hother ↦ Function.update_of_ne hother ..) (fun _ _ ↦ rfl) (.inl hcall)
      (h.calls_eq (Function.update_self ..) (.inl nofun)) ?_
    rintro ⟨items, added, removed, calls⟩ rfl rfl rfl hbefore
    exact .returnEnqueue hbefore
  | callDequeue hcall =>
    refine h.answer _ (fun _ hother ↦ Function.update_of_ne hother ..)
      (fun _ hother ↦ Function.update_of_ne hother ..) (.inl hcall)
      (h.calls_eq (Function.update_self ..) (.inr (Function.update_self ..))) ?_
    rintro ⟨items, added, removed, calls⟩ rfl rfl rfl hbefore
    exact .callDequeue hbefore
  | seeEmpty hcall hitems => exact back_seeEmpty hcall hitems h
  | remove hcall hitems =>
    refine h.answer _ (fun _ hother ↦ Function.update_of_ne hother ..) (fun _ _ ↦ rfl) (.inl hcall)
      (h.calls_eq (Function.update_self ..) (.inl nofun)) ?_
    rintro ⟨items, added, removed, calls⟩ rfl rfl rfl hbefore
    exact .remove hbefore hitems
  | returnValue hcall =>
    refine h.answer _ (fun _ hother ↦ Function.update_of_ne hother ..) (fun _ _ ↦ rfl) (.inl hcall)
      (h.calls_eq (Function.update_self ..) (.inl nofun)) ?_
    rintro ⟨items, added, removed, calls⟩ rfl rfl rfl hbefore
    exact .returnDequeue hbefore
  | returnEmpty hcall hsaw =>
    -- the return settles it: the operation took effect when the queue was seen empty
    refine h.answer _ (fun _ hother ↦ Function.update_of_ne hother ..) (fun _ _ ↦ rfl) (.inr ⟨hcall, hsaw, rfl⟩)
      (h.calls_eq (Function.update_self ..) (.inl nofun)) ?_
    rintro ⟨items, added, removed, calls⟩ rfl rfl rfl hbefore
    exact .returnDequeue hbefore

end Decides

theorem decides_self (observing : Observing α) : Decides observing observing.toFifo :=
  ⟨rfl, rfl, rfl, fun _ ↦ .inl rfl⟩

/-- The initial state of the observing queue matches only that of the atomic queue. -/
theorem eq_of_decides_initial {fifo : Fifo α} (h : Decides {} fifo) : fifo = {} := by
  have hcalls : fifo.calls = fun _ ↦ .idle := by
    funext thread
    rcases h.calls thread with heq | ⟨hdequeue, -, -⟩
    · exact heq
    · cases hdequeue
  obtain ⟨items, added, removed, calls⟩ := fifo
  obtain rfl : items = [] := h.items
  obtain rfl : added = [] := h.added
  obtain rfl : removed = [] := h.removed
  obtain rfl := hcalls
  rfl

/-- Every history of the observing queue is linearizable, with the same values in the same order. -/
theorem linearizes_of_observing {history : List (Event α)} {observing : Observing α}
    (h : Exec ObservingStep {} history observing) : Linearizes history observing.toFifo := by
  obtain ⟨fifo, hexec, hdecides⟩ := h.backward (R := Decides)
    (fun _ _ _ _ hdecides hstep ↦ hdecides.back hstep) (decides_self observing)
  rw [eq_of_decides_initial hdecides] at hexec
  exact hexec

end TinyReactor.Queue
