import TinyReactor.Queue.Fifo
import TinyReactor.Queue.Shape

/-!
# Linearizability

The queue is simulated by the observing queue step for step: a value is added at the compare-exchange
of line 59, removed at that of line 115, and a `dequeue` that reads a null `next` at line 93 sees the
queue empty at that moment: a node without successor is the last one, and `head`, which never falls
behind `curr_head`, is there too. All other steps are answered by none. Composed with the theorem on
the observing queue this makes every history of the queue one of the atomic queue.
-/

namespace TinyReactor.Queue

open Hazard Transition

variable {α : Type*}

/-- The data of an allocated node. -/
def System.value? (system : System α) (node : ℕ) : Option α := system.nodes[node]?.map Node.data

/-! ## The simulation relation -/

def EnqueuePc.call (system : System α) : EnqueuePc α → Option (Call α)
  | .allocate data => some (.enqueue data)
  | .loadTail newNode | .loadNext newNode _ | .recheckTail newNode _ _ | .linkNode newNode _
  | .helpTail newNode _ _ => (system.value? newNode).map .enqueue
  | .swingTail _ _ | .returns => some .enqueued

def DequeuePc.call (system : System α) : DequeuePc α → Option (Call α)
  | .readData _ next => (system.value? next).map fun data ↦ .dequeued (some data)
  | .releaseHead (some (_, data)) | .releaseNext (some (_, data)) | .retire _ data | .returns (some data) =>
      some (.dequeued (some data))
  | _ => some .dequeue

/-- What the call looks like from outside. -/
def Pc.call (system : System α) : Pc α → Option (Call α)
  | .idle => some .idle
  | .enqueue pc => pc.call system
  | .dequeue pc => pc.call system

/-- The call has read a null `next` at line 93 in this round. -/
def Pc.sawNull : Pc α → Bool
  | .dequeue (.protectNext _ _ none) | .dequeue (.recheckAgain _ _ none) | .dequeue (.releaseHead none)
  | .dequeue (.releaseNext none) | .dequeue (.returns none) => true
  | _ => false

structure Simulates (system : System α) (observing : Observing α) : Prop where
  shape : ∃ tailPlace, system.Shape tailPlace
  added : system.linked.map system.value? = observing.added.map some
  removed : system.taken.map system.value? = observing.removed.map some
  split : observing.added = observing.removed ++ observing.items
  calls : ∀ thread, (system.pcs thread).call system = some (observing.calls thread)
  sawEmpty : ∀ thread, (system.pcs thread).sawNull = true → observing.sawEmpty thread = true

theorem simulates_create (dummyData : α) : Simulates (System.create dummyData) {} where
  shape := ⟨0, System.shape_create dummyData⟩
  added := rfl
  removed := rfl
  split := rfl
  calls _ := rfl
  sawEmpty _ h := by cases h

/-- No data of a node are lost. -/
def System.Keeps (system next : System α) : Prop :=
  ∀ node data, system.value? node = some data → next.value? node = some data

theorem System.keeps_of_nodes {system next : System α} (h : next.nodes = system.nodes) : system.Keeps next := by
  intro node data hdata
  rw [value?, h]
  exact hdata

theorem System.Keeps.map {system next : System α} (h : system.Keeps next) {nodes : List ℕ} {values : List α}
    (hnodes : nodes.map system.value? = values.map some) : nodes.map next.value? = values.map some := by
  rw [← hnodes]
  refine List.map_congr_left fun node hmem ↦ ?_
  have hvalue : system.value? node ∈ values.map some := hnodes ▸ List.mem_map_of_mem hmem
  obtain ⟨data, -, hdata⟩ := List.mem_map.mp hvalue
  rw [← hdata]
  exact h node data hdata.symm

theorem EnqueuePc.call_mono {system next : System α} (h : system.Keeps next) {pc : EnqueuePc α} {call : Call α}
    (hcall : pc.call system = some call) : pc.call next = some call := by
  cases pc with
  | allocate | swingTail | returns => exact hcall
  | _ =>
    obtain ⟨data, hdata, rfl⟩ := Option.map_eq_some_iff.mp hcall
    exact Option.map_eq_some_iff.mpr ⟨data, h _ _ hdata, rfl⟩

theorem DequeuePc.call_mono {system next : System α} (h : system.Keeps next) {pc : DequeuePc α} {call : Call α}
    (hcall : pc.call system = some call) : pc.call next = some call := by
  cases pc with
  | readData =>
    obtain ⟨data, hdata, rfl⟩ := Option.map_eq_some_iff.mp hcall
    exact Option.map_eq_some_iff.mpr ⟨data, h _ _ hdata, rfl⟩
  | releaseHead result | releaseNext result | returns result => cases result <;> exact hcall
  | _ => exact hcall

theorem Pc.call_mono {system next : System α} (h : system.Keeps next) {pc : Pc α} {call : Call α}
    (hcall : pc.call system = some call) : pc.call next = some call := by
  cases pc with
  | idle => exact hcall
  | enqueue pc => exact EnqueuePc.call_mono h hcall
  | dequeue pc => exact DequeuePc.call_mono h hcall

namespace Simulates

variable {system next : System α} {observing observing' : Observing α} {thread : ThreadId} {pc' : Pc α}

/-- A step of one thread, given what it does to the list and where it leaves the thread. -/
theorem rebuild (h : Simulates system observing) (hkeeps : system.Keeps next)
    (hshape : ∃ tailPlace, next.Shape tailPlace)
    (hadded : next.linked.map next.value? = observing'.added.map some)
    (hremoved : next.taken.map next.value? = observing'.removed.map some)
    (hsplit : observing'.added = observing'.removed ++ observing'.items)
    (hpcs : next.pcs = Function.update system.pcs thread pc')
    (hcalls : ∀ other, other ≠ thread → observing'.calls other = observing.calls other)
    (hsaw : ∀ other, other ≠ thread → observing'.sawEmpty other = observing.sawEmpty other)
    (hcall : pc'.call next = some (observing'.calls thread))
    (hnull : pc'.sawNull = true → observing'.sawEmpty thread = true) : Simulates next observing' where
  shape := hshape
  added := hadded
  removed := hremoved
  split := hsplit
  calls := by
    rw [hpcs, Function.forall_update_iff system.pcs (p := fun thread pc ↦
      pc.call next = some (observing'.calls thread))]
    refine ⟨hcall, fun other hother ↦ ?_⟩
    rw [hcalls other hother]
    exact Pc.call_mono hkeeps (h.calls other)
  sawEmpty := by
    rw [hpcs, Function.forall_update_iff system.pcs (p := fun thread pc ↦
      pc.sawNull = true → observing'.sawEmpty thread = true)]
    refine ⟨hnull, fun other hother ↦ ?_⟩
    rw [hsaw other hother]
    exact h.sawEmpty other

/-- The observing queue can answer the step from `system` to `next`. -/
def Answered (system : System α) (observing : Observing α) (next : System α) : Prop :=
  ∃ events observing', next.history = system.history ++ events ∧
    Exec ObservingStep observing events observing' ∧ Simulates next observing'

/-- A step that leaves the lists and the call as they are is answered by no step. -/
theorem quiet (h : Simulates system observing) (hshape : ∃ tailPlace, next.Shape tailPlace)
    (hhistory : next.history = system.history) (hlinked : next.linked = system.linked)
    (htaken : next.taken = system.taken) (hkeeps : system.Keeps next)
    (hpcs : next.pcs = Function.update system.pcs thread pc')
    (hcall : pc'.call next = some (observing.calls thread))
    (hnull : pc'.sawNull = true → (system.pcs thread).sawNull = true) : Answered system observing next := by
  refine ⟨[], observing, by rw [hhistory, List.append_nil], .refl observing, ?_⟩
  refine h.rebuild hkeeps hshape ?_ ?_ h.split hpcs (fun _ _ ↦ rfl) (fun _ _ ↦ rfl) hcall
    (fun hpc ↦ h.sawEmpty thread (hnull hpc))
  · rw [hlinked]
    exact hkeeps.map h.added
  · rw [htaken]
    exact hkeeps.map h.removed

/-- A call or a return. -/
theorem emit (h : Simulates system observing) {event : Event α} {call : Call α} {sawEmpty : ThreadId → Bool}
    (hshape : ∃ tailPlace, ((system.record event).setPc thread pc').Shape tailPlace)
    (hstep : ObservingStep observing (some event) ⟨observing.setCall thread call, sawEmpty⟩)
    (hsaw : ∀ other, other ≠ thread → sawEmpty other = observing.sawEmpty other)
    (hcall : pc'.call system = some call) (hnull : pc'.sawNull = false) :
    Answered system observing ((system.record event).setPc thread pc') := by
  have hkeeps : system.Keeps ((system.record event).setPc thread pc') := System.keeps_of_nodes rfl
  refine ⟨[event], _, rfl, Exec.single hstep, ?_⟩
  refine h.rebuild hkeeps hshape h.added h.removed h.split rfl (fun _ hother ↦ Function.update_of_ne hother ..)
    hsaw ?_ ?_
  · rw [Pc.call_mono hkeeps hcall, Fifo.calls_setCall_self]
  · rw [hnull]
    nofun

/-! ## The three moments -/

theorem Answered.silent (hhistory : next.history = system.history) (hstep : ObservingStep observing none observing')
    (h : Simulates next observing') : Answered system observing next :=
  ⟨[], observing', by rw [hhistory, List.append_nil], Exec.single hstep, h⟩

theorem length_added (h : Simulates system observing) : observing.added.length = system.linked.length := by
  have hlength := congrArg List.length h.added
  rw [List.length_map, List.length_map] at hlength
  exact hlength.symm

theorem length_removed (h : Simulates system observing) : observing.removed.length = system.taken.length := by
  have hlength := congrArg List.length h.removed
  rw [List.length_map, List.length_map] at hlength
  exact hlength.symm

theorem items_eq_nil (h : Simulates system observing) (hend : system.linked.length ≤ system.taken.length) :
    observing.items = [] := by
  have hlength := congrArg List.length h.split
  rw [List.length_append, h.length_added, h.length_removed] at hlength
  exact List.eq_nil_of_length_eq_zero (by omega)

/-- The node after the last one taken holds the first item. -/
theorem items_eq_cons (h : Simulates system observing) {node : ℕ}
    (hnode : system.linked[system.taken.length]? = some node) :
    ∃ data rest, observing.items = data :: rest ∧ system.value? node = some data := by
  have hvalue : (observing.added.map some)[system.taken.length]? = some (system.value? node) := by
    rw [← h.added, List.getElem?_map, hnode]
    rfl
  rw [List.getElem?_map, h.split, ← h.length_removed, List.getElem?_append_right (Nat.le_refl _),
    Nat.sub_self] at hvalue
  obtain ⟨data, hdata, heq⟩ := Option.map_eq_some_iff.mp hvalue
  obtain ⟨rest, hrest⟩ := List.head?_eq_some_iff.mp (List.head?_eq_getElem? ▸ hdata)
  exact ⟨data, rest, hrest, heq.symm⟩

/-- Line 59. -/
theorem link (h : Simulates system observing) {newNode currTail : ℕ}
    (hshape : ∃ tailPlace,
      ((system.link newNode currTail).setPc thread (.enqueue (.swingTail newNode currTail))).Shape tailPlace)
    (hpc : system.pcs thread = .enqueue (.linkNode newNode currTail)) :
    Answered system observing
      ((system.link newNode currTail).setPc thread (.enqueue (.swingTail newNode currTail))) := by
  have hcall := h.calls thread
  rw [hpc] at hcall
  obtain ⟨data, hdata, hcall⟩ := Option.map_eq_some_iff.mp hcall
  have hkeeps : system.Keeps
      ((system.link newNode currTail).setPc thread (.enqueue (.swingTail newNode currTail))) := by
    intro node value hvalue
    obtain ⟨entry, hentry, rfl⟩ := Option.map_eq_some_iff.mp hvalue
    refine Option.map_eq_some_iff.mpr ⟨_, getElem?_modify_of_getElem? hentry _ currTail, ?_⟩
    split <;> rfl
  apply Answered.silent rfl (.add hcall.symm)
  refine h.rebuild hkeeps hshape ?_ (hkeeps.map h.removed) ?_ rfl (fun _ hother ↦ Function.update_of_ne hother ..)
    (fun _ _ ↦ rfl) (congrArg some (Fifo.calls_setCall_self ..).symm) nofun
  · change (system.linked ++ [newNode]).map _ = (observing.added ++ [data]).map some
    rw [List.map_append, List.map_append, hkeeps.map h.added, List.map_singleton, hkeeps newNode data hdata]
    rfl
  · change observing.added ++ [data] = observing.removed ++ (observing.items ++ [data])
    rw [h.split, List.append_assoc]

/-- Line 115. -/
theorem unlink (h : Simulates system observing) {currHead node : ℕ}
    (hshape : ∃ tailPlace, ((system.unlink node).setPc thread (.dequeue (.readData currHead node))).Shape tailPlace)
    (hpc : system.pcs thread = .dequeue (.swingHead currHead node))
    (hnode : system.linked[system.taken.length]? = some node) :
    Answered system observing ((system.unlink node).setPc thread (.dequeue (.readData currHead node))) := by
  have hcall := h.calls thread
  rw [hpc] at hcall
  obtain ⟨data, rest, hitems, hdata⟩ := h.items_eq_cons hnode
  have hkeeps : system.Keeps ((system.unlink node).setPc thread (.dequeue (.readData currHead node))) :=
    System.keeps_of_nodes rfl
  apply Answered.silent rfl (.remove (Option.some.inj hcall).symm hitems)
  refine h.rebuild hkeeps hshape (hkeeps.map h.added) ?_ ?_ rfl (fun _ hother ↦ Function.update_of_ne hother ..)
    (fun _ _ ↦ rfl) ?_ nofun
  · change (system.taken ++ [node]).map _ = (observing.removed ++ [data]).map some
    rw [List.map_append, List.map_append, hkeeps.map h.removed, List.map_singleton, hkeeps node data hdata]
    rfl
  · change observing.added = observing.removed ++ [data] ++ rest
    rw [h.split, hitems, List.append_assoc, List.singleton_append]
  · refine Option.map_eq_some_iff.mpr ⟨data, hkeeps node data hdata, ?_⟩
    exact (Fifo.calls_setCall_self ..).symm

/-- Line 93, when it reads null. -/
theorem seeEmpty (h : Simulates system observing) {currHead currTail : ℕ}
    (hshape : ∃ tailPlace,
      (system.setPc thread (.dequeue (.protectNext currHead currTail none))).Shape tailPlace)
    (hpc : system.pcs thread = .dequeue (.loadNext currHead currTail))
    (hend : system.linked.length ≤ system.taken.length) :
    Answered system observing (system.setPc thread (.dequeue (.protectNext currHead currTail none))) := by
  have hcall := h.calls thread
  rw [hpc] at hcall
  have hdequeue := (Option.some.inj hcall).symm
  apply Answered.silent rfl (.seeEmpty hdequeue (h.items_eq_nil hend))
  exact h.rebuild (System.keeps_of_nodes rfl) hshape h.added h.removed h.split rfl (fun _ _ ↦ rfl)
    (fun _ hother ↦ Function.update_of_ne hother ..) (congrArg some hdequeue.symm)
    (fun _ ↦ Function.update_self ..)

/-! ## The steps -/

/-- A step that changes no node, neither list and no call. -/
theorem move (h : Simulates system observing) (hshape : ∃ tailPlace, next.Shape tailPlace)
    (hsame : next.nodes = system.nodes ∧ next.linked = system.linked ∧ next.taken = system.taken ∧
      next.history = system.history)
    (hpcs : next.pcs = Function.update system.pcs thread pc')
    (hcall : pc'.call system = (system.pcs thread).call system)
    (hnull : pc'.sawNull = true → (system.pcs thread).sawNull = true) : Answered system observing next := by
  obtain ⟨hnodes, hlinked, htaken, hhistory⟩ := hsame
  have hkeeps := System.keeps_of_nodes hnodes
  exact h.quiet hshape hhistory hlinked htaken hkeeps hpcs (Pc.call_mono hkeeps (hcall.trans (h.calls thread))) hnull

/-- A statement that only reads. -/
theorem setPc (h : Simulates system observing) (hshape : ∃ tailPlace, (system.setPc thread pc').Shape tailPlace)
    (hcall : pc'.call system = (system.pcs thread).call system)
    (hnull : pc'.sawNull = true → (system.pcs thread).sawNull = true) :
    Answered system observing (system.setPc thread pc') :=
  h.move hshape ⟨rfl, rfl, rfl, rfl⟩ rfl hcall hnull

theorem exchangeTail_frame {spurious : Bool} {expected desired : ℕ} :
    (system.exchangeTail spurious expected desired).nodes = system.nodes ∧
      (system.exchangeTail spurious expected desired).linked = system.linked ∧
      (system.exchangeTail spurious expected desired).taken = system.taken ∧
      (system.exchangeTail spurious expected desired).history = system.history := by
  unfold System.exchangeTail
  split <;> exact ⟨rfl, rfl, rfl, rfl⟩

/-- A statement of `enqueue`. -/
theorem enqueueMove (h : Simulates system observing) {spurious : Bool} {pc : EnqueuePc α}
    (hpc : system.pcs thread = .enqueue pc) (hmove : system.EnqueueMove thread spurious pc next) :
    Answered system observing next := by
  obtain ⟨tailPlace, hbefore⟩ := h.shape
  have hshape := hmove.shape hbefore hpc
  have hcall := h.calls thread
  rw [hpc] at hcall
  cases hmove with
  | allocate data =>
    refine h.quiet hshape rfl rfl rfl ?_ rfl ?_ nofun
    · intro node value hvalue
      obtain ⟨entry, hentry, rfl⟩ := Option.map_eq_some_iff.mp hvalue
      refine Option.map_eq_some_iff.mpr ⟨entry, ?_, rfl⟩
      exact (List.getElem?_append_left (lt_length_of_getElem? hentry)).trans hentry
    · refine Eq.trans ?_ hcall
      change Option.map Call.enqueue (Option.map Node.data (system.nodes ++ [_])[system.nodes.length]?) = _
      rw [List.getElem?_concat_length]
      rfl
  | loadTail | loadNext | atEnd | behind | moved | relink => exact h.setPc hshape (hpc ▸ rfl) nofun
  | link newNode currTail node hnode hnext => exact h.link hshape hpc
  | swingTail | helpTail =>
    exact h.move hshape exchangeTail_frame (congrArg (Function.update · thread _) System.pcs_exchangeTail)
      (hpc ▸ rfl) nofun
  | returns => exact h.emit hshape (.returnEnqueue (Option.some.inj hcall).symm) (fun _ _ ↦ rfl) rfl rfl

/-- A statement of `dequeue` that calls into the domain. -/
theorem callDomain (h : Simulates system observing) {op : Op ℕ} (hstep : system.callDomain thread op pc' = some next)
    (hshape : ∃ tailPlace, next.Shape tailPlace) (hcall : pc'.call system = (system.pcs thread).call system)
    (hnull : pc'.sawNull = true → (system.pcs thread).sawNull = true) : Answered system observing next := by
  obtain ⟨domain, -, rfl⟩ := Option.map_eq_some_iff.mp hstep
  exact h.move hshape ⟨rfl, rfl, rfl, rfl⟩ rfl hcall hnull

/-- A statement of `dequeue`. -/
theorem dequeueMove (h : Simulates system observing) {spurious : Bool} {pc : DequeuePc α}
    (hpc : system.pcs thread = .dequeue pc) (hmove : system.DequeueMove thread spurious pc next) :
    Answered system observing next := by
  obtain ⟨tailPlace, hbefore⟩ := h.shape
  have hshape := hmove.shape hbefore hpc
  have hcall := h.calls thread
  have hplaced := hbefore.placed thread
  rw [hpc] at hcall hplaced
  cases hmove with
  | constructHead hcall' | constructNext hcall' => exact h.callDomain hcall' hshape (hpc ▸ rfl) nofun
  | protectHead currHead hcall' => exact h.callDomain hcall' hshape (hpc ▸ rfl) nofun
  | loadNext currHead currTail node hnode =>
    obtain ⟨place, hle, hfollows, -⟩ := hplaced
    cases hnext : node.next with
    | none =>
      have hend : system.chain.length ≤ place + 1 :=
        List.getElem?_eq_none_iff.mp ((hbefore.next_eq hfollows.1 hnode).symm.trans hnext)
      rw [hnext] at hshape
      exact h.seeEmpty hshape hpc (Nat.le_trans (Nat.le_of_succ_le_succ hend) hle)
    | some after =>
      rw [hnext] at hshape
      exact h.setPc hshape (hpc ▸ rfl) nofun
  | protectNext currHead currTail after hcall' =>
    apply h.callDomain hcall' hshape (hpc ▸ rfl)
    rw [hpc]
    cases after <;> exact id
  | empty currTail => exact h.setPc hshape (hpc ▸ rfl) (hpc ▸ id)
  | helpTail currTail after =>
    exact h.move hshape exchangeTail_frame (congrArg (Function.update · thread _) System.pcs_exchangeTail)
      (hpc ▸ rfl) nofun
  | unlink after =>
    obtain ⟨place, -, hfollows⟩ := hplaced
    obtain rfl := hbefore.place_unique hbefore.head hfollows.1
    exact h.unlink hshape hpc (hfollows.2 after rfl)
  | readData currHead after node hnode =>
    refine h.setPc hshape ?_ nofun
    rw [hpc]
    change _ = Option.map _ (Option.map Node.data system.nodes[after]?)
    rw [hnode]
    rfl
  | releaseHead retired hcall' =>
    refine h.callDomain hcall' hshape (hpc ▸ ?_) ?_
    · cases retired <;> rfl
    · rw [hpc]
      cases retired <;> exact id
  | releaseEmpty hcall' => exact h.callDomain hcall' hshape (hpc ▸ rfl) (hpc ▸ id)
  | releaseNext currHead result hcall' => exact h.callDomain hcall' hshape (hpc ▸ rfl) (hpc ▸ id)
  | retire currHead result hcall' => exact h.callDomain hcall' hshape (hpc ▸ rfl) nofun
  | returns result =>
    cases result with
    | none =>
      have hsaw := h.sawEmpty thread
      rw [hpc] at hsaw
      exact h.emit hshape (.returnEmpty (Option.some.inj hcall).symm (hsaw rfl)) (fun _ _ ↦ rfl) rfl rfl
    | some data =>
      exact h.emit hshape (.returnValue (Option.some.inj hcall).symm) (fun _ _ ↦ rfl) rfl rfl
  | _ => exact h.setPc hshape (hpc ▸ rfl) nofun

theorem setDomain (h : Simulates system observing) (domain : Domain ℕ) :
    Answered system observing { system with domain := domain } := by
  obtain ⟨tailPlace, hshape⟩ := h.shape
  have hpcs : system.pcs = Function.update system.pcs 0 (system.pcs 0) := (Function.update_eq_self ..).symm
  exact h.move ⟨tailPlace, hshape.setDomain domain⟩ ⟨rfl, rfl, rfl, rfl⟩ hpcs rfl id

end Simulates

/-- The observing queue answers every step of the queue. -/
theorem simulates_step {system next : System α} {observing : Observing α} {action : Action α}
    (h : Simulates system observing) (hstep : step system action = some next) :
    Simulates.Answered system observing next := by
  obtain ⟨tailPlace, hbefore⟩ := h.shape
  have hshape := shape_of_step hbefore hstep
  cases stepMove_of_step hstep with
  | callEnqueue thread data hidle =>
    have hcall := h.calls thread
    rw [hidle] at hcall
    exact h.emit hshape (.callEnqueue data (Option.some.inj hcall).symm) (fun _ _ ↦ rfl) rfl rfl
  | callDequeue thread hidle =>
    have hcall := h.calls thread
    rw [hidle] at hcall
    exact h.emit hshape (.callDequeue (Option.some.inj hcall).symm)
      (fun _ hother ↦ Function.update_of_ne hother ..) rfl rfl
  | enqueue thread spurious pc hpc houtside hmove => exact h.enqueueMove hpc hmove
  | dequeue thread spurious pc hpc houtside hmove => exact h.dequeueMove hpc hmove
  | maintain _ _ domain | inside _ _ domain => exact h.setDomain domain

theorem simulates_of_run {dummyData : α} {final : System α} {actions : List (Action α)}
    (hrun : run step (System.create dummyData) actions = some final) :
    ∃ observing, Exec ObservingStep {} final.history observing ∧ Simulates final observing :=
  run_forward (fun _ _ _ _ h hstep ↦ simulates_step h hstep) hrun rfl (simulates_create dummyData)

/-- Every history is linearizable. The values went in in the order in which their nodes were linked, the
values removed are the first of them, none is returned twice, and when no call is in progress each one
removed was returned. -/
theorem history_linearizes {dummyData : α} {final : System α} {actions : List (Action α)}
    (hrun : run step (System.create dummyData) actions = some final) :
    ∃ fifo, Linearizes final.history fifo ∧
      final.linked.map final.value? = fifo.added.map some ∧
      final.taken.map final.value? = fifo.removed.map some ∧
      final.linked.Nodup ∧ final.taken <+: final.linked ∧
      fifo.added = fifo.removed ++ fifo.items ∧
      (final.history.filterMap Event.returned?).Subperm fifo.removed ∧
      ((∀ thread, final.pcs thread = .idle) → (final.history.filterMap Event.returned?).Perm fifo.removed) := by
  obtain ⟨observing, hexec, h⟩ := simulates_of_run hrun
  obtain ⟨tailPlace, hshape⟩ := h.shape
  have hlinearizes := linearizes_of_observing hexec
  refine ⟨observing.toFifo, hlinearizes, h.added, h.removed, (List.nodup_cons.mp hshape.nodup).2, hshape.taken,
    hlinearizes.added_eq, hlinearizes.returned_subperm, fun hidle ↦ hlinearizes.returned_perm fun thread ↦ ?_⟩
  have hcall := h.calls thread
  rw [hidle thread] at hcall
  exact (Option.some.inj hcall).symm

/-- Thread 0 links its node and fails to move `tail`; before it returns, thread 1 helps and takes the value. -/
def overtaken : List (Action ℕ) :=
  [.enqueue 0 7] ++ List.replicate 5 (.step 0 false) ++ [.step 0 true, .dequeue 1] ++
    List.replicate 51 (.step 1 false) ++ [.step 0 false]

theorem history_linearizes_overtaken :
    ∃ final fifo, run step (System.create 0) overtaken = some final ∧
      final.history = [.callEnqueue 0 7, .callDequeue 1, .returnDequeue 1 (some 7), .returnEnqueue 0] ∧
      Linearizes final.history fifo ∧ fifo.added = fifo.removed ++ fifo.items := by
  have hrun : run step (System.create 0) overtaken = some _ := rfl
  obtain ⟨fifo, hlinearizes, -, -, -, -, hvalues, -⟩ := history_linearizes hrun
  exact ⟨_, fifo, hrun, rfl, hlinearizes, hvalues⟩

end TinyReactor.Queue
