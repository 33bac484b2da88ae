import TinyReactor.Queue.Forward
import TinyReactor.Transition.Progress

/-!
# Progress of the queue's loops

A round of `enqueue` or `dequeue` that comes to nothing was disturbed: another thread linked a node or moved
`head`, or the thread's own weak compare-exchange failed spuriously. What a thread has still to execute if nobody
disturbs it is a number of statements that its own statements lower. A tail that others move never raises it: a
round that finds `tail` elsewhere is made up for by the help that is not needed any more. The statements of a
thread are therefore bounded by what its calls cost undisturbed, once for each call and once for each disturbance,
in every run. Statements inside the reclamation domain are not counted; its mutexes do block.
-/

namespace TinyReactor.Queue

open Hazard Transition

variable {α : Type*}

/-! ## Disturbances -/

/-- The compare-exchange of line 59 would succeed. -/
def Pc.links (system : System α) : Pc α → Bool
  | .enqueue (.linkNode _ currTail) => system.next? currTail == some none
  | _ => false

/-- The compare-exchange of line 115 would succeed. -/
def Pc.unlinks (system : System α) : Pc α → Bool
  | .dequeue (.swingHead currHead _) => system.head == currHead
  | _ => false

/-- A compare-exchange after whose failure the loop goes on. -/
def Pc.exchanges : Pc α → Bool
  | .enqueue (.linkNode ..) | .enqueue (.helpTail ..) | .dequeue (.swingHead ..) | .dequeue (.helpTail ..) => true
  | _ => false

def Pc.inEnqueue : Pc α → Bool
  | .enqueue _ => true
  | _ => false

/-- The call in progress loses its round when another thread executes this compare-exchange. A call of `enqueue`
does not care about `head`. -/
def Pc.minds (system : System α) (pc : Pc α) : Pc α → Bool
  | .idle => false
  | .enqueue _ => pc.links system
  | .dequeue _ => pc.links system || pc.unlinks system

namespace System

/-- The action is a statement of the queue and `p` holds of it: of its thread, of whether a weak compare-exchange
fails spuriously, and of the program point. -/
def executes (p : ThreadId → Bool → Pc α → Bool) (system : System α) : Action α → Bool
  | .step thread spurious => decide (system.domain.pcs thread = .idle) && p thread spurious (system.pcs thread)
  | _ => false

/-- A node is linked. -/
def linksNode (system : System α) : Action α → Bool :=
  system.executes fun _ spurious pc ↦ !spurious && pc.links system

/-- `head` moves. -/
def movesHead (system : System α) : Action α → Bool :=
  system.executes fun _ spurious pc ↦ !spurious && pc.unlinks system

/-- `tail` is not the last node. -/
def lags (system : System α) : Bool := system.next? system.tail != some none

variable {system next : System α} {tailPlace : ℕ} {thread : ThreadId} {action : Action α}

/-! ## What does not disturb -/

/-- The list is as it was, except that `tail` may have caught up. -/
structure Quiet (system next : System α) : Prop where
  pointers : ∀ node pointer, system.next? node = some pointer → next.next? node = some pointer
  tail : next.tail = system.tail ∨ system.lags = true ∧ next.lags = false

theorem Shape.after_tail (h : system.Shape tailPlace) {after : ℕ}
    (hafter : system.next? system.tail = some (some after)) : system.next? after = some none := by
  have htail : system.next? system.tail = some system.chain[tailPlace + 1]? := h.next tailPlace system.tail h.tail
  have hplace : system.chain[tailPlace + 1]? = some after := Option.some.inj (htail.symm.trans hafter)
  have hend : system.chain[tailPlace + 1 + 1]? = none := by
    have hlength : system.chain.length = system.linked.length + 1 := rfl
    have hle := h.tail_le
    exact List.getElem?_eq_none (by omega)
  rw [next?, h.next (tailPlace + 1) after hplace, hend]

theorem Quiet.of_eq (hnodes : next.nodes = system.nodes) (htail : next.tail = system.tail) : system.Quiet next where
  pointers node pointer hpointer := by
    rw [next?, hnodes]
    exact hpointer
  tail := .inl htail

theorem Quiet.of_callDomain {op : Op ℕ} {pc' : Pc α} (hcall : system.callDomain thread op pc' = some next) :
    system.Quiet next := by
  obtain ⟨domain, -, rfl⟩ := Option.map_eq_some_iff.mp hcall
  exact .of_eq rfl rfl

theorem Quiet.exchangeTail (h : system.Shape tailPlace) {expected desired : ℕ}
    (hnext : system.next? expected = some (some desired)) (spurious : Bool) (pc' : Pc α) :
    system.Quiet ((system.exchangeTail spurious expected desired).setPc thread pc') := by
  unfold System.exchangeTail
  split
  · rename_i hsuccess
    obtain ⟨rfl, -⟩ := hsuccess
    refine ⟨fun _ _ hpointer ↦ hpointer, .inr ⟨?_, ?_⟩⟩
    · rw [lags, hnext]
      rfl
    · have hend := h.after_tail hnext
      change (system.next? desired != some none) = false
      rw [hend]
      rfl
  · exact .of_eq rfl rfl

theorem quiet_of_step (h : system.Shape tailPlace) (hstep : step system action = some next)
    (hlinks : system.linksNode action = false) : system.Quiet next := by
  cases stepMove_of_step hstep with
  | enqueue thread spurious pc hpc houtside hmove =>
    have hplaced := h.placed thread
    rw [hpc] at hplaced
    cases hmove with
    | allocate data =>
      refine ⟨fun node pointer hpointer ↦ ?_, .inl rfl⟩
      obtain ⟨found, hfound, -⟩ := Option.map_eq_some_iff.mp hpointer
      change (system.nodes ++ [_])[node]?.map Node.next = some pointer
      rw [List.getElem?_append_left (lt_length_of_getElem? hfound)]
      exact hpointer
    | link newNode currTail node hnode hnext hspurious =>
      simp [linksNode, executes, houtside, hpc, Pc.links, next?, hnode, hnext, hspurious] at hlinks
    | swingTail newNode currTail | helpTail newNode currTail after =>
      obtain ⟨place, hfollows⟩ := hplaced
      exact .exchangeTail h (h.next_of_follows hfollows) spurious _
    | loadTail | loadNext | atEnd | behind | moved | relink | returns => exact .of_eq rfl rfl
  | dequeue thread spurious pc hpc houtside hmove =>
    have hplaced := h.placed thread
    rw [hpc] at hplaced
    cases hmove with
    | constructHead hcall | constructNext hcall | protectHead _ hcall | protectNext _ _ _ hcall | releaseHead _ hcall
    | releaseEmpty hcall | releaseNext _ _ hcall | retire _ _ hcall => exact .of_callDomain hcall
    | helpTail currTail after =>
      obtain ⟨place, hfollows⟩ := hplaced
      exact .exchangeTail h (h.next_of_follows hfollows) spurious _
    | loadHead | confirmed | moved | loadTail | loadNext | empty | behind | ready | movedAgain | unlink | retry
    | readData | returns => exact .of_eq rfl rfl
  | callEnqueue | callDequeue | maintain | inside => exact .of_eq rfl rfl

theorem head_of_step (hstep : step system action = some next) (hmoves : system.movesHead action = false) :
    next.head = system.head := by
  have hexchange (spurious : Bool) (expected desired : ℕ) :
      (system.exchangeTail spurious expected desired).head = system.head := by
    unfold System.exchangeTail
    split <;> rfl
  cases stepMove_of_step hstep with
  | enqueue thread spurious pc hpc houtside hmove =>
    cases hmove with
    | swingTail | helpTail => exact hexchange ..
    | _ => rfl
  | dequeue thread spurious pc hpc houtside hmove =>
    cases hmove with
    | constructHead hcall | constructNext hcall | protectHead _ hcall | protectNext _ _ _ hcall | releaseHead _ hcall
    | releaseEmpty hcall | releaseNext _ _ hcall | retire _ _ hcall =>
      obtain ⟨domain, -, rfl⟩ := Option.map_eq_some_iff.mp hcall
      rfl
    | helpTail => exact hexchange ..
    | unlink after hspurious =>
      simp [movesHead, executes, houtside, hpc, Pc.unlinks, hspurious] at hmoves
    | _ => rfl
  | callEnqueue | callDequeue | maintain | inside => rfl

theorem Quiet.lags_eq (h : system.Quiet next) (hshape : system.Shape tailPlace) :
    next.tail = system.tail ∧ next.lags = system.lags ∨ system.lags = true ∧ next.lags = false := by
  rcases h.tail with htail | hcaught
  · have hpointer : system.next? system.tail = some system.chain[tailPlace + 1]? :=
      hshape.next tailPlace system.tail hshape.tail
    refine .inl ⟨htail, ?_⟩
    rw [lags, lags, htail, hpointer, h.pointers _ _ hpointer]
  · exact .inr hcaught

/-! ## What is left to do -/

/-- The statements of `enqueue` from the top of its loop; a round of four is spent on a tail that lags. -/
def enqueueRound (system : System α) : ℕ := if system.lags then 10 else 6

/-- The statements of `dequeue` from the top of its loop, with a round of eight for a tail that lags. -/
def dequeueRound (system : System α) : ℕ := if system.lags then 21 else 13

end System

/-- The statements that `enqueue` has still to execute if nobody disturbs it. -/
def EnqueuePc.left (system : System α) : EnqueuePc α → ℕ
  | .allocate _ => system.enqueueRound + 1
  | .loadTail _ => system.enqueueRound
  | .loadNext _ currTail => if currTail = system.tail then system.enqueueRound - 1 else system.enqueueRound + 2
  | .recheckTail _ currTail next =>
      if currTail = system.tail then
        if next = none ∧ system.lags = true then system.enqueueRound + 2 else system.enqueueRound - 2
      else system.enqueueRound + 1
  | .linkNode _ currTail => if system.next? currTail = some none then 3 else system.enqueueRound + 1
  | .swingTail _ _ => 2
  | .helpTail _ currTail _ => if currTail = system.tail then 7 else system.enqueueRound + 1
  | .returns => 1

/-- The statements that `dequeue` has still to execute outside the domain if nobody disturbs it. -/
def DequeuePc.left (system : System α) : DequeuePc α → ℕ
  | .constructHead => system.dequeueRound + 2
  | .constructNext => system.dequeueRound + 1
  | .loadHead => system.dequeueRound
  | .protectHead currHead => if currHead = system.head then system.dequeueRound - 1 else system.dequeueRound + 2
  | .recheckHead currHead => if currHead = system.head then system.dequeueRound - 2 else system.dequeueRound + 1
  | .loadTail currHead => if currHead = system.head then system.dequeueRound - 3 else system.dequeueRound + 4
  | .loadNext currHead currTail =>
      if currHead = system.head then
        if currTail = currHead ∧ system.tail ≠ currHead then system.dequeueRound + 4 else system.dequeueRound - 4
      else system.dequeueRound + 3
  | .protectNext currHead currTail next =>
      if currHead = system.head then
        if next = none then 5
        else if currTail ≠ currHead then 8 else if system.tail = currHead then 16 else system.dequeueRound + 3
      else system.dequeueRound + 2
  | .recheckAgain currHead currTail next =>
      if currHead = system.head then
        if next = none then 4
        else if currTail ≠ currHead then 7 else if system.tail = currHead then 15 else system.dequeueRound + 2
      else system.dequeueRound + 1
  | .helpTail currTail _ => if system.tail = currTail then 14 else system.dequeueRound + 1
  | .swingHead currHead _ => if currHead = system.head then 6 else system.dequeueRound + 1
  | .readData _ _ => 5
  | .releaseHead retired => if retired = none then 3 else 4
  | .releaseNext retired => if retired = none then 2 else 3
  | .retire _ _ => 2
  | .returns _ => 1

def Pc.left (system : System α) : Pc α → ℕ
  | .idle => 0
  | .enqueue pc => pc.left system
  | .dequeue pc => pc.left system

namespace System

variable {system next : System α} {tailPlace : ℕ} {thread : ThreadId} {action : Action α}

theorem enqueueRound_eq (system : System α) :
    system.enqueueRound = 10 ∧ system.lags = true ∨ system.enqueueRound = 6 ∧ system.lags = false := by
  rw [enqueueRound]
  cases system.lags <;> simp

theorem dequeueRound_eq (system : System α) :
    system.dequeueRound = 21 ∧ system.lags = true ∨ system.dequeueRound = 13 ∧ system.lags = false := by
  rw [dequeueRound]
  cases system.lags <;> simp

/-- A call that is under way has something left to do. -/
theorem left_bounds (system : System α) {pc : Pc α} (h : pc ≠ .idle) : 0 < pc.left system ∧ pc.left system ≤ 25 := by
  cases pc with
  | idle => exact absurd rfl h
  | enqueue pc =>
    have hround := system.enqueueRound_eq
    cases pc <;> simp only [Pc.left, EnqueuePc.left] <;> (repeat' split) <;> omega
  | dequeue pc =>
    have hround := system.dequeueRound_eq
    cases pc <;> simp only [Pc.left, DequeuePc.left] <;> (repeat' split) <;> omega

theorem left_le (system : System α) (pc : Pc α) : pc.left system ≤ 25 := by
  by_cases h : pc = .idle
  · subst h
    exact Nat.zero_le _
  · exact (system.left_bounds h).2

/-! ## Steps of the others -/

theorem Quiet.enqueueLeft_le (h : system.Quiet next) (hshape : system.Shape tailPlace) {pc : EnqueuePc α}
    (hplaced : pc.Placed system tailPlace) : pc.left next ≤ pc.left system := by
  rcases h.lags_eq hshape with ⟨htail, hlags⟩ | ⟨hlags, hlags'⟩
  · have hround : next.enqueueRound = system.enqueueRound := by rw [enqueueRound, enqueueRound, hlags]
    cases pc with
    | linkNode newNode currTail =>
      obtain ⟨place, -, hfollows⟩ := hplaced
      have hpointer : system.next? currTail = some system.chain[place + 1]? := hshape.next place currTail hfollows.1
      simp only [EnqueuePc.left, hround, hpointer, h.pointers _ _ hpointer, Nat.le_refl]
    | _ => simp only [EnqueuePc.left, hround, htail, hlags, Nat.le_refl]
  · have hround : system.enqueueRound = 10 := if_pos hlags
    have hround' : next.enqueueRound = 6 := if_neg (by rw [hlags']; exact Bool.false_ne_true)
    cases pc with
    | linkNode newNode currTail =>
      obtain ⟨place, -, hfollows⟩ := hplaced
      have hpointer : system.next? currTail = some system.chain[place + 1]? := hshape.next place currTail hfollows.1
      simp only [EnqueuePc.left, hround, hround', hpointer, h.pointers _ _ hpointer]
      split <;> omega
    | _ =>
      simp only [EnqueuePc.left, hround, hround', hlags, hlags', and_true, Bool.false_eq_true, and_false, if_false]
      (repeat' split) <;> omega

theorem Quiet.dequeueLeft_le (h : system.Quiet next) (hshape : system.Shape tailPlace) (hhead : next.head = system.head)
    (pc : DequeuePc α) : pc.left next ≤ pc.left system := by
  rcases h.lags_eq hshape with ⟨htail, hlags⟩ | ⟨hlags, hlags'⟩
  · have hround : next.dequeueRound = system.dequeueRound := by rw [dequeueRound, dequeueRound, hlags]
    cases pc <;> simp only [DequeuePc.left, hround, htail, hhead, Nat.le_refl]
  · have hround : system.dequeueRound = 21 := if_pos hlags
    have hround' : next.dequeueRound = 13 := if_neg (by rw [hlags']; exact Bool.false_ne_true)
    cases pc <;> simp only [DequeuePc.left, hround, hround', hhead] <;> (repeat' split) <;> omega

/-! ## Steps of the thread -/

theorem lags_of_next {after : ℕ} (hafter : system.next? system.tail = some (some after)) : system.lags = true := by
  rw [lags, hafter]
  rfl

/-- A tail that is moved has caught up. -/
theorem Shape.exchangeTail_lags (h : system.Shape tailPlace) {after : ℕ}
    (hafter : system.next? system.tail = some (some after)) :
    (system.exchangeTail false system.tail after).lags = false := by
  have hsuccess : system.exchangeTail false system.tail after = { system with tail := after } := if_pos ⟨rfl, rfl⟩
  rw [hsuccess]
  change (system.next? after != some none) = false
  rw [h.after_tail hafter]
  rfl

theorem pcs_setPc (system : System α) (thread : ThreadId) (pc : Pc α) : (system.setPc thread pc).pcs thread = pc :=
  Function.update_self ..

theorem left_setPc (system : System α) (thread : ThreadId) (pc' : Pc α) (pc : Pc α) :
    pc.left (system.setPc thread pc') = pc.left system := by
  cases pc with
  | idle => rfl
  | enqueue pc | dequeue pc => cases pc <;> rfl

theorem left_setDomain (system : System α) (domain : Domain ℕ) (pc : Pc α) :
    pc.left { system with domain := domain } = pc.left system := by
  cases pc with
  | idle => rfl
  | enqueue pc | dequeue pc => cases pc <;> rfl

/-- A statement of `enqueue` brings it closer to its end, unless a compare-exchange fails spuriously. -/
theorem EnqueueMove.left_lt {spurious : Bool} {pc : EnqueuePc α} (hmove : system.EnqueueMove thread spurious pc next)
    (h : system.Shape tailPlace) (hpc : system.pcs thread = .enqueue pc)
    (hstrong : (Pc.enqueue pc).exchanges = true → spurious = false) :
    (next.pcs thread).left next + 1 ≤ pc.left system := by
  have hplaced := h.placed thread
  rw [hpc] at hplaced
  have hround := system.enqueueRound_eq
  cases hmove with
  | allocate data =>
    obtain ⟨node, hnode, -⟩ := h.allocated h.tail
    have hsame : System.lags { system with nodes := system.nodes ++ [({ data := data } : Node α)] } = system.lags := by
      simp only [lags, next?, List.getElem?_append_left (lt_length_of_getElem? hnode)]
    rw [pcs_setPc, left_setPc]
    simp only [Pc.left, EnqueuePc.left, enqueueRound, hsame, Nat.le_refl]
  | loadTail newNode =>
    rw [pcs_setPc, left_setPc]
    simp only [Pc.left, EnqueuePc.left, if_true]
    omega
  | loadNext newNode currTail node hnode =>
    rw [pcs_setPc, left_setPc]
    simp only [Pc.left, EnqueuePc.left]
    split
    · rename_i hcurr
      subst hcurr
      have hlags : ¬(node.next = none ∧ system.lags = true) := by
        rintro ⟨hnull, hlags⟩
        simp [lags, next?, hnode, hnull] at hlags
      rw [if_neg hlags]
      omega
    · omega
  | atEnd newNode =>
    rw [pcs_setPc, left_setPc]
    simp only [Pc.left, EnqueuePc.left, if_true, true_and]
    rcases hround with ⟨hround, hlags⟩ | ⟨hround, hlags⟩
    · rw [hlags, hround]
      split <;> decide
    · have hnull : system.next? system.tail = some none := by simpa [lags] using hlags
      rw [hlags, hround, if_pos hnull]
      decide
  | behind newNode after =>
    obtain ⟨place, -, hfollows⟩ := hplaced
    have hten : system.enqueueRound = 10 := if_pos (lags_of_next (h.next_of_follows hfollows))
    rw [pcs_setPc, left_setPc]
    simp [Pc.left, EnqueuePc.left, hten]
  | moved newNode currTail after hmoved =>
    rw [pcs_setPc, left_setPc]
    simp only [Pc.left, EnqueuePc.left, if_neg hmoved, Nat.le_refl]
  | link newNode currTail node hnode hnext hspurious =>
    have hnull : system.next? currTail = some none := by rw [next?, hnode, Option.map_some, hnext]
    rw [pcs_setPc, left_setPc]
    simp only [Pc.left, EnqueuePc.left, if_pos hnull, Nat.le_refl]
  | relink newNode currTail node hnode hfails =>
    have hnull : system.next? currTail ≠ some none := by
      rw [next?, hnode, Option.map_some]
      exact fun hnull ↦ hfails ⟨Option.some.inj hnull, hstrong rfl⟩
    rw [pcs_setPc, left_setPc]
    simp only [Pc.left, EnqueuePc.left, if_neg hnull, Nat.le_refl]
  | swingTail newNode currTail =>
    rw [pcs_setPc, left_setPc]
    exact Nat.le_refl _
  | helpTail newNode currTail after =>
    obtain rfl := hstrong rfl
    obtain ⟨place, hfollows⟩ := hplaced
    have hafter := h.next_of_follows hfollows
    rw [pcs_setPc, left_setPc]
    by_cases hcurr : currTail = system.tail
    · subst hcurr
      have hsix : (system.exchangeTail false system.tail after).enqueueRound = 6 :=
        if_neg (by rw [h.exchangeTail_lags hafter]; exact Bool.false_ne_true)
      simp only [Pc.left, EnqueuePc.left, if_true, hsix, Nat.le_refl]
    · have hfails : system.exchangeTail false currTail after = system := if_neg fun hsuccess ↦ hcurr hsuccess.1.symm
      simp only [Pc.left, EnqueuePc.left, if_neg hcurr, hfails, Nat.le_refl]
  | returns =>
    rw [pcs_setPc]
    exact Nat.le_refl _

theorem left_callDomain {op : Op ℕ} {pc' : Pc α} (hcall : system.callDomain thread op pc' = some next) :
    (next.pcs thread).left next = pc'.left system := by
  obtain ⟨domain, -, rfl⟩ := Option.map_eq_some_iff.mp hcall
  rw [pcs_setPc, left_setPc, left_setDomain]

/-- A statement of `dequeue` brings it closer to its end, unless a compare-exchange fails spuriously. -/
theorem DequeueMove.left_lt {spurious : Bool} {pc : DequeuePc α} (hmove : system.DequeueMove thread spurious pc next)
    (h : system.Shape tailPlace) (hpc : system.pcs thread = .dequeue pc)
    (hstrong : (Pc.dequeue pc).exchanges = true → spurious = false) :
    (next.pcs thread).left next + 1 ≤ pc.left system := by
  have hplaced := h.placed thread
  rw [hpc] at hplaced
  have hround := system.dequeueRound_eq
  cases hmove with
  | constructHead hcall | constructNext hcall =>
    rw [left_callDomain hcall]
    exact Nat.le_refl _
  | loadHead =>
    rw [pcs_setPc, left_setPc]
    simp only [Pc.left, DequeuePc.left, if_true]
    omega
  | protectHead currHead hcall =>
    rw [left_callDomain hcall]
    simp only [Pc.left, DequeuePc.left]
    split <;> omega
  | confirmed =>
    rw [pcs_setPc, left_setPc]
    simp only [Pc.left, DequeuePc.left, if_true]
    omega
  | moved currHead hhead =>
    rw [pcs_setPc, left_setPc]
    simp only [Pc.left, DequeuePc.left, if_neg hhead, Nat.le_refl]
  | loadTail currHead =>
    rw [pcs_setPc, left_setPc]
    simp only [Pc.left, DequeuePc.left]
    split
    · rw [if_neg fun hboth ↦ hboth.2 hboth.1]
      omega
    · omega
  | loadNext currHead currTail node hnode =>
    rw [pcs_setPc, left_setPc]
    simp only [Pc.left, DequeuePc.left]
    have hlags : node.next ≠ none → system.tail = currHead → system.lags = true := by
      rintro hnext rfl
      simpa [lags, next?, hnode] using hnext
    (repeat' split) <;> simp_all <;> omega
  | protectNext currHead currTail after hcall =>
    rw [left_callDomain hcall]
    simp only [Pc.left, DequeuePc.left]
    (repeat' split) <;> omega
  | empty currTail =>
    rw [pcs_setPc, left_setPc]
    simp [Pc.left, DequeuePc.left]
  | behind after =>
    rw [pcs_setPc, left_setPc]
    simp only [Pc.left, DequeuePc.left]
    (repeat' split) <;> simp_all
  | ready currTail after htail =>
    rw [pcs_setPc, left_setPc]
    simp [Pc.left, DequeuePc.left, Ne.symm htail]
  | movedAgain currHead currTail after hhead =>
    rw [pcs_setPc, left_setPc]
    simp only [Pc.left, DequeuePc.left, if_neg hhead, Nat.le_refl]
  | helpTail currTail after =>
    obtain rfl := hstrong rfl
    obtain ⟨place, hfollows⟩ := hplaced
    have hafter := h.next_of_follows hfollows
    rw [pcs_setPc, left_setPc]
    by_cases hcurr : system.tail = currTail
    · subst hcurr
      have hthirteen : (system.exchangeTail false system.tail after).dequeueRound = 13 :=
        if_neg (by rw [h.exchangeTail_lags hafter]; exact Bool.false_ne_true)
      simp only [Pc.left, DequeuePc.left, if_true, hthirteen, Nat.le_refl]
    · have hfails : system.exchangeTail false currTail after = system := if_neg fun hsuccess ↦ hcurr hsuccess.1
      simp only [Pc.left, DequeuePc.left, if_neg hcurr, hfails, Nat.le_refl]
  | unlink after hspurious =>
    rw [pcs_setPc, left_setPc]
    simp [Pc.left, DequeuePc.left]
  | retry currHead after hfails =>
    have hhead : currHead ≠ system.head := fun hhead ↦ hfails ⟨hhead.symm, hstrong rfl⟩
    rw [pcs_setPc, left_setPc]
    simp only [Pc.left, DequeuePc.left, if_neg hhead, Nat.le_refl]
  | readData currHead after node hnode =>
    rw [pcs_setPc, left_setPc]
    exact Nat.le_refl _
  | releaseHead retired hcall =>
    rw [left_callDomain hcall]
    simp only [Pc.left, DequeuePc.left]
    split <;> omega
  | releaseEmpty hcall =>
    rw [left_callDomain hcall]
    exact Nat.le_refl _
  | releaseNext currHead result hcall =>
    rw [left_callDomain hcall]
    exact Nat.le_refl _
  | retire currHead result hcall =>
    rw [left_callDomain hcall]
    exact Nat.le_refl _
  | returns result =>
    rw [pcs_setPc]
    exact Nat.le_refl _

/-! ## No `enqueue` waits -/

/-- A thread inside `enqueue` is not inside the domain. -/
def Outside (system : System α) : Prop :=
  ∀ thread, (system.pcs thread).inEnqueue = true → system.domain.pcs thread = .idle

theorem DequeueMove.inEnqueue_eq {spurious : Bool} {pc : DequeuePc α}
    (hmove : system.DequeueMove thread spurious pc next) : (next.pcs thread).inEnqueue = false := by
  cases hmove with
  | constructHead hcall | constructNext hcall | protectHead _ hcall | protectNext _ _ _ hcall | releaseHead _ hcall
  | releaseEmpty hcall | releaseNext _ _ hcall | retire _ _ hcall =>
    obtain ⟨domain, -, rfl⟩ := Option.map_eq_some_iff.mp hcall
    rw [pcs_setPc]
    rfl
  | _ =>
    rw [pcs_setPc]
    rfl

theorem Outside.step (h : system.Outside) (hshape : system.Shape tailPlace) (hstep : step system action = some next) :
    next.Outside := by
  intro thread hinside
  by_cases hthread : thread = action.thread
  · subst hthread
    cases stepMove_of_step hstep with
    | callEnqueue thread data hidle houtside | callDequeue thread hidle houtside => exact houtside
    | maintain thread call domain hidle => cases hidle ▸ hinside
    | enqueue thread spurious pc hpc houtside hmove =>
      rw [hmove.domain_eq]
      exact houtside
    | dequeue thread spurious pc hpc houtside hmove => cases hmove.inEnqueue_eq.symm.trans hinside
    | inside thread spurious domain hnot => exact absurd (h thread hinside) hnot
  · rw [pcs_of_step hshape hstep hthread] at hinside
    have hidle := h thread hinside
    cases step_involves hstep with
    | nothing hdomain =>
      rw [hdomain]
      exact hidle
    | call call hcall halive hdomain =>
      have hexits : ExitsEmpty system.domain call := by
        cases call with
        | exit other => exact absurd rfl (halive other)
        | _ => trivial
      obtain ⟨pc', hpcs, -⟩ := step_entryMove hexits hdomain
      rw [hpcs, hcall, Function.update_of_ne hthread]
      exact hidle

/-- A thread inside `enqueue` can always execute its next statement. -/
theorem Outside.enabled (houtside : system.Outside) (h : system.Shape tailPlace) {pc : EnqueuePc α}
    (hpc : system.pcs thread = .enqueue pc) (spurious : Bool) :
    (Queue.step system (.step thread spurious)).isSome = true := by
  have hidle := houtside thread (by rw [hpc]; rfl)
  have hplaced := h.placed thread
  rw [hpc] at hplaced
  simp only [Queue.step, hidle, if_true, hpc, System.advance]
  cases pc with
  | loadNext newNode currTail | linkNode newNode currTail =>
    obtain ⟨place, -, hfollows⟩ := hplaced
    obtain ⟨node, hnode, -⟩ := h.allocated hfollows.1
    simp only [System.enqueueStep, hnode, Option.map_some, Option.isSome_some]
  | _ => rfl

end System

/-! ## Runs -/

variable {system next : System α} {tailPlace : ℕ} {thread : ThreadId} {action : Action α}

/-- A statement of the queue that the thread executes. -/
def executesOwn (thread : ThreadId) (system : System α) : Action α → Bool :=
  system.executes fun mover _ _ ↦ mover == thread

/-- A call of the thread, a spurious failure of one of its compare-exchanges, or a compare-exchange of another
thread that costs its call in progress a round. -/
def hinders (thread : ThreadId) (system : System α) : Action α → Bool
  | .enqueue caller _ => caller == thread
  | .dequeue caller => caller == thread
  | action => system.executes (fun mover spurious pc ↦
      if mover = thread then spurious && pc.exchanges else !spurious && pc.minds system (system.pcs thread)) action

/-- What an undisturbed step of the thread itself does to what it has left to do. -/
theorem left_of_own (h : system.Shape tailPlace) (hstep : step system action = some next)
    (hfair : hinders action.thread system action = false) :
    (next.pcs action.thread).left next + (executesOwn action.thread system action).toNat ≤
      (system.pcs action.thread).left system := by
  cases stepMove_of_step hstep with
  | callEnqueue thread data | callDequeue thread => simp [hinders, Action.thread] at hfair
  | maintain thread call domain =>
    rw [System.left_setDomain]
    exact Nat.le_refl _
  | inside thread spurious domain hinside =>
    rw [System.left_setDomain]
    simp [executesOwn, System.executes, hinside]
  | enqueue thread spurious pc hpc houtside hmove =>
    have hstrong : (Pc.enqueue pc).exchanges = true → spurious = false := by
      simpa [hinders, System.executes, Action.thread, houtside, hpc, or_comm, Decidable.imp_iff_not_or] using hfair
    have hless := hmove.left_lt h hpc hstrong
    rw [Action.thread, hpc]
    exact Nat.le_trans (Nat.add_le_add_left (Bool.toNat_le _) _) hless
  | dequeue thread spurious pc hpc houtside hmove =>
    have hstrong : (Pc.dequeue pc).exchanges = true → spurious = false := by
      simpa [hinders, System.executes, Action.thread, houtside, hpc, or_comm, Decidable.imp_iff_not_or] using hfair
    have hless := hmove.left_lt h hpc hstrong
    rw [Action.thread, hpc]
    exact Nat.le_trans (Nat.add_le_add_left (Bool.toNat_le _) _) hless

/-- Nor do undisturbing steps of the others give the thread more to do. -/
theorem left_of_other (h : system.Shape tailPlace) (hstep : step system action = some next)
    (hthread : thread ≠ action.thread) (hfair : hinders thread system action = false) :
    (next.pcs thread).left next ≤ (system.pcs thread).left system := by
  have hplaced := h.placed thread
  rw [pcs_of_step h hstep hthread]
  cases hpc : system.pcs thread with
  | idle => exact Nat.le_refl _
  | enqueue pc =>
    have hlinks : system.linksNode action = false := by
      cases action with
      | step mover spurious =>
        have hne : mover ≠ thread := fun heq ↦ hthread heq.symm
        simpa [hinders, System.executes, hne, hpc, Pc.minds, System.linksNode] using hfair
      | _ => rfl
    rw [hpc] at hplaced
    exact (System.quiet_of_step h hstep hlinks).enqueueLeft_le h hplaced
  | dequeue pc =>
    have hboth : system.linksNode action = false ∧ system.movesHead action = false := by
      cases action with
      | step mover spurious =>
        have hne : mover ≠ thread := fun heq ↦ hthread heq.symm
        have hnone : system.domain.pcs mover = .idle → spurious = false →
            (system.pcs mover).links system = false ∧ (system.pcs mover).unlinks system = false := by
          simpa [hinders, System.executes, hne, hpc, Pc.minds] using hfair
        constructor
        · simpa [System.linksNode, System.executes] using fun hidle hspurious ↦ (hnone hidle hspurious).1
        · simpa [System.movesHead, System.executes] using fun hidle hspurious ↦ (hnone hidle hspurious).2
      | _ => exact ⟨rfl, rfl⟩
    exact (System.quiet_of_step h hstep hboth.1).dequeueLeft_le h (System.head_of_step hstep hboth.2) pc

theorem left_of_step (h : system.Shape tailPlace) (hstep : step system action = some next) :
    (next.pcs thread).left next + (executesOwn thread system action).toNat ≤
      (system.pcs thread).left system + 25 * (hinders thread system action).toNat := by
  have hown : thread ≠ action.thread → executesOwn thread system action = false := by
    intro hthread
    cases action with
    | step mover spurious =>
      have hne : mover ≠ thread := fun heq ↦ hthread heq.symm
      simp [executesOwn, System.executes, hne]
    | _ => rfl
  cases hfair : hinders thread system action with
  | false =>
    rw [Bool.toNat_false, Nat.mul_zero, Nat.add_zero]
    by_cases hthread : thread = action.thread
    · subst hthread
      exact left_of_own h hstep hfair
    · rw [hown hthread]
      exact left_of_other h hstep hthread hfair
  | true =>
    have hle := System.left_le next (next.pcs thread)
    -- a thread that executes a statement had at least that one left
    have hpos : (executesOwn thread system action).toNat ≤ (system.pcs thread).left system := by
      cases hexecutes : executesOwn thread system action with
      | false => exact Nat.zero_le _
      | true =>
        apply (System.left_bounds _ ?_).1
        intro hidle
        by_cases hthread : thread = action.thread
        · subst hthread
          cases stepMove_of_step hstep with
          | callEnqueue | callDequeue | maintain => cases hexecutes
          | enqueue thread spurious pc hpc | dequeue thread spurious pc hpc => cases hpc.symm.trans hidle
          | inside thread spurious domain hinside => simp [executesOwn, System.executes, hinside] at hexecutes
        · cases (hown hthread).symm.trans hexecutes
    rw [Bool.toNat_true]
    omega

/-- In every run from a new queue, the statements of the queue that a thread executes are at most twenty-five for
each of its calls, each spurious failure of its own, each node that another thread links while it is inside a call
and each time another thread moves `head` while it is inside `dequeue`. A thread inside `enqueue` can always
execute its next statement. -/
theorem operations_lock_free (dummyData : α) (actions : List (Action α)) (system : System α)
    (hrun : run step (System.create dummyData) actions = some system) (thread : ThreadId) :
    countSteps step (executesOwn thread) (System.create dummyData) actions ≤
        25 * countSteps step (hinders thread) (System.create dummyData) actions ∧
      ∀ pc, system.pcs thread = .enqueue pc → ∀ spurious, (step system (.step thread spurious)).isSome = true := by
  have hok : Meets step (fun _ _ ↦ True) (System.create dummyData) actions := Meets.of_forall_mem fun _ _ _ ↦ trivial
  constructor
  · have hpaid := countSteps_le_of_potential (p := executesOwn thread) (d := hinders thread) 25
      (I := fun system ↦ ∃ tailPlace, system.Shape tailPlace)
      (m := fun system : System α ↦ (system.pcs thread).left system) ?_ hok ⟨0, System.shape_create dummyData⟩ hrun
    · have hstart : ((System.create dummyData).pcs thread).left (System.create dummyData) = 0 := rfl
      omega
    · rintro system action next ⟨tailPlace, hshape⟩ - hstep
      exact ⟨shape_of_step hshape hstep, left_of_step hshape hstep⟩
  · obtain ⟨⟨tailPlace, hshape⟩, houtside⟩ := run_invariant
      (I := fun system : System α ↦ (∃ tailPlace, system.Shape tailPlace) ∧ system.Outside) (by
        rintro system action next ⟨⟨tailPlace, hshape⟩, houtside⟩ hstep
        exact ⟨shape_of_step hshape hstep, houtside.step hshape hstep⟩)
      ⟨⟨0, System.shape_create dummyData⟩, fun _ h ↦ by cases h⟩ hrun
    exact fun pc hpc spurious ↦ houtside.enabled hshape hpc spurious

/-- Thread 1 links its node while thread 0 is about to; thread 0 fails, helps `tail` along and succeeds in its third
round. -/
def disturbedEnqueue : List (Action ℕ) :=
  [.enqueue 0 5, .enqueue 1 6] ++ List.replicate 4 (.step 0 false) ++ List.replicate 5 (.step 1 false) ++
    List.replicate 11 (.step 0 false)

theorem operations_lock_free_disturbed : ∃ system,
    run step (System.create 0) disturbedEnqueue = some system ∧
      countSteps step (executesOwn 0) (System.create 0) disturbedEnqueue = 15 ∧
      countSteps step (hinders 0) (System.create 0) disturbedEnqueue = 2 ∧ system.linked = [2, 1] ∧
      countSteps step (executesOwn 0) (System.create 0) disturbedEnqueue ≤
        25 * countSteps step (hinders 0) (System.create 0) disturbedEnqueue := by
  have hrun : run step (System.create 0) disturbedEnqueue = some _ := rfl
  exact ⟨_, hrun, by decide +kernel, by decide +kernel, rfl, (operations_lock_free 0 disturbedEnqueue _ hrun 0).1⟩

end TinyReactor.Queue
