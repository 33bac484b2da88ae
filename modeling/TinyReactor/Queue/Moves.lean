import TinyReactor.Queue.Model

/-!
# Inversion of the statements

The outcomes of the statements of `enqueue` and `dequeue`, one constructor each, and of the steps made of them. A
statement that calls into the domain is left as the call; what the domain makes of it is not decided here.
-/

namespace TinyReactor.Queue

open Hazard

variable {α : Type*}

namespace System

section

variable (thread : ThreadId) (spurious : Bool) (system : System α)

/-- The outcomes of a statement of `enqueue`. -/
inductive EnqueueMove : EnqueuePc α → System α → Prop
  | allocate (data : α) : EnqueueMove (.allocate data)
      ({ system with nodes := system.nodes ++ [({ data := data } : Node α)] }.setPc thread
        (.enqueue (.loadTail system.nodes.length)))
  | loadTail (newNode : ℕ) : EnqueueMove (.loadTail newNode)
      (system.setPc thread (.enqueue (.loadNext newNode system.tail)))
  | loadNext (newNode currTail : ℕ) (node : Node α) (hnode : system.nodes[currTail]? = some node) :
      EnqueueMove (.loadNext newNode currTail)
      (system.setPc thread (.enqueue (.recheckTail newNode currTail node.next)))
  | atEnd (newNode : ℕ) : EnqueueMove (.recheckTail newNode system.tail none)
      (system.setPc thread (.enqueue (.linkNode newNode system.tail)))
  | behind (newNode after : ℕ) : EnqueueMove (.recheckTail newNode system.tail (some after))
      (system.setPc thread (.enqueue (.helpTail newNode system.tail after)))
  | moved (newNode currTail : ℕ) (after : Option ℕ) (htail : currTail ≠ system.tail) :
      EnqueueMove (.recheckTail newNode currTail after) (system.setPc thread (.enqueue (.loadTail newNode)))
  | link (newNode currTail : ℕ) (node : Node α) (hnode : system.nodes[currTail]? = some node)
      (hnext : node.next = none) (hspurious : spurious = false) : EnqueueMove (.linkNode newNode currTail)
      ((system.link newNode currTail).setPc thread (.enqueue (.swingTail newNode currTail)))
  | relink (newNode currTail : ℕ) (node : Node α) (hnode : system.nodes[currTail]? = some node)
      (hfails : ¬(node.next = none ∧ spurious = false)) : EnqueueMove (.linkNode newNode currTail)
      (system.setPc thread (.enqueue (.loadTail newNode)))
  | swingTail (newNode currTail : ℕ) : EnqueueMove (.swingTail newNode currTail)
      ((system.exchangeTail spurious currTail newNode).setPc thread (.enqueue .returns))
  | helpTail (newNode currTail after : ℕ) : EnqueueMove (.helpTail newNode currTail after)
      ((system.exchangeTail spurious currTail after).setPc thread (.enqueue (.loadTail newNode)))
  | returns : EnqueueMove .returns ((system.record (.returnEnqueue thread)).setPc thread .idle)

/-- The outcomes of a statement of `dequeue`. -/
inductive DequeueMove : DequeuePc α → System α → Prop
  | constructHead {next : System α}
      (hcall : system.callDomain thread (.construct (hpHead thread)) (.dequeue .constructNext) = some next) :
      DequeueMove .constructHead next
  | constructNext {next : System α}
      (hcall : system.callDomain thread (.construct (hpNext thread)) (.dequeue .loadHead) = some next) :
      DequeueMove .constructNext next
  | loadHead : DequeueMove .loadHead (system.setPc thread (.dequeue (.protectHead system.head)))
  | protectHead {next : System α} (currHead : ℕ)
      (hcall : system.callDomain thread (.protect (hpHead thread) (some currHead))
        (.dequeue (.recheckHead currHead)) = some next) : DequeueMove (.protectHead currHead) next
  | confirmed : DequeueMove (.recheckHead system.head) (system.setPc thread (.dequeue (.loadTail system.head)))
  | moved (currHead : ℕ) (hhead : currHead ≠ system.head) :
      DequeueMove (.recheckHead currHead) (system.setPc thread (.dequeue .loadHead))
  | loadTail (currHead : ℕ) : DequeueMove (.loadTail currHead)
      (system.setPc thread (.dequeue (.loadNext currHead system.tail)))
  | loadNext (currHead currTail : ℕ) (node : Node α) (hnode : system.nodes[currHead]? = some node) :
      DequeueMove (.loadNext currHead currTail)
      (system.setPc thread (.dequeue (.protectNext currHead currTail node.next)))
  | protectNext {next : System α} (currHead currTail : ℕ) (after : Option ℕ)
      (hcall : system.callDomain thread (.protect (hpNext thread) after)
        (.dequeue (.recheckAgain currHead currTail after)) = some next) :
      DequeueMove (.protectNext currHead currTail after) next
  | empty (currTail : ℕ) : DequeueMove (.recheckAgain system.head currTail none)
      (system.setPc thread (.dequeue (.releaseHead none)))
  | behind (after : ℕ) : DequeueMove (.recheckAgain system.head system.head (some after))
      (system.setPc thread (.dequeue (.helpTail system.head after)))
  | ready (currTail after : ℕ) (htail : system.head ≠ currTail) :
      DequeueMove (.recheckAgain system.head currTail (some after))
      (system.setPc thread (.dequeue (.swingHead system.head after)))
  | movedAgain (currHead currTail : ℕ) (after : Option ℕ) (hhead : currHead ≠ system.head) :
      DequeueMove (.recheckAgain currHead currTail after) (system.setPc thread (.dequeue .loadHead))
  | helpTail (currTail after : ℕ) : DequeueMove (.helpTail currTail after)
      ((system.exchangeTail spurious currTail after).setPc thread (.dequeue .loadHead))
  | unlink (after : ℕ) (hspurious : spurious = false) : DequeueMove (.swingHead system.head after)
      ((system.unlink after).setPc thread (.dequeue (.readData system.head after)))
  | retry (currHead after : ℕ) (hfails : ¬(system.head = currHead ∧ spurious = false)) :
      DequeueMove (.swingHead currHead after) (system.setPc thread (.dequeue .loadHead))
  | readData (currHead after : ℕ) (node : Node α) (hnode : system.nodes[after]? = some node) :
      DequeueMove (.readData currHead after)
      (system.setPc thread (.dequeue (.releaseHead (some (currHead, node.data)))))
  | releaseHead {next : System α} (retired : Option (ℕ × α))
      (hcall : system.callDomain thread (.release (hpHead thread)) (.dequeue (.releaseNext retired)) = some next) :
      DequeueMove (.releaseHead retired) next
  | releaseEmpty {next : System α}
      (hcall : system.callDomain thread (.release (hpNext thread)) (.dequeue (.returns none)) = some next) :
      DequeueMove (.releaseNext none) next
  | releaseNext {next : System α} (currHead : ℕ) (result : α)
      (hcall : system.callDomain thread (.release (hpNext thread))
        (.dequeue (.retire currHead result)) = some next) : DequeueMove (.releaseNext (some (currHead, result))) next
  | retire {next : System α} (currHead : ℕ) (result : α)
      (hcall : system.callDomain thread (.retirePointer { ptr := currHead })
        (.dequeue (.returns (some result))) = some next) : DequeueMove (.retire currHead result) next
  | returns (result : Option α) : DequeueMove (.returns result)
      ((system.record (.returnDequeue thread result)).setPc thread .idle)

end

variable {thread : ThreadId} {spurious : Bool} {system next : System α}

theorem enqueueMove_of_step {pc : EnqueuePc α} (h : system.enqueueStep thread spurious pc = some next) :
    EnqueueMove thread spurious system pc next := by
  cases pc with
  | loadNext newNode currTail =>
    obtain ⟨node, hnode, rfl⟩ := Option.map_eq_some_iff.mp h
    exact .loadNext newNode currTail node hnode
  | recheckTail newNode currTail after =>
    cases h
    split
    · rename_i htail
      subst htail
      cases after with
      | none => exact .atEnd newNode
      | some after => exact .behind newNode after
    · rename_i htail
      exact .moved newNode currTail after htail
  | linkNode newNode currTail =>
    obtain ⟨node, hnode, rfl⟩ := Option.map_eq_some_iff.mp h
    split
    · rename_i hsuccess
      exact .link newNode currTail node hnode hsuccess.1 hsuccess.2
    · rename_i hfails
      exact .relink newNode currTail node hnode hfails
  | _ =>
    cases h
    constructor

theorem dequeueMove_of_step {pc : DequeuePc α} (h : system.dequeueStep thread spurious pc = some next) :
    DequeueMove thread spurious system pc next := by
  cases pc with
  | constructHead => exact .constructHead h
  | constructNext => exact .constructNext h
  | protectHead currHead => exact .protectHead currHead h
  | protectNext currHead currTail after => exact .protectNext currHead currTail after h
  | releaseHead retired => exact .releaseHead retired h
  | releaseNext retired =>
    cases retired with
    | none => exact .releaseEmpty h
    | some retired => exact .releaseNext retired.1 retired.2 h
  | retire currHead result => exact .retire currHead result h
  | recheckHead currHead =>
    cases h
    split
    · rename_i hhead
      subst hhead
      exact .confirmed
    · rename_i hhead
      exact .moved currHead hhead
  | loadNext currHead currTail =>
    obtain ⟨node, hnode, rfl⟩ := Option.map_eq_some_iff.mp h
    exact .loadNext currHead currTail node hnode
  | recheckAgain currHead currTail after =>
    cases h
    by_cases hhead : currHead = system.head
    · subst hhead
      rw [if_pos rfl]
      cases after with
      | none => exact .empty currTail
      | some after =>
        rw [Option.elim_some]
        split
        · rename_i htail
          subst htail
          exact .behind after
        · rename_i htail
          exact .ready currTail after htail
    · rw [if_neg hhead]
      exact .movedAgain currHead currTail after hhead
  | swingHead currHead after =>
    cases h
    split
    · rename_i hsuccess
      obtain ⟨rfl, hspurious⟩ := hsuccess
      exact .unlink after hspurious
    · rename_i hfails
      exact .retry currHead after hfails
  | readData currHead after =>
    obtain ⟨node, hnode, rfl⟩ := Option.map_eq_some_iff.mp h
    exact .readData currHead after node hnode
  | _ =>
    cases h
    constructor

end System

/-- The outcomes of a step: a call of the queue or of the domain, a statement of the queue, or a statement
inside the domain. -/
inductive StepMove (system : System α) : Action α → System α → Prop
  | callEnqueue (thread : ThreadId) (data : α) (hidle : system.pcs thread = .idle)
      (houtside : system.domain.pcs thread = .idle) : StepMove system (.enqueue thread data)
      ((system.record (.callEnqueue thread data)).setPc thread (.enqueue (.allocate data)))
  | callDequeue (thread : ThreadId) (hidle : system.pcs thread = .idle)
      (houtside : system.domain.pcs thread = .idle) : StepMove system (.dequeue thread)
      ((system.record (.callDequeue thread)).setPc thread (.dequeue .constructHead))
  | maintain (thread : ThreadId) (call : Maintenance) (domain : Domain ℕ) (hidle : system.pcs thread = .idle)
      (hdomain : Hazard.step system.domain (.call thread call.op) = some domain) :
      StepMove system (.maintain thread call) { system with domain := domain }
  | enqueue (thread : ThreadId) (spurious : Bool) (pc : EnqueuePc α) {next : System α}
      (hpc : system.pcs thread = .enqueue pc) (houtside : system.domain.pcs thread = .idle)
      (hmove : system.EnqueueMove thread spurious pc next) : StepMove system (.step thread spurious) next
  | dequeue (thread : ThreadId) (spurious : Bool) (pc : DequeuePc α) {next : System α}
      (hpc : system.pcs thread = .dequeue pc) (houtside : system.domain.pcs thread = .idle)
      (hmove : system.DequeueMove thread spurious pc next) : StepMove system (.step thread spurious) next
  | inside (thread : ThreadId) (spurious : Bool) (domain : Domain ℕ) (hinside : system.domain.pcs thread ≠ .idle)
      (hdomain : Hazard.step system.domain (.step thread) = some domain) :
      StepMove system (.step thread spurious) { system with domain := domain }

theorem Pc.eq_idle_of_isIdle {pc : Pc α} (h : pc.isIdle) : pc = .idle := by
  cases pc with
  | idle => rfl
  | enqueue | dequeue => cases h

theorem stepMove_of_step {system next : System α} {action : Action α} (hstep : step system action = some next) :
    StepMove system action next := by
  cases action with
  | enqueue thread data =>
    simp only [step] at hstep
    split at hstep
    · rename_i hidle
      cases hstep
      exact .callEnqueue thread data (Pc.eq_idle_of_isIdle hidle.1) hidle.2
    · cases hstep
  | dequeue thread =>
    simp only [step] at hstep
    split at hstep
    · rename_i hidle
      cases hstep
      exact .callDequeue thread (Pc.eq_idle_of_isIdle hidle.1) hidle.2
    · cases hstep
  | maintain thread call =>
    simp only [step] at hstep
    split at hstep
    · rename_i hidle
      obtain ⟨domain, hdomain, rfl⟩ := Option.map_eq_some_iff.mp hstep
      exact .maintain thread call domain (Pc.eq_idle_of_isIdle hidle) hdomain
    · cases hstep
  | step thread spurious =>
    simp only [step] at hstep
    split at hstep
    · rename_i houtside
      cases hpc : system.pcs thread with
      | idle =>
        rw [hpc] at hstep
        cases hstep
      | enqueue pc =>
        rw [hpc] at hstep
        exact .enqueue thread spurious pc hpc houtside (System.enqueueMove_of_step hstep)
      | dequeue pc =>
        rw [hpc] at hstep
        exact .dequeue thread spurious pc hpc houtside (System.dequeueMove_of_step hstep)
    · rename_i hinside
      obtain ⟨domain, hdomain, rfl⟩ := Option.map_eq_some_iff.mp hstep
      exact .inside thread spurious domain hinside hdomain

end TinyReactor.Queue
