import TinyReactor.Queue.Liberation

/-!
# The list only grows forward

What the shape of the list means for a reader of `head`, `tail` and `next`: from `head` the pointers lead through
`tail` to null, a `next` that is not null is final, and `head` and `tail` move along these pointers. That `head`
does not overtake `tail` rests on the order of the reads in `dequeue`, which the places of its local pointers record.
-/

namespace TinyReactor.Queue

open Data Hazard Transition

variable {α : Type*}

namespace System

/-- What a step may do to the list: write a `next` that is null, and move `head` and `tail` to the next node. -/
structure Forward (system next : System α) : Prop where
  pointers : ∀ node pointer, system.next? node = some pointer → next.next? node = some pointer ∨
    pointer = none ∧ ∃ target < next.nodes.length, next.next? node = some (some target)
  head : next.head = system.head ∨ system.next? system.head = some (some next.head)
  tail : next.tail = system.tail ∨ system.next? system.tail = some (some next.tail)

variable {system next : System α} {tailPlace place pointer : ℕ} {thread : ThreadId} {pc' : Pc α}

/-! ## The list from `head` -/

theorem Shape.tail_drop (h : system.Shape tailPlace) :
    (system.chain.drop system.taken.length)[tailPlace - system.taken.length]? = some system.tail := by
  rw [List.getElem?_drop, Nat.add_sub_cancel' h.head_le, h.tail]

/-- `tail` is the last node or the one before it. -/
theorem Shape.tail_at_end (h : system.Shape tailPlace) :
    (system.chain.drop system.taken.length).getLast? = some system.tail ∨
      (system.chain.drop system.taken.length).dropLast.getLast? = some system.tail := by
  have htail := h.tail_drop
  have hlength : (system.chain.drop system.taken.length).length = system.linked.length + 1 - system.taken.length :=
    List.length_drop
  have hlt := lt_length_of_getElem? htail
  have hend := h.tail_le
  have hhead := h.head_le
  rcases Nat.lt_or_ge tailPlace system.linked.length with hbehind | hlast
  · right
    rw [List.getLast?_eq_getElem?, List.getElem?_dropLast, List.length_dropLast, hlength, if_pos (by omega), ← htail]
    congr 1
    omega
  · left
    rw [List.getLast?_eq_getElem?, hlength, ← htail]
    congr 1
    omega

/-! ## One step -/

theorem Forward.of_eq (hnodes : next.nodes = system.nodes) (hhead : next.head = system.head)
    (htail : next.tail = system.tail) : system.Forward next where
  pointers node pointer hpointer := by
    rw [next?, hnodes]
    exact .inl hpointer
  head := .inl hhead
  tail := .inl htail

theorem Forward.of_callDomain {op : Op ℕ} (hcall : system.callDomain thread op pc' = some next) :
    system.Forward next := by
  obtain ⟨domain, -, rfl⟩ := Option.map_eq_some_iff.mp hcall
  exact .of_eq rfl rfl rfl

theorem Shape.next_of_follows (h : system.Shape tailPlace) {after : ℕ}
    (hfollows : system.Follows place pointer (some after)) : system.next? pointer = some (some after) := by
  rw [next?, h.next place pointer hfollows.1, hfollows.2 after rfl]

theorem Forward.allocate (node : Node α) (pc' : Pc α) :
    system.Forward ({ system with nodes := system.nodes ++ [node] }.setPc thread pc') where
  pointers other pointer hpointer := by
    obtain ⟨found, hfound, -⟩ := Option.map_eq_some_iff.mp hpointer
    left
    change (system.nodes ++ [node])[other]?.map Node.next = some pointer
    rw [List.getElem?_append_left (lt_length_of_getElem? hfound)]
    exact hpointer
  head := .inl rfl
  tail := .inl rfl

/-- The compare-exchange of line 59. -/
theorem Forward.link {newNode currTail : ℕ} {node : Node α} (hnode : system.nodes[currTail]? = some node)
    (hnull : node.next = none) (hnew : newNode < system.nodes.length) (pc' : Pc α) :
    system.Forward ((system.link newNode currTail).setPc thread pc') where
  pointers other pointer hpointer := by
    change (system.link newNode currTail).next? other = some pointer ∨ pointer = none ∧
      ∃ target < (system.link newNode currTail).nodes.length,
        (system.link newNode currTail).next? other = some (some target)
    rcases eq_or_ne other currTail with rfl | hne
    · rw [next?, hnode, Option.map_some, hnull] at hpointer
      refine .inr ⟨(Option.some.inj hpointer).symm, newNode, ?_, ?_⟩
      · rwa [System.link, List.length_modify]
      · rw [next?, System.link, getElem?_modify_of_getElem? hnode, if_pos rfl, Option.map_some]
    · left
      rw [next?, next_link_of_ne hne]
      exact hpointer
  head := .inl rfl
  tail := .inl rfl

/-- A compare-exchange of `tail` with the successor of what was read there. -/
theorem Forward.exchangeTail {expected desired : ℕ} (hnext : system.next? expected = some (some desired))
    (spurious : Bool) (pc' : Pc α) :
    system.Forward ((system.exchangeTail spurious expected desired).setPc thread pc') := by
  unfold System.exchangeTail
  split
  · rename_i hsuccess
    obtain ⟨rfl, -⟩ := hsuccess
    exact ⟨fun _ _ hpointer ↦ .inl hpointer, .inl rfl, .inr hnext⟩
  · exact .of_eq rfl rfl rfl

theorem EnqueueMove.forward {spurious : Bool} {pc : EnqueuePc α} (hmove : system.EnqueueMove thread spurious pc next)
    (h : system.Shape tailPlace) (hpc : system.pcs thread = .enqueue pc) : system.Forward next := by
  have hplaced := h.placed thread
  rw [hpc] at hplaced
  cases hmove with
  | allocate data => exact .allocate _ _
  | link newNode currTail node hnode hnext =>
    have hnew : (system.pcs thread).owned? = some newNode := by
      rw [hpc]
      rfl
    exact .link hnode hnext (h.unlinked thread newNode hnew).lt_nodes _
  | swingTail newNode currTail | helpTail newNode currTail after =>
    obtain ⟨place, hfollows⟩ := hplaced
    exact .exchangeTail (h.next_of_follows hfollows) spurious _
  | loadTail | loadNext | atEnd | behind | moved | relink | returns => exact .of_eq rfl rfl rfl

theorem DequeueMove.forward {spurious : Bool} {pc : DequeuePc α} (hmove : system.DequeueMove thread spurious pc next)
    (h : system.Shape tailPlace) (hpc : system.pcs thread = .dequeue pc) : system.Forward next := by
  have hplaced := h.placed thread
  rw [hpc] at hplaced
  cases hmove with
  | constructHead hcall | constructNext hcall | protectHead _ hcall | protectNext _ _ _ hcall | releaseHead _ hcall
  | releaseEmpty hcall | releaseNext _ _ hcall | retire _ _ hcall => exact .of_callDomain hcall
  | helpTail currTail after =>
    obtain ⟨place, hfollows⟩ := hplaced
    exact .exchangeTail (h.next_of_follows hfollows) spurious _
  | unlink after =>
    obtain ⟨place, -, hfollows⟩ := hplaced
    exact ⟨fun _ _ hpointer ↦ .inl hpointer, .inr (h.next_of_follows hfollows), .inl rfl⟩
  | loadHead | confirmed | moved | loadTail | loadNext | empty | behind | ready | movedAgain | retry | readData
  | returns => exact .of_eq rfl rfl rfl

end System

theorem forward_of_step {system next : System α} {tailPlace : ℕ} {action : Action α} (h : system.Shape tailPlace)
    (hstep : step system action = some next) : system.Forward next := by
  cases stepMove_of_step hstep with
  | enqueue thread spurious pc hpc houtside hmove => exact hmove.forward h hpc
  | dequeue thread spurious pc hpc houtside hmove => exact hmove.forward h hpc
  | callEnqueue | callDequeue | maintain | inside => exact .of_eq rfl rfl rfl

/-! ## Every run -/

section Runs

variable {system next final : System α} {tailPlace : ℕ}

/-- A pointer that is not null is final. -/
theorem System.Forward.keeps (h : system.Forward next) {node target : ℕ}
    (hpointer : system.next? node = some (some target)) : next.next? node = some (some target) := by
  rcases h.pointers node (some target) hpointer with hsame | ⟨hnull, -⟩
  · exact hsame
  · cases hnull

/-- A place that moves to the next node or not at all is ahead of where it was. -/
theorem System.Forward.reaches (h : system.Forward next) {start before after : ℕ}
    (hreaches : Reaches system.next? start before)
    (hmoves : after = before ∨ system.next? before = some (some after)) : Reaches next.next? start after := by
  refine Reaches.mono ?_ fun _ _ hpointer ↦ h.keeps hpointer
  rcases hmoves with rfl | hnext
  · exact hreaches
  · exact hreaches.concat hnext

theorem forward_of_run {later : List (Action α)} (h : system.Shape tailPlace)
    (hrun : run step system later = some final) :
    (∀ node target, system.next? node = some (some target) → final.next? node = some (some target)) ∧
      Reaches final.next? system.head final.head ∧ Reaches final.next? system.tail final.tail := by
  refine (run_invariant (I := fun visited ↦ (∃ tailPlace, visited.Shape tailPlace) ∧
    (∀ node target, system.next? node = some (some target) → visited.next? node = some (some target)) ∧
    Reaches visited.next? system.head visited.head ∧ Reaches visited.next? system.tail visited.tail) ?_
    ⟨⟨tailPlace, h⟩, fun _ _ ↦ id, .refl _, .refl _⟩ hrun).2
  rintro visited action next ⟨⟨tailPlace, hshape⟩, hkept, hhead, htail⟩ hstep
  have hforward := forward_of_step hshape hstep
  refine ⟨shape_of_step hshape hstep, fun node target hpointer ↦ hforward.keeps (hkept node target hpointer), ?_, ?_⟩
  · exact hforward.reaches hhead hforward.head
  · exact hforward.reaches htail hforward.tail

end Runs

/-- The list keeps its shape. In every state that is reached, following `next` from `head` visits finitely many
nodes, none of them twice, and ends with null; `tail` is the last of them or the one before it. A step writes a
`next` only where it was null, and moves `head` and `tail` only to the next node; so over any further run a pointer
that is not null stays, and `head` and `tail` are found ahead of where they were. -/
theorem list_keeps_shape (dummyData : α) (actions : List (Action α)) (system : System α)
    (hrun : run step (System.create dummyData) actions = some system) :
    (∃ nodes, follow system.next? system.nodes.length (some system.head) = some nodes ∧ nodes.Nodup ∧
      system.tail ∈ nodes ∧ (nodes.getLast? = some system.tail ∨ nodes.dropLast.getLast? = some system.tail)) ∧
    (∀ action next, step system action = some next → system.Forward next) ∧
    ∀ later final, run step system later = some final →
      (∀ node target, system.next? node = some (some target) → final.next? node = some (some target)) ∧
      Reaches final.next? system.head final.head ∧ Reaches final.next? system.tail final.tail := by
  obtain ⟨tailPlace, hshape⟩ := shape_of_run hrun
  refine ⟨⟨_, hshape.destroy_eq, hshape.nodup.drop, List.mem_of_getElem? hshape.tail_drop, hshape.tail_at_end⟩, ?_, ?_⟩
  · exact fun _ _ hstep ↦ forward_of_step hshape hstep
  · exact fun _ _ hlater ↦ forward_of_run hshape hlater

/-- Thread 0 has linked its node and not yet moved `tail`. -/
def linkFirst : List (Action ℕ) := .enqueue 0 5 :: List.replicate 5 (.step 0 false)

/-- `tail` is one behind, and the next statement moves it to the end. -/
theorem list_keeps_shape_behind :
    ∃ system next, run step (System.create 0) linkFirst = some system ∧ step system (.step 0 false) = some next ∧
      (∃ nodes, follow system.next? 2 (some 0) = some nodes ∧ nodes.Nodup ∧ system.tail ∈ nodes) ∧
      system.tail = 0 ∧ next.tail = 1 ∧ system.next? 0 = some (some 1) := by
  have hends : (run step (System.create 0) linkFirst).bind (fun system ↦ (step system (.step 0 false)).map fun next ↦
      ((system.nodes.length, system.head, system.tail), next.tail)) = some ((2, 0, 0), 1) := by
    decide +kernel
  obtain ⟨system, hrun, hstep⟩ := Option.bind_eq_some_iff.mp hends
  obtain ⟨next, hnext, hfinal⟩ := Option.map_eq_some_iff.mp hstep
  simp only [Prod.mk.injEq] at hfinal
  obtain ⟨⟨hlength, hhead, htail⟩, htail'⟩ := hfinal
  obtain ⟨⟨nodes, hfollow, hnodup, hmem, -⟩, hforward, -⟩ := list_keeps_shape 0 linkFirst system hrun
  rw [hlength, hhead] at hfollow
  refine ⟨system, next, hrun, hnext, ⟨nodes, hfollow, hnodup, hmem⟩, htail, htail', ?_⟩
  have hmoves := (hforward _ next hnext).tail
  rw [htail, htail'] at hmoves
  exact hmoves.resolve_left Nat.one_ne_zero

end TinyReactor.Queue
