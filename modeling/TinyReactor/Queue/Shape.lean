import Mathlib.Data.List.Nodup
import TinyReactor.Queue.Moves

/-!
# The shape of the list

The nodes that were ever linked form one chain, the dummy first, in the order of the compare-exchanges
of line 59. `head` and `tail` are positions in it: `head` has moved once for every node taken, and
`tail` is at `head` or beyond and at most one node behind the end. The local pointers of the calls in
progress are positions in the chain too, and the node of an `enqueue` that has not linked it yet is
outside.
-/

namespace TinyReactor.Queue

open Hazard Transition

variable {α : Type*}

namespace System

/-- All nodes that were ever reachable, in order. -/
def chain (system : System α) : List ℕ := 0 :: system.linked

/-- The node belongs to an `enqueue` that has still to link it. -/
def Unlinked (system : System α) (node : ℕ) : Prop :=
  node ∉ system.chain ∧ system.nodes[node]?.map Node.next = some none

/-- `pointer` is the node at position `place`, and `next`, unless null, is the one after it. -/
def Follows (system : System α) (place pointer : ℕ) (next : Option ℕ) : Prop :=
  system.chain[place]? = some pointer ∧ ∀ node, next = some node → system.chain[place + 1]? = some node

end System

/-- The node that the call has allocated and not yet linked. -/
def Pc.owned? : Pc α → Option ℕ
  | .enqueue (.loadTail newNode) | .enqueue (.loadNext newNode _) | .enqueue (.recheckTail newNode _ _)
  | .enqueue (.linkNode newNode _) | .enqueue (.helpTail newNode _ _) => some newNode
  | _ => none

/-- Where the local pointers of `enqueue` are. -/
def EnqueuePc.Placed (system : System α) (tailPlace : ℕ) : EnqueuePc α → Prop
  | .loadNext _ currTail | .linkNode _ currTail => ∃ place ≤ tailPlace, system.Follows place currTail none
  | .recheckTail _ currTail next => ∃ place ≤ tailPlace, system.Follows place currTail next
  | .helpTail _ currTail next => ∃ place, system.Follows place currTail (some next)
  | .swingTail newNode currTail => ∃ place, system.Follows place currTail (some newNode)
  | _ => True

/-- Where the local pointers of `dequeue` are. `curr_head` is not beyond `head`, and `curr_tail`, which
was read later, not before it. -/
def DequeuePc.Placed (system : System α) (tailPlace : ℕ) : DequeuePc α → Prop
  | .protectHead currHead | .recheckHead currHead | .loadTail currHead =>
      ∃ place ≤ system.taken.length, system.Follows place currHead none
  | .loadNext currHead currTail =>
      ∃ place ≤ system.taken.length, system.Follows place currHead none ∧
        ∃ behind, place ≤ behind ∧ behind ≤ tailPlace ∧ system.Follows behind currTail none
  | .protectNext currHead currTail next | .recheckAgain currHead currTail next =>
      ∃ place ≤ system.taken.length, system.Follows place currHead next ∧
        ∃ behind, place ≤ behind ∧ behind ≤ tailPlace ∧ system.Follows behind currTail none
  | .helpTail currTail next => ∃ place, system.Follows place currTail (some next)
  | .swingHead currHead next => ∃ place, place < tailPlace ∧ system.Follows place currHead (some next)
  | .readData currHead next =>
      ∃ place < system.taken.length, system.Follows place currHead (some next)
  | .releaseHead (some (currHead, _)) | .releaseNext (some (currHead, _)) | .retire currHead _ =>
      ∃ place < system.taken.length, system.Follows place currHead none
  | _ => True

def Pc.Placed (system : System α) (tailPlace : ℕ) : Pc α → Prop
  | .idle => True
  | .enqueue pc => pc.Placed system tailPlace
  | .dequeue pc => pc.Placed system tailPlace

namespace System

structure Shape (system : System α) (tailPlace : ℕ) : Prop where
  next : ∀ (place pointer : ℕ), system.chain[place]? = some pointer →
    system.nodes[pointer]?.map Node.next = some system.chain[place + 1]?
  nodup : system.chain.Nodup
  head : system.chain[system.taken.length]? = some system.head
  taken : system.taken <+: system.linked
  tail : system.chain[tailPlace]? = some system.tail
  head_le : system.taken.length ≤ tailPlace
  tail_le : system.linked.length ≤ tailPlace + 1
  placed : ∀ thread, (system.pcs thread).Placed system tailPlace
  unlinked : ∀ thread node, (system.pcs thread).owned? = some node → system.Unlinked node
  owner : ∀ thread other node, (system.pcs thread).owned? = some node →
    (system.pcs other).owned? = some node → thread = other

theorem shape_create (dummyData : α) : (create dummyData).Shape 0 where
  next place pointer h := by
    cases place with
    | zero =>
      obtain rfl : 0 = pointer := by simpa [chain, create] using h
      rfl
    | succ place => simp [chain, create] at h
  nodup := by simp [chain, create]
  head := rfl
  taken := List.prefix_refl []
  tail := rfl
  head_le := Nat.le_refl 0
  tail_le := Nat.zero_le 1
  placed _ := trivial
  unlinked _ _ h := by cases h
  owner _ _ _ h := by cases h

/-- Nothing that was linked or taken is undone. -/
structure Grows (system next : System α) : Prop where
  chain : system.chain <+: next.chain
  taken : system.taken.length ≤ next.taken.length

theorem getElem?_mono {first second : List ℕ} (h : first <+: second) {place pointer : ℕ}
    (hplace : first[place]? = some pointer) : second[place]? = some pointer := by
  obtain ⟨rest, rfl⟩ := h
  rw [List.getElem?_append_left (lt_length_of_getElem? hplace), hplace]

theorem prefix_append_singleton {first second : List ℕ} (h : first <+: second) {entry : ℕ}
    (hentry : second[first.length]? = some entry) : first ++ [entry] <+: second := by
  obtain ⟨rest, rfl⟩ := h
  rw [List.getElem?_append_right (Nat.le_refl _), Nat.sub_self] at hentry
  obtain ⟨more, rfl⟩ := List.head?_eq_some_iff.mp (List.head?_eq_getElem? ▸ hentry)
  exact ⟨more, List.append_assoc ..⟩

theorem Follows.mono {system next : System α} {place pointer : ℕ} {after : Option ℕ}
    (hgrows : system.Grows next) (h : system.Follows place pointer after) : next.Follows place pointer after :=
  ⟨getElem?_mono hgrows.chain h.1, fun node hnode ↦ getElem?_mono hgrows.chain (h.2 node hnode)⟩

theorem Follows.forget {system : System α} {place pointer : ℕ} {after : Option ℕ}
    (h : system.Follows place pointer after) : system.Follows place pointer none :=
  ⟨h.1, nofun⟩

end System

theorem EnqueuePc.Placed.mono {system next : System α} {tailPlace tailPlace' : ℕ} {pc : EnqueuePc α}
    (hgrows : system.Grows next) (htail : tailPlace ≤ tailPlace') (h : pc.Placed system tailPlace) :
    pc.Placed next tailPlace' := by
  cases pc with
  | loadNext | linkNode | recheckTail =>
    obtain ⟨place, hle, hfollows⟩ := h
    exact ⟨place, Nat.le_trans hle htail, hfollows.mono hgrows⟩
  | helpTail | swingTail =>
    obtain ⟨place, hfollows⟩ := h
    exact ⟨place, hfollows.mono hgrows⟩
  | _ => trivial

theorem DequeuePc.Placed.mono {system next : System α} {tailPlace tailPlace' : ℕ} {pc : DequeuePc α}
    (hgrows : system.Grows next) (htail : tailPlace ≤ tailPlace') (h : pc.Placed system tailPlace) :
    pc.Placed next tailPlace' := by
  cases pc with
  | protectHead | recheckHead | loadTail =>
    obtain ⟨place, hle, hfollows⟩ := h
    exact ⟨place, Nat.le_trans hle hgrows.taken, hfollows.mono hgrows⟩
  | loadNext | protectNext | recheckAgain =>
    obtain ⟨place, hle, hfollows, behind, hbehind, hbehind', hfollows'⟩ := h
    exact ⟨place, Nat.le_trans hle hgrows.taken, hfollows.mono hgrows, behind, hbehind,
      Nat.le_trans hbehind' htail, hfollows'.mono hgrows⟩
  | helpTail =>
    obtain ⟨place, hfollows⟩ := h
    exact ⟨place, hfollows.mono hgrows⟩
  | swingHead =>
    obtain ⟨place, hlt, hfollows⟩ := h
    exact ⟨place, Nat.lt_of_lt_of_le hlt htail, hfollows.mono hgrows⟩
  | readData | retire =>
    obtain ⟨place, hlt, hfollows⟩ := h
    exact ⟨place, Nat.lt_of_lt_of_le hlt hgrows.taken, hfollows.mono hgrows⟩
  | releaseHead retired | releaseNext retired =>
    cases retired with
    | none => trivial
    | some pair =>
      obtain ⟨place, hlt, hfollows⟩ := h
      exact ⟨place, Nat.lt_of_lt_of_le hlt hgrows.taken, hfollows.mono hgrows⟩
  | _ => trivial

theorem Pc.Placed.mono {system next : System α} {tailPlace tailPlace' : ℕ} {pc : Pc α}
    (hgrows : system.Grows next) (htail : tailPlace ≤ tailPlace') (h : pc.Placed system tailPlace) :
    pc.Placed next tailPlace' := by
  cases pc with
  | idle => trivial
  | enqueue pc => exact EnqueuePc.Placed.mono hgrows htail h
  | dequeue pc => exact DequeuePc.Placed.mono hgrows htail h

namespace System

variable {system next : System α} {tailPlace tailPlace' place pointer : ℕ} {thread : ThreadId} {pc' : Pc α}

/-- Two positions of the same node are equal. -/
theorem Shape.place_unique (h : system.Shape tailPlace) {other : ℕ} (hplace : system.chain[place]? = some pointer)
    (hother : system.chain[other]? = some pointer) : place = other := by
  obtain ⟨hlt, heq⟩ := List.getElem?_eq_some_iff.mp hplace
  obtain ⟨hlt', heq'⟩ := List.getElem?_eq_some_iff.mp hother
  exact (List.Nodup.getElem_inj_iff h.nodup).mp (heq.trans heq'.symm)

theorem Shape.allocated (h : system.Shape tailPlace) (hplace : system.chain[place]? = some pointer) :
    ∃ node, system.nodes[pointer]? = some node ∧ node.next = system.chain[place + 1]? :=
  Option.map_eq_some_iff.mp (h.next place pointer hplace)

theorem Shape.next_eq (h : system.Shape tailPlace) (hplace : system.chain[place]? = some pointer) {node : Node α}
    (hnode : system.nodes[pointer]? = some node) : node.next = system.chain[place + 1]? := by
  obtain ⟨node', hnode', hnext⟩ := h.allocated hplace
  obtain rfl : node = node' := Option.some.inj (hnode.symm.trans hnode')
  exact hnext

/-- The list before and after, and the threads that stand still. -/
theorem Shape.rebuild (h : system.Shape tailPlace) (hgrows : system.Grows next) (htailPlace : tailPlace ≤ tailPlace')
    (hnext : ∀ (place pointer : ℕ), next.chain[place]? = some pointer →
      next.nodes[pointer]?.map Node.next = some next.chain[place + 1]?)
    (hnodup : next.chain.Nodup) (hhead : next.chain[next.taken.length]? = some next.head)
    (htaken : next.taken <+: next.linked) (htail : next.chain[tailPlace']? = some next.tail)
    (hhead_le : next.taken.length ≤ tailPlace') (htail_le : next.linked.length ≤ tailPlace' + 1)
    (hpcs : next.pcs = Function.update system.pcs thread pc') (hplaced : pc'.Placed next tailPlace')
    (hunlinked : ∀ other node, other ≠ thread → (system.pcs other).owned? = some node → next.Unlinked node)
    (howned : ∀ node, pc'.owned? = some node → next.Unlinked node ∧
      ∀ other, other ≠ thread → (system.pcs other).owned? ≠ some node) : next.Shape tailPlace' where
  next := hnext
  nodup := hnodup
  head := hhead
  taken := htaken
  tail := htail
  head_le := hhead_le
  tail_le := htail_le
  placed := by
    rw [hpcs, Function.forall_update_iff system.pcs (p := fun _ pc ↦ pc.Placed next tailPlace')]
    exact ⟨hplaced, fun other _ ↦ (h.placed other).mono hgrows htailPlace⟩
  unlinked := by
    rw [hpcs, Function.forall_update_iff system.pcs (p := fun _ pc ↦
      ∀ node, pc.owned? = some node → next.Unlinked node)]
    exact ⟨fun node hnode ↦ (howned node hnode).1, fun other hother node ↦ hunlinked other node hother⟩
  owner first second node := by
    rw [hpcs]
    refine holder_unique_update (H := fun (pc : Pc α) node ↦ pc.owned? = some node) ?_
      fun node hnode ↦ (howned node hnode).2
    exact fun first second node _ _ ↦ h.owner first second node

/-- Neither the list nor its ends change. -/
structure SameList (system next : System α) : Prop where
  nodes : next.nodes = system.nodes
  linked : next.linked = system.linked
  taken : next.taken = system.taken
  head : next.head = system.head
  tail : next.tail = system.tail

theorem SameList.chain (h : system.SameList next) : next.chain = system.chain := congrArg (0 :: ·) h.linked

theorem SameList.grows (h : system.SameList next) : system.Grows next :=
  ⟨h.chain ▸ List.prefix_refl _, h.taken ▸ Nat.le_refl _⟩

theorem SameList.unlinked (h : system.SameList next) {node : ℕ} (hnode : system.Unlinked node) :
    next.Unlinked node := by
  rw [Unlinked, h.chain, h.nodes]
  exact hnode

theorem Shape.move (h : system.Shape tailPlace) (hsame : system.SameList next)
    (hpcs : next.pcs = Function.update system.pcs thread pc') (hplaced : pc'.Placed system tailPlace)
    (howned : ∀ node, pc'.owned? = some node → (system.pcs thread).owned? = some node) :
    next.Shape tailPlace := by
  refine h.rebuild hsame.grows (Nat.le_refl _) ?_ ?_ ?_ ?_ ?_ ?_ ?_ hpcs
    (hplaced.mono hsame.grows (Nat.le_refl _)) ?_ ?_
  · rw [hsame.chain, hsame.nodes]
    exact h.next
  · rw [hsame.chain]
    exact h.nodup
  · rw [hsame.chain, hsame.taken, hsame.head]
    exact h.head
  · rw [hsame.taken, hsame.linked]
    exact h.taken
  · rw [hsame.chain, hsame.tail]
    exact h.tail
  · rw [hsame.taken]
    exact h.head_le
  · rw [hsame.linked]
    exact h.tail_le
  · exact fun other node _ hnode ↦ hsame.unlinked (h.unlinked other node hnode)
  · intro node hnode
    have hthread := howned node hnode
    refine ⟨hsame.unlinked (h.unlinked thread node hthread), fun other hother hagain ↦ ?_⟩
    exact hother (h.owner other thread node hagain hthread)

/-- A statement of one thread that only reads. -/
theorem Shape.setPc (h : system.Shape tailPlace) (hplaced : pc'.Placed system tailPlace)
    (howned : ∀ node, pc'.owned? = some node → (system.pcs thread).owned? = some node) :
    (system.setPc thread pc').Shape tailPlace :=
  h.move ⟨rfl, rfl, rfl, rfl, rfl⟩ rfl hplaced howned

/-- A step inside the domain. -/
theorem Shape.setDomain (h : system.Shape tailPlace) (domain : Domain ℕ) :
    ({ system with domain := domain } : System α).Shape tailPlace := by
  have hpcs : system.pcs = Function.update system.pcs 0 (system.pcs 0) := (Function.update_eq_self ..).symm
  exact h.move ⟨rfl, rfl, rfl, rfl, rfl⟩ hpcs (h.placed 0) fun _ hnode ↦ hnode

/-! ## The four changes of the list -/

theorem Shape.lt_nodes (h : system.Shape tailPlace) (hplace : system.chain[place]? = some pointer) :
    pointer < system.nodes.length := by
  obtain ⟨node, hnode, -⟩ := h.allocated hplace
  exact lt_length_of_getElem? hnode

theorem Unlinked.lt_nodes {node : ℕ} (h : system.Unlinked node) : node < system.nodes.length := by
  obtain ⟨entry, hentry, -⟩ := Option.map_eq_some_iff.mp h.2
  exact lt_length_of_getElem? hentry

/-- `new Node<T>(data)`. -/
theorem Shape.allocate (h : system.Shape tailPlace) (data : α) :
    ({ system with nodes := system.nodes ++ [({ data := data } : Node α)] }.setPc thread
      (.enqueue (.loadTail system.nodes.length))).Shape tailPlace := by
  have hold (node : ℕ) (hlt : node < system.nodes.length) :
      (system.nodes ++ [({ data := data } : Node α)])[node]? = system.nodes[node]? :=
    List.getElem?_append_left hlt
  refine h.rebuild ⟨List.prefix_refl _, Nat.le_refl _⟩ (Nat.le_refl _) ?_ h.nodup h.head h.taken h.tail h.head_le
    h.tail_le rfl trivial ?_ ?_
  · intro place pointer hplace
    have hnext := h.next place pointer hplace
    rwa [← hold pointer (h.lt_nodes hplace)] at hnext
  · intro other node _ hnode
    have hunlinked := h.unlinked other node hnode
    refine ⟨hunlinked.1, ?_⟩
    have hnext := hunlinked.2
    rwa [← hold node hunlinked.lt_nodes] at hnext
  · rintro node ⟨⟩
    refine ⟨⟨fun hmem ↦ ?_, ?_⟩, fun other _ hnode ↦ ?_⟩
    · obtain ⟨place, hplace⟩ := List.mem_iff_getElem?.mp hmem
      exact Nat.lt_irrefl _ (h.lt_nodes hplace)
    · change Option.map Node.next (system.nodes ++ [_])[system.nodes.length]? = _
      rw [List.getElem?_concat_length]
      rfl
    · exact Nat.lt_irrefl _ (h.unlinked other _ hnode).lt_nodes

/-- A node of the chain without successor is the last one, and `tail` is there. -/
theorem Shape.last (h : system.Shape tailPlace) (hplace : system.chain[place]? = some pointer) {node : Node α}
    (hnode : system.nodes[pointer]? = some node) (hnext : node.next = none) (hle : place ≤ tailPlace) :
    place = system.linked.length ∧ tailPlace = place := by
  have hend : system.chain.length ≤ place + 1 :=
    List.getElem?_eq_none_iff.mp ((h.next_eq hplace hnode).symm.trans hnext)
  have hlt := lt_length_of_getElem? hplace
  have htail := lt_length_of_getElem? h.tail
  simp only [chain, List.length_cons] at hend hlt htail
  omega

section Link

variable {newNode currTail : ℕ}

theorem chain_link : (system.link newNode currTail).chain = system.chain ++ [newNode] := rfl

theorem next_link_of_ne {node : ℕ} (hne : node ≠ currTail) :
    (system.link newNode currTail).nodes[node]? = system.nodes[node]? :=
  List.getElem?_modify_ne _ _ hne.symm

/-- The successors after the compare-exchange, when `currTail` was the last node of the chain. -/
theorem Shape.next_link (h : system.Shape tailPlace) (hnew : system.Unlinked newNode)
    (hlast : system.chain[system.linked.length]? = some currTail)
    (hplace : (system.link newNode currTail).chain[place]? = some pointer) :
    (system.link newNode currTail).nodes[pointer]?.map Node.next =
      some (system.link newNode currTail).chain[place + 1]? := by
  have hlength : system.chain.length = system.linked.length + 1 := rfl
  rw [chain_link] at hplace ⊢
  rcases of_getElem?_append_singleton hplace with hold | ⟨rfl, rfl⟩
  · by_cases hpointer : pointer = currTail
    · subst hpointer
      obtain rfl := h.place_unique hold hlast
      obtain ⟨node, hnode, -⟩ := h.allocated hold
      rw [← hlength, List.getElem?_concat_length]
      change Option.map Node.next (system.nodes.modify pointer _)[pointer]? = _
      rw [List.getElem?_modify_eq, hnode]
      rfl
    · have hne : place ≠ system.linked.length := by
        rintro rfl
        exact hpointer (Option.some.inj (hold.symm.trans hlast))
      have hlt := lt_length_of_getElem? hold
      rw [next_link_of_ne hpointer, h.next place pointer hold, List.getElem?_append_left (by omega)]
  · have hne : pointer ≠ currTail := by
      rintro rfl
      exact hnew.1 (List.mem_of_getElem? hlast)
    rw [next_link_of_ne hne, hnew.2, List.getElem?_eq_none_iff.mpr (by simp)]

theorem Unlinked.link {node : ℕ} (h : system.Unlinked node) (hne : node ≠ newNode)
    (htail : currTail ∈ system.chain) : (system.link newNode currTail).Unlinked node := by
  have hcurr : node ≠ currTail := by
    rintro rfl
    exact h.1 htail
  refine ⟨?_, ?_⟩
  · rw [chain_link, List.mem_append, List.mem_singleton]
    exact not_or.mpr ⟨h.1, hne⟩
  · rw [next_link_of_ne hcurr]
    exact h.2

/-- The compare-exchange of line 59. -/
theorem Shape.link (h : system.Shape tailPlace) {node : Node α} (hnew : (system.pcs thread).owned? = some newNode)
    (hle : place ≤ tailPlace) (hplace : system.chain[place]? = some currTail)
    (hnode : system.nodes[currTail]? = some node) (hnext : node.next = none) :
    ((system.link newNode currTail).setPc thread (.enqueue (.swingTail newNode currTail))).Shape tailPlace := by
  obtain ⟨rfl, rfl⟩ := h.last hplace hnode hnext hle
  have hunlinked := h.unlinked thread newNode hnew
  have hnewPlace : (system.link newNode currTail).chain[system.linked.length + 1]? = some newNode :=
    List.getElem?_concat_length
  have hchain : system.chain <+: (system.link newNode currTail).chain := List.prefix_append ..
  refine h.rebuild ⟨hchain, Nat.le_refl _⟩ (Nat.le_refl _) (fun _ _ ↦ h.next_link hunlinked hplace) ?_
    (getElem?_mono hchain h.head) (h.taken.trans (List.prefix_append ..))
    (getElem?_mono hchain h.tail) h.head_le ?_ rfl ?_ ?_ nofun
  · exact List.nodup_append.mpr ⟨h.nodup, List.nodup_singleton _, by
      rintro first hfirst _ hsecond rfl
      exact hunlinked.1 (List.mem_singleton.mp hsecond ▸ hfirst)⟩
  · exact Nat.le_of_eq List.length_append
  · refine ⟨system.linked.length, getElem?_mono hchain hplace, ?_⟩
    rintro _ ⟨⟩
    exact hnewPlace
  · intro other node hother hnode
    refine (h.unlinked other node hnode).link ?_ (List.mem_of_getElem? hplace)
    rintro rfl
    exact hother (h.owner other thread node hnode hnew)

end Link

theorem pcs_exchangeTail {spurious : Bool} {expected desired : ℕ} :
    (system.exchangeTail spurious expected desired).pcs = system.pcs := by
  unfold System.exchangeTail
  split <;> rfl

/-- A compare-exchange of `tail` with the successor of what was read there. -/
theorem Shape.exchangeTail (h : system.Shape tailPlace) {expected desired : ℕ}
    (hplace : system.Follows place expected (some desired)) (spurious : Bool) :
    ∃ tailPlace', (system.exchangeTail spurious expected desired).Shape tailPlace' := by
  unfold System.exchangeTail
  split
  · rename_i hsuccess
    obtain rfl := h.place_unique (hsuccess.1 ▸ h.tail) hplace.1
    have hpcs : system.pcs = Function.update system.pcs 0 (system.pcs 0) := (Function.update_eq_self ..).symm
    have hgrows : system.Grows { system with tail := desired } := ⟨List.prefix_refl _, Nat.le_refl _⟩
    refine ⟨tailPlace + 1, h.rebuild hgrows (Nat.le_succ _) h.next h.nodup h.head h.taken
      (hplace.2 desired rfl) (Nat.le_succ_of_le h.head_le) (Nat.le_succ_of_le h.tail_le) hpcs
      ((h.placed 0).mono hgrows (Nat.le_succ _)) (fun other node _ ↦ h.unlinked other node) ?_⟩
    exact fun node hnode ↦ ⟨h.unlinked 0 node hnode, fun other hother hagain ↦
      hother (h.owner other 0 node hagain hnode)⟩
  · exact ⟨tailPlace, h⟩

/-- The compare-exchange of line 115. -/
theorem Shape.unlink (h : system.Shape tailPlace) {currHead next : ℕ} (hlt : place < tailPlace)
    (hplace : system.Follows place currHead (some next)) (hhead : system.head = currHead) :
    ((system.unlink next).setPc thread (.dequeue (.readData currHead next))).Shape tailPlace := by
  obtain rfl := h.place_unique (hhead ▸ h.head) hplace.1
  have hlength : (system.taken ++ [next]).length = system.taken.length + 1 := List.length_append
  have hnext : system.linked[system.taken.length]? = some next := hplace.2 next rfl
  refine h.rebuild ⟨List.prefix_refl _, Nat.le_of_lt (hlength ▸ Nat.lt_succ_self _)⟩ (Nat.le_refl _) h.next h.nodup
    ?_ (prefix_append_singleton h.taken hnext) h.tail (hlength ▸ hlt) h.tail_le rfl ?_
    (fun other node _ ↦ h.unlinked other node) nofun
  · change system.chain[(system.taken ++ [next]).length]? = some next
    rw [hlength]
    exact hplace.2 next rfl
  · exact ⟨system.taken.length, hlength ▸ Nat.lt_succ_self _, hplace⟩

/-! ## The steps -/

/-- A statement of `enqueue`. -/
theorem EnqueueMove.shape {spurious : Bool} {pc : EnqueuePc α} (hmove : system.EnqueueMove thread spurious pc next)
    (h : system.Shape tailPlace) (hpc : system.pcs thread = .enqueue pc) :
    ∃ tailPlace', next.Shape tailPlace' := by
  have hplaced := h.placed thread
  rw [hpc] at hplaced
  cases hmove with
  | allocate data => exact ⟨tailPlace, h.allocate data⟩
  | loadTail newNode =>
    exact ⟨tailPlace, h.setPc ⟨tailPlace, Nat.le_refl _, h.tail, nofun⟩ fun _ hnode ↦ hpc ▸ hnode⟩
  | loadNext newNode currTail node hnode =>
    obtain ⟨place, hle, hfollows⟩ := hplaced
    refine ⟨tailPlace, h.setPc ⟨place, hle, hfollows.1, ?_⟩ fun _ hnode ↦ hpc ▸ hnode⟩
    exact fun _ hnext ↦ (h.next_eq hfollows.1 hnode).symm.trans hnext
  | atEnd newNode =>
    obtain ⟨place, hle, hfollows⟩ := hplaced
    exact ⟨tailPlace, h.setPc ⟨place, hle, hfollows⟩ fun _ hnode ↦ hpc ▸ hnode⟩
  | behind newNode after =>
    obtain ⟨place, hle, hfollows⟩ := hplaced
    exact ⟨tailPlace, h.setPc ⟨place, hfollows⟩ fun _ hnode ↦ hpc ▸ hnode⟩
  | moved | relink => exact ⟨tailPlace, h.setPc trivial fun _ hnode ↦ hpc ▸ hnode⟩
  | link newNode currTail node hnode hnext =>
    obtain ⟨place, hle, hfollows⟩ := hplaced
    exact ⟨tailPlace, h.link (hpc ▸ rfl) hle hfollows.1 hnode hnext⟩
  | swingTail newNode currTail =>
    obtain ⟨place, hfollows⟩ := hplaced
    obtain ⟨tailPlace', hshape⟩ := h.exchangeTail hfollows spurious
    exact ⟨tailPlace', hshape.setPc trivial nofun⟩
  | helpTail newNode currTail after =>
    obtain ⟨place, hfollows⟩ := hplaced
    obtain ⟨tailPlace', hshape⟩ := h.exchangeTail hfollows spurious
    refine ⟨tailPlace', hshape.setPc trivial fun _ hnode ↦ ?_⟩
    rw [pcs_exchangeTail, hpc]
    exact hnode
  | returns => exact ⟨tailPlace, h.move ⟨rfl, rfl, rfl, rfl, rfl⟩ rfl trivial nofun⟩

/-- A call into the domain. -/
theorem Shape.callDomain (h : system.Shape tailPlace) {op : Op ℕ} (hstep : system.callDomain thread op pc' = some next)
    (hplaced : pc'.Placed system tailPlace) (howned : pc'.owned? = none) :
    ∃ tailPlace', next.Shape tailPlace' := by
  obtain ⟨domain, -, rfl⟩ := Option.map_eq_some_iff.mp hstep
  refine ⟨tailPlace, h.move ⟨rfl, rfl, rfl, rfl, rfl⟩ rfl hplaced ?_⟩
  rw [howned]
  nofun

/-- A statement of `dequeue`. -/
theorem DequeueMove.shape {spurious : Bool} {pc : DequeuePc α} (hmove : system.DequeueMove thread spurious pc next)
    (h : system.Shape tailPlace) (hpc : system.pcs thread = .dequeue pc) :
    ∃ tailPlace', next.Shape tailPlace' := by
  have hplaced := h.placed thread
  rw [hpc] at hplaced
  cases hmove with
  | constructHead hcall | constructNext hcall => exact h.callDomain hcall trivial rfl
  | loadHead => exact ⟨tailPlace, h.setPc ⟨_, Nat.le_refl _, h.head, nofun⟩ nofun⟩
  | protectHead currHead hcall => exact h.callDomain hcall hplaced rfl
  | protectNext currHead currTail after hcall => exact h.callDomain hcall hplaced rfl
  | confirmed => exact ⟨tailPlace, h.setPc hplaced nofun⟩
  | moved | empty | movedAgain | retry => exact ⟨tailPlace, h.setPc trivial nofun⟩
  | loadTail currHead =>
    obtain ⟨place, hle, hfollows⟩ := hplaced
    refine ⟨tailPlace, h.setPc ⟨place, hle, hfollows, tailPlace, ?_⟩ nofun⟩
    exact ⟨Nat.le_trans hle h.head_le, Nat.le_refl _, h.tail, nofun⟩
  | loadNext currHead currTail node hnode =>
    obtain ⟨place, hle, hfollows, hbehind⟩ := hplaced
    refine ⟨tailPlace, h.setPc ⟨place, hle, ⟨hfollows.1, ?_⟩, hbehind⟩ nofun⟩
    exact fun _ hnext ↦ (h.next_eq hfollows.1 hnode).symm.trans hnext
  | behind after =>
    obtain ⟨place, hle, hfollows, -⟩ := hplaced
    exact ⟨tailPlace, h.setPc ⟨place, hfollows⟩ nofun⟩
  | ready currTail after hne =>
    obtain ⟨place, hle, hfollows, behind, hle', hbehind, htail⟩ := hplaced
    -- `curr_tail` was read after `curr_head` and is another node, so it is further on
    have hplaces : place ≠ behind := by
      rintro rfl
      exact hne (Option.some.inj (hfollows.1.symm.trans htail.1))
    exact ⟨tailPlace, h.setPc ⟨place, by omega, hfollows⟩ nofun⟩
  | helpTail currTail after =>
    obtain ⟨place, hfollows⟩ := hplaced
    obtain ⟨tailPlace', hshape⟩ := h.exchangeTail hfollows spurious
    exact ⟨tailPlace', hshape.setPc trivial nofun⟩
  | unlink after =>
    obtain ⟨place, hlt, hfollows⟩ := hplaced
    exact ⟨tailPlace, h.unlink hlt hfollows rfl⟩
  | readData currHead after node hnode =>
    obtain ⟨place, hlt, hfollows⟩ := hplaced
    exact ⟨tailPlace, h.setPc ⟨place, hlt, hfollows.forget⟩ nofun⟩
  | releaseHead retired hcall =>
    refine h.callDomain hcall ?_ rfl
    cases retired <;> exact hplaced
  | releaseEmpty hcall => exact h.callDomain hcall trivial rfl
  | releaseNext currHead result hcall => exact h.callDomain hcall hplaced rfl
  | retire currHead result hcall => exact h.callDomain hcall trivial rfl
  | returns result => exact ⟨tailPlace, h.move ⟨rfl, rfl, rfl, rfl, rfl⟩ rfl trivial nofun⟩

end System

theorem shape_of_step {system next : System α} {tailPlace : ℕ} {action : Action α} (h : system.Shape tailPlace)
    (hstep : step system action = some next) : ∃ tailPlace', next.Shape tailPlace' := by
  cases stepMove_of_step hstep with
  | callEnqueue | callDequeue => exact ⟨tailPlace, h.move ⟨rfl, rfl, rfl, rfl, rfl⟩ rfl trivial nofun⟩
  | enqueue thread spurious pc hpc houtside hmove => exact hmove.shape h hpc
  | dequeue thread spurious pc hpc houtside hmove => exact hmove.shape h hpc
  | maintain _ _ domain | inside _ _ domain => exact ⟨tailPlace, h.setDomain domain⟩

theorem shape_of_run {dummyData : α} {final : System α} {actions : List (Action α)}
    (hrun : run step (System.create dummyData) actions = some final) : ∃ tailPlace, final.Shape tailPlace := by
  refine run_invariant (I := fun system ↦ ∃ tailPlace, system.Shape tailPlace) ?_
    ⟨0, System.shape_create dummyData⟩ hrun
  rintro system action next ⟨tailPlace, h⟩ hstep
  exact shape_of_step h hstep

end TinyReactor.Queue
