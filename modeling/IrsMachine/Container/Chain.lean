import IrsMachine.Container.Model
import Mathlib.Data.List.Perm.Subperm

/-!
# The nodes of a list

A list stands in memory as one segment of nodes, from its first element to its end node. What a
change of links does to the memory is said in terms of such segments.
-/

namespace IrsMachine
open Except LinkedSegments

variable {α : Type}

/-! ### Memory -/

namespace Heap
variable {heap : Heap α}

theorem modify_ok {address : Nat} {node : IrsStructNode α} (here : heap.nodes address = some node)
    (change : IrsStructNode α → IrsStructNode α) :
    ∃ heap', heap.modify (some address) change = .ok heap' ∧
      heap'.nodes = Function.update heap.nodes address (some (change node)) ∧
      heap'.fresh = heap.fresh := by
  unfold modify
  dsimp only
  split
  · rename_i absent
    rw [here] at absent
    cases absent
  · rename_i node' present
    obtain rfl : node = node' := Option.some.inj (here.symm.trans present)
    exact ⟨_, rfl, rfl, rfl⟩

theorem setNext_ok {address : Nat} (present : (heap.nodes address).isSome) (target : NodePointer) :
    ∃ heap', heap.setNext (some address) target = .ok heap' ∧
      heap'.nodes = LinkedSegments.setNext heap.nodes (some address) target ∧
      heap'.fresh = heap.fresh := by
  obtain ⟨node, here⟩ := Option.isSome_iff_exists.mp present
  obtain ⟨heap', run, nodes, fresh⟩ := modify_ok here fun node => { node with next := target }
  refine ⟨heap', run, ?_, fresh⟩
  rw [nodes, LinkedSegments.setNext, here, Option.map_some]

theorem setPrev_ok {address : Nat} (present : (heap.nodes address).isSome) (target : NodePointer) :
    ∃ heap', heap.setPrev (some address) target = .ok heap' ∧
      heap'.nodes = LinkedSegments.setPrev heap.nodes (some address) target ∧
      heap'.fresh = heap.fresh := by
  obtain ⟨node, here⟩ := Option.isSome_iff_exists.mp present
  obtain ⟨heap', run, nodes, fresh⟩ := modify_ok here fun node => { node with prev := target }
  refine ⟨heap', run, ?_, fresh⟩
  rw [nodes, LinkedSegments.setPrev, here, Option.map_some]

theorem read_ok {address : Nat} {node : IrsStructNode α} (here : heap.nodes address = some node) :
    heap.read (some address) = .ok node := by
  unfold read
  dsimp only
  rw [here]

theorem free_ok {address : Nat} (present : (heap.nodes address).isSome) :
    ∃ heap', heap.free (some address) = .ok heap' ∧
      heap'.nodes = Function.update heap.nodes address none ∧
      heap'.fresh = heap.fresh := by
  obtain ⟨node, here⟩ := Option.isSome_iff_exists.mp present
  unfold free
  dsimp only
  split
  · rename_i absent
    rw [here] at absent
    cases absent
  · exact ⟨_, rfl, rfl, rfl⟩

theorem lt_fresh {address : Nat} (present : (heap.nodes address).isSome) :
    address < heap.fresh := by
  by_contra beyond
  rw [heap.unused address (by omega)] at present
  cases present

theorem init_eq (heap : Heap α) (data : Option α) :
    ∃ heap', irsStructNodeInit heap data = (heap', heap.fresh) ∧
      heap'.nodes = Function.update heap.nodes heap.fresh
        (some { next := none, prev := none, data }) ∧
      heap'.fresh = heap.fresh + 1 :=
  ⟨_, rfl, rfl, rfl⟩

/-- What an operation on the nodes at some addresses leaves alone. -/
structure Frame (footprint : List Nat) (heap heap' : Heap α) : Prop where
  fresh : heap.fresh ≤ heap'.fresh
  others : ∀ address < heap.fresh, address ∉ footprint → heap'.nodes address = heap.nodes address

end Heap

/-! ### Lists -/

/-- The nodes of a list with an end node: its elements, and the end node without data. -/
abbrev nodesOf (elements : List (Nat × Option α)) (endNode : Nat) : List (Nat × Option α) :=
  elements ++ [(endNode, none)]

/-- A list with an end node. Without elements it begins nowhere. -/
structure Chain (heap : Heap α) (list : IrsList) (endNode : Nat)
    (elements : List (Nat × Option α)) : Prop where
  ends : list.end' = some endNode
  different : (addresses (nodesOf elements endNode)).Nodup
  segment : Segment heap.nodes none (if elements = [] then some endNode else list.begin)
    (nodesOf elements endNode) (some endNode) none
  empty : elements = [] → list.begin = none
  size : list.size = UInt32.ofNat elements.length

def Listed (heap : Heap α) (list : IrsList) (elements : List (Nat × Option α)) : Prop :=
  (list = irsListInit ∧ elements = []) ∨ ∃ endNode, Chain heap list endNode elements

section
variable {heap heap' : Heap α} {list list' : IrsList} {endNode : Nat}
  {elements before after : List (Nat × Option α)}
  {middle next : NodePointer}

theorem Chain.lt_fresh (chain : Chain heap list endNode elements) :
    ∀ address ∈ addresses (nodesOf elements endNode), address < heap.fresh := by
  intro address member
  exact Heap.lt_fresh (chain.segment.present member)

/-- A walk along the nodes of a list fits into the memory that was given out. -/
theorem Chain.length_lt (chain : Chain heap list endNode elements) :
    elements.length < heap.fresh := by
  have inside : addresses (nodesOf elements endNode) ⊆ List.range heap.fresh := by
    intro address member
    exact List.mem_range.mpr (chain.lt_fresh address member)
  have shorter := (List.subperm_of_subset chain.different inside).length_le
  rw [List.length_range, addresses, List.length_map, List.length_append] at shorter
  exact shorter

theorem Chain.split (chain : Chain heap list endNode (before ++ after))
    (goesOn : before ++ after ≠ []) :
    ∃ middle next, Segment heap.nodes none list.begin before middle next ∧
      Segment heap.nodes middle next (nodesOf after endNode) (some endNode) none := by
  have segment := chain.segment
  rw [if_neg goesOn, nodesOf, List.append_assoc] at segment
  exact segment_append.mp segment

/-- The links of a list that is not changed otherwise make it one element longer. -/
theorem Chain.insert (data : Option α) (chain : Chain heap list endNode (before ++ after))
    (left : Segment heap.nodes none list.begin before middle next)
    (right : Segment heap.nodes middle next (nodesOf after endNode) (some endNode) none)
    (nodes : heap'.nodes = insertCell heap.nodes middle next heap.fresh data)
    (begin : list'.begin = if before = [] then some heap.fresh else list.begin)
    (ends : list'.end' = list.end') (size : list'.size = list.size + 1) :
    Chain heap' list' endNode (before ++ (heap.fresh, data) :: after) := by
  have different : (addresses (before ++ nodesOf after endNode)).Nodup := by
    rw [nodesOf, ← List.append_assoc]
    exact chain.different
  have fresh : heap.fresh ∉ addresses (before ++ nodesOf after endNode) := by
    intro member
    rw [nodesOf, ← List.append_assoc] at member
    exact absurd (chain.lt_fresh _ member) (by omega)
  have some' : before ++ (heap.fresh, data) :: after ≠ [] := by simp
  refine ⟨ends.trans chain.ends, ?_, ?_, fun nothing => absurd nothing some', ?_⟩
  · have longer : (heap.fresh :: addresses (before ++ nodesOf after endNode)).Nodup :=
      List.nodup_cons.mpr ⟨fresh, different⟩
    refine longer.perm ?_ 
    simp only [nodesOf, addresses, List.map_append, List.map_cons, List.append_assoc,
      List.cons_append]
    exact List.perm_middle.symm
  · rw [if_neg some', begin, nodes, nodesOf, List.append_assoc, List.cons_append]
    exact left.insertCell data right different fresh (by simp)
  · rw [size, chain.size]
    simp only [List.length_append, List.length_cons, ← Nat.add_assoc, UInt32.ofNat_add]
    rfl

theorem Chain.frame_insert (data : Option α) (chain : Chain heap list endNode (before ++ after))
    (left : Segment heap.nodes none list.begin before middle next)
    (right : Segment heap.nodes middle next (nodesOf after endNode) (some endNode) none)
    (nodes : heap'.nodes = insertCell heap.nodes middle next heap.fresh data)
    (fresh : heap'.fresh = heap.fresh + 1) :
    Heap.Frame (addresses (nodesOf (before ++ after) endNode)) heap heap' := by
  refine ⟨by omega, fun address old outside => ?_⟩
  simp only [nodesOf, addresses, List.map_append, List.append_assoc, List.mem_append,
    not_or] at outside
  rw [nodes]
  apply insertCell_other
  · omega
  · rintro rfl
    cases before with
    | nil => cases left.2
    | cons cell before =>
      obtain ⟨other, inside, same⟩ := left.last_eq (List.cons_ne_nil _ _)
      cases same
      exact outside.1 inside
  · rintro rfl
    obtain ⟨other, inside, same⟩ := right.first_eq (by simp)
    cases same
    rw [nodesOf, addresses, List.map_append, List.mem_append] at inside
    exact inside.elim outside.2.1 outside.2.2

/-! ### Pushing -/

/-- What a push does: a list that holds one element more, without a change elsewhere. -/
structure Pushed (heap heap' : Heap α) (list' : IrsList) (endNode : Nat)
    (before elements : List (Nat × Option α)) : Prop where
  chain : Chain heap' list' endNode elements
  frame : Heap.Frame (addresses (nodesOf before endNode)) heap heap'

theorem irsListPush_ok {element : Nat × Option α} (data : Option α)
    (chain : Chain heap list endNode (before ++ element :: after)) :
    ∃ heap' list', irsListPush heap list (some element.1) data = .ok (heap', list', heap.fresh) ∧
      Pushed heap heap' list' endNode (before ++ element :: after)
        (before ++ element :: (heap.fresh, data) :: after) := by
  obtain ⟨address, value⟩ := element
  have regroup : ∀ rest, before ++ (address, value) :: rest =
      (before ++ [(address, value)]) ++ rest := by simp
  rw [regroup] at chain
  obtain ⟨middle, next, left, right⟩ := chain.split (by simp)
  obtain ⟨previous, _, -, only'⟩ := segment_append.mp left
  obtain ⟨-, rfl, here⟩ := segment_singleton.mp only'
  obtain ⟨start, inside, rfl⟩ := right.first_eq (by simp)
  have present : (heap.nodes address).isSome := by rw [here]; rfl
  have presentNext := right.present inside
  have notNew : address ≠ heap.fresh := Nat.ne_of_lt (Heap.lt_fresh present)
  have nextNotNew : start ≠ heap.fresh := Nat.ne_of_lt (Heap.lt_fresh presentNext)
  -- each write finds its node
  obtain ⟨heap₁, made, nodes₁, fresh₁⟩ := Heap.init_eq heap data
  obtain ⟨heap₂, run₂, nodes₂, fresh₂⟩ := Heap.setNext_ok (show (heap₁.nodes address).isSome by
    rw [nodes₁, Function.update_of_ne notNew]; exact present) (some heap.fresh)
  obtain ⟨heap₃, run₃, nodes₃, fresh₃⟩ := Heap.setPrev_ok (show (heap₂.nodes heap.fresh).isSome by
    rw [nodes₂, isSome_setNext, nodes₁, Function.update_self]; rfl) (some address)
  obtain ⟨heap₄, run₄, nodes₄, fresh₄⟩ := Heap.setNext_ok (show (heap₃.nodes heap.fresh).isSome by
    rw [nodes₃, isSome_setPrev, nodes₂, isSome_setNext, nodes₁, Function.update_self];
      rfl) (some start)
  obtain ⟨heap₅, run₅, nodes₅, fresh₅⟩ := Heap.setPrev_ok (show (heap₄.nodes start).isSome by
    rw [nodes₄, isSome_setNext, nodes₃, isSome_setPrev, nodes₂, isSome_setNext, nodes₁,
      Function.update_of_ne nextNotNew]
    exact presentNext) (some heap.fresh)
  have nodes : heap₅.nodes = insertCell heap.nodes (some address) (some start) heap.fresh data := by
    rw [nodes₅, nodes₄, nodes₃, nodes₂, nodes₁, insertCell_after data (by simpa using notNew)
      (by simpa using nextNotNew)]
  refine ⟨heap₅, { list with size := list.size + 1 }, ?_, ?_, ?_⟩
  · simp only [irsListPush, Heap.read_ok here, ok_bind, made, run₂, run₃, run₄, run₅]
  · rw [regroup]
    exact chain.insert data left right nodes (by simp) rfl rfl
  · rw [regroup]
    exact chain.frame_insert data left right nodes (by omega)

theorem irsListPushFront_ok {element : Nat × Option α} (data : Option α)
    (chain : Chain heap list endNode (before ++ element :: after)) :
    ∃ heap' list', irsListPushFront heap list (some element.1) data =
      .ok (heap', list', heap.fresh) ∧
      Pushed heap heap' list' endNode (before ++ element :: after)
        (before ++ (heap.fresh, data) :: element :: after) := by
  obtain ⟨address, value⟩ := element
  obtain ⟨middle, next, left, right⟩ := chain.split (by simp)
  obtain ⟨rfl, following, here, -⟩ := id right
  have present : (heap.nodes address).isSome := by rw [here]; rfl
  have notNew : address ≠ heap.fresh := Nat.ne_of_lt (Heap.lt_fresh present)
  obtain ⟨heap₁, made, nodes₁, fresh₁⟩ := Heap.init_eq heap data
  obtain ⟨heap₂, run₂, nodes₂, fresh₂⟩ := Heap.setPrev_ok (show (heap₁.nodes address).isSome by
    rw [nodes₁, Function.update_of_ne notNew]; exact present) (some heap.fresh)
  obtain ⟨heap₃, run₃, nodes₃, fresh₃⟩ := Heap.setNext_ok (show (heap₂.nodes heap.fresh).isSome by
    rw [nodes₂, isSome_setPrev, nodes₁, Function.update_self]; rfl) (some address)
  obtain ⟨heap₄, run₄, nodes₄, fresh₄⟩ := Heap.setPrev_ok (show (heap₃.nodes heap.fresh).isSome by
    rw [nodes₃, isSome_setNext, nodes₂, isSome_setPrev, nodes₁, Function.update_self]; rfl) middle
  cases before with
  | nil =>
    obtain ⟨-, rfl⟩ := id left
    have nodes : heap₄.nodes = insertCell heap.nodes none (some address) heap.fresh data := by
      rw [nodes₄, nodes₃, nodes₂, nodes₁]
      -- there is no node before it whose link would change
      show LinkedSegments.setNext _ none (some heap.fresh) = _
      exact insertCell_before data (by simp) (by simpa using notNew)
    refine ⟨heap₄, { list with begin := some heap.fresh, size := list.size + 1 }, ?_, ?_, ?_⟩
    · simp only [irsListPushFront, Heap.read_ok here, ok_bind, made, run₂, run₃, run₄]
    · exact chain.insert data left right nodes rfl rfl rfl
    · exact chain.frame_insert data left right nodes (by omega)
  | cons cell before =>
    obtain ⟨last, inside, rfl⟩ := left.last_eq (List.cons_ne_nil _ _)
    have presentLast := left.present inside
    have lastNotNew : last ≠ heap.fresh := Nat.ne_of_lt (Heap.lt_fresh presentLast)
    obtain ⟨heap₅, run₅, nodes₅, fresh₅⟩ := Heap.setNext_ok (show (heap₄.nodes last).isSome by
      rw [nodes₄, isSome_setPrev, nodes₃, isSome_setNext, nodes₂, isSome_setPrev, nodes₁,
        Function.update_of_ne lastNotNew]
      exact presentLast) (some heap.fresh)
    have nodes : heap₅.nodes = insertCell heap.nodes (some last)
        (some address) heap.fresh data := by
      rw [nodes₅, nodes₄, nodes₃, nodes₂, nodes₁]
      exact insertCell_before data (by simpa using lastNotNew) (by simpa using notNew)
    refine ⟨heap₅, { list with size := list.size + 1 }, ?_, ?_, ?_⟩
    · simp only [irsListPushFront, Heap.read_ok here, ok_bind, made, run₂, run₃, run₄, run₅]
    · exact chain.insert data left right nodes rfl rfl rfl
    · exact chain.frame_insert data left right nodes (by omega)

/-- The first element and the end node are linked to each other, whatever the end node was. -/
theorem Heap.linkFirst_ok {begin : Nat} {data : Option α} (different : begin ≠ endNode)
    (here : heap.nodes begin = some { next := none, prev := none, data })
    (presentEnd : (heap.nodes endNode).isSome) :
    ∃ heap₁ heap₂ heap₃ heap', heap.setNext (some begin) (some endNode) = .ok heap₁ ∧
      heap₁.setPrev (some endNode) (some begin) = .ok heap₂ ∧
      heap₂.setNext (some endNode) none = .ok heap₃ ∧
      heap₃.setData (some endNode) none = .ok heap' ∧
      Segment heap'.nodes none (some begin) [(begin, data), (endNode, none)] (some endNode) none ∧
      heap'.fresh = heap.fresh ∧
      ∀ address, address ≠ begin → address ≠ endNode →
      heap'.nodes address = heap.nodes address := by
  obtain ⟨old, hereEnd⟩ := Option.isSome_iff_exists.mp presentEnd
  obtain ⟨heap₁, run₁, nodes₁, fresh₁⟩ :=
    Heap.modify_ok here fun node => { node with next := some endNode }
  have end₁ : heap₁.nodes endNode = some old := by
    rw [nodes₁, Function.update_of_ne different.symm, hereEnd]
  obtain ⟨heap₂, run₂, nodes₂, fresh₂⟩ :=
    Heap.modify_ok end₁ fun node => { node with prev := some begin }
  have end₂ : heap₂.nodes endNode = some { old with prev := some begin } := by
    rw [nodes₂, Function.update_self]
  obtain ⟨heap₃, run₃, nodes₃, fresh₃⟩ := Heap.modify_ok end₂ fun node => { node with next := none }
  have end₃ : heap₃.nodes endNode = some { old with prev := some begin, next := none } := by
    rw [nodes₃, Function.update_self]
  obtain ⟨heap₄, run₄, nodes₄, fresh₄⟩ := Heap.modify_ok end₃ fun node => { node with data := none }
  refine ⟨heap₁, heap₂, heap₃, heap₄, run₁, run₂, run₃, run₄,
    ⟨rfl, some endNode, ?_, rfl, none, ?_, rfl, rfl⟩, by omega, ?_⟩
  · rw [nodes₄, nodes₃, nodes₂, nodes₁, Function.update_of_ne different,
      Function.update_of_ne different, Function.update_of_ne different, Function.update_self]
  · rw [nodes₄, Function.update_self]
  · intro address notBegin notEnd
    rw [nodes₄, nodes₃, nodes₂, nodes₁, Function.update_of_ne notEnd, Function.update_of_ne notEnd,
      Function.update_of_ne notEnd, Function.update_of_ne notBegin]

/-- The first element of a list that was never used makes its end node, too. -/
theorem irsListPushFirst_init (heap : Heap α) (data : Option α) :
    ∃ heap' list', irsListPushFirst heap irsListInit data = .ok (heap', list', heap.fresh) ∧
      Chain heap' list' (heap.fresh + 1) [(heap.fresh, data)] ∧ Heap.Frame [] heap heap' := by
  obtain ⟨heap₁, made₁, nodes₁, fresh₁⟩ := Heap.init_eq heap data
  obtain ⟨heap₂, made₂, nodes₂, fresh₂⟩ : ∃ heap₂,
    heap₁.new { next := none, prev := none, data := none } = (heap₂, heap₁.fresh) ∧
      heap₂.nodes = Function.update heap₁.nodes heap₁.fresh
        (some { next := none, prev := none, data := none }) ∧
      heap₂.fresh = heap₁.fresh + 1 := ⟨_, rfl, rfl, rfl⟩
  rw [fresh₁] at nodes₂ made₂
  have here : heap₂.nodes heap.fresh = some { next := none, prev := none, data } := by
    rw [nodes₂, Function.update_of_ne (by omega), nodes₁, Function.update_self]
  have presentEnd : (heap₂.nodes (heap.fresh + 1)).isSome := by
    rw [nodes₂, Function.update_self]; rfl
  obtain ⟨_, _, _, heap', run₁, run₂, run₃, run₄, segment, fresh, others⟩ :=
    Heap.linkFirst_ok (by omega) here presentEnd
  refine ⟨heap', { begin := some heap.fresh, end' := some (heap.fresh + 1), size := 1 }, ?_, ?_, ?_⟩
  · simp only [irsListPushFirst, irsListInit, made₁, made₂, Prod.map, id, run₁, run₂, run₃,
      run₄, ok_bind]
  · exact ⟨rfl, by simp, segment, nofun, rfl⟩
  · refine ⟨by omega, fun address old _ => ?_⟩
    rw [others address (by omega) (by omega), nodes₂, Function.update_of_ne (by omega), nodes₁,
      Function.update_of_ne (by omega)]

theorem irsListPushFirst_ok (data : Option α) (chain : Chain heap list endNode []) :
    ∃ heap' list', irsListPushFirst heap list data = .ok (heap', list', heap.fresh) ∧
      Pushed heap heap' list' endNode [] [(heap.fresh, data)] := by
  have presentEnd : (heap.nodes endNode).isSome := chain.segment.present (by simp)
  have different : heap.fresh ≠ endNode := (Nat.ne_of_lt (Heap.lt_fresh presentEnd)).symm
  obtain ⟨heap₁, made₁, nodes₁, fresh₁⟩ := Heap.init_eq heap data
  obtain ⟨_, _, _, heap', run₁, run₂, run₃, run₄, segment, fresh, others⟩ :=
    Heap.linkFirst_ok different (by rw [nodes₁, Function.update_self])
      (by rw [nodes₁, Function.update_of_ne different.symm]; exact presentEnd)
  refine ⟨heap', { begin := some heap.fresh, end' := some endNode, size := 1 }, ?_, ?_, ?_⟩
  · simp only [irsListPushFirst, chain.ends, made₁, run₁, run₂, run₃, run₄, ok_bind]
  · exact ⟨rfl, by simpa using different, segment, nofun, rfl⟩
  · refine ⟨by omega, fun address old outside => ?_⟩
    have notEnd : address ≠ endNode := by simpa using outside
    rw [others address (by omega) notEnd, nodes₁, Function.update_of_ne (by omega)]

/-- The end node points back to the last element. -/
theorem Chain.endNode_eq (chain : Chain heap list endNode elements) :
    ∃ last, heap.nodes endNode = some { next := none, prev := last, data := none } ∧
      (last = none ↔ elements = []) ∧
      ∀ init element, elements = init ++ [element] → last = some element.1 := by
  obtain ⟨last, next, left, right⟩ := segment_append.mp chain.segment
  obtain ⟨-, -, here⟩ := segment_singleton.mp right
  refine ⟨last, here, ?_, ?_⟩
  · constructor
    · rintro rfl
      by_contra goesOn
      obtain ⟨address, -, same⟩ := left.last_eq goesOn
      cases same
    · rintro rfl
      exact left.2
  · rintro init element rfl
    obtain ⟨_, _, -, only'⟩ := segment_append.mp left
    exact (segment_singleton.mp only').2.1

theorem irsListPushBack_ok (data : Option α) (chain : Chain heap list endNode elements) :
    ∃ heap' list', irsListPushBack heap list data = .ok (heap', list', heap.fresh) ∧
      Pushed heap heap' list' endNode elements (elements ++ [(heap.fresh, data)]) := by
  obtain ⟨last, here, -, lastIs⟩ := chain.endNode_eq
  have step : irsListPushBack heap list data = irsListPush heap list last data := by
    unfold irsListPushBack
    simp only [chain.ends, Heap.read_ok here, ok_bind]
  rw [step]
  rcases List.eq_nil_or_concat elements with rfl | ⟨init, element, rfl⟩
  · obtain rfl : last = none := by
      obtain ⟨last', here', nothing, -⟩ := chain.endNode_eq
      rw [here] at here'
      cases here'
      exact nothing.mpr rfl
    exact irsListPushFirst_ok data chain
  · rw [List.concat_eq_append] at *
    rw [lastIs init element rfl, List.append_assoc]
    exact irsListPush_ok data chain

/-- A list that was never used gets its end node. -/
theorem irsListPushBack_listed (data : Option α) (lists : Listed heap list elements) :
    ∃ heap' list' endNode, irsListPushBack heap list data = .ok (heap', list', heap.fresh) ∧
      Chain heap' list' endNode (elements ++ [(heap.fresh, data)]) ∧
      Heap.Frame (addresses elements ++ list.end'.toList) heap heap' ∧
      (list.end' = some endNode ∨ list.end' = none ∧ heap.fresh ≤ endNode) := by
  rcases lists with ⟨rfl, rfl⟩ | ⟨endNode, chain⟩
  · obtain ⟨heap', list', run, chain, frame⟩ := irsListPushFirst_init heap data
    exact ⟨heap', list', heap.fresh + 1, run, chain, frame, .inr ⟨rfl, by omega⟩⟩
  · obtain ⟨heap', list', run, chain', frame⟩ := irsListPushBack_ok data chain
    refine ⟨heap', list', endNode, run, chain', ?_, .inl chain.ends⟩
    rw [chain.ends]
    simpa [nodesOf] using frame

end

end IrsMachine
