import IrsMachine.Container.Chain
import Mathlib.Data.List.Induction

/-!
# Walking along a list, and inserting into it

What an iterator meets, forwards and backwards, is the sequence of elements; the three ways to
insert into a list insert into that sequence.
-/

namespace IrsMachine
open Except LinkedSegments

variable {α : Type}

/-! ### Iterators -/

section
variable {heap : Heap α} {list : IrsList} {endNode : Nat} {elements cells : List (Nat × Option α)}
  {it : IrsIterator} {before first last stop : NodePointer} {address : Nat} {node : IrsStructNode α}

theorem irsIteratorNext_none (begins : it.begin = none) :
    irsIteratorNext heap it = .ok (false, it) := by
  unfold irsIteratorNext
  rw [if_pos begins]

theorem irsIteratorNext_first (begins : it.begin ≠ none) (current : it.current = none) :
    irsIteratorNext heap it = .ok
      (decide (it.begin ≠ it.end'), { it with current := it.begin }) := by
  unfold irsIteratorNext
  rw [if_neg begins, current]

theorem irsIteratorNext_at (here : heap.nodes address = some node) (begins : it.begin ≠ none)
    (current : it.current = some address) :
    irsIteratorNext heap it = .ok
      (decide (node.next ≠ it.end'), { it with current := node.next }) := by
  unfold irsIteratorNext
  rw [if_neg begins, current]
  simp only [Heap.read_ok here, ok_bind]

/-- An iterator that goes backwards begins before the end node. -/
theorem irsIteratorPrev_first (here : heap.nodes address = some node)
    (ends : it.end' = some address) (current : it.current = none) :
    irsIteratorPrev heap it = .ok
      (decide (node.prev ≠ none), { it with current := node.prev }) := by
  unfold irsIteratorPrev
  rw [if_neg (by rw [ends]; exact Option.some_ne_none _), current, ends]
  simp only [Heap.read_ok here, ok_bind]

theorem irsIteratorPrev_at (here : heap.nodes address = some node) (ends : it.end' ≠ none)
    (current : it.current = some address) :
    irsIteratorPrev heap it = .ok
      (decide (node.prev ≠ none), { it with current := node.prev }) := by
  unfold irsIteratorPrev
  rw [if_neg ends, current]
  simp only [Heap.read_ok here, ok_bind]

theorem irsIteratorGet_at (here : heap.nodes address = some node)
    (current : it.current = some address) :
    irsIteratorGet heap it = .ok node.data := by
  unfold irsIteratorGet
  rw [current]
  simp only [Heap.read_ok here, ok_bind]

/-- From an iterator whose next node is the first one of a segment up to the end. -/
theorem visit_next (segment : Segment heap.nodes before first cells last it.end')
    (outside : ∀ address ∈ addresses cells, it.end' ≠ some address) (begins : it.begin ≠ none)
    (step : irsIteratorNext heap it =
      .ok (decide (first ≠ it.end'), { it with current := first })) :
    visit (irsIteratorNext heap) (cells.length + 1) it =
      .ok (addresses cells, { it with current := it.end' }) := by
  induction cells generalizing before first it with
  | nil =>
    obtain ⟨rfl, -⟩ := segment
    unfold visit
    rw [step, ok_bind]
    simp
  | cons cell cells ih =>
    obtain ⟨address, data⟩ := cell
    obtain ⟨rfl, next, here, rest⟩ := segment
    have more : decide (some address ≠ it.end') = true :=
      decide_eq_true (outside address (by simp)).symm
    have step' : irsIteratorNext heap { it with current := some address } =
        .ok (decide (next ≠ it.end'), { it with current := next }) :=
        irsIteratorNext_at here begins rfl
    have rest' : visit (irsIteratorNext heap) (cells.length + 1)
        { it with current := some address } =
        .ok (addresses cells, { it with current := it.end' }) :=
      ih rest (fun other member => outside other (List.mem_cons_of_mem _ member)) begins step'
    rw [List.length_cons]
    unfold visit
    rw [step, ok_bind]
    dsimp only
    rw [if_pos more, rest', ok_bind]
    rfl

theorem visit_prev (segment : Segment heap.nodes none first cells last stop) (ends : it.end' ≠ none)
    (step : irsIteratorPrev heap it = .ok (decide (last ≠ none), { it with current := last })) :
    visit (irsIteratorPrev heap) (cells.length + 1) it =
      .ok ((addresses cells).reverse, { it with current := none }) := by
  induction cells using List.reverseRecOn generalizing last stop it with
  | nil =>
    obtain ⟨-, rfl⟩ := segment
    unfold visit
    rw [step, ok_bind]
    simp
  | append_singleton cells cell ih =>
    obtain ⟨address, data⟩ := cell
    obtain ⟨previous, next, left, only'⟩ := segment_append.mp segment
    obtain ⟨-, rfl, here⟩ := segment_singleton.mp only'
    have step' : irsIteratorPrev heap { it with current := some address } =
        .ok (decide (previous ≠ none), { it with current := previous }) :=
        irsIteratorPrev_at here ends rfl
    have rest' : visit (irsIteratorPrev heap) (cells.length + 1)
        { it with current := some address } =
        .ok ((addresses cells).reverse, { it with current := none }) := ih left ends step'
    rw [List.length_append, List.length_singleton]
    unfold visit
    rw [step, ok_bind]
    dsimp only
    rw [if_pos (by simp), rest', ok_bind]
    simp

/-- What iterators meet on a list: its elements, forwards up to the end node, backwards until there
is nothing before the first one. -/
structure Traversed (heap : Heap α) (list : IrsList) (elements : List (Nat × Option α)) : Prop where
  begins : list.begin = elements.head?.map Prod.fst
  forwards : visit (irsIteratorNext heap) (elements.length + 1) (irsListIterator list) =
    .ok (addresses elements,
      { irsListIterator list with current := if elements = [] then none else list.end' })
  backwards : visit (irsIteratorPrev heap) (elements.length + 1) (irsListReverseIterator list) =
    .ok ((addresses elements).reverse, { irsListReverseIterator list with current := none })
  data : ∀ element ∈ elements,
    irsIteratorGet heap { irsListIterator list with current := some element.1 } = .ok element.2
  different : (addresses elements).Nodup

theorem Segment.data_eq (segment : Segment heap.nodes before first cells last stop)
    {element : Nat × Option α} (member : element ∈ cells) :
    ∃ node, heap.nodes element.1 = some node ∧ node.data = element.2 := by
  obtain ⟨left, right, rfl⟩ := List.append_of_mem member
  obtain ⟨_, _, -, -, next, here, -⟩ := segment_append.mp segment
  exact ⟨_, here, rfl⟩

theorem Chain.traversed (chain : Chain heap list endNode elements) :
    Traversed heap list elements := by
  obtain ⟨last, hereEnd, nothing, -⟩ := chain.endNode_eq
  obtain ⟨last', next, left, right⟩ := segment_append.mp chain.segment
  obtain ⟨rfl, -, hereEnd'⟩ := segment_singleton.mp right
  obtain ⟨different, -, apart⟩ := nodup_addresses_append.mp chain.different
  have outside : ∀ address ∈ addresses elements, (irsListIterator list).end' ≠ some address := by
    intro address member same
    obtain rfl : endNode = address := Option.some.inj (chain.ends.symm.trans same)
    exact apart _ member (by simp)
  have data : ∀ element ∈ elements,
      irsIteratorGet heap { irsListIterator list with current := some element.1 } =
      .ok element.2 := by
    intro element member
    obtain ⟨node, here, same⟩ := Segment.data_eq left member
    rw [irsIteratorGet_at here rfl, same]
  have backwards : visit (irsIteratorPrev heap) (elements.length + 1)
      (irsListReverseIterator list) =
      .ok ((addresses elements).reverse, { irsListReverseIterator list with current := none }) := by
    apply visit_prev left
    · show list.end' ≠ none
      rw [chain.ends]
      exact Option.some_ne_none _
    · rw [hereEnd] at hereEnd'
      cases hereEnd'
      exact irsIteratorPrev_first hereEnd chain.ends rfl
  refine ⟨?_, ?_, backwards, data, different⟩
  · cases elements with
    | nil => exact chain.empty rfl
    | cons element elements =>
      rw [if_neg (List.cons_ne_nil _ _)] at left
      exact left.1
  · by_cases goesOn : elements = []
    · subst goesOn
      unfold visit irsIteratorNext irsListIterator irsIteratorInit
      rw [if_pos (chain.empty rfl)]
      simp
    · rw [if_neg goesOn] at left ⊢
      obtain ⟨address, inside, begins⟩ := left.first_eq goesOn
      have begins' : (irsListIterator list).begin ≠ none := by
        show list.begin ≠ none
        rw [begins]
        exact Option.some_ne_none _
      apply visit_next (chain.ends ▸ left) outside begins'
      exact irsIteratorNext_first begins' rfl

theorem Listed.traversed (lists : Listed heap list elements) : Traversed heap list elements := by
  rcases lists with ⟨rfl, rfl⟩ | ⟨endNode, chain⟩
  · exact ⟨rfl, rfl, rfl, nofun, List.nodup_nil⟩
  · exact chain.traversed

end

/-! ### Inserting -/

/-- The calls that insert; a node is an element of the list. -/
inductive Insertion (α : Type) where
  | pushBack (data : Option α)
  | push (node : Nat) (data : Option α)
  | pushFront (node : Nat) (data : Option α)

def insertAfter (node : Nat) (new : Nat × Option α) : List (Nat × Option α) → List (Nat × Option α)
  | [] => []
  | element :: rest =>
    if element.1 = node then element :: new :: rest else element :: insertAfter node new rest

def insertBefore (node : Nat) (new : Nat × Option α) : List (Nat × Option α) → List (Nat × Option α)
  | [] => []
  | element :: rest =>
    if element.1 = node then new :: element :: rest else element :: insertBefore node new rest

/-- A list, and what it should be: the sequence of its elements. -/
structure ListState (α : Type) where
  heap : Heap α
  list : IrsList
  elements : List (Nat × Option α)

namespace Insertion

def call (heap : Heap α) (list : IrsList) : Insertion α → Except Fault (Heap α × IrsList × Nat)
  | pushBack data => irsListPushBack heap list data
  | push node data => irsListPush heap list (some node) data
  | pushFront node data => irsListPushFront heap list (some node) data

def insert (new : Nat) : Insertion α → List (Nat × Option α) → List (Nat × Option α)
  | pushBack data, elements => elements ++ [(new, data)]
  | push node data, elements => insertAfter node (new, data) elements
  | pushFront node data, elements => insertBefore node (new, data) elements

/-- The call is given a node of the list. -/
def At (elements : List (Nat × Option α)) : Insertion α → Prop
  | pushBack _ => True
  | push node _ => node ∈ addresses elements
  | pushFront node _ => node ∈ addresses elements

end Insertion

def insertStep (state : ListState α) (insertion : Insertion α) : Except Fault (ListState α) := do
  let (heap, list, new) ← insertion.call state.heap state.list
  .ok { heap, list, elements := insertion.insert new state.elements }

def insertAll (state : ListState α) (insertions : List (Insertion α)) :
    Except Fault (ListState α) :=
  insertions.foldlM insertStep state

/-- Every call is given a node that is an element when it comes to it. -/
def Admissible (state : ListState α) : List (Insertion α) → Prop
  | [] => True
  | insertion :: insertions => insertion.At state.elements ∧
    ∀ state', insertStep state insertion = .ok state' → Admissible state' insertions

section
variable {heap : Heap α} {list : IrsList} {before after : List (Nat × Option α)}
  {element new : Nat × Option α}

theorem insertAfter_eq (notBefore : element.1 ∉ addresses before) :
    insertAfter element.1 new (before ++ element :: after) = before ++ element :: new :: after := by
  induction before with
  | nil => exact if_pos rfl
  | cons cell before ih =>
    rw [addresses, List.map_cons, List.mem_cons, not_or] at notBefore
    rw [List.cons_append, insertAfter, if_neg (Ne.symm notBefore.1), ih notBefore.2,
      List.cons_append]

theorem insertBefore_eq (notBefore : element.1 ∉ addresses before) :
    insertBefore element.1 new (before ++ element :: after) =
      before ++ new :: element :: after := by
  induction before with
  | nil => exact if_pos rfl
  | cons cell before ih =>
    rw [addresses, List.map_cons, List.mem_cons, not_or] at notBefore
    rw [List.cons_append, insertBefore, if_neg (Ne.symm notBefore.1), ih notBefore.2,
      List.cons_append]

theorem Chain.split_at {endNode node : Nat} {elements : List (Nat × Option α)}
    (chain : Chain heap list endNode elements) (member : node ∈ addresses elements) :
    ∃ before element after, elements = before ++ element :: after ∧ element.1 = node ∧
      element.1 ∉ addresses before := by
  obtain ⟨element, inside, rfl⟩ := List.mem_map.mp member
  obtain ⟨before, after, rfl⟩ := List.append_of_mem inside
  refine ⟨before, element, after, rfl, rfl, fun again => ?_⟩
  obtain ⟨different, -⟩ := nodup_addresses_append.mp chain.different
  exact (nodup_addresses_append.mp different).2.2 _ again (by simp)

theorem insertStep_listed {state : ListState α} {insertion : Insertion α}
    (lists : Listed state.heap state.list state.elements) (fits : insertion.At state.elements) :
    ∃ state', insertStep state insertion = .ok state' ∧
      Listed state'.heap state'.list state'.elements ∧
      state'.elements.length = state.elements.length + 1 := by
  obtain ⟨heap, list, elements⟩ := state
  dsimp only at lists fits
  cases insertion with
  | pushBack data =>
    obtain ⟨heap', list', endNode, run, chain, -⟩ := irsListPushBack_listed data lists
    refine ⟨⟨heap', list', elements ++ [(heap.fresh, data)]⟩, ?_, .inr ⟨endNode, chain⟩, by simp⟩
    simp only [insertStep, Insertion.call, run, ok_bind, Insertion.insert]
  | push node data =>
    rcases lists with ⟨rfl, rfl⟩ | ⟨endNode, chain⟩
    · cases fits
    obtain ⟨before, element, after, rfl, rfl, notBefore⟩ := chain.split_at fits
    obtain ⟨heap', list', run, pushed⟩ := irsListPush_ok data chain
    refine ⟨⟨heap', list', before ++ element :: (heap.fresh, data) :: after⟩, ?_,
      .inr ⟨endNode, pushed.chain⟩, by simp; omega⟩
    simp only [insertStep, Insertion.call, run, ok_bind, Insertion.insert, insertAfter_eq notBefore]
  | pushFront node data =>
    rcases lists with ⟨rfl, rfl⟩ | ⟨endNode, chain⟩
    · cases fits
    obtain ⟨before, element, after, rfl, rfl, notBefore⟩ := chain.split_at fits
    obtain ⟨heap', list', run, pushed⟩ := irsListPushFront_ok data chain
    refine ⟨⟨heap', list', before ++ (heap.fresh, data) :: element :: after⟩, ?_,
      .inr ⟨endNode, pushed.chain⟩, by simp; omega⟩
    simp only [insertStep, Insertion.call, run, ok_bind, Insertion.insert,
      insertBefore_eq notBefore]

theorem insertAll_listed {state : ListState α} {insertions : List (Insertion α)}
    (lists : Listed state.heap state.list state.elements)
    (admissible : Admissible state insertions) :
    ∃ state', insertAll state insertions = .ok state' ∧
      Listed state'.heap state'.list state'.elements ∧
      state'.elements.length = state.elements.length + insertions.length := by
  induction insertions generalizing state with
  | nil => exact ⟨state, rfl, lists, rfl⟩
  | cons insertion insertions ih =>
    obtain ⟨fits, goesOn⟩ := admissible
    obtain ⟨next, step, lists', longer⟩ := insertStep_listed lists fits
    obtain ⟨state', run, lists'', length⟩ := ih lists' (goesOn next step)
    refine ⟨state', ?_, lists'', by rw [length, longer, List.length_cons]; omega⟩
    unfold insertAll at run ⊢
    rw [List.foldlM_cons, step]
    exact run

theorem Listed.size_eq {elements : List (Nat × Option α)} (lists : Listed heap list elements) :
    list.size = UInt32.ofNat elements.length := by
  rcases lists with ⟨rfl, rfl⟩ | ⟨endNode, chain⟩
  · rfl
  · exact chain.size

/-- After any insertions that are given elements of the list, iterators meet exactly the sequence
in which the same was inserted, and `size` counts its elements up to the width of the counter. -/
theorem insertAll_traversed (heap : Heap α) (insertions : List (Insertion α))
    (admissible : Admissible { heap, list := irsListInit, elements := [] } insertions) :
    ∃ state, insertAll { heap, list := irsListInit, elements := [] } insertions = .ok state ∧
      Traversed state.heap state.list state.elements ∧ state.elements.length = insertions.length ∧
      state.list.size = UInt32.ofNat insertions.length := by
  obtain ⟨state, run, lists, length⟩ := insertAll_listed (.inl ⟨rfl, rfl⟩) admissible
  have length' : state.elements.length = insertions.length := by rw [length]; exact Nat.zero_add _
  exact ⟨state, run, lists.traversed, length', length' ▸ lists.size_eq⟩

/-- An element, one before it, and one between the two. -/
theorem insertAll_traversed_three :
    ∃ state, insertAll { heap := .empty, list := irsListInit, elements := [] }
        [.pushBack (some 2), .pushFront 0 (some 0), .push 2 (some 1)] = .ok state ∧
      Traversed state.heap state.list state.elements ∧ state.elements.length = 3 ∧
      state.list.size = 3 := by
  refine insertAll_traversed .empty _ ⟨trivial, ?_⟩
  rintro _ ⟨rfl⟩
  refine ⟨show 0 ∈ [0] by simp, ?_⟩
  rintro _ ⟨rfl⟩
  refine ⟨show 2 ∈ [2, 0] by simp, ?_⟩
  rintro _ ⟨rfl⟩
  exact trivial

theorem admissible_pushBack (state : ListState α) (count : Nat) (data : Option α) :
    Admissible state (List.replicate count (.pushBack data)) := by
  induction count generalizing state with
  | zero => trivial
  | succ count ih => exact ⟨trivial, fun state' _ => ih state'⟩

/-- The counter of a list with `2 ^ 32` elements is `0`. -/
theorem size_wraps :
    ∃ state, insertAll { heap := .empty, list := irsListInit, elements := [] }
      (List.replicate (2 ^ 32) (.pushBack (some 0))) = .ok state ∧
      Traversed state.heap state.list state.elements ∧ state.elements.length = 2 ^ 32 ∧
      state.list.size = 0 := by
  obtain ⟨state, run, lists, length⟩ := insertAll_listed (.inl ⟨rfl, rfl⟩) (admissible_pushBack
    { heap := Heap.empty, list := irsListInit, elements := [] } (2 ^ 32) (some 0))
  have length' : state.elements.length = 2 ^ 32 := by
    rw [length, List.length_replicate]
    exact Nat.zero_add _
  refine ⟨state, run, lists.traversed, length', ?_⟩
  rw [lists.size_eq, length']
  rfl

end

end IrsMachine
