import IrsMachine.Container.Removal

/-!
# Runs of pushes, pops and removals

A call that takes the node at which the list begins leaves `begin` at it. Every other call leaves a
list that an iterator walks from one end to the other.
-/

namespace IrsMachine
open Except LinkedSegments

variable {α β : Type}

/-- The calls on a list of data that is not null. -/
inductive ListCall (α β : Type) where
  | pushBack (data : α)
  | popBack
  | removeIf (data : β) (predicate : α → β → Bool)

inductive ListResult where
  | node (pointer : NodePointer)
  | isRemoved (value : Bool)

namespace ListCall

def run (heap : Heap α) (list : IrsList) : ListCall α β →
    Except Fault (Heap α × IrsList × ListResult)
  | pushBack data => do
    let (heap, list, new) ← irsListPushBack heap list (some data)
    .ok (heap, list, .node (some new))
  | popBack => do
    let (heap, list, node) ← irsListPopBack heap list
    .ok (heap, list, .node node)
  | removeIf data predicate => do
    let (heap, list, isRemoved) ← irsListRemoveIf heap list data predicate
    .ok (heap, list, .isRemoved isRemoved)

/-- What a call should make of the elements; `new` is the node that a push makes. -/
def after (new : Nat) : ListCall α β → List (Nat × Option α) → List (Nat × Option α)
  | pushBack data, elements => elements ++ [(new, some data)]
  | popBack, elements => elements.dropLast
  | removeIf data predicate, elements =>
    elements.filter fun element => !satisfies data predicate element

def answer (new : Nat) : ListCall α β → List (Nat × Option α) → ListResult
  | pushBack _, _ => .node (some new)
  | popBack, elements => .node (elements.getLast?.map Prod.fst)
  | removeIf data predicate, elements => .isRemoved (elements.any (satisfies data predicate))

def contents : ListCall α β → List α → List α
  | pushBack data, contents => contents ++ [data]
  | popBack, contents => contents.dropLast
  | removeIf data predicate, contents => contents.filter fun value => !predicate value data

/-- The counter does not wrap, the only element is not popped, and the first element is not removed
unless all are. -/
def Safe : ListCall α β → List α → Prop
  | pushBack _, contents => contents.length + 1 < 2 ^ 32
  | popBack, contents => contents.length ≠ 1
  | removeIf data predicate, contents =>
    (∀ first ∈ contents.head?, predicate first data = false) ∨
      ∀ value ∈ contents, predicate value data = true

end ListCall

/-- A list, its elements, and the nodes that were removed from it. -/
structure RemovalState (α : Type) extends ListState α where
  removed : List Nat

def removalStep (state : RemovalState α) (call : ListCall α β) :
    Except Fault (RemovalState α × ListResult) := do
  let (heap, list, result) ← call.run state.heap state.list
  let elements := call.after state.heap.fresh state.elements
  let gone := (addresses state.elements).filter fun node => node ∉ addresses elements
  .ok ({ heap, list, elements, removed := state.removed ++ gone }, result)

/-- A fresh iterator yields the elements, `size` is their number, and no removed node can be
reached. -/
structure Right (state : RemovalState α) : Prop where
  yields : ∃ fuel last, visit (irsIteratorNext state.heap) fuel (irsListIterator state.list) =
    .ok (addresses state.elements, last)
  data : ∀ element ∈ state.elements,
    irsIteratorGet state.heap { irsListIterator state.list with current := some element.1 } =
    .ok element.2
  size : state.list.size.toNat = state.elements.length
  gone : ∀ node ∈ state.removed, ¬ Reaches state.heap.nodes state.list.begin node ∧
    ¬ Reaches state.heap.nodes state.list.end' node

def RightThroughout (state : RemovalState α) : List (ListCall α β) → Prop
  | [] => True
  | call :: calls => ∃ state' result, removalStep state call = .ok (state', result) ∧
    result = call.answer state.heap.fresh state.elements ∧ Right state' ∧
    RightThroughout state' calls

def AllSafe (contents : List α) : List (ListCall α β) → Prop
  | [] => True
  | call :: calls => call.Safe contents ∧ AllSafe (call.contents contents) calls

structure Intact (state : RemovalState α) (contents : List α) : Prop where
  lists : Listed state.heap state.list state.elements
  data : state.elements.map Prod.snd = contents.map some
  small : contents.length < 2 ^ 32
  gone : ∀ node ∈ state.removed, node < state.heap.fresh ∧ node ∉ addresses state.elements ∧
    state.list.end' ≠ some node

section
variable {state state' : RemovalState α} {contents : List α} {result : ListResult}

theorem Intact.length_eq (intact : Intact state contents) :
    state.elements.length = contents.length := by
  have same := congrArg List.length intact.data
  rwa [List.length_map, List.length_map] at same

theorem Intact.nothing (intact : Intact state contents) (nothing : state.elements = []) :
    contents = [] := by
  apply List.length_eq_zero_iff.mp
  rw [← intact.length_eq, nothing]
  rfl

theorem Intact.right (intact : Intact state contents) : Right state := by
  refine ⟨⟨_, _, intact.lists.traversed.forwards⟩, intact.lists.traversed.data, ?_, ?_⟩
  · rw [intact.lists.size_eq, intact.length_eq, UInt32.toNat_ofNat_of_lt' intact.small]
  · intro node member
    obtain ⟨-, notElement, notEnd⟩ := intact.gone node member
    rcases intact.lists with ⟨unused, -⟩ | ⟨endNode, chain⟩
    · rw [unused]
      exact ⟨nofun, nofun⟩
    · have outside : node ∉ addresses (nodesOf state.elements endNode) := by
        rw [nodesOf, addresses, List.map_append, List.mem_append, not_or]
        refine ⟨notElement, fun same => notEnd ?_⟩
        rw [chain.ends, List.mem_singleton.mp same]
      constructor
      · intro reaches
        refine outside (chain.segment.reaches reaches fun other begins => ?_)
        rw [chain.traversed.begins] at begins
        obtain ⟨element, head, rfl⟩ := Option.map_eq_some_iff.mp begins
        exact List.mem_map_of_mem (List.mem_append_left _ (List.mem_of_head? head))
      · intro reaches
        refine outside (chain.segment.reaches reaches fun other ends => ?_)
        rw [chain.ends] at ends
        cases ends
        simp

theorem Listed.lt_fresh {heap : Heap α} {list : IrsList} {elements : List (Nat × Option α)}
    (lists : Listed heap list elements) :
    ∀ node ∈ addresses elements, node < heap.fresh ∧ list.end' ≠ some node := by
  intro node member
  rcases lists with ⟨-, rfl⟩ | ⟨endNode, chain⟩
  · cases member
  · constructor
    · exact chain.lt_fresh node
        (by rw [nodesOf, addresses, List.map_append]; exact List.mem_append_left _ member)
    · intro same
      obtain rfl : endNode = node := Option.some.inj (chain.ends.symm.trans same)
      exact (nodup_addresses_append.mp chain.different).2.2 _ member (by simp)

/-- Nothing that was removed comes back. -/
theorem Intact.next {heap : Heap α} {list : IrsList} {elements : List (Nat × Option α)}
    {contents' : List α} (intact : Intact state contents) (lists : Listed heap list elements)
    (data : elements.map Prod.snd = contents'.map some) (small : contents'.length < 2 ^ 32)
    (fresh : state.heap.fresh ≤ heap.fresh)
    (nodes : ∀ node ∈ addresses elements, node ∈ addresses state.elements ∨ node = state.heap.fresh)
    (ends : ∀ node, list.end' = some node → state.list.end' = some node ∨ state.heap.fresh ≤ node) :
    Intact { heap, list, elements, removed := state.removed ++
      (addresses state.elements).filter fun node => node ∉ addresses elements }
      contents' := by
  refine ⟨lists, data, small, fun node member => ?_⟩
  rcases List.mem_append.mp member with before | now
  · obtain ⟨old, notElement, notEnd⟩ := intact.gone node before
    refine ⟨by show node < heap.fresh; omega, fun again => ?_, fun same => ?_⟩
    · rcases nodes node again with element | new
      · exact notElement element
      · omega
    · rcases ends node same with kept | new
      · exact notEnd kept
      · omega
  · obtain ⟨element, notElement⟩ := List.mem_filter.mp now
    obtain ⟨old, notEnd⟩ := intact.lists.lt_fresh node element
    refine ⟨by show node < heap.fresh; omega, by simpa using notElement, fun same => ?_⟩
    rcases ends node same with kept | new
    · exact notEnd kept
    · omega

theorem removalStep_eq {call : ListCall α β} {heap : Heap α} {list : IrsList}
    (ran : call.run state.heap state.list = .ok (heap, list, result)) :
    removalStep state call = .ok ({
      heap, list
      elements := call.after state.heap.fresh state.elements
      removed := state.removed ++ (addresses state.elements).filter fun node =>
        node ∉ addresses (call.after state.heap.fresh state.elements) }, result) := by
  unfold removalStep
  rw [ran, ok_bind]

/-! What the calls do to a list that is intact, safe or not. -/

theorem removalStep_pushBack (data : α) (intact : Intact state contents) :
    ∃ state', removalStep (β := β) state (.pushBack data) =
      .ok (state', .node (some state.heap.fresh)) ∧
      state'.list.size = UInt32.ofNat (contents.length + 1) ∧
      state'.elements.length = contents.length + 1 ∧
      (contents.length + 1 < 2 ^ 32 → Intact state' (contents ++ [data])) := by
  obtain ⟨heap', list', endNode, run, chain, frame, ends⟩ :=
    irsListPushBack_listed (some data) intact.lists
  have length : (state.elements ++ [(state.heap.fresh, some data)]).length =
      contents.length + 1 := by
    rw [List.length_append, intact.length_eq, List.length_singleton]
  have ran : (ListCall.pushBack (β := β) data).run state.heap state.list =
    .ok (heap', list', .node (some state.heap.fresh)) := by
    simp only [ListCall.run, run, ok_bind]
  refine ⟨_, removalStep_eq ran, length ▸ chain.size, length, fun small => ?_⟩
  apply intact.next (.inr ⟨endNode, chain⟩)
  · rw [List.map_append, List.map_append, intact.data]
    rfl
  · rw [List.length_append, List.length_singleton]
    exact small
  · exact frame.fresh
  · intro node member
    rw [addresses, List.map_append, List.mem_append] at member
    exact member.imp_right List.mem_singleton.mp
  · intro node same
    rw [chain.ends] at same
    cases same
    exact ends.imp_right And.right

/-- A call that does nothing on an empty list. -/
theorem removalStep_idle {call : ListCall α β} (intact : Intact state ([] : List α))
    (stays : call.after state.heap.fresh [] = [])
    (ran : call.run state.heap state.list = .ok (state.heap, state.list, result)) :
    ∃ state', removalStep state call = .ok (state', result) ∧ Intact state' ([] : List α) := by
  have nothing : state.elements = [] := List.length_eq_zero_iff.mp intact.length_eq
  have lists := intact.lists
  rw [nothing] at lists
  refine ⟨_, removalStep_eq ran, ?_⟩
  rw [nothing, stays]
  have idle := intact.next lists rfl intact.small (le_refl _) nofun fun node same => .inl same
  rwa [nothing] at idle

theorem removalStep_popBack_empty (intact : Intact state ([] : List α)) :
    ∃ state', removalStep (β := β) state .popBack = .ok (state', .node none) ∧
      Intact state' ([] : List α) := by
  have nothing : state.elements = [] := List.length_eq_zero_iff.mp intact.length_eq
  have size : state.list.size = 0 := by
    rw [intact.lists.size_eq, nothing]
    rfl
  apply removalStep_idle intact rfl
  simp only [ListCall.run, irsListPopBack_empty size, ok_bind]

theorem removalStep_popBack {init : List (Nat × Option α)} {element : Nat × Option α}
    (intact : Intact state contents) (elements : state.elements = init ++ [element]) :
    ∃ state', removalStep (β := β) state .popBack = .ok (state', .node (some element.1)) ∧
      state'.list.begin = state.list.begin ∧
      state'.list.end' = state.list.end' ∧ state'.elements = init ∧
      (init ≠ [] → Intact state' contents.dropLast) := by
  rcases intact.lists with ⟨-, nothing⟩ | ⟨endNode, chain⟩
  · simp [elements] at nothing
  have small := intact.small
  rw [← intact.length_eq, elements, List.length_append, List.length_singleton] at small
  rw [elements] at chain
  obtain ⟨heap', run, popped, fresh⟩ := irsListPopBack_ok chain small
  have after : ListCall.after (β := β) (α := α) state.heap.fresh .popBack state.elements =
    init := by
    rw [ListCall.after, elements, List.dropLast_concat]
  have ran : (ListCall.popBack (α := α) (β := β)).run state.heap state.list =
      .ok (heap', { state.list with size := UInt32.ofNat init.length },
        .node (some element.1)) := by
    simp only [ListCall.run, run, ok_bind]
  have step := removalStep_eq ran
  rw [after] at step
  refine ⟨_, step, rfl, rfl, rfl, fun goesOn => ?_⟩
  apply intact.next (.inr ⟨endNode, popped goesOn⟩)
  · have data := intact.data
    rw [elements, List.map_append] at data
    rw [List.map_dropLast, ← data]
    simp
  · rw [List.length_dropLast]
    exact Nat.lt_of_le_of_lt (Nat.sub_le ..) intact.small
  · rw [fresh]
  · intro node member
    rw [elements, addresses, List.map_append]
    exact .inl (List.mem_append_left _ member)
  · exact fun node same => .inl same

theorem data_filter {data : β} {predicate : α → β → Bool} {elements : List (Nat × Option α)}
    (same : elements.map Prod.snd = contents.map some) :
    (elements.filter fun element => !satisfies data predicate element).map Prod.snd =
      (contents.filter fun value => !predicate value data).map some := by
  induction elements generalizing contents with
  | nil =>
    obtain rfl : contents = [] := List.map_eq_nil_iff.mp same.symm
    rfl
  | cons element elements ih =>
    cases contents with
    | nil => cases same
    | cons value contents =>
      obtain ⟨here, rest⟩ := List.cons.inj same
      have agree : satisfies data predicate element = predicate value data := by
        unfold satisfies
        rw [here, Option.any_some]
      rw [List.filter_cons, List.filter_cons, agree]
      split
      · rw [List.map_cons, List.map_cons, here, ih rest]
      · exact ih rest

theorem removalStep_removeIf_empty (data : β) (predicate : α → β → Bool)
    (intact : Intact state ([] : List α)) :
    ∃ state', removalStep state (.removeIf data predicate) = .ok (state', .isRemoved false) ∧
      Intact state' ([] : List α) := by
  have nothing : state.elements = [] := List.length_eq_zero_iff.mp intact.length_eq
  have begins := intact.lists.traversed.begins
  rw [nothing] at begins
  apply removalStep_idle intact rfl
  simp only [ListCall.run, irsListRemoveIf_empty begins, ok_bind]

theorem removalStep_removeIf (data : β) (predicate : α → β → Bool) (intact : Intact state contents)
    (goesOn : state.elements ≠ []) :
    ∃ state', removalStep state (.removeIf data predicate) =
      .ok (state', .isRemoved (state.elements.any (satisfies data predicate))) ∧
      state'.elements = state.elements.filter (fun element => !satisfies data predicate element) ∧
      state'.list.begin = (if state'.elements = [] then none else state.list.begin) ∧
      state'.list.end' = state.list.end' ∧
      (∀ element ∈ state.elements, satisfies data predicate element →
        state'.heap.nodes element.1 = none) ∧
      (state'.list.begin = state'.elements.head?.map Prod.fst →
        Intact state' (contents.filter fun value => !predicate value data)) := by
  rcases intact.lists with ⟨-, nothing⟩ | ⟨endNode, chain⟩
  · exact absurd nothing goesOn
  obtain ⟨heap', run, removed⟩ :=
    irsListRemoveIf_ok data predicate chain goesOn (intact.length_eq ▸ intact.small)
  have ran : (ListCall.removeIf data predicate).run state.heap state.list = .ok (heap',
      { state.list with
        begin := if state.elements.filter (fun element => !satisfies data predicate element) =
          [] then none else state.list.begin
        size := UInt32.ofNat
          (state.elements.filter fun element => !satisfies data predicate element).length },
      .isRemoved (state.elements.any (satisfies data predicate))) := by
    simp only [ListCall.run, run, ok_bind]
  refine ⟨_, removalStep_eq ran, rfl, rfl, rfl, removed.freed, fun begins => ?_⟩
  obtain ⟨first, segment⟩ := removed.segment
  have fewer : (state.elements.filter fun element => !satisfies data predicate element).Sublist
      state.elements := List.filter_sublist
  have different :
      (addresses (nodesOf (state.elements.filter fun element => !satisfies data predicate element)
        endNode)).Nodup :=
    chain.different.sublist (List.Sublist.map Prod.fst (List.Sublist.append_right fewer _))
  refine intact.next (.inr ⟨endNode, Chain.of_segment ?_ different segment begins rfl⟩)
    ?_ ?_ ?_ ?_ ?_
  · exact chain.ends
  · exact data_filter intact.data
  · exact Nat.lt_of_le_of_lt (List.length_filter_le ..) intact.small
  · rw [removed.fresh]
  · exact fun node member => .inl ((List.Sublist.map Prod.fst fewer).subset member)
  · exact fun node same => .inl same

/-- An iterator starts with the node at which the list begins, and reads it. -/
theorem visit_begins {heap : Heap α} {list : IrsList} {address fuel : Nat} {nodes : List Nat}
    {last : IrsIterator} (begins : list.begin = some address) (differs : list.end' ≠ some address)
    (ran : visit (irsIteratorNext heap) fuel (irsListIterator list) = .ok (nodes, last)) :
    nodes.head? = some address ∧ (heap.nodes address).isSome := by
  have first : irsIteratorNext heap (irsListIterator list) =
      .ok (true, { irsListIterator list with current := some address }) := by
    have some' : (irsListIterator list).begin ≠ none := by
      show list.begin ≠ none
      rw [begins]
      exact Option.some_ne_none _
    rw [irsIteratorNext_first some' rfl]
    simp [irsListIterator, irsIteratorInit, begins, differs.symm]
  cases fuel with
  | zero => cases ran
  | succ fuel =>
    unfold visit at ran
    rw [first, ok_bind] at ran
    obtain ⟨⟨rest, final⟩, again, same⟩ := bind_ok.mp ran
    cases same
    refine ⟨rfl, ?_⟩
    cases fuel with
    | zero => cases again
    | succ fuel =>
      unfold visit at again
      obtain ⟨_, step, -⟩ := bind_ok.mp again
      unfold irsIteratorNext irsListIterator irsIteratorInit at step
      rw [if_neg (by rw [begins]; exact Option.some_ne_none _)] at step
      obtain ⟨node, read, -⟩ := bind_ok.mp step
      unfold Heap.read at read
      dsimp only at read
      cases here : heap.nodes address with
      | none =>
        rw [here] at read
        cases read
      | some node => rfl

/-- A list that is right and does not begin at its end node begins at an element. -/
theorem Right.begins_at {address : Nat} (right : Right state)
    (begins : state.list.begin = some address) (differs : state.list.end' ≠ some address) :
    (addresses state.elements).head? = some address ∧ (state.heap.nodes address).isSome := by
  obtain ⟨fuel, last, ran⟩ := right.yields
  exact visit_begins begins differs ran

/-- One call goes through, and it is right exactly when it is safe. -/
def RightWhenSafe (state : RemovalState α) (contents : List α) (call : ListCall α β) : Prop :=
  ∃ state' result, removalStep state call = .ok (state', result) ∧
    result = call.answer state.heap.fresh state.elements ∧
    (call.Safe contents → Intact state' (call.contents contents)) ∧
    (Right state' → call.Safe contents)

theorem pushBack_rightWhenSafe (data : α) (intact : Intact state contents) :
    RightWhenSafe (β := β) state contents (.pushBack data) := by
  obtain ⟨state', step, size, length, next⟩ := removalStep_pushBack data intact
  refine ⟨state', _, step, rfl, next, fun right => ?_⟩
  show contents.length + 1 < 2 ^ 32
  have counted := right.size
  rw [size, length, UInt32.toNat_ofNat'] at counted
  have positive : (0 : Nat) < 2 ^ 32 := by omega
  have small := Nat.mod_lt (contents.length + 1) positive
  omega

theorem popBack_rightWhenSafe (intact : Intact state contents) :
    RightWhenSafe (β := β) state contents .popBack := by
  rcases List.eq_nil_or_concat state.elements with nothing | ⟨init, element, elements⟩
  · obtain rfl : contents = [] := intact.nothing nothing
    obtain ⟨state', step, next⟩ := removalStep_popBack_empty intact
    refine ⟨state', _, step, ?_, fun _ => next, fun _ => ?_⟩
    · rw [ListCall.answer, nothing]
      rfl
    · exact nofun
  · rw [List.concat_eq_append] at elements
    obtain ⟨state', step, begins, ends, popped, next⟩ := removalStep_popBack intact elements
    have length : contents.length = init.length + 1 := by
      rw [← intact.length_eq, elements, List.length_append, List.length_singleton]
    refine ⟨state', _, step, ?_, fun safe => ?_, fun right => ?_⟩
    · rw [ListCall.answer, elements, List.getLast?_concat]
      rfl
    · apply next
      rintro rfl
      exact safe length
    · -- the list would begin at the node that was popped
      intro single
      obtain rfl : init = [] := List.length_eq_zero_iff.mp (by omega)
      have began := intact.lists.traversed.begins
      rw [elements] at began
      have differs : state'.list.end' ≠ some element.1 := by
        rw [ends]
        exact (intact.lists.lt_fresh _ (by rw [elements]; simp)).2
      have first := (right.begins_at (begins.trans began) differs).1
      rw [popped] at first
      cases first

theorem removeIf_rightWhenSafe (data : β) (predicate : α → β → Bool)
    (intact : Intact state contents) :
    RightWhenSafe state contents (.removeIf data predicate) := by
  by_cases nothing : state.elements = []
  · obtain rfl : contents = [] := intact.nothing nothing
    obtain ⟨state', step, next⟩ := removalStep_removeIf_empty data predicate intact
    refine ⟨state', _, step, ?_, fun _ => next, fun _ => .inl nofun⟩
    rw [ListCall.answer, nothing]
    rfl
  · obtain ⟨state', step, left, begins, ends, freed, next⟩ :=
      removalStep_removeIf data predicate intact nothing
    obtain ⟨element, elements, elementsAre⟩ := List.exists_cons_of_ne_nil nothing
    have same := intact.data
    rw [elementsAre] at same
    obtain ⟨value, values, rfl⟩ : ∃ value values, contents = value :: values := by
      cases contents with
      | nil => cases same
      | cons value values => exact ⟨value, values, rfl⟩
    have here : satisfies data predicate element = predicate value data := by
      unfold satisfies
      rw [(List.cons.inj same).1, Option.any_some]
    have remaining : state'.elements.map Prod.snd =
        ((value :: values).filter fun value => !predicate value data).map some := by
      rw [left]
      exact data_filter intact.data
    have began : state.list.begin = some element.1 := by
      rw [intact.lists.traversed.begins, elementsAre]
      rfl
    refine ⟨state', _, step, rfl, fun safe => next ?_, fun right => ?_⟩
    · rcases safe with first | all
      · have stays : predicate value data = false := first value rfl
        have head : state'.elements.head? = some element := by
          rw [left, elementsAre, List.filter_cons_of_pos (by rw [here, stays]; rfl)]
          rfl
        rw [begins, if_neg (by rintro none'; rw [none'] at head; cases head), head, began]
        rfl
      · have gone : state'.elements = [] := by
          apply List.map_eq_nil_iff.mp
          rw [remaining, List.filter_eq_nil_iff.mpr, List.map_nil]
          intro other member
          simp [all other member]
        rw [begins, if_pos gone, gone]
        rfl
    · -- the list would begin at a node that was given back
      by_contra unsafe'
      simp only [ListCall.Safe, not_or] at unsafe'
      obtain ⟨first, some'⟩ := unsafe'
      have removed : predicate value data = true := by
        by_contra stays
        apply first
        rintro _ ⟨rfl⟩
        simpa using stays
      have remains : state'.elements ≠ [] := by
        intro none'
        apply some'
        rw [none', List.map_nil] at remaining
        intro other member
        have dropped :=
          List.filter_eq_nil_iff.mp (List.map_eq_nil_iff.mp remaining.symm) other member
        simpa using dropped
      have differs : state'.list.end' ≠ some element.1 := by
        rw [ends]
        exact (intact.lists.lt_fresh _ (by rw [elementsAre]; simp)).2
      have present := (right.begins_at (by rw [begins, if_neg remains, began]) differs).2
      rw [freed element (by rw [elementsAre]; simp) (by rw [here, removed])] at present
      cases present

theorem removalStep_right_iff (call : ListCall α β) (intact : Intact state contents) :
    RightWhenSafe state contents call := by
  cases call with
  | pushBack data => exact pushBack_rightWhenSafe data intact
  | popBack => exact popBack_rightWhenSafe intact
  | removeIf data predicate => exact removeIf_rightWhenSafe data predicate intact

theorem rightThroughout_iff (calls : List (ListCall α β)) (intact : Intact state contents) :
    RightThroughout state calls ↔ AllSafe contents calls := by
  induction calls generalizing state contents with
  | nil => exact Iff.rfl
  | cons call calls ih =>
    obtain ⟨state', result, step, answer, onward, back⟩ := removalStep_right_iff call intact
    constructor
    · rintro ⟨_, _, step', -, right, rest⟩
      cases step.symm.trans step'
      have safe := back right
      exact ⟨safe, (ih (onward safe)).mp rest⟩
    · rintro ⟨safe, rest⟩
      have next := onward safe
      exact ⟨state', result, step, answer, next.right, (ih next).mpr rest⟩

end

def RemovalState.start (heap : Heap α) : RemovalState α where
  heap := heap
  list := irsListInit
  elements := []
  removed := []

theorem intact_start (heap : Heap α) : Intact (.start heap) ([] : List α) where
  lists := .inl ⟨rfl, rfl⟩
  data := rfl
  small := by simp
  gone := nofun

/-- A list is right after every call of a run exactly when every call is safe. -/
theorem removals_hold_iff (heap : Heap α) (calls : List (ListCall α β)) :
    RightThroughout (.start heap) calls ↔ AllSafe [] calls :=
  rightThroughout_iff calls (intact_start heap)

/-- The only element is popped, and the list still begins at it. -/
theorem removals_fail_pop :
    ¬ RightThroughout (β := Nat) (.start Heap.empty) [.pushBack 0, .popBack] := by
  rw [rightThroughout_iff _ (intact_start Heap.empty)]
  rintro ⟨-, safe, -⟩
  exact safe rfl

end IrsMachine
