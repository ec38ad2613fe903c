import IrsMachine.Container.Insertion

/-!
# Removing from a list

`irs_list_pop_back` and `irs_list_remove_if` link the neighbours of a node to each other. Both
leave `begin` where it is, unless `irs_list_remove_if` finds the list empty after it.
-/

namespace IrsMachine
open Except LinkedSegments

variable {α β : Type}

/-! ### Unlinking -/

section
variable {heap heap' : Heap α} {list list' : IrsList} {endNode : Nat}
  {elements : List (Nat × Option α)} {first middle next : NodePointer}

theorem Heap.linkNext_ok (heap : Heap α) (middle next : NodePointer)
    (present : ∀ address, middle = some address → (heap.nodes address).isSome) :
    ∃ heap', (match middle with
        | some _ => heap.setNext middle next
        | none => .ok heap) = .ok heap' ∧
      heap'.nodes = LinkedSegments.setNext heap.nodes middle next ∧ heap'.fresh = heap.fresh := by
  cases middle with
  | none => exact ⟨heap, rfl, rfl, rfl⟩
  | some address => exact Heap.setNext_ok (present address rfl) next

theorem Segment.last_present {cells : List (Nat × Option α)}
    (segment : Segment heap.nodes none first cells middle next) :
    ∀ address, middle = some address → (heap.nodes address).isSome := by
  rintro address rfl
  by_cases nothing : cells = []
  · subst nothing
    cases segment.2
  · obtain ⟨other, inside, same⟩ := segment.last_eq nothing
    cases same
    exact segment.present inside

/-- The two writes that link the neighbours of a node to each other. -/
theorem Heap.unlink_ok {kept : List (Nat × Option α)} {node : NodePointer} {start : Nat}
    (left : Segment heap.nodes none first kept middle node) (present : (heap.nodes start).isSome) :
    ∃ heap₁ heap₂, (match middle with
        | some _ => heap.setNext middle (some start)
        | none => .ok heap) = .ok heap₁ ∧
      heap₁.setPrev (some start) middle = .ok heap₂ ∧
      heap₂.nodes = removeCell heap.nodes middle (some start) ∧
      heap₂.fresh = heap.fresh := by
  obtain ⟨heap₁, run₁, nodes₁, fresh₁⟩ :=
    Heap.linkNext_ok heap middle (some start) (Segment.last_present left)
  have present₁ : (heap₁.nodes start).isSome := by
    rw [nodes₁, isSome_setNext]
    exact present
  obtain ⟨heap₂, run₂, nodes₂, fresh₂⟩ := Heap.setPrev_ok present₁ middle
  refine ⟨heap₁, heap₂, run₁, run₂, ?_, fresh₂.trans fresh₁⟩
  rw [nodes₂, nodes₁]
  rfl

theorem isSome_removeCell (store : Store Nat (Option α)) (middle next : NodePointer)
    (address : Nat) :
    (removeCell store middle next address).isSome = (store address).isSome := by
  rw [removeCell, isSome_setPrev, isSome_setNext]

/-- Only the neighbours change. -/
theorem removeCell_outside {kept more : List (Nat × Option α)} {node : NodePointer}
    {start address : Nat} (left : Segment heap.nodes none first kept middle node)
    (inside : start ∈ addresses more) (notKept : address ∉ addresses kept)
    (notMore : address ∉ addresses more) :
    removeCell heap.nodes middle (some start) address = heap.nodes address := by
  apply removeCell_other
  · intro same
    by_cases nothing : kept = []
    · subst nothing
      cases left.2.symm.trans same
    · obtain ⟨other, member, last⟩ := left.last_eq nothing
      cases last.symm.trans same
      exact notKept member
  · intro same
    cases same
    exact notMore inside

/-- The node between two segments is unlinked and given back, and the segments meet. -/
theorem Segment.meet {kept more : List (Nat × Option α)} {address start : Nat} {value : Option α}
    {last : NodePointer} (left : Segment heap.nodes none first kept middle (some address))
    (right : Segment heap.nodes middle (some address) ((address, value) :: more) last none)
    (follows : Segment heap.nodes (some address) (some start) more last none) (goesOn : more ≠ [])
    (different : (addresses (kept ++ (address, value) :: more)).Nodup)
    (nodes : heap'.nodes = Function.update (removeCell heap.nodes middle (some start)) address
      none) :
    ∃ first' middle', Segment heap'.nodes none first' kept middle' (some start) ∧
      Segment heap'.nodes middle' (some start) more last none := by
  have outside : address ∉ addresses (kept ++ more) := by
    obtain ⟨-, moreDifferent, apart⟩ := nodup_addresses_append.mp different
    rw [addresses, List.map_append, List.mem_append, not_or]
    exact ⟨fun member => apart _ member List.mem_cons_self, (List.nodup_cons.mp moreDifferent).1⟩
  have same : ∀ other ∈ addresses (kept ++ more),
      heap'.nodes other = removeCell heap.nodes middle (some start) other := by
    intro other member
    rw [nodes, Function.update_of_ne]
    rintro rfl
    exact outside member
  obtain ⟨middle', next, left', right'⟩ :=
    segment_append.mp ((left.removeCell right different goesOn follows).congr same)
  obtain ⟨cell, cells, rfl⟩ := List.exists_cons_of_ne_nil goesOn
  obtain rfl : next = some start := right'.1.trans follows.1.symm
  exact ⟨_, middle', left', right'⟩

/-- A list whose links are those of these elements, if it begins where they do. -/
theorem Chain.of_segment (ends : list.end' = some endNode)
    (different : (addresses (nodesOf elements endNode)).Nodup)
    (segment : Segment heap.nodes none first (nodesOf elements endNode) (some endNode) none)
    (begins : list.begin = elements.head?.map Prod.fst)
    (size : list.size = UInt32.ofNat elements.length) :
    Chain heap list endNode elements := by
  cases elements with
  | nil => exact ⟨ends, different, ⟨rfl, segment.2⟩, fun _ => begins, size⟩
  | cons element elements =>
    refine ⟨ends, different, ?_, nofun, size⟩
    rw [if_neg (List.cons_ne_nil _ _), begins]
    exact ⟨rfl, segment.2⟩

end

/-! ### The loop of `irs_list_remove_if` -/

theorem sub_ofNat_succ (size : UInt32) (count : Nat) :
    size - UInt32.ofNat (count + 1) = size - 1 - UInt32.ofNat count := by
  rw [UInt32.ofNat_add, UInt32.sub_eq_add_neg, UInt32.neg_add, UInt32.sub_eq_add_neg (-_),
    UInt32.add_comm (-_), ← UInt32.add_assoc, ← UInt32.sub_eq_add_neg, ← UInt32.sub_eq_add_neg]
  rfl

def satisfies (data : β) (predicate : α → β → Bool) (element : Nat × Option α) : Bool :=
  element.2.any fun value => predicate value data

section
variable {heap : Heap α} {endNode : Nat} {kept rest : List (Nat × Option α)}
  {first middle node : NodePointer}
  {data : β} {predicate : α → β → Bool}

/-- What the loop leaves: the links of the elements that do not satisfy the predicate, and no
memory for the others. -/
structure Removed (data : β) (predicate : α → β → Bool) (heap heap' : Heap α) (endNode : Nat)
    (kept rest : List (Nat × Option α)) : Prop where
  segment : ∃ first,
    Segment heap'.nodes none first
    (nodesOf (kept ++ rest.filter fun element => !satisfies data predicate element) endNode)
    (some endNode) none
  freed : ∀ element ∈ rest, satisfies data predicate element → heap'.nodes element.1 = none
  frame : Heap.Frame (addresses (nodesOf (kept ++ rest) endNode)) heap heap'
  fresh : heap'.fresh = heap.fresh

/-- The loop passes a node that stays. -/
theorem Removed.stays {heap' : Heap α} {element : Nat × Option α}
    (removed : Removed data predicate heap heap' endNode (kept ++ [element]) rest)
    (fails : ¬ satisfies data predicate element) :
    Removed data predicate heap heap' endNode kept (element :: rest) := by
  have regroup : kept ++ [element] ++ rest = kept ++ element :: rest := List.append_assoc ..
  refine ⟨?_, ?_, regroup ▸ removed.frame, removed.fresh⟩
  · have segment := removed.segment
    rw [List.append_assoc] at segment
    rw [List.filter_cons_of_pos (by simpa using fails)]
    exact segment
  · intro other member holds
    rcases List.mem_cons.mp member with rfl | later
    · exact absurd holds fails
    · exact removed.freed other later holds

/-- The loop goes on from a memory where a node was unlinked and given back. -/
theorem Removed.goes {heap₁ heap' : Heap α} {address start : Nat} {value : Option α}
    (removed : Removed data predicate heap₁ heap' endNode kept rest)
    (holds : satisfies data predicate (address, value))
    (left : Segment heap.nodes none first kept middle (some address))
    (here : (heap.nodes address).isSome) (inside : start ∈ addresses (nodesOf rest endNode))
    (different : (addresses (kept ++ (address, value) :: nodesOf rest endNode)).Nodup)
    (nodes : heap₁.nodes = Function.update (removeCell heap.nodes middle (some start)) address none)
    (fresh : heap₁.fresh = heap.fresh) :
    Removed data predicate heap heap' endNode kept ((address, value) :: rest) := by
  obtain ⟨-, restDifferent, apart⟩ := nodup_addresses_append.mp different
  have outside : ∀ {other}, other ∉ addresses kept → other ∉ addresses (nodesOf rest endNode) →
      other ∉ addresses (nodesOf (kept ++ rest) endNode) := by
    intro other notKept notRest
    rw [nodesOf, List.append_assoc, addresses, List.map_append, List.mem_append, not_or]
    exact ⟨notKept, notRest⟩
  refine ⟨?_, ?_, ⟨?_, ?_⟩, removed.fresh.trans fresh⟩
  · rw [List.filter_cons_of_neg (by simp [holds])]
    exact removed.segment
  · intro element member satisfied
    rcases List.mem_cons.mp member with rfl | later
    · have old : address < heap₁.fresh := fresh ▸ Heap.lt_fresh here
      have gone := outside (fun member => apart _ member List.mem_cons_self)
        (List.nodup_cons.mp restDifferent).1
      rw [removed.frame.others address old gone, nodes, Function.update_self]
    · exact removed.freed element later satisfied
  · rw [removed.fresh, fresh]
  · intro other inHeap outsideAll
    rw [nodesOf, List.append_assoc, addresses, List.map_append, List.mem_append, not_or,
      List.cons_append, List.map_cons, List.mem_cons, not_or] at outsideAll
    obtain ⟨notKept, notHere, notRest⟩ := outsideAll
    rw [removed.frame.others other (fresh ▸ inHeap) (outside notKept notRest), nodes,
      Function.update_of_ne notHere]
    exact removeCell_outside left inside notKept notRest

theorem removeIfLoop_ok (data : β) (predicate : α → β → Bool) (fuel : Nat) (list : IrsList)
    (isRemoved : Bool) (left : Segment heap.nodes none first kept middle node)
    (right : Segment heap.nodes middle node (nodesOf rest endNode) (some endNode) none)
    (different : (addresses (nodesOf (kept ++ rest) endNode)).Nodup) (enough : rest.length < fuel) :
    ∃ heap' list', removeIfLoop data predicate fuel heap list node isRemoved =
        .ok (heap', list', isRemoved || rest.any (satisfies data predicate)) ∧
      list' = { list with size := list.size - UInt32.ofNat (rest.countP (satisfies data predicate))
        } ∧
      Removed data predicate heap heap' endNode kept rest := by
  induction rest generalizing heap list first middle node kept fuel isRemoved with
  | nil =>
    obtain ⟨fuel, rfl⟩ := Nat.exists_eq_succ_of_ne_zero (Nat.ne_of_gt enough)
    obtain ⟨rfl, -, here⟩ := segment_singleton.mp right
    refine ⟨heap, list, ?_, by simp, ⟨first, ?_⟩, nofun, ⟨le_refl _, fun _ _ _ => rfl⟩, rfl⟩
    · simp [removeIfLoop, Heap.read_ok here]
    · rw [List.filter_nil, List.append_nil]
      exact segment_append.mpr ⟨middle, some endNode, left, right⟩
  | cons element rest ih =>
    obtain ⟨address, value⟩ := element
    obtain ⟨fuel, rfl⟩ := Nat.exists_eq_succ_of_ne_zero (Nat.ne_of_gt (Nat.zero_lt_of_lt enough))
    obtain ⟨rfl, next, here, follows⟩ := id right
    have regroup : nodesOf (kept ++ (address, value) :: rest) endNode =
        kept ++ (address, value) :: nodesOf rest endNode := by simp
    by_cases holds : satisfies data predicate (address, value)
    · -- the node is unlinked and given back
      rw [regroup] at different
      obtain ⟨start, inside, rfl⟩ := follows.first_eq (by simp)
      obtain ⟨heap₁, heap₂, run₁, run₂, nodes₂, fresh₂⟩ :=
        Heap.unlink_ok left (follows.present inside)
      have present : (heap.nodes address).isSome := by
        rw [here]
        rfl
      have present₂ : (heap₂.nodes address).isSome := by
        rw [nodes₂, isSome_removeCell]
        exact present
      obtain ⟨heap₃, run₃, nodes₃, fresh₃⟩ := Heap.free_ok present₂
      rw [nodes₂] at nodes₃
      obtain ⟨first', middle', left', right'⟩ :=
        Segment.meet left right follows (by simp) different nodes₃
      have different' : (addresses (nodesOf (kept ++ rest) endNode)).Nodup := by
        have smaller := different.sublist (List.Sublist.map Prod.fst
          (List.Sublist.append_left
            (List.sublist_cons_self (address, value) (nodesOf rest endNode)) kept))
        simpa [nodesOf] using smaller
      obtain ⟨heap', list', run, shrunk, removed⟩ :=
        ih fuel { list with size := list.size - 1 } true left' right' different'
          (Nat.lt_of_succ_lt_succ enough)
      refine ⟨heap', list', ?_, ?_, removed.goes holds left present inside different nodes₃
        (fresh₃.trans fresh₂)⟩
      · unfold removeIfLoop
        simp only [satisfies] at holds
        rw [Heap.read_ok here, ok_bind, if_pos holds]
        have result : (isRemoved || ((address, value) :: rest).any (satisfies data predicate)) =
            (true || rest.any (satisfies data predicate)) := by simp [satisfies, holds]
        rw [result, ← run]
        cases middle with
        | none =>
          cases run₁
          dsimp only
          rw [ok_bind, run₂, ok_bind, run₃, ok_bind]
        | some last =>
          dsimp only at run₁ ⊢
          rw [run₁, ok_bind, run₂, ok_bind, run₃, ok_bind]
      · rw [shrunk, List.countP_cons_of_pos holds, sub_ofNat_succ]
    · -- the node is kept
      have left' : Segment heap.nodes none first (kept ++ [(address, value)]) (some address) next :=
        segment_append.mpr ⟨middle, some address, left, segment_singleton.mpr ⟨rfl, rfl, here⟩⟩
      have regroup' : (kept ++ [(address, value)]) ++ rest = kept ++ (address, value) :: rest :=
        List.append_assoc ..
      obtain ⟨heap', list', run, shrunk, removed⟩ := ih fuel list isRemoved left' follows
        (by rw [regroup']; exact different) (Nat.lt_of_succ_lt_succ enough)
      refine ⟨heap', list', ?_, ?_, removed.stays holds⟩
      · unfold removeIfLoop
        simp only [satisfies] at holds
        rw [Heap.read_ok here, ok_bind, if_neg holds, run]
        simp [satisfies, holds]
      · rw [shrunk, List.countP_cons_of_neg holds]

/-! ### The calls -/

theorem ofNat_eq_zero {count : Nat} (small : count < 2 ^ 32) : UInt32.ofNat count = 0 ↔
    count = 0 := by
  rw [← UInt32.toNat_inj, UInt32.toNat_ofNat_of_lt' small]
  rfl

theorem irsListRemoveIf_empty {list : IrsList} (begins : list.begin = none) :
    irsListRemoveIf heap list data predicate = .ok (heap, list, false) := by
  obtain ⟨_, end', size⟩ := list
  obtain rfl := begins
  unfold irsListRemoveIf removeIfLoop
  rw [ok_bind]
  dsimp only
  split
  · rfl
  · rfl

theorem irsListRemoveIf_ok {list : IrsList} {elements : List (Nat × Option α)} (data : β)
    (predicate : α → β → Bool) (chain : Chain heap list endNode elements) (goesOn : elements ≠ [])
    (small : elements.length < 2 ^ 32) :
    ∃ heap', irsListRemoveIf heap list data predicate = .ok (heap',
        { list with
          begin := if elements.filter (fun element => !satisfies data predicate element) =
            [] then none else list.begin
          size := UInt32.ofNat (elements.filter fun element =>
            !satisfies data predicate element).length },
        elements.any (satisfies data predicate)) ∧
      Removed data predicate heap heap' endNode [] elements := by
  have right := chain.segment
  rw [if_neg goesOn] at right
  have left : Segment heap.nodes none list.begin [] none list.begin := ⟨rfl, rfl⟩
  obtain ⟨heap', list', run, shrunk, removed⟩ :=
    removeIfLoop_ok data predicate heap.fresh list false left right chain.different chain.length_lt
  have counts : list.size - UInt32.ofNat (elements.countP (satisfies data predicate)) =
      UInt32.ofNat (elements.filter fun element => !satisfies data predicate element).length := by
    have both := List.length_eq_countP_add_countP (satisfies data predicate) (l := elements)
    rw [chain.size, ← UInt32.ofNat_sub (List.countP_le_length ..), ← List.countP_eq_length_filter]
    congr 1
    simp only [Bool.not_eq_true] at both
    have same : elements.countP (fun element => !satisfies data predicate element) =
        elements.countP (fun element => decide (satisfies data predicate element = false)) := by
      congr 1
      funext element
      simp
    omega
  refine ⟨heap', ?_, removed⟩
  unfold irsListRemoveIf
  rw [run, ok_bind, shrunk]
  dsimp only
  rw [counts, Bool.false_or]
  have length : (elements.filter fun element => !satisfies data predicate element).length <
      2 ^ 32 :=
    Nat.lt_of_le_of_lt (List.length_filter_le ..) small
  simp only [ofNat_eq_zero length, List.length_eq_zero_iff]
  split
  · rfl
  · rfl

theorem irsListPopBack_empty {list : IrsList} (size : list.size = 0) :
    irsListPopBack heap list = .ok (heap, list, none) :=
  if_pos size

theorem irsListPopBack_ok {list : IrsList} {elements : List (Nat × Option α)}
    {element : Nat × Option α} (chain : Chain heap list endNode (elements ++ [element]))
    (small : elements.length + 1 < 2 ^ 32) :
    ∃ heap', irsListPopBack heap list =
      .ok (heap', { list with size := UInt32.ofNat elements.length }, some element.1) ∧
      (elements ≠ [] →
        Chain heap' { list with size := UInt32.ofNat elements.length } endNode elements) ∧
      heap'.fresh = heap.fresh := by
  obtain ⟨address, data⟩ := element
  have size : list.size = UInt32.ofNat (elements.length + 1) := by
    rw [chain.size, List.length_append, List.length_singleton]
  have notZero : list.size ≠ 0 := by
    rw [size, Ne, ofNat_eq_zero small]
    omega
  have less : list.size - 1 = UInt32.ofNat elements.length := by
    rw [size, UInt32.ofNat_add]
    exact UInt32.add_sub_cancel ..
  obtain ⟨middle, next, left, right⟩ := chain.split (by simp)
  obtain ⟨rfl, next, here, ending⟩ := id right
  obtain ⟨rfl, -, hereEnd⟩ := segment_singleton.mp ending
  have different : (addresses (elements ++ (address, data) :: [(endNode, none)])).Nodup := by
    simpa [nodesOf] using chain.different
  have present : (heap.nodes endNode).isSome := by
    rw [hereEnd]
    rfl
  obtain ⟨heap₁, heap₂, run₁, run₂, unlinked, fresh⟩ := Heap.unlink_ok left present
  refine ⟨heap₂, ?_, ?_, fresh⟩
  · unfold irsListPopBack
    rw [if_neg notZero, chain.ends, Heap.read_ok hereEnd, ok_bind]
    dsimp only
    rw [Heap.read_ok here, ok_bind, ← less]
    cases middle with
    | none =>
      cases run₁
      dsimp only
      rw [ok_bind, run₂, ok_bind]
    | some last =>
      dsimp only at run₁ ⊢
      rw [run₁, ok_bind, run₂, ok_bind]
  · intro goesOn
    have segment := left.removeCell right different (by simp) ending
    rw [if_neg goesOn, ← unlinked] at segment
    have different' : (addresses (nodesOf elements endNode)).Nodup :=
      different.sublist
        (List.Sublist.map Prod.fst (List.Sublist.append_left (List.sublist_cons_self ..) elements))
    refine ⟨chain.ends, different', ?_, fun nothing => absurd nothing goesOn, rfl⟩
    rw [if_neg goesOn]
    exact segment

end

end IrsMachine
