import IrsMachine.Container.RemovalRuns

/-!
# Destroying a list

`irs_list_destroy` frees the nodes that can be reached from `begin` along the links, the end node
with them.
-/

namespace IrsMachine
open Except LinkedSegments

variable {α β : Type}

def destroyLoop : Nat → Heap α → NodePointer → Except Fault (Heap α)
  | _, heap, none => .ok heap
  | 0, _, some _ => .error .endless
  | fuel + 1, heap, some address => do
    let node := (← heap.read (some address)).next
    let heap ← heap.free (some address)
    destroyLoop fuel heap node

/-- The nodes of the list; the list itself is a value here. -/
def irsListDestroy (heap : Heap α) (list : IrsList) : Except Fault (Heap α) :=
  destroyLoop heap.fresh heap list.begin

def irsListFront (list : IrsList) : NodePointer := list.begin

def irsListBack (heap : Heap α) (list : IrsList) : Except Fault NodePointer :=
  if list.size = 0 then .ok none
  else do
    .ok (← heap.read list.end').prev

section
variable {heap : Heap α} {list : IrsList} {endNode : Nat} {elements cells : List (Nat × Option α)}
  {before first last : NodePointer}

structure Freed (addresses : List Nat) (heap heap' : Heap α) : Prop where
  gone : ∀ address ∈ addresses, heap'.nodes address = none
  others : ∀ address, address ∉ addresses → heap'.nodes address = heap.nodes address
  fresh : heap'.fresh = heap.fresh

theorem freed_nil (heap : Heap α) : Freed [] heap heap := ⟨nofun, fun _ _ => rfl, rfl⟩

theorem Freed.cons {address : Nat} {rest : List Nat} {heap' heap'' : Heap α}
    (nodes : heap'.nodes = Function.update heap.nodes address none)
    (fresh : heap'.fresh = heap.fresh) (freed : Freed rest heap' heap'') :
    Freed (address :: rest) heap heap'' := by
  refine ⟨fun other member => ?_, fun other outside => ?_, freed.fresh.trans fresh⟩
  · by_cases later : other ∈ rest
    · exact freed.gone other later
    · obtain rfl : other = address := (List.mem_cons.mp member).resolve_right later
      rw [freed.others other later, nodes, Function.update_self]
  · obtain ⟨different, outside⟩ := not_or.mp (mt List.mem_cons.mpr outside)
    rw [freed.others other outside, nodes, Function.update_of_ne different]

theorem destroyLoop_ok (fuel : Nat) (segment : Segment heap.nodes before first cells last none)
    (different : (addresses cells).Nodup) (enough : cells.length ≤ fuel) :
    ∃ heap', destroyLoop fuel heap first = .ok heap' ∧ Freed (addresses cells) heap heap' := by
  induction cells generalizing heap before first fuel with
  | nil =>
    obtain ⟨rfl, -⟩ := segment
    exact ⟨heap, by rw [destroyLoop], freed_nil heap⟩
  | cons cell cells ih =>
    obtain ⟨address, data⟩ := cell
    obtain ⟨rfl, next, here, rest⟩ := segment
    obtain ⟨notLater, different⟩ := List.nodup_cons.mp different
    obtain ⟨heap₁, free, nodes, fresh⟩ :=
      Heap.free_ok (show (heap.nodes address).isSome by rw [here]; rfl)
    cases fuel with
    | zero => exact absurd enough (Nat.not_succ_le_zero _)
    | succ fuel =>
      have rest₁ : Segment heap₁.nodes (some address) next cells last none := by
        refine rest.congr fun other member => ?_
        have notHere : other ≠ address := by
          rintro rfl
          exact notLater member
        rw [nodes, Function.update_of_ne notHere]
      obtain ⟨heap', run, freed⟩ := ih fuel rest₁ different (Nat.le_of_succ_le_succ enough)
      refine ⟨heap', ?_, freed.cons nodes fresh⟩
      rw [destroyLoop, Heap.read_ok here, ok_bind, free, ok_bind]
      exact run

/-- A list that is empty after it was used loses its end node. -/
theorem irsListDestroy_empty (begins : list.begin = none) :
    irsListDestroy heap list = .ok heap := by
  rw [irsListDestroy, begins, destroyLoop]

theorem Chain.destroy (chain : Chain heap list endNode elements) (goesOn : elements ≠ []) :
    ∃ heap', irsListDestroy heap list = .ok heap' ∧
      Freed (addresses (nodesOf elements endNode)) heap heap' := by
  have segment := chain.segment
  rw [if_neg goesOn] at segment
  refine destroyLoop_ok heap.fresh segment chain.different ?_
  rw [List.length_append, List.length_singleton]
  exact chain.length_lt

theorem Chain.front (chain : Chain heap list endNode elements) :
    irsListFront list = elements.head?.map Prod.fst := by
  cases elements with
  | nil => exact chain.empty rfl
  | cons element elements =>
    obtain ⟨begins, -⟩ := chain.segment
    rw [if_neg (List.cons_ne_nil _ _)] at begins
    exact begins

/-- The size says that a list is empty only below `2 ^ 32` elements. -/
theorem Chain.back (chain : Chain heap list endNode elements) (short : elements.length < 2 ^ 32) :
    irsListBack heap list = .ok (elements.getLast?.map Prod.fst) := by
  obtain ⟨last, here, -, lastIs⟩ := chain.endNode_eq
  have size : list.size = 0 ↔ elements = [] := by
    rw [chain.size, ← UInt32.toNat_inj, UInt32.toNat_ofNat_of_lt' short]
    exact List.length_eq_zero_iff
  unfold irsListBack
  rcases List.eq_nil_or_concat elements with rfl | ⟨init, element, rfl⟩
  · rw [if_pos (size.mpr rfl)]
    rfl
  · rw [if_neg (mt size.mp (by simp)), chain.ends, Heap.read_ok here, ok_bind,
      lastIs init element (by simp)]
    simp

end

end IrsMachine
