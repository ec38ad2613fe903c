import IrsMachine.Data.Types
import IrsMachine.Library.Except
import IrsMachine.Library.LinkedSegments

/-!
# Lists and iterators

`irs_list` over nodes in memory. A list makes its end node with its first element, and keeps it
from then on; an iterator walks from node to node until it is there.
-/

namespace IrsMachine
open Except LinkedSegments

/-! ### Memory -/

/-- Null is `none`. -/
abbrev NodePointer := Option Nat

abbrev IrsStructNode (α : Type) := Cell Nat (Option α)

/-- The nodes in memory. An address is given out once. -/
structure Heap (α : Type) where
  nodes : Nat → Option (IrsStructNode α)
  fresh : Nat
  unused : ∀ address, fresh ≤ address → nodes address = none

namespace Heap
variable {α : Type}

def empty : Heap α where
  nodes _ := none
  fresh := 0
  unused _ _ := rfl

/-- `irs_mem_new` of one node, with what is put into it. -/
def new (heap : Heap α) (node : IrsStructNode α) : Heap α × Nat :=
  ({ nodes := Function.update heap.nodes heap.fresh (some node)
     fresh := heap.fresh + 1
     unused := fun address beyond => by
       rw [Function.update_of_ne (by omega)]
       exact heap.unused address (by omega) }, heap.fresh)

def modify (heap : Heap α) (pointer : NodePointer) (change : IrsStructNode α → IrsStructNode α) :
    Except Fault (Heap α) :=
  match pointer with
  | none => .error .badPointer
  | some address =>
    match present : heap.nodes address with
    | none => .error .badPointer
    | some node => .ok
      { nodes := Function.update heap.nodes address (some (change node))
        fresh := heap.fresh
        unused := fun other beyond => by
          rw [Function.update_of_ne]
          · exact heap.unused other beyond
          · rintro rfl
            rw [heap.unused other beyond] at present
            cases present }

def read (heap : Heap α) (pointer : NodePointer) : Except Fault (IrsStructNode α) :=
  match pointer with
  | none => .error .badPointer
  | some address =>
    match heap.nodes address with
    | none => .error .badPointer
    | some node => .ok node

def free (heap : Heap α) (pointer : NodePointer) : Except Fault (Heap α) :=
  match pointer with
  | none => .ok heap
  | some address =>
    match heap.nodes address with
    | none => .error .badPointer
    | some _ => .ok
      { nodes := Function.update heap.nodes address none
        fresh := heap.fresh
        unused := fun other beyond => by
          by_cases same : other = address
          · rw [same, Function.update_self]
          · rw [Function.update_of_ne same, heap.unused other beyond] }

def setNext (heap : Heap α) (pointer target : NodePointer) : Except Fault (Heap α) :=
  heap.modify pointer fun node => { node with next := target }

def setPrev (heap : Heap α) (pointer target : NodePointer) : Except Fault (Heap α) :=
  heap.modify pointer fun node => { node with prev := target }

def setData (heap : Heap α) (pointer : NodePointer) (data : Option α) : Except Fault (Heap α) :=
  heap.modify pointer fun node => { node with data }

end Heap

def irsStructNodeInit {α : Type} (heap : Heap α) (data : Option α) : Heap α × Nat :=
  heap.new { next := none, prev := none, data }

/-! ### Lists -/

structure IrsList where
  (begin end' : NodePointer)
  size : UInt32

def irsListInit : IrsList := { begin := none, end' := none, size := 0 }

section
variable {α : Type}

def irsListPushFirst (heap : Heap α) (list : IrsList) (data : Option α) :
    Except Fault (Heap α × IrsList × Nat) := do
  let (heap, begin) := irsStructNodeInit heap data
  let (heap, end') :=
    match list.end' with
    | none => (heap.new { next := none, prev := none, data := none }).map id some
    | some address => (heap, some address)
  let heap ← heap.setNext (some begin) end'
  let heap ← heap.setPrev end' (some begin)
  let heap ← heap.setNext end' none
  let heap ← heap.setData end' none
  .ok (heap, { begin := some begin, end', size := 1 }, begin)

/-- The new node comes after `node`. -/
def irsListPush (heap : Heap α) (list : IrsList) (node : NodePointer) (data : Option α) :
    Except Fault (Heap α × IrsList × Nat) :=
  match node with
  | none => irsListPushFirst heap list data
  | some _ => do
    let temp := (← heap.read node).next
    let (heap, new) := irsStructNodeInit heap data
    let heap ← heap.setNext node (some new)
    let heap ← heap.setPrev (some new) node
    let heap ← heap.setNext (some new) temp
    let heap ← heap.setPrev temp (some new)
    .ok (heap, { list with size := list.size + 1 }, new)

def irsListPushBack (heap : Heap α) (list : IrsList) (data : Option α) :
    Except Fault (Heap α × IrsList × Nat) :=
  match list.end' with
  | none => irsListPush heap list none data
  | some address => do
    let last := (← heap.read (some address)).prev
    irsListPush heap list last data

def irsListPushFront (heap : Heap α) (list : IrsList) (node : NodePointer) (data : Option α) :
    Except Fault (Heap α × IrsList × Nat) := do
  let temp := (← heap.read node).prev
  let (heap, new) := irsStructNodeInit heap data
  let heap ← heap.setPrev node (some new)
  let heap ← heap.setNext (some new) node
  let heap ← heap.setPrev (some new) temp
  match temp with
  | some _ => do
    let heap ← heap.setNext temp (some new)
    .ok (heap, { list with size := list.size + 1 }, new)
  | none => .ok (heap, { list with begin := some new, size := list.size + 1 }, new)

def irsListPopBack (heap : Heap α) (list : IrsList) :
    Except Fault (Heap α × IrsList × NodePointer) :=
  if list.size = 0 then .ok (heap, list, none)
  else do
    let temp := (← heap.read list.end').prev
    let before := (← heap.read temp).prev
    let heap ←
      match before with
      | some _ => heap.setNext before list.end'
      | none => .ok heap
    let heap ← heap.setPrev list.end' before
    .ok (heap, { list with size := list.size - 1 }, temp)

def removeIfLoop {β : Type} (data : β) (predicate : α → β → Bool) :
    Nat → Heap α → IrsList → NodePointer → Bool → Except Fault (Heap α × IrsList × Bool)
  | _, heap, list, none, isRemoved => .ok (heap, list, isRemoved)
  | 0, _, _, some _, _ => .error .endless
  | fuel + 1, heap, list, some address, isRemoved => do
    let node ← heap.read (some address)
    if node.data.any fun value => predicate value data then
      let heap ←
        match node.prev with
        | some _ => heap.setNext node.prev node.next
        | none => .ok heap
      let heap ←
        match node.next with
        | some _ => heap.setPrev node.next node.prev
        | none => .ok heap
      let heap ← heap.free (some address)
      removeIfLoop data predicate fuel heap { list with size := list.size - 1 } node.next true
    else removeIfLoop data predicate fuel heap list node.next isRemoved

/-- A walk along the links that does not come back to a node is no longer than the number of
addresses that were given out. -/
def irsListRemoveIf {β : Type} (heap : Heap α) (list : IrsList) (data : β)
    (predicate : α → β → Bool) :
    Except Fault (Heap α × IrsList × Bool) := do
  let (heap, list, isRemoved) ← removeIfLoop data predicate heap.fresh heap list list.begin false
  if list.size = 0 then .ok (heap, { list with begin := none }, isRemoved)
    else .ok (heap, list, isRemoved)

end

/-! ### Iterators -/

structure IrsIterator where
  (begin end' : NodePointer)
  current : NodePointer

def irsIteratorInit (begin end' : NodePointer) : IrsIterator := { begin, end', current := none }

def irsListIterator (list : IrsList) : IrsIterator := irsIteratorInit list.begin list.end'

def irsListReverseIterator (list : IrsList) : IrsIterator := irsIteratorInit list.end' list.end'

section
variable {α : Type}

def irsIteratorNext (heap : Heap α) (it : IrsIterator) : Except Fault (Bool × IrsIterator) :=
  if it.begin = none then .ok (false, it)
  else
    match it.current with
    | none => .ok (decide (it.begin ≠ it.end'), { it with current := it.begin })
    | some address => do
      let current := (← heap.read (some address)).next
      .ok (decide (current ≠ it.end'), { it with current })

def irsIteratorPrev (heap : Heap α) (it : IrsIterator) : Except Fault (Bool × IrsIterator) :=
  if it.end' = none then .ok (false, it)
  else
    match it.current with
    | none => do
      let current := (← heap.read it.end').prev
      .ok (decide (current ≠ none), { it with current })
    | some address => do
      let current := (← heap.read (some address)).prev
      .ok (decide (current ≠ none), { it with current })

/-- The data at the iterator, which is null where there is no node. -/
def irsIteratorGet (heap : Heap α) (it : IrsIterator) : Except Fault (Option α) :=
  match it.current with
  | none => .ok none
  | some address => do .ok (← heap.read (some address)).data

/-- The nodes that an iterator visits while its step gives true, and the iterator after that. -/
def visit (step : IrsIterator → Except Fault (Bool × IrsIterator)) : Nat → IrsIterator →
    Except Fault (List Nat × IrsIterator)
  | 0, _ => .error .endless
  | fuel + 1, it => do
    let (more, it) ← step it
    if more then
      let (rest, last) ← visit step fuel it
      .ok (it.current.toList ++ rest, last)
    else .ok ([], it)

end

end IrsMachine
