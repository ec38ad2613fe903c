import IrsMachine.Dictionary.Pointers

/-!
# Trees in memory

The blocks of a tree of nodes: those of a node are its fields, its array of child pointers, the
buffer of its label and its list, and those of its children are apart from them and from each other.
-/

namespace IrsMachine
open Except Separation Assertion IrsDictionaryNode Quantale

variable {α : Type}

/-! ### Nodes -/

/-- Where the blocks of a node are, and the pointers to its children. -/
structure NodeLayout where
  array : Nat
  (offset dataList : Option Nat)
  pointers : List (Option Nat)

def NodeLayout.fields (layout : NodeLayout) (offsetSize : Nat) : NodeFields :=
  { next := some layout.array, offset := layout.offset, offsetSize, dataList := layout.dataList }

/-- The label is in the buffer, with a zero after what was copied there. -/
def bufferAt (pointer : Option Nat) (offset : Option Bytes) (offsetSize : Nat) :
    Assertion Place (Content α) :=
  match pointer, offset with
  | none, none => ⨆ _ : offsetSize = 0, 1
  | some address, some bytes =>
    ⨆ _ : offsetSize ≤ bytes.length, blockAt address (.chars (bytes ++ [0]))
  | _, _ => ⊥

def dataListAt (pointer : Option Nat) (dataList : Option (List (Option α))) :
    Assertion Place (Content α) :=
  match pointer, dataList with
  | none, none => 1
  | some address, some values => ⨆ _ : values ≠ [], listAt address values
  | _, _ => ⊥

def headAt (address : Nat) (layout : NodeLayout) (offsetSize : Nat) : Assertion Place (Content α) :=
  blockAt address (.node (layout.fields offsetSize)) * blockAt layout.array
    (.pointers layout.pointers)

structure ArrayFits (size : UInt8) (layout : NodeLayout)
    (next : List (Option (IrsDictionaryNode (Option α)))) : Prop where
  length : next.length = size.toNat
  shape : layout.pointers.map Option.isSome = next.map Option.isSome

mutual
def treeAt (size : UInt8) : Nat → IrsDictionaryNode (Option α) → Assertion Place (Content α)
  | address, ⟨next, offset, offsetSize, dataList⟩ =>
    ⨆ (layout : NodeLayout) (_ : ArrayFits size layout next),
    headAt address layout offsetSize * (bufferAt layout.offset offset offsetSize *
      (dataListAt layout.dataList dataList * childrenAt size layout.pointers next))
def childrenAt (size : UInt8) : List (Option Nat) → List (Option (IrsDictionaryNode (Option α))) →
    Assertion Place (Content α)
  | [], [] => 1
  | none :: pointers, none :: next => childrenAt size pointers next
  | some address :: pointers, some child :: next =>
    treeAt size address child * childrenAt size pointers next
  | _, _ => ⊥
end

def bodyAt (size : UInt8) (layout : NodeLayout) (node : IrsDictionaryNode (Option α)) :
    Assertion Place (Content α) :=
  bufferAt layout.offset node.offset node.offsetSize *
    (dataListAt layout.dataList node.dataList * childrenAt size layout.pointers node.next)

section
variable {size : UInt8} {address num : Nat} {layout : NodeLayout} {pointers : List (Option Nat)}
  {node child : IrsDictionaryNode (Option α)}
  {next : List (Option (IrsDictionaryNode (Option α)))}

theorem treeAt_eq :
    treeAt size address node = ⨆ (layout : NodeLayout) (_ : ArrayFits size layout node.next),
    headAt address layout node.offsetSize * bodyAt size layout node := by
  obtain ⟨next, offset, offsetSize, dataList⟩ := node
  rw [treeAt]
  rfl

theorem le_treeAt (node : IrsDictionaryNode (Option α)) (fits : ArrayFits size layout node.next) :
    headAt address layout node.offsetSize * bodyAt size layout node ≤ treeAt size address node := by
  rw [treeAt_eq]
  exact le_iSup₂_of_le layout fits le_rfl

theorem childrenAt_replicate (count : Nat) :
    childrenAt (α := α) size (List.replicate count none) (List.replicate count none) = 1 := by
  induction count with
  | zero => rfl
  | succ count ih => exact ih

/-- One child is apart from the others. -/
theorem childrenAt_set (bound : num < pointers.length) (bound' : num < next.length) :
    childrenAt size (pointers.set num (some address)) (next.set num (some child)) =
      treeAt size address child * childrenAt size (pointers.set num none) (next.set num none) := by
  induction num generalizing pointers next with
  | zero =>
    cases pointers with
    | nil => cases bound
    | cons pointer pointers =>
      cases next with
      | nil => cases bound'
      | cons first next => rfl
  | succ num ih =>
    cases pointers with
    | nil => cases bound
    | cons pointer pointers =>
      cases next with
      | nil => cases bound'
      | cons first next =>
        have later := ih (Nat.lt_of_succ_lt_succ bound) (Nat.lt_of_succ_lt_succ bound')
        cases pointer with
        | none =>
          cases first with
          | none => exact later
          | some first => exact (mul_bot).symm
        | some pointer =>
          cases first with
          | none => exact (mul_bot).symm
          | some first =>
            show treeAt size pointer first * childrenAt size (pointers.set num _) (next.set num _) =
                _ * (treeAt size pointer first * _)
            rw [later, mul_left_comm]

theorem ArrayFits.pointer (fits : ArrayFits size layout next) (num : Nat) :
    layout.pointers[num]?.map Option.isSome = next[num]?.map Option.isSome := by
  rw [← List.getElem?_map, fits.shape, List.getElem?_map]

theorem ArrayFits.hasChild (fits : ArrayFits size layout next)
    (here : next[num]? = some (some child)) :
    ∃ pointer, layout.pointers[num]? = some (some pointer) := by
  have same := fits.pointer num
  rw [here] at same
  obtain ⟨pointer, found, present⟩ := Option.map_eq_some_iff.mp same
  obtain ⟨pointer, rfl⟩ := Option.isSome_iff_exists.mp present
  exact ⟨pointer, found⟩

theorem ArrayFits.length_pointers (fits : ArrayFits size layout next) :
    layout.pointers.length = size.toNat := by
  have same := congrArg List.length fits.shape
  rw [List.length_map, List.length_map] at same
  exact same.trans fits.length

theorem ArrayFits.set (fits : ArrayFits size layout next) (num address : Nat)
    (child : IrsDictionaryNode (Option α)) :
    ArrayFits size { layout with pointers := layout.pointers.set num (some address) }
      (next.set num (some child)) := by
  refine ⟨(List.length_set ..).trans fits.length, ?_⟩
  rw [List.map_set, List.map_set, fits.shape]
  rfl

end

/-! ### Steps on the fields and the array of a node -/

section
variable {β γ : Type} {spec : Except Fault γ} {P : Assertion Place (Content α)}
  {R : γ → β → Assertion Place (Content α)} {size : UInt8}
  {address num offsetSize : Nat} {layout : NodeLayout} {child : Option Nat}

theorem headAt_fields : headAt address layout offsetSize * P =
    blockAt address (.node (layout.fields offsetSize))
      * (blockAt layout.array (.pointers layout.pointers) * P) := mul_assoc ..

theorem headAt_array : headAt address layout offsetSize * P =
    blockAt layout.array (.pointers layout.pointers)
      * (blockAt address (.node (layout.fields offsetSize)) * P) := by
  rw [headAt_fields, mul_left_comm]

theorem refines_readNode {next : NodeFields → MemoryM α β}
    (later : Refines (headAt address layout offsetSize * P) spec
      (next (layout.fields offsetSize)) R) :
    Refines (headAt address layout offsetSize * P) spec
      (Memory.readNode (some address) >>= next) R := by
  rw [headAt_fields] at later ⊢
  exact refines_readAs rfl later

theorem refines_changeNode {change : NodeFields → NodeFields} {next : Unit → MemoryM α β}
    (layout' : NodeLayout) (offsetSize' : Nat)
    (changed : change (layout.fields offsetSize) = layout'.fields offsetSize')
    (array : layout'.array = layout.array) (pointers : layout'.pointers = layout.pointers)
    (later : Refines (headAt address layout' offsetSize' * P) spec (next ()) R) :
    Refines (headAt address layout offsetSize * P) spec
      (Memory.changeNode (some address) change >>= next) R := by
  unfold Memory.changeNode
  rw [bind_assoc]
  apply refines_readNode
  rw [headAt_fields] at later ⊢
  rw [array, pointers, ← changed] at later
  exact refines_write later

theorem refines_readPointers {next : List (Option Nat) → MemoryM α β}
    (later : Refines (headAt address layout offsetSize * P) spec (next layout.pointers) R) :
    Refines (headAt address layout offsetSize * P) spec
      (Memory.readPointers (layout.fields offsetSize).next >>= next) R := by
  rw [headAt_array] at later ⊢
  exact refines_readAs rfl later

theorem refines_getNext {next : Option Nat → MemoryM α β}
    (found : layout.pointers[num]? = some child)
    (later : Refines (headAt address layout offsetSize * P) spec (next child) R) :
    Refines (headAt address layout offsetSize * P) spec
      (Memory.getNext (some address) num >>= next) R := by
  unfold Memory.getNext
  rw [bind_assoc]
  apply refines_readNode
  rw [bind_assoc]
  apply refines_readPointers
  rw [found]
  exact later

theorem refines_getNext_outside {next : Option Nat → MemoryM α β} {spec : Except Fault γ}
    (nothing : layout.pointers[num]? = none)  (fails : spec = .error .outOfBounds) :
    Refines (headAt address layout offsetSize * P) spec
      (Memory.getNext (some address) num >>= next) R := by
  unfold Memory.getNext
  rw [bind_assoc]
  apply refines_readNode
  rw [bind_assoc]
  apply refines_readPointers
  rw [nothing, fails]
  exact Refines.throw _

theorem refines_setNext {next : Unit → MemoryM α β} (bound : num < layout.pointers.length)
    (later : Refines
      (headAt address { layout with pointers := layout.pointers.set num child } offsetSize * P) spec
        (next ()) R) :
    Refines (headAt address layout offsetSize * P) spec
      (Memory.setNext (some address) num child >>= next) R := by
  unfold Memory.setNext
  rw [bind_assoc]
  apply refines_readNode
  rw [bind_assoc]
  apply refines_readPointers
  rw [if_pos bound]
  rw [headAt_array] at later ⊢
  exact refines_write later

theorem refines_setNext_outside {next : Unit → MemoryM α β}
    (beyond : ¬ num < layout.pointers.length) (fails : spec = .error .outOfBounds) :
    Refines (headAt address layout offsetSize * P) spec
      (Memory.setNext (some address) num child >>= next) R := by
  unfold Memory.setNext
  rw [bind_assoc]
  apply refines_readNode
  rw [bind_assoc]
  apply refines_readPointers
  rw [if_neg beyond, fails]
  exact Refines.throw _

theorem refines_irsStrCpy {string : Bytes} {next : Nat → MemoryM α β}
    (enough : offsetSize ≤ string.length)
    (later : ∀ copy, Refines (blockAt copy (.chars (string.take offsetSize ++ [0])) * P) spec
      (next copy) R) :
    Refines P spec (Memory.irsStrCpy string offsetSize >>= next) R := by
  unfold Memory.irsStrCpy
  rw [if_neg (by omega)]
  exact refines_new later

/-- A new node has no label, no list and no children. -/
def newLayout (size : UInt8) (array : Nat) : NodeLayout :=
  { array, offset := none, dataList := none, pointers := List.replicate size.toNat none }

theorem runs_irsDictionaryNodeInitialize (positive : size ≠ 0) :
    Runs (1 : Assertion Place (Content α)) (Memory.irsDictionaryNodeInitialize size) fun node =>
      ⨆ array, headAt node (newLayout size array) 0 := by
  refine refines_new fun node => ?_
  unfold Memory.newPointers
  rw [if_neg positive, bind_assoc]
  refine refines_new fun array => ?_
  rw [pure_bind]
  unfold Memory.changeNode
  rw [bind_assoc, mul_left_comm]
  refine refines_readAs rfl (refines_write (Refines.pure ?_))
  rw [mul_one]
  exact le_iSup (fun array => headAt node (newLayout size array) 0) array

theorem arrayFits_newLayout (size : UInt8) (array : Nat) :
    ArrayFits size (newLayout size array)
      (irsDictionaryNodeInitialize (α := Option α) size).next := by
  refine ⟨List.length_replicate, ?_⟩
  rw [newLayout, irsDictionaryNodeInitialize, List.map_replicate, List.map_replicate]
  rfl

theorem bufferAt_some {copy : Nat} {bytes : Bytes} (enough : offsetSize ≤ bytes.length) :
    bufferAt (some copy) (some bytes) offsetSize = blockAt (α := α) copy (.chars (bytes ++ [0])) :=
  iSup_pos enough

theorem runs_storeLeaf (positive : size ≠ 0) (bound : num < layout.pointers.length) (rest : Bytes) :
    Runs (headAt (α := α) address layout offsetSize) (Memory.storeLeaf size (some address) num rest)
      fun temp =>
      headAt address { layout with pointers := layout.pointers.set num (some temp) } offsetSize
        * treeAt size temp (leafNode size rest) := by
  unfold Memory.storeLeaf
  rw [← one_mul (headAt address layout offsetSize)]
  refine Runs.step (runs_irsDictionaryNodeInitialize positive) fun temp => ?_
  rw [exists_mul]
  refine Refines.cases fun array => ?_
  rw [mul_comm]
  refine refines_setNext bound ?_
  rw [mul_comm]
  refine refines_changeNode (newLayout size array) rest.length rfl rfl rfl ?_
  refine refines_irsStrCpy le_rfl fun copy => ?_
  rw [mul_left_comm]
  refine refines_changeNode { newLayout size array with offset := some copy } rest.length
    rfl rfl rfl ?_
  refine Refines.pure ?_
  rw [List.take_length]
  have body : bodyAt size { newLayout size array with offset := some copy } (leafNode size rest) =
    blockAt (α := α) copy (.chars (rest ++ [0])) := by
    rw [bodyAt, leafNode, irsDictionaryNodeInitialize, newLayout, bufferAt_some le_rfl,
      childrenAt_replicate]
    exact (congrArg _ (mul_one 1)).trans (mul_one _)
  rw [← mul_assoc, ← body, mul_comm]
  refine mul_le_mul_right ?_ _
  exact le_treeAt (leafNode size rest)
    ⟨(arrayFits_newLayout size array).length, (arrayFits_newLayout size array).shape⟩

/-- The slot of the new node that receives the old one. -/
theorem childrenAt_only {slot moving : Nat} {hanging : IrsDictionaryNode (Option α)}
    (bound : slot < size.toNat) :
    childrenAt size ((List.replicate size.toNat none).set slot (some moving))
      ((List.replicate size.toNat none).set slot (some hanging)) =
      treeAt size moving hanging := by
  rw [childrenAt_set (by rwa [List.length_replicate]) (by rwa [List.length_replicate]),
    List.set_replicate_self, List.set_replicate_self, childrenAt_replicate, mul_one]

theorem refines_splitChild (toInt : UInt8 → UInt8) (address offsetSize moving : Nat)
    {buffer j : Nat} {old : NodeLayout} {node : IrsDictionaryNode (Option α)} {bytes : Bytes}
    {ch : UInt8} (positive : size ≠ 0) (bound : num < layout.pointers.length)
    (fits : ArrayFits size old node.next) (here : old.offset = some buffer)
    (label : node.offset = some bytes) (enough : node.offsetSize ≤ bytes.length)
    (inside : j < node.offsetSize) (found : bytes[j]? = some ch) :
    Refines (headAt address layout offsetSize
      * (headAt moving old node.offsetSize * bodyAt size old node))
      (if (toInt ch).toNat < size.toNat then .ok () else .error .outOfBounds)
      (Memory.splitChild toInt size (some address) num moving buffer j)
      fun _ temp => headAt address { layout with pointers := layout.pointers.set num (some temp) }
        offsetSize *
        treeAt size temp
          ((prefixNode size bytes j).setNext (toInt ch).toNat (hangNode node bytes j)) := by
  have third : ∀ x y z rest : Assertion Place (Content α),
      x * (y * (z * rest)) = z * (x * (y * rest)) := by
    intro x y z rest
    ac_rfl
  have fourth : ∀ x y z w rest : Assertion Place (Content α),
      x * (y * (z * (w * rest))) = w * (x * (y * (z * rest))) := by
    intro x y z w rest
    ac_rfl
  unfold Memory.splitChild
  rw [mul_left_comm]
  apply refines_readNode
  rw [bodyAt, here, label, bufferAt_some enough, ← one_mul (headAt moving _ _ * _)]
  refine Runs.step (runs_irsDictionaryNodeInitialize positive) fun temp => ?_
  rw [exists_mul]
  refine Refines.cases fun array => ?_
  rw [third]
  refine refines_setNext bound ?_
  rw [mul_left_comm]
  refine refines_changeNode (newLayout size array) j rfl rfl rfl ?_
  refine refines_changeNode { newLayout size array with offset := some buffer } j rfl rfl rfl ?_
  rw [fourth]
  refine refines_readAs rfl ?_
  have found' : (bytes ++ [0])[j]? = some ch := by rw [List.getElem?_append_left (by omega), found]
  rw [found', mul_left_comm]
  dsimp only
  by_cases slot : (toInt ch).toNat < size.toNat
  · rw [if_pos slot]
    refine refines_setNext (by rw [newLayout, List.length_replicate]; exact slot) ?_
    rw [fourth]
    refine refines_changeNode old (node.offsetSize - j) rfl rfl rfl ?_
    rw [show (old.fields node.offsetSize).offsetSize = node.offsetSize from rfl]
    refine refines_irsStrCpy (by rw [List.length_drop, List.length_append]; omega) fun copy => ?_
    rw [mul_left_comm]
    refine refines_changeNode { old with offset := some copy } (node.offsetSize - j) rfl rfl rfl ?_
    refine Refines.pure ?_
    have copied : ((bytes ++ [0]).drop j).take (node.offsetSize - j) =
        (bytes.drop j).take (node.offsetSize - j) := by
      rw [List.drop_append_of_le_length (by omega), List.take_append_of_le_length
        (by rw [List.length_drop]; omega)]
    have length : ((bytes.drop j).take (node.offsetSize - j)).length = node.offsetSize - j := by
      rw [List.length_take, List.length_drop]
      omega
    have hanging : headAt moving { old with offset := some copy } (node.offsetSize - j) *
        (blockAt copy (.chars ((bytes.drop j).take (node.offsetSize - j) ++ [0])) *
          (dataListAt old.dataList node.dataList * childrenAt size old.pointers node.next)) ≤
            treeAt size moving (hangNode node bytes j) := by
      rw [← bufferAt_some (show node.offsetSize - j ≤ _ from length.ge)]
      exact le_treeAt (hangNode node bytes j) ⟨fits.length, fits.shape⟩
    have parent : headAt temp { newLayout size array with
          offset := some buffer
          pointers := (newLayout size array).pointers.set (toInt ch).toNat (some moving) } j *
        (blockAt buffer (.chars (bytes ++ [0])) * treeAt size moving (hangNode node bytes j)) ≤
        treeAt size temp
          ((prefixNode size bytes j).setNext (toInt ch).toNat (hangNode node bytes j)) := by
      rw [← bufferAt_some (show j ≤ bytes.length by omega), ← childrenAt_only slot,
        ← one_mul (childrenAt size _ _)]
      refine le_treeAt ((prefixNode size bytes j).setNext (toInt ch).toNat (hangNode node bytes j))
        ?_
      have fits := (arrayFits_newLayout (α := α) size array).set (toInt ch).toNat moving
        (hangNode node bytes j)
      exact ⟨fits.length, fits.shape⟩
    rw [copied]
    calc _ = headAt address { layout with pointers := layout.pointers.set num (some temp) }
          offsetSize * (headAt temp { newLayout size array with
            offset := some buffer
            pointers := (newLayout size array).pointers.set (toInt ch).toNat (some moving) } j *
          (blockAt buffer (.chars (bytes ++ [0]))
            * (headAt moving { old with offset := some copy } (node.offsetSize - j) *
            (blockAt copy (.chars ((bytes.drop j).take (node.offsetSize - j) ++ [0])) *
              (dataListAt old.dataList node.dataList * childrenAt size old.pointers
                node.next))))) := by ac_rfl
      _ ≤ _ := mul_le_mul_right (le_trans
        (mul_le_mul_right (mul_le_mul_right hanging _) _) parent) _
  · rw [if_neg slot]
    exact refines_setNext_outside (by rw [newLayout, List.length_replicate]; exact slot) rfl

end

end IrsMachine
