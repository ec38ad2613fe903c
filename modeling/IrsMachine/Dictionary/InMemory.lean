import IrsMachine.Dictionary.Progress
import IrsMachine.Dictionary.Represents

/-!
# The loop of an append in memory

The loop goes down through a hole in the tree, which is closed over what it makes there. It does to
the blocks what the loop on trees does to the tree.
-/

namespace IrsMachine
open Except Separation Assertion IrsDictionaryNode Quantale

variable {α : Type} {size : UInt8} {address num pointer : Nat} {layout : NodeLayout}
  {node child sub : IrsDictionaryNode (Option α)} {path : Address}

/-! ### Holes -/

/-- A tree without the node at an address. -/
def holeAt (size : UInt8) (pointer address : Nat) (node : IrsDictionaryNode (Option α))
    (path : Address) : Assertion Place (Content α) :=
  ⨅ sub, treeAt size pointer sub ⇨ₗ treeAt size address (node.modifyAt (fun _ => sub) path)

theorem le_holeAt {P : Assertion Place (Content α)}
    (fills : ∀ sub, P * treeAt size pointer sub ≤ treeAt size address
      (node.modifyAt (fun _ => sub) path)) : P ≤ holeAt size pointer address node path :=
  le_iInf fun sub => leftMulResiduation_le_iff_mul_le.mpr (fills sub)

theorem holeAt_mul (sub : IrsDictionaryNode (Option α)) :
    holeAt size pointer address node path * treeAt size pointer sub ≤ treeAt size address
      (node.modifyAt (fun _ => sub) path) :=
  leftMulResiduation_le_iff_mul_le.mp (iInf_le _ sub)

def endsAt (size : UInt8) (address : Nat) (node : IrsDictionaryNode (Option α)) (path : Address)
    (pointer : Option Nat) :
    Assertion Place (Content α) :=
  ⨆ (p : Nat) (sub : IrsDictionaryNode (Option α))
    (_ : pointer = some p ∧ node.nodeAt path = some sub),
    holeAt size p address node path * treeAt size p sub

theorem treeAt_le_endsAt :
    treeAt size address node ≤ endsAt size address node [] (some address) := by
  refine le_iSup_of_le address (le_iSup₂_of_le node ⟨rfl, rfl⟩ ?_)
  exact le_trans (one_mul _).ge (mul_le_mul_left (le_holeAt fun sub => (one_mul _).le) _)

/-! ### One child -/

/-- All of a node but one of its children. -/
def bodyBut (size : UInt8) (layout : NodeLayout) (node : IrsDictionaryNode (Option α)) (num : Nat) :
    Assertion Place (Content α) :=
  bufferAt layout.offset node.offset node.offsetSize * (dataListAt layout.dataList node.dataList *
    childrenAt size (layout.pointers.set num none) (node.next.set num none))

theorem bodyAt_setNext (fits : ArrayFits size layout node.next) (bound : num < size.toNat) :
    bodyAt size { layout with pointers := layout.pointers.set num (some pointer) }
      (node.setNext num child) =
      bodyBut size layout node num * treeAt size pointer child := by
  rw [bodyAt, bodyBut, setNext]
  dsimp only
  rw [childrenAt_set (by rw [fits.length_pointers]; exact bound) (by rw [fits.length]; exact bound)]
  ac_rfl

theorem setNext_self (here : node.next[num]? = some (some child)) :
    node.setNext num child = node := by
  obtain ⟨next, offset, offsetSize, dataList⟩ := node
  obtain ⟨bound, same⟩ := List.getElem?_eq_some_iff.mp here
  rw [setNext, ← same, List.set_getElem_self]

theorem bodyAt_child (fits : ArrayFits size layout node.next)
    (here : node.next[num]? = some (some child))
    (there : layout.pointers[num]? = some (some pointer)) :
    bodyAt size layout node = bodyBut size layout node num * treeAt size pointer child := by
  obtain ⟨bound, same⟩ := List.getElem?_eq_some_iff.mp there
  rw [← bodyAt_setNext fits (by rw [← fits.length_pointers]; exact bound), setNext_self here,
    ← same, List.set_getElem_self]

theorem close_child (fits : ArrayFits size layout node.next) (bound : num < size.toNat) :
    headAt address { layout with pointers := layout.pointers.set num (some pointer) }
      node.offsetSize *
      (bodyBut size layout node num * treeAt size pointer child) ≤ treeAt size address
        (node.setNext num child) := by
  rw [← bodyAt_setNext fits bound]
  exact le_treeAt (node.setNext num child) (fits.set num pointer child)

theorem endsAt_setNext {last : Option Nat} (fits : ArrayFits size layout node.next)
    (bound : num < size.toNat) :
    headAt address { layout with pointers := layout.pointers.set num (some pointer) }
      node.offsetSize *
      (bodyBut size layout node num * endsAt size pointer child path last) ≤ endsAt size address
        (node.setNext num child) (num :: path) last := by
  have here : (node.setNext num child).next[num]? = some (some child) :=
    List.getElem?_set_self (by rw [fits.length]; exact bound)
  rw [endsAt, mul_exists, mul_exists]
  refine iSup_le fun p => ?_
  rw [mul_exists, mul_exists]
  refine iSup_le fun sub => ?_
  rw [mul_exists, mul_exists]
  refine iSup_le fun both => ?_
  refine le_iSup_of_le p (le_iSup₂_of_le sub ⟨both.1, by rw [nodeAt, here]; exact both.2⟩ ?_)
  rw [← mul_assoc, ← mul_assoc]
  refine mul_le_mul_left (le_holeAt fun sub => ?_) _
  rw [modifyAt, here, mul_assoc, mul_assoc]
  have again : ∀ inner, (node.setNext num child).setNext num inner = node.setNext num inner :=
    fun inner => by
    rw [setNext, setNext, setNext, List.set_set]
  dsimp only
  rw [again]
  exact le_trans (mul_le_mul_right (mul_le_mul_right (holeAt_mul sub) _) _) (close_child fits bound)

/-! ### Appending -/

theorem matchLength_buffer {bytes : Bytes} {n : Nat} (enough : n ≤ bytes.length) (rest : Bytes) :
    matchLength (bytes ++ [0]) n rest = matchLength bytes n rest := by
  rw [← matchLength_take (bytes ++ [0]), ← matchLength_take bytes,
    List.take_append_of_le_length enough]

/-- A tree in memory, taken apart at its root. -/
theorem refines_tree {β γ : Type} {spec : Except Fault γ} {run : MemoryM α β}
    {P : Assertion Place (Content α)} {R : γ → β → Assertion Place (Content α)}
    (each : ∀ layout, ArrayFits size layout node.next →
      Refines (headAt address layout node.offsetSize * (bodyAt size layout node * P)) spec run R) :
    Refines (treeAt size address node * P) spec run R := by
  rw [treeAt_eq, exists_mul]
  refine Refines.cases fun layout => ?_
  rw [exists_mul]
  refine Refines.cases fun fits => ?_
  rw [mul_assoc]
  exact each layout fits

/-- The label of a node in memory is in a buffer, or it has none. -/
theorem bodyAt_cases (size : UInt8) (layout : NodeLayout) (node : IrsDictionaryNode (Option α)) :
    bodyAt size layout node = ⊥ ∨
      (layout.offset = none ∧ node.offset = none ∧ node.offsetSize = 0) ∨
      ∃ buffer bytes, layout.offset = some buffer ∧ node.offset = some bytes ∧
        node.offsetSize ≤ bytes.length := by
  unfold bodyAt
  cases layout.offset with
  | none =>
    cases node.offset with
    | none =>
      by_cases nothing : node.offsetSize = 0
      · exact .inr (.inl ⟨rfl, rfl, nothing⟩)
      · refine .inl ?_
        rw [bufferAt, iSup_neg nothing, bot_mul]
    | some bytes => exact .inl (bot_mul ..)
  | some buffer =>
    cases node.offset with
    | none => exact .inl (bot_mul ..)
    | some bytes =>
      by_cases enough : node.offsetSize ≤ bytes.length
      · exact .inr (.inr ⟨buffer, bytes, rfl, rfl, enough⟩)
      · refine .inl ?_
        rw [bufferAt, iSup_neg enough, bot_mul]

theorem refines_readBuffer {β γ : Type} {spec : Except Fault γ} {next : Bytes → MemoryM α β}
    {P Q : Assertion Place (Content α)} {R : γ → β → Assertion Place (Content α)} {buffer : Nat}
    {bytes : Bytes} (here : layout.offset = some buffer) (label : node.offset = some bytes)
    (enough : node.offsetSize ≤ bytes.length)
    (later : Refines (P * (bodyAt size layout node * Q)) spec (next (bytes ++ [0])) R) :
    Refines (P * (bodyAt size layout node * Q)) spec
      (Memory.readChars (some buffer) >>= next) R := by
  rw [bodyAt, here, label, bufferAt_some enough, mul_assoc, mul_left_comm] at later ⊢
  exact refines_readAs rfl later

theorem bodyAt_none (there : layout.pointers[num]? = some none)
    (here : node.next[num]? = some none) :
    bodyAt size layout node = bodyBut size layout node num := by
  obtain ⟨bound, same⟩ := List.getElem?_eq_some_iff.mp there
  obtain ⟨bound', same'⟩ := List.getElem?_eq_some_iff.mp here
  rw [bodyAt, bodyBut, ← same, ← same', List.set_getElem_self, List.set_getElem_self]

/-- The rest of the loop, below a child that is stored at `num`. -/
theorem refines_enter {toInt : UInt8 → UInt8} {fuel : Nat} {rest : Bytes}
    (fits : ArrayFits size layout node.next) (bound : num < size.toNat)
    (below : Refines (treeAt size pointer child) (appendLoop toInt size fuel child rest)
      (Memory.appendLoop toInt size fuel (some pointer) rest)
      fun result last => endsAt size pointer result.1 result.2 last) :
    Refines (headAt address { layout with pointers := layout.pointers.set num (some pointer) }
      node.offsetSize *
        (bodyBut size layout node num * treeAt size pointer child))
      (do
        let (child, path) ← appendLoop toInt size fuel child rest
        .ok (node.setNext num child, num :: path))
      (Memory.appendLoop toInt size fuel (some pointer) rest) fun result last =>
      endsAt size address result.1 result.2 last := by
  rw [← mul_assoc, mul_comm]
  refine (below.frame _).map fun value last => ?_
  rw [mul_comm, mul_assoc]
  exact endsAt_setNext fits bound

/-- A node whose child is open is closed over the child again. -/
theorem close_opened {inner : NodeLayout} (innerFits : ArrayFits size inner child.next)
    (there : layout.pointers[num]? = some (some pointer)) :
    headAt pointer inner child.offsetSize * (bodyAt size inner child *
        (headAt address layout node.offsetSize * bodyBut size layout node num)) ≤
      headAt address { layout with pointers := layout.pointers.set num (some pointer) }
        node.offsetSize *
        (bodyBut size layout node num * treeAt size pointer child) := by
  obtain ⟨_, same⟩ := List.getElem?_eq_some_iff.mp there
  rw [← same, List.set_getElem_self]
  calc _ = headAt address layout node.offsetSize * (bodyBut size layout node num *
        (headAt pointer inner child.offsetSize * bodyAt size inner child)) := by ac_rfl
    _ ≤ _ := mul_le_mul_right (mul_le_mul_right (le_treeAt child innerFits) _) _

/-! #### The cases of an iteration -/

/-- There is no child: a leaf is stored. -/
theorem refines_appendLoop_leaf {toInt : UInt8 → UInt8} {fuel : Nat} {c : UInt8} {cs : Bytes}
    (positive : size ≠ 0) (fits : ArrayFits size layout node.next)
    (found : node.next[(toInt c).toNat]? = some none) :
    Refines (headAt address layout node.offsetSize * bodyAt size layout node)
      (appendLoop toInt size (fuel + 1) node (c :: cs))
      (Memory.appendLoop toInt size (fuel + 1) (some address) (c :: cs))
      fun result pointer => endsAt size address result.1 result.2 pointer := by
  have bound : (toInt c).toNat < size.toNat := by
    rw [← fits.length]
    exact (List.getElem?_eq_some_iff.mp found).1
  have shape := fits.pointer (toInt c).toNat
  rw [found] at shape
  obtain ⟨pointer, there, absent⟩ := Option.map_eq_some_iff.mp shape
  obtain rfl := Option.isNone_iff_eq_none.mp (Option.isSome_eq_false_iff.mp absent)
  have iteration : appendIteration toInt size node c cs =
      .ok (.leaf (toInt c).toNat (leafNode size (c :: cs))) := by
    simp only [appendIteration, found]
  rw [appendLoop_leaf iteration, Memory.appendLoop]
  refine refines_getNext there ?_
  refine Runs.step (runs_storeLeaf positive (by rw [fits.length_pointers]; exact bound) (c :: cs))
    fun temp => Refines.pure ?_
  rw [bodyAt_none there found]
  calc _ = headAt address { layout with pointers := layout.pointers.set (toInt c).toNat (some
    temp) } node.offsetSize *
        (bodyBut size layout node (toInt c).toNat * treeAt size temp
          (leafNode size (c :: cs))) := by ac_rfl
    _ ≤ _ := le_trans (mul_le_mul_right
      (mul_le_mul_right treeAt_le_endsAt _) _) (endsAt_setNext fits bound)

/-- The child has no label, or all of it agrees: the loop goes on below. -/
theorem refines_appendLoop_enter {toInt : UInt8 → UInt8} {fuel : Nat} {rest : Bytes}
    {inner : NodeLayout} (fits : ArrayFits size layout node.next) (bound : num < size.toNat)
    (innerFits : ArrayFits size inner child.next)
    (there : layout.pointers[num]? = some (some pointer))
    (below : Refines (treeAt size pointer child) (appendLoop toInt size fuel child rest)
      (Memory.appendLoop toInt size fuel (some pointer) rest)
      fun result last => endsAt size pointer result.1 result.2 last) :
    Refines (headAt pointer inner child.offsetSize * (bodyAt size inner child *
        (headAt address layout node.offsetSize * bodyBut size layout node num)))
      (do
        let (child, path) ← appendLoop toInt size fuel child rest
        .ok (node.setNext num child, num :: path))
      (Memory.appendLoop toInt size fuel (some pointer) rest) fun result last =>
      endsAt size address result.1 result.2 last :=
  (refines_enter fits bound below).pre (close_opened innerFits there)

/-- The label is split after `j` characters, and the loop goes on below the new node. -/
theorem refines_appendLoop_split {toInt : UInt8 → UInt8} {fuel j buffer : Nat} {bytes rest : Bytes}
    {ch : UInt8} {inner : NodeLayout} (positive : size ≠ 0) (fits : ArrayFits size layout node.next)
    (bound : num < size.toNat) (innerFits : ArrayFits size inner child.next)
    (here : inner.offset = some buffer) (label : child.offset = some bytes)
    (enough : child.offsetSize ≤ bytes.length) (inside : j < child.offsetSize)
    (read : bytes[j]? = some ch)
    (below : ∀ temp,
      Refines (treeAt size temp
        ((prefixNode size bytes j).setNext (toInt ch).toNat (hangNode child bytes j)))
      (appendLoop toInt size fuel
        ((prefixNode size bytes j).setNext (toInt ch).toNat (hangNode child bytes j)) rest)
      (Memory.appendLoop toInt size fuel (some temp) rest) fun result last =>
        endsAt size temp result.1 result.2 last) :
    Refines (headAt pointer inner child.offsetSize * (bodyAt size inner child *
        (headAt address layout node.offsetSize * bodyBut size layout node num)))
      (if (toInt ch).toNat < size.toNat then do
        let (child, path) ← appendLoop toInt size fuel
          ((prefixNode size bytes j).setNext (toInt ch).toNat (hangNode child bytes j)) rest
        .ok (node.setNext num child, num :: path)
      else .error .outOfBounds)
      (Memory.splitChild toInt size (some address) num pointer buffer j >>=
        fun temp => Memory.appendLoop toInt size fuel (some temp) rest)
      fun result last => endsAt size address result.1 result.2 last := by
  have splits := refines_splitChild toInt address node.offsetSize pointer positive
    (by rw [fits.length_pointers]; exact bound) innerFits
    here label enough inside read
  have apart : headAt pointer inner child.offsetSize * (bodyAt size inner child *
      (headAt address layout node.offsetSize * bodyBut size layout node num)) =
      headAt address layout node.offsetSize
        * (headAt pointer inner child.offsetSize * bodyAt size inner child) *
        bodyBut size layout node num := by ac_rfl
  rw [apart]
  by_cases slot : (toInt ch).toNat < size.toNat
  · rw [if_pos slot] at splits ⊢
    refine Runs.step splits fun temp => (refines_enter fits bound (below temp)).pre (le_of_eq ?_)
    ac_rfl
  · rw [if_neg slot] at splits ⊢
    exact (splits.frame _).fails _ _

/-- An iteration at a child whose label does not agree to its end. -/
theorem appendLoop_split {toInt : UInt8 → UInt8} {fuel j : Nat} {c ch : UInt8} {cs bytes : Bytes}
    (found : node.next[(toInt c).toNat]? = some (some child)) (label : child.offset = some bytes)
    (reached : matchLength bytes child.offsetSize (c :: cs) = j) (inside : j < child.offsetSize)
    (read : bytes[j]? = some ch) :
    appendLoop toInt size (fuel + 1) node (c :: cs) = if (toInt ch).toNat < size.toNat then do
        let (child, path) ← appendLoop toInt size fuel
          ((prefixNode size bytes j).setNext (toInt ch).toNat (hangNode child bytes j))
          ((c :: cs).drop j)
        .ok (node.setNext (toInt c).toNat child, (toInt c).toNat :: path)
      else .error .outOfBounds := by
  have slots : (prefixNode size bytes j : IrsDictionaryNode (Option α)).next.length =
      size.toNat := by
    rw [prefixNode, irsDictionaryNodeInitialize, List.length_replicate]
  rw [appendLoop]
  simp only [appendIteration, found, label, reached, if_neg inside.ne, read, slots]
  split <;> rfl

theorem refines_appendLoop (toInt : UInt8 → UInt8) (positive : size ≠ 0) (fuel : Nat)
    (rest : Bytes) :
    Refines (treeAt size address node) (appendLoop toInt size fuel node rest)
      (Memory.appendLoop toInt size fuel (some address) rest)
      fun result pointer => endsAt size address result.1 result.2 pointer := by
  induction fuel generalizing address node rest with
  | zero =>
    cases rest with
    | nil =>
      rw [appendLoop, Memory.appendLoop]
      exact Refines.pure treeAt_le_endsAt
    | cons c cs => exact Refines.throw _
  | succ fuel ih =>
    cases rest with
    | nil =>
      rw [appendLoop, Memory.appendLoop]
      exact Refines.pure treeAt_le_endsAt
    | cons c cs =>
      rw [← mul_one (treeAt size address node)]
      refine refines_tree fun layout fits => ?_
      rw [mul_one]
      rcases found : node.next[(toInt c).toNat]? with _ | _ | child
      · have shape := fits.pointer (toInt c).toNat
        rw [found] at shape
        have iteration : appendIteration toInt size node c cs = .error .outOfBounds := by
          simp only [appendIteration, found]
        rw [appendLoop_error iteration, Memory.appendLoop]
        exact refines_getNext_outside (Option.map_eq_none_iff.mp shape) rfl
      · exact refines_appendLoop_leaf positive fits found
      · have bound : (toInt c).toNat < size.toNat := by
          rw [← fits.length]
          exact (List.getElem?_eq_some_iff.mp found).1
        obtain ⟨pointer, there⟩ := fits.hasChild found
        rw [Memory.appendLoop]
        refine refines_getNext there ?_
        rw [bodyAt_child fits found there, ← mul_assoc, mul_comm]
        refine refines_tree fun inner innerFits => refines_readNode ?_
        obtain nothing | ⟨here, label, -⟩ | ⟨buffer, bytes, here, label, enough⟩ :=
          bodyAt_cases size inner child
        · refine Refines.absurd ?_
          rw [nothing, bot_mul, mul_bot]
        · have iteration : appendIteration toInt size node c cs =
              .ok (.enter (toInt c).toNat child 1) := by
            simp only [appendIteration, found, label]
          rw [appendLoop, iteration, ok_bind, NodeLayout.fields, here]
          exact refines_appendLoop_enter fits bound innerFits there (ih cs)
        · rw [NodeLayout.fields, here]
          refine refines_readBuffer here label enough ?_
          dsimp only
          rw [matchLength_buffer enough]
          by_cases whole : matchLength bytes child.offsetSize (c :: cs) = child.offsetSize
          · have iteration : appendIteration toInt size node c cs =
                .ok (.enter (toInt c).toNat child
                  (matchLength bytes child.offsetSize (c :: cs))) := by
              simp only [appendIteration, found, label, if_pos whole]
            rw [appendLoop, iteration, ok_bind, if_pos whole]
            exact refines_appendLoop_enter fits bound innerFits there (ih _)
          · have inside : matchLength bytes child.offsetSize (c :: cs) < child.offsetSize :=
              lt_of_le_of_ne (matchLength_le_size bytes child.offsetSize (c :: cs)) whole
            have read := List.getElem?_eq_getElem
              (show matchLength bytes child.offsetSize (c :: cs) < bytes.length by omega)
            rw [if_neg whole, appendLoop_split found label rfl inside read]
            exact refines_appendLoop_split positive fits bound innerFits here label enough inside
              read fun temp => ih _

end IrsMachine
