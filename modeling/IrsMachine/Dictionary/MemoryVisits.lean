import IrsMachine.Dictionary.MemoryCalls
import IrsMachine.Dictionary.Traversal

/-!
# Visits in memory

A visit of the nodes in memory meets them in the order of the tree. The visit that destroys them
frees each block of the tree once, and nothing else.
-/

namespace IrsMachine
open Except Separation Assertion IrsDictionaryNode Quantale

variable {α σ : Type} {size : UInt8} {address num pointer : Nat} {layout : NodeLayout}
  {node child sub : IrsDictionaryNode (Option α)}

/-! ### How many nodes there can be -/

def atLeast (count : Nat) : Assertion Place (Content α) := fun part =>
  ∃ addresses : List Nat, addresses.Nodup ∧ addresses.length = count ∧ ∀ address ∈ addresses,
    (part (.block address)).isSome

theorem isSome_join {first second : Part Place (Content α)} {place : Place} :
    (Part.join first second place).isSome = ((first place).isSome || (second place).isSome) :=
  Option.isSome_or

theorem atLeast_mul {first second : Nat} :
    atLeast (α := α) first * atLeast second ≤ atLeast (first + second) := by
  intro part holds
  obtain ⟨one, two, apart, rfl, ⟨addresses, different, length, present⟩,
    ⟨others, different', length', present'⟩⟩ := holds
  refine ⟨addresses ++ others, ?_, by rw [List.length_append, length, length'],
    fun address member => ?_⟩
  · refine List.nodup_append.mpr
      ⟨different, different', fun address member other member' same => ?_⟩
    subst same
    have here := present address member
    have there := present' address member'
    rcases apart (.block address) with absent | absent
    · rw [absent] at here
      cases here
    · rw [absent] at there
      cases there
  · rw [isSome_join]
    rcases List.mem_append.mp member with member | member
    · rw [present address member, Bool.true_or]
    · rw [present' address member, Bool.or_true]

theorem atLeast_left {count : Nat} {P : Assertion Place (Content α)} :
    atLeast count * P ≤ atLeast count := by
  intro part holds
  obtain ⟨one, two, -, rfl, ⟨addresses, different, length, present⟩, -⟩ := holds
  refine ⟨addresses, different, length, fun address member => ?_⟩
  rw [isSome_join, present address member, Bool.true_or]

theorem blockAt_le_atLeast {block : Block} : blockAt (α := α) address block ≤ atLeast 1 := by
  intro part holds
  obtain rfl : part = Part.single _ _ := holds
  refine ⟨[address], List.nodup_singleton _, rfl, fun other member => ?_⟩
  rw [List.mem_singleton.mp member, Part.single_self]
  rfl

theorem atLeast_zero (P : Assertion Place (Content α)) : P ≤ atLeast 0 :=
  fun _ _ => ⟨[], List.nodup_nil, rfl, nofun⟩

theorem headAt_le_atLeast {offsetSize : Nat} {P : Assertion Place (Content α)} :
    headAt address layout offsetSize * P ≤ atLeast 1 := by
  rw [headAt_fields]
  exact le_trans (mul_le_mul_left blockAt_le_atLeast _) atLeast_left

mutual
theorem treeAt_le_atLeast : ∀ (address : Nat) (node : IrsDictionaryNode (Option α)),
    treeAt size address node ≤ atLeast ((visitDownNode node).length + 1)
  | address, ⟨next, offset, offsetSize, dataList⟩ => by
    rw [treeAt, visitDownNode]
    refine iSup₂_le fun layout fits => ?_
    calc _ = childrenAt size layout.pointers next * (headAt address layout offsetSize *
          (bufferAt layout.offset offset offsetSize * dataListAt layout.dataList dataList)) := by
            ac_rfl
      _ ≤ _ := mul_le_mul' (childrenAt_le_atLeast layout.pointers next 0) headAt_le_atLeast
      _ ≤ _ := atLeast_mul
theorem childrenAt_le_atLeast :
    ∀ (pointers : List (Option Nat)) (next : List (Option (IrsDictionaryNode (Option α))))
      (i : Nat),
    childrenAt size pointers next ≤ atLeast (visitDownNext i next).length
  | _, [], _ => by
    rw [visitDownNext]
    exact atLeast_zero _
  | [], _ :: _, _ => bot_le
  | none :: pointers, none :: next, i => by
    rw [childrenAt, visitDownNext]
    exact childrenAt_le_atLeast pointers next (i + 1)
  | none :: _, some _ :: _, _ => bot_le
  | some _ :: _, none :: _, _ => bot_le
  | some pointer :: pointers, some child :: next, i => by
    rw [childrenAt, visitDownNext]
    refine le_trans
      (mul_le_mul' (treeAt_le_atLeast pointer child) (childrenAt_le_atLeast pointers next (i + 1)))
      (le_trans atLeast_mul ?_)
    simp only [List.cons_append, List.length_cons, List.length_append, List.length_map]
    rw [Nat.add_right_comm]
end

theorem atLeast_fresh {memory : Memory α} {count : Nat} (holds : atLeast count (content memory)) :
    count ≤ memory.fresh := by
  obtain ⟨addresses, different, rfl, present⟩ := holds
  have inside : addresses ⊆ List.range memory.fresh := by
    intro address member
    by_contra beyond
    have absent : memory.blocks address = none := memory.unused address (by simpa using beyond)
    have here : ((memory.blocks address).map Content.block).isSome := present address member
    rw [absent] at here
    cases here
  have shorter := (List.subperm_of_subset different inside).length_le
  rwa [List.length_range] at shorter

/-! ### Visiting without a change -/

section
variable {β γ : Type} {spec : Except Fault γ} {P : Assertion Place (Content α)}
  {R : γ → β → Assertion Place (Content α)}

theorem refines_length {run : MemoryM α β}
    (later : node.next.length = size.toNat → Refines (treeAt size address node * P) spec run R) :
    Refines (treeAt size address node * P) spec run R :=
  refines_tree fun layout fits => (later fits.length).pre (by
    rw [← mul_assoc]
    exact mul_le_mul_left (le_treeAt node fits) _)

/-- The read of a child pointer of a node. -/
theorem refines_child {next : Option Nat → MemoryM α β}
    {slot : Option (IrsDictionaryNode (Option α))} (here : node.next[num]? = some slot)
    (absent : slot = none → Refines (treeAt size address node) spec (next none) R)
    (present : ∀ child pointer, slot = some child →
      Refines (insideAt size address node pointer child) spec (next (some pointer)) R) :
    Refines (treeAt size address node) spec (Memory.getNext (some address) num >>= next) R := by
  rw [← mul_one (treeAt size address node)]
  refine refines_tree fun layout fits => ?_
  rw [mul_one]
  cases slot with
  | none =>
    have shape := fits.pointer num
    rw [here] at shape
    obtain ⟨pointer, there, nothing⟩ := Option.map_eq_some_iff.mp shape
    obtain rfl := Option.isNone_iff_eq_none.mp (Option.isSome_eq_false_iff.mp nothing)
    exact refines_getNext there ((absent rfl).pre (le_treeAt node fits))
  | some child =>
    obtain ⟨pointer, there⟩ := fits.hasChild here
    refine refines_getNext there ((present child pointer rfl).pre ?_)
    rw [bodyAt_child fits here there, ← mul_assoc, mul_comm]
    exact le_trans (mul_le_mul_left treeAt_le_insideAt _) (insideAt_child fits here there)

/-- A step on a child that does not change it. -/
theorem refines_inside {β' : Type} {run : MemoryM α β'} {spec : Except Fault β'}
    {next : β' → MemoryM α β} {spec' : β' → Except Fault γ}
    (step : Refines (treeAt size pointer child) spec run fun value result => ⨆ _ : result = value,
      treeAt size pointer child)
    (later : ∀ value, Refines (insideAt size address node pointer child) (spec' value)
      (next value) R) :
    Refines (insideAt size address node pointer child) (spec >>= spec') (run >>= next) R := by
  refine (step.frame _).bind fun value result => ?_
  rw [exists_mul]
  refine Refines.cases fun same => ?_
  subst same
  exact later result

end

theorem length_visitDownNode_lt {next : List (Option (IrsDictionaryNode α))}
    {child : IrsDictionaryNode α} (member : some child ∈ next) (i : Nat) :
    (visitDownNode child).length < (visitDownNext i next).length := by
  induction next generalizing i with
  | nil => cases member
  | cons slot next ih =>
    cases slot with
    | none =>
      rw [visitDownNext]
      exact ih ((List.mem_cons.mp member).resolve_left (Option.some_ne_none _)) (i + 1)
    | some other =>
      rw [visitDownNext, List.cons_append, List.length_cons, List.length_append, List.length_map]
      rcases List.mem_cons.mp member with same | later
      · cases same
        omega
      · have := ih later (i + 1)
        omega

theorem refines_visitDownNodeFromNode {f : IrsDictionaryNode (Option α) → σ → Except Fault σ}
    {callable : Nat → σ → MemoryM α σ}
    (calls : ∀ pointer sub dest,
      Refines (treeAt size pointer sub) (f sub dest) (callable pointer dest)
      fun value result => ⨆ _ : result = value, treeAt size pointer sub)
    (fuel : Nat) (enough : (visitDownNode node).length < fuel) (dest : σ) :
    Refines (treeAt size address node)
      ((visitDownNode node).foldlM (fun dest visit => f visit.2 dest) dest)
      (Memory.visitDownNodeFromNode callable size fuel (some address) dest)
      fun value result => ⨆ _ : result = value, treeAt size address node := by
  induction fuel generalizing address node dest with
  | zero => cases enough
  | succ fuel ih =>
    rw [← mul_one (treeAt size address node)]
    refine refines_length fun length => ?_
    rw [mul_one, Memory.visitDownNodeFromNode, visitDownNode_eq, ← length]
    have enough' : (visitDownNext 0 node.next).length < fuel + 1 := visitDownNode_eq node ▸ enough
    suffices loop : ∀ (rest before : List (Option (IrsDictionaryNode (Option α)))) (dest : σ),
        node.next = before ++ rest →
        Refines (treeAt size address node)
          ((visitDownNext before.length rest).foldlM (fun dest visit => f visit.2 dest) dest)
          (Memory.eachChild (some address) (fun next dest => do
            let dest ← callable next dest
            Memory.visitDownNodeFromNode callable size fuel (some next) dest)
              (List.range' before.length rest.length) dest)
          fun value result => ⨆ _ : result = value, treeAt size address node by
      rw [List.range_eq_range']
      exact loop node.next [] dest rfl
    intro rest
    induction rest with
    | nil =>
      intro before dest whole
      exact Refines.pure (le_iSup_of_le rfl le_rfl)
    | cons slot rest ihRest =>
      intro before dest whole
      have here : node.next[before.length]? = some slot := by
        rw [whole, List.getElem?_append_right (le_refl _), Nat.sub_self]; rfl
      have later := fun dest => ihRest (before ++ [slot]) dest
        (by rw [whole, List.append_assoc]; rfl)
      simp only [List.length_append, List.length_singleton] at later
      rw [List.length_cons, List.range'_succ, Memory.eachChild, List.foldlM_cons, bind_assoc]
      refine refines_child here (fun nothing => ?_) fun child pointer stored => ?_
      · subst nothing
        rw [visitDownNext]
        exact later dest
      · subst stored
        have member : some child ∈ node.next := List.mem_of_getElem? here
        rw [visitDownNext, List.cons_append, List.foldlM_cons]
        dsimp only
        rw [bind_assoc]
        refine refines_inside (calls pointer child dest) fun dest => ?_
        rw [List.foldlM_append, List.foldlM_map]
        refine refines_inside
          (ih (Nat.lt_of_lt_of_le (length_visitDownNode_lt member 0) (Nat.le_of_lt_succ enough'))
            dest) fun dest => ?_
        exact (later dest).pre insideAt_le

theorem treeAt_fresh {P : Assertion Place (Content α)} {memory : Memory α}
    (holds : (treeAt size address node * P) (content memory)) :
    (visitDownNode node).length < memory.fresh :=
  atLeast_fresh (le_trans (mul_le_mul_left (treeAt_le_atLeast address node) P) atLeast_left _ holds)

theorem refines_irsDictionaryVisitDownNodes (pointer : Nat) (dictionary : IrsDictionary (Option α))
    {f : IrsDictionaryNode (Option α) → σ → Except Fault σ} {callable : Nat → σ → MemoryM α σ}
    (calls : ∀ pointer sub dest,
      Refines (treeAt dictionary.size pointer sub) (f sub dest) (callable pointer dest)
      fun value result => ⨆ _ : result = value, treeAt dictionary.size pointer sub) (dest : σ) :
    Refines (dictionaryAt pointer dictionary)
      ((irsDictionaryVisitDownNodes dictionary).foldlM (fun dest visit => f visit.2 dest) dest)
      (Memory.irsDictionaryVisitDownNodes (some pointer) callable dest)
      fun value result => ⨆ _ : result = value, dictionaryAt pointer dictionary := by
  refine refines_dictionary fun root positive =>
    refines_readAs rfl (Refines.get fun memory rest holds => ?_)
  rw [mul_assoc, mul_left_comm] at holds
  rw [mul_comm]
  refine ((refines_visitDownNodeFromNode calls memory.fresh (treeAt_fresh holds) dest).frame
    _).weaken le_rfl fun value result => ?_
  rw [exists_mul]
  refine iSup_mono fun same => ?_
  rw [mul_comm]
  exact le_dictionaryAt dictionary root positive

/-! ### Destroying -/

def shellAt (size : UInt8) (address : Nat) (node : IrsDictionaryNode (Option α)) :
    Assertion Place (Content α) :=
  ⨆ (layout : NodeLayout) (_ : ArrayFits size layout node.next),
    headAt address layout node.offsetSize *
    (bufferAt layout.offset node.offset node.offsetSize * dataListAt layout.dataList node.dataList)

theorem runs_destroyData {pointer : Option Nat} {dataList : Option (List (Option α))} :
    Runs (dataListAt pointer dataList) (Memory.irsListDestroy pointer) fun _ => 1 := by
  cases pointer with
  | none =>
    cases dataList with
    | none => exact Refines.pure le_rfl
    | some values => exact Refines.absurd le_rfl
  | some list =>
    cases dataList with
    | none => exact Refines.absurd le_rfl
    | some values => exact Refines.cases fun goesOn => runs_irsListDestroy goesOn

theorem runs_freeBuffer {pointer : Option Nat} {offset : Option Bytes} {offsetSize : Nat} :
    Runs (bufferAt (α := α) pointer offset offsetSize) (Memory.free pointer) fun _ => 1 := by
  have free : ∀ address block,
      Runs (blockAt (α := α) address block) (Memory.free (some address)) fun _ => 1 := by
    intro address block
    rw [← mul_one (blockAt address block), ← bind_pure (Memory.free (some address))]
    exact refines_free (Refines.pure le_rfl)
  cases pointer with
  | none =>
    cases offset with
    | none => exact Refines.cases fun _ => Refines.pure le_rfl
    | some bytes => exact Refines.absurd le_rfl
  | some buffer =>
    cases offset with
    | none => exact Refines.absurd le_rfl
    | some bytes => exact Refines.cases fun _ => free buffer _

theorem refines_changeBlock {β γ : Type} {spec : Except Fault γ} {fields : NodeFields}
    {change : NodeFields → NodeFields} {next : Unit → MemoryM α β} {P : Assertion Place (Content α)}
    {R : γ → β → Assertion Place (Content α)}
    (later : Refines (blockAt address (.node (change fields)) * P) spec (next ()) R) :
    Refines (blockAt address (.node fields) * P) spec
      (Memory.changeNode (some address) change >>= next) R := by
  unfold Memory.changeNode
  rw [bind_assoc]
  exact refines_readAs rfl (refines_write later)

theorem runs_irsDictionaryNodeDestroy :
    Runs (shellAt size address node) (Memory.irsDictionaryNodeDestroy (some address)) fun _ =>
      1 := by
  refine Refines.cases fun layout => Refines.cases fun fits => ?_
  unfold Memory.irsDictionaryNodeDestroy
  rw [headAt_fields]
  refine refines_readAs rfl ?_
  have front : ∀ x y z data : Assertion Place (Content α),
      x * (y * (z * data)) = data * (x * (y * z)) := by
    intro x y z data
    ac_rfl
  rw [front]
  refine Runs.step runs_destroyData fun _ => ?_
  rw [one_mul]
  refine refines_changeBlock ?_
  rw [mul_left_comm]
  refine refines_free ?_
  refine refines_changeBlock ?_
  rw [mul_comm]
  refine Runs.step runs_freeBuffer fun _ => ?_
  rw [one_mul, ← mul_one (blockAt address _)]
  refine refines_changeBlock ?_
  rw [← bind_pure (Memory.free (some address))]
  exact refines_free (Refines.pure le_rfl)

theorem getElem?_of_drop {β : Type} {list rest : List β} {i : Nat} {item : β}
    (here : list.drop i = item :: rest) :
    list[i]? = some item ∧ list.drop (i + 1) = rest := by
  have first := congrArg (fun rest => rest[0]?) here
  rw [List.getElem?_drop] at first
  refine ⟨first, ?_⟩
  rw [← List.drop_drop, here]
  rfl

theorem drop_of_getElem? {β : Type} {list : List β} {i : Nat} {item : β}
    (here : list[i]? = some item) : list.drop i = item :: list.drop (i + 1) := by
  obtain ⟨bound, same⟩ := List.getElem?_eq_some_iff.mp here
  rw [List.drop_eq_getElem_cons bound, same]

/-- The visit destroys all nodes below a node. -/
theorem runs_visitUpNodeFromNode (fuel : Nat) (enough : (visitDownNode node).length < fuel) :
    Runs (treeAt size address node)
      (Memory.visitUpNodeFromNode (fun node _ => Memory.irsDictionaryNodeDestroy (some node)) size
        fuel (some address) ())
      fun _ => shellAt size address node := by
  induction fuel generalizing address node with
  | zero => cases enough
  | succ fuel ih =>
    rw [← mul_one (treeAt size address node)]
    refine refines_tree fun layout fits => ?_
    rw [mul_one, Memory.visitUpNodeFromNode, ← fits.length, List.range_eq_range', bodyAt]
    have enough' : (visitDownNext 0 node.next).length < fuel + 1 := visitDownNode_eq node ▸ enough
    generalize own : bufferAt layout.offset node.offset node.offsetSize = buffer
    suffices loop : ∀ (rest : List (Option (IrsDictionaryNode (Option α)))) (i : Nat),
        node.next.drop i = rest →
        Runs (headAt address layout node.offsetSize *
            (childrenAt size (layout.pointers.drop i) rest
              * (buffer * dataListAt layout.dataList node.dataList)))
          (Memory.eachChild (some address) (fun next dest => do
            let dest ← Memory.visitUpNodeFromNode
              (fun node _ => Memory.irsDictionaryNodeDestroy (some node)) size fuel (some next) dest
            Memory.irsDictionaryNodeDestroy (some next)) (List.range' i rest.length) ())
          fun _ => headAt address layout node.offsetSize
            * (buffer * dataListAt layout.dataList node.dataList) by
      refine (loop node.next 0 rfl).weaken (le_of_eq ?_) fun _ _ => ?_
      · rw [List.drop_zero]
        ac_rfl
      · subst own
        exact le_iSup₂_of_le layout fits le_rfl
    intro rest
    induction rest with
    | nil =>
      intro i here
      have beyond : layout.pointers.drop i = [] := by
        rw [List.drop_eq_nil_iff, fits.length_pointers, ← fits.length]
        exact List.drop_eq_nil_iff.mp here
      rw [beyond, childrenAt, one_mul]
      exact Refines.pure le_rfl
    | cons slot rest ihRest =>
      intro i here
      obtain ⟨stored, later⟩ := getElem?_of_drop here
      rw [List.length_cons, List.range'_succ, Memory.eachChild, List.foldlM_cons, bind_assoc]
      cases slot with
      | none =>
        have shape := fits.pointer i
        rw [stored] at shape
        obtain ⟨pointer, found, nothing⟩ := Option.map_eq_some_iff.mp shape
        obtain rfl := Option.isNone_iff_eq_none.mp (Option.isSome_eq_false_iff.mp nothing)
        rw [drop_of_getElem? found, childrenAt]
        exact refines_getNext found (ihRest (i + 1) later)
      | some child =>
        obtain ⟨pointer, found⟩ := fits.hasChild stored
        have member : some child ∈ node.next := List.mem_of_getElem? stored
        refine refines_getNext found ?_
        dsimp only
        rw [drop_of_getElem? found, childrenAt, mul_assoc, mul_left_comm, bind_assoc]
        refine Runs.step
          (ih (Nat.lt_of_lt_of_le (length_visitDownNode_lt member 0) (Nat.le_of_lt_succ enough')))
          fun _ => ?_
        refine Runs.step runs_irsDictionaryNodeDestroy fun _ => ?_
        rw [one_mul]
        exact ihRest (i + 1) later

theorem runs_irsDictionaryDestroy {dictionary : IrsDictionary (Option α)} :
    Runs (dictionaryAt pointer dictionary) (Memory.irsDictionaryDestroy (some pointer)) fun _ =>
      1 := by
  refine refines_dictionary fun root positive => ?_
  unfold Memory.irsDictionaryDestroy Memory.irsDictionaryVisitUpNodes
  rw [bind_assoc]
  refine refines_readAs rfl ?_
  rw [bind_assoc]
  refine Refines.get fun memory rest holds => ?_
  rw [mul_assoc, mul_left_comm] at holds
  rw [mul_comm]
  refine Runs.step (runs_visitUpNodeFromNode memory.fresh (treeAt_fresh holds)) fun _ => ?_
  rw [mul_comm]
  refine refines_readAs rfl ?_
  rw [mul_comm]
  refine Runs.step runs_irsDictionaryNodeDestroy fun _ => ?_
  rw [one_mul, ← mul_one (blockAt pointer _)]
  exact refines_free (Refines.pure le_rfl)

end IrsMachine
