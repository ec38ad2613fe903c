import IrsMachine.Container.Memory
import IrsMachine.Container.Walk

/-!
# Lists in memory

A list in memory is a block that leads to its nodes. No call on it reads or changes anything else,
and what `irs_list_destroy` leaves behind are the end nodes of lists that became empty.
-/

namespace IrsMachine
open Except LinkedSegments Separation Assertion

variable {α β : Type}

def iteratorValues (heap : Heap α) : Nat → IrsIterator → Except Fault (List (Option α))
  | 0, _ => .error .endless
  | fuel + 1, it => do
    let (more, it) ← irsIteratorNext heap it
    if more then
      let value ← irsIteratorGet heap it
      let rest ← iteratorValues heap fuel it
      .ok (value :: rest)
    else .ok []

namespace Memory

def irsListInit : MemoryM α Nat := new (.list IrsMachine.irsListInit)

def irsListPushBack (pointer : Option Nat) (data : Option α) : MemoryM α Nat := do
  let list ← readList pointer
  let (list, node) ← onNodes fun heap => do
    let (heap, list, node) ← IrsMachine.irsListPushBack heap list data
    .ok ((list, node), heap)
  write pointer (.list list)
  pure node

def irsListDestroy (pointer : Option Nat) : MemoryM α Bool :=
  match pointer with
  | none => pure false
  | some _ => do
    let list ← readList pointer
    onNodes fun heap => do
      let heap ← IrsMachine.irsListDestroy heap list
      .ok ((), heap)
    free pointer
    pure true

def listValues (pointer : Option Nat) : MemoryM α (List (Option α)) := do
  let list ← readList pointer
  onNodes fun heap => do
    let values ← iteratorValues heap (heap.fresh + 1) (irsListIterator list)
    .ok (values, heap)

end Memory

/-! ### The nodes of a list -/

abbrev placesOf (list : IrsList) (elements : List (Nat × Option α)) : List Nat :=
  addresses elements ++ list.end'.toList

def nodesPart (heap : Heap α) (addresses : List Nat) : Part Place (Content α)
  | .block _ => none
  | .node address => if address ∈ addresses then (heap.nodes address).map .node else none

def outside (addresses : List Nat) (part : Part Place (Content α)) : Part Place (Content α)
  | .block address => part (.block address)
  | .node address => if address ∈ addresses then none else part (.node address)

theorem outside_nil (part : Part Place (Content α)) : outside [] part = part := by
  funext place
  cases place with
  | block address => rfl
  | node address => rw [outside, if_neg List.not_mem_nil]

def listNodes (list : IrsList) (values : List (Option α)) : Assertion Place (Content α) :=
  fun part =>
  ∃ heap elements, Listed heap list elements ∧ elements.map Prod.snd = values ∧
    part = nodesPart heap (placesOf list elements)

section
variable {heap heap' : Heap α} {list : IrsList} {elements : List (Nat × Option α)}
  {values : List (Option α)}
  {P : Assertion Place (Content α)} {memory : Memory α}

theorem Chain.placesOf_eq {endNode : Nat} (chain : Chain heap list endNode elements) :
    placesOf list elements = addresses (nodesOf elements endNode) := by
  rw [placesOf, chain.ends]
  simp [nodesOf]

theorem Listed.present (lists : Listed heap list elements) : ∀ address ∈ placesOf list elements,
    (heap.nodes address).isSome := by
  intro address member
  obtain ⟨rfl, rfl⟩ | ⟨endNode, chain⟩ := lists
  · cases member
  · rw [chain.placesOf_eq] at member
    exact chain.segment.present member

theorem Listed.congr (lists : Listed heap list elements)
    (same : ∀ address ∈ placesOf list elements, heap'.nodes address = heap.nodes address) :
    Listed heap' list elements := by
  obtain unused | ⟨endNode, chain⟩ := lists
  · exact .inl unused
  · rw [chain.placesOf_eq] at same
    exact .inr ⟨endNode, chain.ends, chain.different, chain.segment.congr same,
      chain.empty, chain.size⟩

theorem listNodes_mul :
    (listNodes list values * P) (content memory) ↔
      ∃ elements, Listed memory.nodes list elements ∧ elements.map Prod.snd = values ∧
      P (outside (placesOf list elements) (content memory)) := by
  constructor
  · intro holds
    obtain ⟨_, second, apart, whole, ⟨heap, elements, lists, data, rfl⟩, rest⟩ := holds
    have here : ∀ address ∈ placesOf list elements,
        nodesPart heap (placesOf list elements) (.node address) = (heap.nodes address).map .node :=
      fun address member => if_pos member
    have same : ∀ address ∈ placesOf list elements,
        memory.nodes.nodes address = heap.nodes address := by
      intro address member
      obtain ⟨node, present⟩ := Option.isSome_iff_exists.mp (lists.present address member)
      have found := here address member
      rw [present] at found
      have seen : (memory.nodes.nodes address).map Content.node = some (.node node) := by
        show content memory (.node address) = _
        rw [← whole]
        exact Part.join_left found
      obtain ⟨node', seen, same⟩ := Option.map_eq_some_iff.mp seen
      cases same
      rw [seen, present]
    refine ⟨elements, lists.congr same, data, ?_⟩
    have remains : second = outside (placesOf list elements) (content memory) := by
      funext place
      cases place with
      | block address =>
        rw [← whole]
        rfl
      | node address =>
        by_cases member : address ∈ placesOf list elements
        · obtain ⟨node, present⟩ := Option.isSome_iff_exists.mp (lists.present address member)
          have found := here address member
          rw [present] at found
          rw [outside, if_pos member]
          refine (apart (.node address)).resolve_left fun absent => ?_
          rw [found] at absent
          cases absent
        · rw [outside, if_neg member, ← whole]
          show _ = (nodesPart heap _ (.node address)).or _
          rw [nodesPart, if_neg member, Option.none_or]
    rwa [← remains]
  · intro holds
    obtain ⟨elements, lists, data, rest⟩ := holds
    refine ⟨_, _, fun place => ?_, ?_, ⟨memory.nodes, elements, lists, data, rfl⟩, rest⟩
    · cases place with
      | block address => exact .inl rfl
      | node address =>
        by_cases member : address ∈ placesOf list elements
        · exact .inr (if_pos member)
        · exact .inl (if_neg member)
    · funext place
      cases place with
      | block address => rfl
      | node address =>
        by_cases member : address ∈ placesOf list elements
        · rw [Part.join, nodesPart, if_pos member, outside, if_pos member, Option.or_none]
          rfl
        · rw [Part.join, nodesPart, if_neg member, outside, if_neg member, Option.none_or]

/-- What is not at these nodes stays as it is, where some of them are given back and others are
new. -/
theorem outside_eq {before after : List Nat} (kept : ∀ address, address ∉ before → address ∉ after →
      heap'.nodes address = memory.nodes.nodes address)
    (made : ∀ address ∈ after, address ∉ before → memory.nodes.nodes address = none)
    (gone : ∀ address ∈ before, address ∉ after → heap'.nodes address = none) :
    outside after (content { memory with nodes := heap' }) = outside before (content memory) := by
  have here : ∀ address, content { memory with nodes := heap' } (.node address) =
    (heap'.nodes address).map .node := fun _ => rfl
  have there : ∀ address, content memory (.node address) = (memory.nodes.nodes address).map .node :=
    fun _ => rfl
  funext place
  cases place with
  | block address => rfl
  | node address =>
    rw [outside, outside, here, there]
    split
    · rename_i inside
      split
      · rfl
      · rename_i new
        rw [made address inside new, Option.map_none]
    · rename_i without
      split
      · rename_i old
        rw [gone address old without, Option.map_none]
      · rename_i other
        rw [kept address other without]

/-! ### Pushing -/

theorem Heap.modify_fresh {pointer : NodePointer} {change : IrsStructNode α → IrsStructNode α}
    (run : heap.modify pointer change = .ok heap') :
    heap'.fresh = heap.fresh := by
  unfold Heap.modify at run
  split at run
  · cases run
  · split at run
    · cases run
    · cases run
      rfl

theorem irsListPushFirst_fresh {list' : IrsList} {data : Option α} {new : Nat}
    (run : irsListPushFirst heap list data = .ok (heap', list', new)) :
    heap'.fresh = heap.fresh + if list.end' = none then 2 else 1 := by
  unfold irsListPushFirst at run
  cases ends : list.end' with
  | none =>
    simp only [ends] at run
    obtain ⟨heap₁, one, run⟩ := bind_ok.mp run
    obtain ⟨heap₂, two, run⟩ := bind_ok.mp run
    obtain ⟨heap₃, three, run⟩ := bind_ok.mp run
    obtain ⟨heap₄, four, run⟩ := bind_ok.mp run
    cases run
    rw [Heap.modify_fresh four, Heap.modify_fresh three, Heap.modify_fresh two,
      Heap.modify_fresh one]
    rfl
  | some endNode =>
    simp only [ends] at run
    obtain ⟨heap₁, one, run⟩ := bind_ok.mp run
    obtain ⟨heap₂, two, run⟩ := bind_ok.mp run
    obtain ⟨heap₃, three, run⟩ := bind_ok.mp run
    obtain ⟨heap₄, four, run⟩ := bind_ok.mp run
    cases run
    rw [Heap.modify_fresh four, Heap.modify_fresh three, Heap.modify_fresh two,
      Heap.modify_fresh one]
    rfl

/-- A push gives out the address of the new node, and that of the end node if there was none. -/
theorem irsListPushBack_fresh {list' : IrsList} {data : Option α} {new : Nat}
    (run : irsListPushBack heap list data = .ok (heap', list', new)) :
    heap'.fresh = heap.fresh + if list.end' = none then 2 else 1 := by
  unfold irsListPushBack at run
  split at run
  · exact irsListPushFirst_fresh run
  · rename_i endNode ends
    obtain ⟨last, -, run⟩ := bind_ok.mp run
    unfold irsListPush at run
    dsimp only at run
    split at run
    · exact irsListPushFirst_fresh run
    · obtain ⟨_, -, run⟩ := bind_ok.mp run
      obtain ⟨heap₁, one, run⟩ := bind_ok.mp run
      obtain ⟨heap₂, two, run⟩ := bind_ok.mp run
      obtain ⟨heap₃, three, run⟩ := bind_ok.mp run
      obtain ⟨heap₄, four, run⟩ := bind_ok.mp run
      cases run
      rw [Heap.modify_fresh four, Heap.modify_fresh three, Heap.modify_fresh two,
        Heap.modify_fresh one, ends]
      rfl

/-- A push back makes the new node, and nothing else but the end node. -/
theorem irsListPushBack_places {list' : IrsList} {endNode : Nat} {data : Option α}
    (run : irsListPushBack heap list data = .ok (heap', list', heap.fresh))
    (chain : Chain heap' list' endNode (elements ++ [(heap.fresh, data)]))
    (ends : list.end' = some endNode ∨ list.end' = none ∧ heap.fresh ≤ endNode) (address : Nat) :
    (address ∈ placesOf list' (elements ++ [(heap.fresh, data)]) ↔
      address ∈ placesOf list elements ∨ (heap.fresh ≤ address ∧ address < heap'.fresh)) := by
  have fresh := irsListPushBack_fresh run
  have notEnd : heap.fresh ≠ endNode := by
    intro same
    have different := chain.different
    rw [nodesOf, ← same] at different
    simp [addresses, List.nodup_append] at different
  have small : endNode < heap'.fresh := chain.lt_fresh endNode (by simp [nodesOf])
  simp only [placesOf, chain.ends, addresses, List.map_append, List.map_cons, List.map_nil,
    List.mem_append, List.mem_singleton, Option.toList_some]
  obtain old | ⟨unused, above⟩ := ends
  · rw [old, if_neg (Option.some_ne_none _)] at fresh
    rw [old, Option.toList_some, List.mem_singleton]
    constructor
    · intro member
      obtain (member | rfl) | rfl := member
      · exact .inl (.inl member)
      · exact .inr ⟨le_refl _, by omega⟩
      · exact .inl (.inr rfl)
    · intro member
      obtain (member | rfl) | new := member
      · exact .inl (.inl member)
      · exact .inr rfl
      · exact .inl (.inr (by omega))
  · rw [unused, if_pos rfl] at fresh
    rw [unused, Option.toList_none]
    constructor
    · intro member
      obtain (member | rfl) | rfl := member
      · exact .inl (.inl member)
      · exact .inr ⟨le_refl _, by omega⟩
      · exact .inr ⟨above, small⟩
    · intro member
      obtain (member | absent) | new := member
      · exact .inl (.inl member)
      · cases absent
      · by_cases here : address = heap.fresh
        · exact .inl (.inr here)
        · exact .inr (by omega)

section
variable {γ : Type} {spec : Except Fault γ} {R : γ → β → Assertion Place (Content α)}
  {pointer : Nat}

def listAt (pointer : Nat) (values : List (Option α)) : Assertion Place (Content α) :=
  ⨆ list, blockAt pointer (.list list) * listNodes list values

theorem refines_irsListInit {next : Nat → MemoryM α β}
    (later : ∀ pointer, Refines (listAt pointer [] * P) spec (next pointer) R) :
    Refines P spec (Memory.irsListInit >>= next) R := by
  refine refines_new fun pointer => (later pointer).pre ?_
  have unused : (1 : Assertion Place (Content α)) ≤ listNodes irsListInit [] := by
    intro part nothing
    rw [one_apply.mp nothing]
    refine ⟨.empty, [], .inl ⟨rfl, rfl⟩, rfl, ?_⟩
    funext place
    cases place with
    | block address => rfl
    | node address => rfl
  refine mul_le_mul_left ?_ _
  refine le_trans ?_ (le_iSup _ irsListInit)
  calc blockAt pointer (.list irsListInit) = blockAt pointer (.list irsListInit) * 1 :=
    (mul_one _).symm
    _ ≤ _ := mul_le_mul_right unused _

theorem onNodes_ok {operation : Heap α → Except Fault (β × Heap α)} {result : β}
    (run : operation memory.nodes = .ok (result, heap')) :
    Memory.onNodes operation memory = .ok (result, { memory with nodes := heap' }) := by
  unfold Memory.onNodes
  rw [run, ok_bind]

theorem runs_irsListPushBack (data : Option α) :
    Runs (listAt pointer values) (Memory.irsListPushBack (some pointer) data) fun _ =>
      listAt pointer (values ++ [data]) := by
  refine Refines.cases fun list => refines_readAs rfl ?_
  rw [mul_comm]
  refine Runs.step (Q := fun result => listNodes result.1 (values ++ [data])) ?_ fun result => ?_
  · intro memory rest holds
    obtain ⟨elements, lists, same, rest⟩ := listNodes_mul.mp holds
    obtain ⟨heap', list', endNode, run, chain, frame, ends⟩ := irsListPushBack_listed data lists
    have places := irsListPushBack_places run chain ends
    rw [onNodes_ok (by rw [run]; rfl)]
    refine listNodes_mul.mpr ⟨_, .inr ⟨endNode, chain⟩, by rw [List.map_append, same]; rfl, ?_⟩
    rw [outside_eq]
    · exact rest
    · intro address notBefore notAfter
      rw [places, not_or] at notAfter
      by_cases old : address < memory.nodes.fresh
      · exact frame.others address old notBefore
      · rw [heap'.unused address (by omega), memory.nodes.unused address (by omega)]
    · intro address after notBefore
      have new := ((places address).mp after).resolve_left notBefore
      exact memory.nodes.unused address new.1
    · intro address before notAfter
      exact absurd ((places address).mpr (.inl before)) notAfter
  · rw [mul_comm]
    refine refines_write ?_
    exact Refines.pure
      (le_iSup (fun list => blockAt pointer (.list list) * listNodes list (values ++ [data]))
        result.1)

theorem runs_irsListDestroy (goesOn : values ≠ []) :
    Runs (listAt (α := α) pointer values) (Memory.irsListDestroy (some pointer)) fun _ => 1 := by
  refine Refines.cases fun list => refines_readAs rfl ?_
  rw [mul_comm]
  refine Runs.step (Q := fun _ => 1) ?_ fun _ => ?_
  · intro memory rest holds
    obtain ⟨elements, lists, same, rest⟩ := listNodes_mul.mp holds
    obtain ⟨-, rfl⟩ | ⟨endNode, chain⟩ := lists
    · exact absurd same.symm goesOn
    obtain ⟨heap', run, freed⟩ := chain.destroy fun nothing => goesOn (by rw [← same, nothing]; rfl)
    rw [onNodes_ok (by rw [run]; rfl)]
    rw [chain.placesOf_eq] at rest
    have all : outside [] (content { memory with nodes := heap' }) =
      outside (addresses (nodesOf elements endNode)) (content memory) :=
      outside_eq (fun address notBefore _ => freed.others address notBefore) nofun
        fun address before _ => freed.gone address before
    show ((1 : Assertion Place (Content α)) * _) _
    rwa [one_mul, ← outside_nil (content _), all]
  · rw [one_mul, ← mul_one (blockAt pointer (.list list))]
    exact refines_free (Refines.pure le_rfl)

theorem iteratorValues_yields {it : IrsIterator} {fuel : Nat}
    (yields : Yields (irsIteratorNext heap) heap it values) (enough : values.length < fuel) :
    iteratorValues heap fuel it = .ok values := by
  induction values generalizing it fuel with
  | nil =>
    obtain ⟨it', step⟩ := yields
    cases fuel with
    | zero => cases enough
    | succ fuel =>
      rw [iteratorValues, step, ok_bind]
      rfl
  | cons value values ih =>
    obtain ⟨it', step, get, rest⟩ := yields
    cases fuel with
    | zero => cases enough
    | succ fuel =>
      rw [iteratorValues, step, ok_bind]
      dsimp only
      rw [if_pos rfl, get, ok_bind, ih rest (Nat.lt_of_succ_lt_succ enough), ok_bind]

theorem runs_listValues :
    Runs (listAt (α := α) pointer values) (Memory.listValues (some pointer)) fun result =>
      ⨆ _ : result = values, listAt pointer values := by
  refine Refines.cases fun list => refines_readAs rfl ?_
  rw [mul_comm]
  have reads : Runs (listNodes list values)
      (Memory.onNodes fun heap => do
        let values ← iteratorValues heap (heap.fresh + 1) (irsListIterator list)
        .ok (values, heap)) fun result =>
      ⨆ _ : result = values, listNodes (α := α) list values := by
    intro memory rest holds
    obtain ⟨elements, lists, rfl, -⟩ := listNodes_mul.mp holds
    have enough : (elements.map Prod.snd).length < memory.nodes.fresh + 1 := by
      rw [List.length_map]
      exact Nat.lt_succ_of_le lists.length_le
    rw [onNodes_ok (by rw [iteratorValues_yields lists.yields.1 enough]; rfl)]
    show ((⨆ _, _) * _ : Assertion Place (Content α)) _
    rwa [iSup_pos rfl]
  refine (Refines.frame reads _).weaken le_rfl fun _ result => ?_
  rw [exists_mul]
  refine iSup_mono fun _ => ?_
  rw [mul_comm]
  exact le_iSup (fun list => blockAt pointer (.list list) * listNodes list values) list

end

end

end IrsMachine
