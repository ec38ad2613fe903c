import IrsMachine.Container.Insertion

/-!
# What a loop over an iterator reads

A loop that moves an iterator ahead, or back, and takes the data at it reads the data of the list
in order, or in the opposite order.
-/

namespace IrsMachine
open Except LinkedSegments

variable {α : Type}

/-- The data at an iterator after each step, until the step gives false. -/
def Yields (step : IrsIterator → Except Fault (Bool × IrsIterator)) (heap : Heap α) : IrsIterator →
    List (Option α) → Prop
  | it, [] => ∃ it', step it = .ok (false, it')
  | it, data :: rest =>
    ∃ it', step it = .ok (true, it') ∧ irsIteratorGet heap it' = .ok data ∧
      Yields step heap it' rest

section
variable {heap : Heap α} {list : IrsList} {endNode : Nat} {elements cells : List (Nat × Option α)}
  {it : IrsIterator}
  {before first last stop : NodePointer}

theorem yields_next (segment : Segment heap.nodes before first cells last it.end')
    (outside : ∀ address ∈ addresses cells, it.end' ≠ some address) (begins : it.begin ≠ none)
    (step : irsIteratorNext heap it =
      .ok (decide (first ≠ it.end'), { it with current := first })) :
    Yields (irsIteratorNext heap) heap it (cells.map Prod.snd) := by
  induction cells generalizing before first it with
  | nil =>
    obtain ⟨rfl, -⟩ := segment
    rw [decide_eq_false (not_not_intro rfl)] at step
    exact ⟨_, step⟩
  | cons cell cells ih =>
    obtain ⟨address, data⟩ := cell
    obtain ⟨rfl, next, here, rest⟩ := segment
    have step' : irsIteratorNext heap { it with current := some address } =
      .ok (decide (next ≠ it.end'), { it with current := next }) :=
      irsIteratorNext_at here begins rfl
    rw [decide_eq_true (outside address (by simp)).symm] at step
    exact ⟨_, step, irsIteratorGet_at here rfl,
      ih rest (fun other member => outside other (List.mem_cons_of_mem _ member)) begins step'⟩

theorem yields_prev (segment : Segment heap.nodes none first cells last stop)
    (ends : it.end' ≠ none)
    (step : irsIteratorPrev heap it = .ok (decide (last ≠ none), { it with current := last })) :
    Yields (irsIteratorPrev heap) heap it (cells.map Prod.snd).reverse := by
  induction cells using List.reverseRecOn generalizing last stop it with
  | nil =>
    obtain ⟨-, rfl⟩ := segment
    exact ⟨_, step⟩
  | append_singleton cells cell ih =>
    obtain ⟨address, data⟩ := cell
    obtain ⟨previous, next, left, only'⟩ := segment_append.mp segment
    obtain ⟨-, rfl, here⟩ := segment_singleton.mp only'
    have step' : irsIteratorPrev heap { it with current := some address } =
        .ok (decide (previous ≠ none), { it with current := previous }) :=
        irsIteratorPrev_at here ends rfl
    rw [List.map_append, List.reverse_append]
    exact ⟨_, step, irsIteratorGet_at here rfl, ih left ends step'⟩

theorem Chain.yields (chain : Chain heap list endNode elements) :
    Yields (irsIteratorNext heap) heap (irsListIterator list) (elements.map Prod.snd) ∧
      Yields (irsIteratorPrev heap) heap (irsListReverseIterator list)
        (elements.map Prod.snd).reverse := by
  obtain ⟨last, next, left, right⟩ := segment_append.mp chain.segment
  obtain ⟨rfl, -, hereEnd⟩ := segment_singleton.mp right
  obtain ⟨-, -, apart⟩ := nodup_addresses_append.mp chain.different
  have ends : list.end' ≠ none := by
    rw [chain.ends]
    exact Option.some_ne_none _
  constructor
  · cases elements with
    | nil =>
      exact ⟨irsListIterator list,
        irsIteratorNext_none (show (irsListIterator list).begin = none from chain.empty rfl)⟩
    | cons element elements =>
      rw [if_neg (List.cons_ne_nil _ _)] at left
      have begins : (irsListIterator list).begin ≠ none := by
        show list.begin ≠ none
        rw [left.1]
        exact Option.some_ne_none _
      have segment : Segment heap.nodes none list.begin (element :: elements) last
          (irsListIterator list).end' := by
        show Segment heap.nodes none list.begin (element :: elements) last list.end'
        rw [chain.ends]
        exact left
      apply yields_next segment
      · intro address member same
        obtain rfl : endNode = address := Option.some.inj (chain.ends.symm.trans same)
        exact apart _ member (by simp)
      · exact begins
      · exact irsIteratorNext_first begins rfl
  · apply yields_prev left (show (irsListReverseIterator list).end' ≠ none from ends)
    exact irsIteratorPrev_first hereEnd chain.ends rfl

theorem Listed.yields (lists : Listed heap list elements) :
    Yields (irsIteratorNext heap) heap (irsListIterator list) (elements.map Prod.snd) ∧
      Yields (irsIteratorPrev heap) heap (irsListReverseIterator list)
        (elements.map Prod.snd).reverse := by
  rcases lists with ⟨rfl, rfl⟩ | ⟨endNode, chain⟩
  · exact ⟨⟨_, rfl⟩, ⟨_, rfl⟩⟩
  · exact chain.yields

/-- A list fits into the memory that was given out. -/
theorem Listed.length_le (lists : Listed heap list elements) : elements.length ≤ heap.fresh := by
  rcases lists with ⟨-, rfl⟩ | ⟨endNode, chain⟩
  · exact Nat.zero_le _
  · exact chain.length_lt.le

/-- What a loop ahead reads in a list of values, and how many there can be. -/
theorem Listed.reads {values : List α} (lists : Listed heap list elements)
    (data : elements.map Prod.snd = values.map some) :
    Yields (irsIteratorNext heap) heap (irsListIterator list) (values.map some) ∧
    values.length ≤ heap.fresh := by
  have length := congrArg List.length data
  rw [List.length_map, List.length_map] at length
  exact ⟨data ▸ lists.yields.1, length ▸ lists.length_le⟩

end

/-! ### Lists that are built from the front -/

/-- A list that only `irs_list_push_back` has changed; null is `none`. -/
def pushBackAll (values : List (Option α)) : Except Fault (Heap α × IrsList) :=
  values.foldlM (fun (heap, list) value => do
    let (heap, list, _) ← irsListPushBack heap list value
    .ok (heap, list)) (.empty, irsListInit)

theorem pushBackAll_listed (values : List (Option α)) :
    ∃ heap list elements, pushBackAll values = .ok (heap, list) ∧ Listed heap list elements ∧
      elements.map Prod.snd = values := by
  induction values using List.reverseRecOn with
  | nil => exact ⟨_, _, [], rfl, .inl ⟨rfl, rfl⟩, rfl⟩
  | append_singleton values value ih =>
    obtain ⟨heap, list, elements, run, lists, data⟩ := ih
    obtain ⟨heap', list', endNode, pushed, chain, -⟩ := irsListPushBack_listed value lists
    refine ⟨heap', list', _, ?_, .inr ⟨endNode, chain⟩, by rw [List.map_append, data]; rfl⟩
    unfold pushBackAll at run ⊢
    refine foldlM_concat_ok.mpr ⟨(heap, list), run, ?_⟩
    dsimp only
    rw [pushed]
    rfl

def pushAll (values : List α) : Except Fault (Heap α × IrsList) :=
  values.foldlM (fun (heap, list) value => do
    let (heap, list, _) ← irsListPushBack heap list (some value)
    .ok (heap, list)) (.empty, irsListInit)

theorem pushAll_eq (values : List α) : pushAll values = pushBackAll (values.map some) := by
  unfold pushAll pushBackAll
  rw [List.foldlM_map]

theorem pushAll_listed (values : List α) :
    ∃ heap list elements, pushAll values = .ok (heap, list) ∧ Listed heap list elements ∧
      elements.map Prod.snd = values.map some :=
  pushAll_eq values ▸ pushBackAll_listed (values.map some)

end IrsMachine
