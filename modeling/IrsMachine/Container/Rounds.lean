import IrsMachine.Container.Walk

/-!
# An iterator goes round

The end node of a list is not the last word of its iterator: behind it there is null, which stands
for an iterator that has not begun yet. So the call after the one that gives false gives true
again, without data, and the walk begins once more.
-/

namespace IrsMachine
open Except LinkedSegments

variable {α : Type}

/-! ### Calls in a row -/

/-- Calls of `irs_iterator_next`, each with the data that `irs_iterator_get` gives after it. -/
def nextCalls (heap : Heap α) : Nat → IrsIterator →
    Except Fault (List (Bool × Option α) × IrsIterator)
  | 0, it => .ok ([], it)
  | calls + 1, it => do
    let (more, it) ← irsIteratorNext heap it
    let data ← irsIteratorGet heap it
    let (rest, it) ← nextCalls heap calls it
    .ok ((more, data) :: rest, it)

/-! ### Places -/

/-- Where an iterator of a list can be: at its elements, at its end node, and at null. -/
def places (elements : List (Nat × Option α)) (endNode : Nat) : List NodePointer :=
  (addresses (nodesOf elements endNode)).map some ++ [none]

def answerAt (values : List (Option α)) (place : Nat) : Bool × Option α :=
  (decide (place ≠ values.length), values[place]?.join)

section
variable {heap : Heap α} {list : IrsList} {endNode : Nat} {elements : List (Nat × Option α)}

theorem length_places : (places elements endNode).length = elements.length + 2 := by
  simp [places, nodesOf]

theorem places_end : (places elements endNode)[elements.length]? = some (some endNode) := by
  simp [places, nodesOf]

theorem places_null : (places elements endNode)[elements.length + 1]? = some none := by
  simp [places, nodesOf]

/-- A place is a node, or null. -/
theorem places_cases {place : Nat} {current : NodePointer}
    (here : (places elements endNode)[place]? = some current) :
    (∃ address data, (nodesOf elements endNode)[place]? = some (address, data) ∧
      current = some address) ∨
      place = elements.length + 1 ∧ current = none := by
  have length : ((addresses (nodesOf elements endNode)).map some).length = elements.length + 1 := by
    simp [nodesOf]
  have bound := (List.getElem?_eq_some_iff.mp here).1
  rw [length_places] at bound
  rcases Nat.lt_or_ge place (elements.length + 1) with inside | outside
  · rw [places, List.getElem?_append_left (by omega), List.getElem?_map, List.getElem?_map,
      Option.map_map] at here
    obtain ⟨⟨address, data⟩, found, same⟩ := Option.map_eq_some_iff.mp here
    exact .inl ⟨address, data, found, same.symm⟩
  · obtain rfl : place = elements.length + 1 := by omega
    rw [places_null] at here
    exact .inr ⟨rfl, (Option.some.inj here).symm⟩

theorem Chain.places_nodup (chain : Chain heap list endNode elements) :
    (places elements endNode).Nodup := by
  rw [places, List.nodup_append]
  refine ⟨chain.different.map fun _ _ => Option.some.inj, List.nodup_singleton _, ?_⟩
  rintro _ member _ null rfl
  obtain ⟨address, -, same⟩ := List.mem_map.mp member
  cases same.trans (List.mem_singleton.mp null)

/-- The node at a place, with its neighbours. -/
theorem Chain.node_at (chain : Chain heap list endNode elements) {place address : Nat}
    {data : Option α} (here : (nodesOf elements endNode)[place]? = some (address, data)) :
    ∃ node, heap.nodes address = some node ∧ node.data = (elements.map Prod.snd)[place]?.join ∧
      (none :: (addresses (nodesOf elements endNode)).map some)[place]? = some node.prev ∧
      (places elements endNode)[place + 1]? = some node.next := by
  obtain ⟨node, found, same, prev, next⟩ := chain.segment.cell_at here
  refine ⟨node, found, ?_, prev, next⟩
  rw [same, List.getElem?_map]
  rcases Nat.lt_or_ge place elements.length with inside | outside
  · rw [nodesOf, List.getElem?_append_left inside] at here
    rw [here]
    rfl
  · rw [List.getElem?_eq_none outside]
    rw [nodesOf, List.getElem?_append_right outside] at here
    have last := List.mem_singleton.mp (List.mem_of_getElem? here)
    cases last
    rfl

theorem Chain.get_places (chain : Chain heap list endNode elements) {place : Nat}
    {current : NodePointer} (here : (places elements endNode)[place]? = some current) :
    irsIteratorGet heap { irsListIterator list with current } =
      .ok (elements.map Prod.snd)[place]?.join := by
  rcases places_cases here with ⟨address, data, inside, rfl⟩ | ⟨rfl, rfl⟩
  · obtain ⟨node, found, same, -⟩ := chain.node_at inside
    rw [irsIteratorGet_at found rfl, same]
  · rw [List.getElem?_eq_none (by rw [List.length_map]; omega)]
    rfl

theorem Chain.begin_eq (chain : Chain heap list endNode elements) (nonempty : elements ≠ []) :
    (places elements endNode)[0]? = some list.begin ∧ list.begin ≠ none := by
  have segment := chain.segment
  rw [if_neg nonempty] at segment
  obtain ⟨element, rest, rfl⟩ := List.exists_cons_of_ne_nil nonempty
  rw [segment.1]
  exact ⟨rfl, Option.some_ne_none _⟩

theorem Chain.next_places (chain : Chain heap list endNode elements) (nonempty : elements ≠ [])
    {place : Nat} {current : NodePointer}
    (here : (places elements endNode)[place]? = some current) :
    ∃ next, (places elements endNode)[(place + 1) % (elements.length + 2)]? = some next ∧
      irsIteratorNext heap { irsListIterator list with current } =
        .ok (decide ((place + 1) % (elements.length + 2) ≠ elements.length),
          { irsListIterator list with current := next }) := by
  obtain ⟨first, begins⟩ := chain.begin_eq nonempty
  have more : ∀ {place : Nat} {next : NodePointer}, (places elements endNode)[place]? = some next →
      decide (next ≠ list.end') = decide (place ≠ elements.length) := by
    intro place next there
    rw [chain.ends, decide_eq_decide, not_iff_not]
    constructor
    · rintro rfl
      exact (List.getElem?_inj (List.getElem?_eq_some_iff.mp there).1 chain.places_nodup).mp
        (there.trans places_end.symm)
    · rintro rfl
      exact Option.some.inj (there.symm.trans places_end)
  rcases places_cases here with ⟨address, data, inside, rfl⟩ | ⟨rfl, rfl⟩
  · obtain ⟨node, found, -, -, next⟩ := chain.node_at inside
    have bound := (List.getElem?_eq_some_iff.mp next).1
    rw [length_places] at bound
    rw [Nat.mod_eq_of_lt bound]
    refine ⟨node.next, next, ?_⟩
    rw [← more next]
    exact irsIteratorNext_at found begins rfl
  · rw [Nat.mod_self]
    refine ⟨list.begin, first, ?_⟩
    rw [← more first]
    exact irsIteratorNext_first begins rfl

/-- The calls go round the places, from null to null. -/
theorem Chain.nextCalls_places (chain : Chain heap list endNode elements) (nonempty : elements ≠ [])
    (calls : Nat) {place : Nat} {current : NodePointer}
    (here : (places elements endNode)[place]? = some current) :
    ∃ it, nextCalls heap calls { irsListIterator list with current } =
      .ok ((List.range calls).map fun call => answerAt (elements.map Prod.snd)
        ((place + 1 + call) % (elements.length + 2)), it) := by
  induction calls generalizing place current with
  | zero => exact ⟨_, rfl⟩
  | succ calls ih =>
    obtain ⟨next, there, step⟩ := chain.next_places nonempty here
    obtain ⟨it, rest⟩ := ih there
    refine ⟨it, ?_⟩
    rw [nextCalls, step, ok_bind]
    dsimp only
    rw [chain.get_places there, ok_bind, rest, ok_bind, List.range_succ_eq_map,
      List.map_cons, List.map_map]
    have same : ∀ call, ((place + 1) % (elements.length + 2) + 1 + call) % (elements.length + 2) =
        (place + 1 + (call + 1)) % (elements.length + 2) := by
      intro call
      rw [Nat.add_assoc, Nat.mod_add_mod, Nat.add_comm 1 call]
    simp only [same, answerAt, Nat.add_zero, List.length_map]
    rfl

theorem Chain.nextCalls_eq (chain : Chain heap list endNode elements) (nonempty : elements ≠ [])
    (calls : Nat) :
    ∃ it, nextCalls heap calls (irsListIterator list) =
      .ok ((List.range calls).map fun call => answerAt (elements.map Prod.snd)
        (call % (elements.length + 2)), it) := by
  obtain ⟨it, run⟩ := chain.nextCalls_places nonempty calls places_null
  refine ⟨it, ?_⟩
  simp only [show ∀ call, elements.length + 1 + 1 + call = call + (elements.length + 2) by omega,
    Nat.add_mod_right] at run
  exact run

/-! ### Once, and back -/

/-- The calls give the values in order, and then false. -/
def WalksOnce (heap : Heap α) (list : IrsList) (values : List (Option α)) (calls : Nat) : Prop :=
  ∃ answers it, nextCalls heap calls (irsListIterator list) = .ok (answers, it) ∧
    ∀ call < calls, (∀ value, values[call]? = some value → answers[call]? = some (true, value)) ∧
      (values.length ≤ call → (answers[call]?).map Prod.fst = some false)

/-- A step back and one ahead, or one ahead and one back, lead to the same element. -/
def TurnsBack (heap : Heap α) (list : IrsList) (elements : List (Nat × Option α)) : Prop :=
  ∀ place address, (addresses elements)[place]? = some address →
    let it := { irsListIterator list with current := some address }
    (0 < place → ∃ it', irsIteratorPrev heap it = .ok (true, it') ∧
      irsIteratorNext heap it' = .ok (true, it)) ∧
      (place + 1 < elements.length → ∃ it', irsIteratorNext heap it = .ok (true, it') ∧
        irsIteratorPrev heap it' = .ok (true, it))

theorem walksOnce_of_begin_none (begins : list.begin = none) (calls : Nat) :
    WalksOnce heap list [] calls := by
  have run : ∀ calls, nextCalls heap calls (irsListIterator list) =
      .ok (List.replicate calls (false, none), irsListIterator list) := by
    intro calls
    induction calls with
    | zero => rfl
    | succ calls ih =>
      have step : irsIteratorNext heap (irsListIterator list) = .ok (false, irsListIterator list) :=
        irsIteratorNext_none begins
      have data : irsIteratorGet heap (irsListIterator list) = .ok none := rfl
      rw [nextCalls, step, ok_bind]
      dsimp only
      rw [data, ok_bind, ih, ok_bind, List.replicate_succ]
  refine ⟨_, _, run calls, ?_⟩
  intro call inside
  refine ⟨nofun, fun _ => ?_⟩
  rw [List.getElem?_replicate, if_pos inside, Option.map_some]

theorem Chain.walksOnce_iff (chain : Chain heap list endNode elements) (nonempty : elements ≠ [])
    (calls : Nat) :
    WalksOnce heap list (elements.map Prod.snd) calls ↔ calls ≤ elements.length + 1 := by
  obtain ⟨it, run⟩ := chain.nextCalls_eq nonempty calls
  have read : ∀ call < calls,
      ((List.range calls).map fun call => answerAt (elements.map Prod.snd)
        (call % (elements.length + 2)))[call]? =
      some (answerAt (elements.map Prod.snd) (call % (elements.length + 2))) := by
    intro call inside
    rw [List.getElem?_map, List.getElem?_range inside, Option.map_some]
  unfold WalksOnce
  rw [List.length_map]
  constructor
  · intro ⟨answers, it', run', once⟩
    cases run.symm.trans run'
    by_contra more
    -- the call behind the end node
    have again : elements.length + 1 < calls := by omega
    have stopped := (once _ again).2 (Nat.le_succ _)
    rw [read _ again, Nat.mod_eq_of_lt (by omega), Option.map_some, answerAt, List.length_map,
      Option.some.injEq, decide_eq_false_iff_not] at stopped
    exact stopped (Nat.succ_ne_self _)
  · intro few
    refine ⟨_, it, run, ?_⟩
    intro call inside
    rw [read call inside, Nat.mod_eq_of_lt (by omega)]
    constructor
    · intro value here
      have before := (List.getElem?_eq_some_iff.mp here).1
      rw [answerAt, decide_eq_true (Nat.ne_of_lt before), here]
      rfl
    · intro beyond
      obtain rfl : call = elements.length := by omega
      rw [answerAt, List.length_map, decide_eq_false (not_not_intro rfl), Option.map_some]

theorem nodesOf_of_address {place address : Nat}
    (here : (addresses elements)[place]? = some address) :
    ∃ data, (nodesOf elements endNode)[place]? = some (address, data) := by
  rw [List.getElem?_map] at here
  obtain ⟨⟨_, data⟩, found, rfl⟩ := Option.map_eq_some_iff.mp here
  exact ⟨data, by
    rw [nodesOf, List.getElem?_append_left (List.getElem?_eq_some_iff.mp found).1, found]⟩

theorem places_of_address {place address : Nat}
    (here : (addresses elements)[place]? = some address) :
    (places elements endNode)[place]? = some (some address) := by
  have inside := (List.getElem?_eq_some_iff.mp here).1
  rw [places, nodesOf, addresses, List.map_append, List.map_append, List.append_assoc,
    List.getElem?_append_left (by rw [List.length_map]; exact inside), List.getElem?_map, here,
    Option.map_some]

/-- Two elements in a row lead to each other. -/
theorem Chain.neighbours (chain : Chain heap list endNode elements) {place one other : Nat}
    (here : (addresses elements)[place]? = some one)
    (there : (addresses elements)[place + 1]? = some other) :
    irsIteratorNext heap { irsListIterator list with current := some one } =
      .ok (true, { irsListIterator list with current := some other }) ∧
      irsIteratorPrev heap { irsListIterator list with current := some other } =
        .ok (true, { irsListIterator list with current := some one }) := by
  have bound := (List.getElem?_eq_some_iff.mp there).1
  rw [List.length_map] at bound
  constructor
  · obtain ⟨next, reached, step⟩ :=
      chain.next_places (List.ne_nil_of_length_pos (by omega)) (places_of_address here)
    rw [Nat.mod_eq_of_lt (by omega)] at reached step
    rw [places_of_address there] at reached
    rw [step, decide_eq_true (by omega), ← Option.some.inj reached]
  · obtain ⟨data, inside⟩ := nodesOf_of_address there
    obtain ⟨node, found, -, prev, -⟩ := chain.node_at inside
    have ends : (irsListIterator list).end' ≠ none := by
      show list.end' ≠ none
      rw [chain.ends]
      exact Option.some_ne_none _
    have back : node.prev = some one := by
      obtain ⟨data', before⟩ := nodesOf_of_address here
      rw [List.getElem?_cons_succ, List.getElem?_map, List.getElem?_map, before] at prev
      exact (Option.some.inj prev).symm
    have step : irsIteratorPrev heap { irsListIterator list with current := some other } =
        .ok (decide (node.prev ≠ none), { irsListIterator list with current := node.prev }) :=
        irsIteratorPrev_at found ends rfl
    rw [back] at step
    exact step

theorem Chain.turnsBack (chain : Chain heap list endNode elements) :
    TurnsBack heap list elements := by
  intro place address here it
  have bound := (List.getElem?_eq_some_iff.mp here).1
  constructor
  · intro positive
    obtain ⟨place, rfl⟩ : ∃ before, place = before + 1 := ⟨place - 1, by omega⟩
    obtain ⟨forth, back⟩ := chain.neighbours (List.getElem?_eq_getElem (by omega)) here
    exact ⟨_, back, forth⟩
  · intro more
    obtain ⟨forth, back⟩ :=
      chain.neighbours here (List.getElem?_eq_getElem (by rw [List.length_map]; exact more))
    exact ⟨_, forth, back⟩

end

theorem irsIterator_walk_iff (values : List (Option α)) :
    ∃ heap list elements, pushBackAll values = .ok (heap, list) ∧ Listed heap list elements ∧
      elements.map Prod.snd = values ∧
      ∀ calls, (WalksOnce heap list values calls ∧ TurnsBack heap list elements) ↔
        values = [] ∨ calls ≤ values.length + 1 := by
  obtain ⟨heap, list, elements, run, lists, same⟩ := pushBackAll_listed values
  refine ⟨heap, list, elements, run, lists, same, ?_⟩
  intro calls
  subst same
  rcases lists with ⟨rfl, rfl⟩ | ⟨endNode, chain⟩
  · exact iff_of_true ⟨walksOnce_of_begin_none rfl calls, nofun⟩ (.inl rfl)
  · rw [and_iff_left chain.turnsBack, List.map_eq_nil_iff, List.length_map]
    by_cases empty : elements = []
    · subst empty
      exact iff_of_true (walksOnce_of_begin_none (chain.empty rfl) calls) (.inl rfl)
    · rw [chain.walksOnce_iff empty, or_iff_right empty]

/-- A list of one element: false is followed by true. -/
theorem walksOnce_fails_three :
    ∃ heap list, pushBackAll [some 7] = .ok (heap, list) ∧
      (nextCalls heap 3 (irsListIterator list)).map Prod.fst =
        .ok [(true, some 7), (false, none), (true, none)] ∧
      ¬WalksOnce heap list [some 7] 3 := by
  obtain ⟨heap, list, elements, run, lists, same⟩ := pushBackAll_listed [some 7]
  have nonempty : elements ≠ [] := by
    rintro rfl
    cases same
  rcases lists with ⟨-, empty⟩ | ⟨endNode, chain⟩
  · exact absurd empty nonempty
  · obtain ⟨it, calls⟩ := chain.nextCalls_eq nonempty 3
    have length := congrArg List.length same
    rw [List.length_map, List.length_singleton] at length
    refine ⟨heap, list, run, ?_, ?_⟩
    · rw [calls, same, length]
      rfl
    · rw [← same, chain.walksOnce_iff nonempty, length]
      decide

end IrsMachine
