import IrsMachine.Container.Insertion
import IrsMachine.Engine.Scores

/-!
# Sorting sentences by score

`_irs_sort_doc_sentences_by_score` puts the pairs of one list into another one. Before it moves on
in the sorted list it looks for the last pair of the list it takes from: the last pair goes to the
end then, and a pair that is not the last one gets lost at the end of the sorted list.
-/

namespace IrsMachine
open Except LinkedSegments

structure IrsPair where
  (first second : UInt64)
  deriving DecidableEq

/-! ### The source -/

def pairAt (heap : Heap IrsPair) (it : IrsIterator) : Except Fault IrsPair := do
  match ← irsIteratorGet heap it with
  | none => .error .badPointer
  | some pair => .ok pair

/-- The inner loop, which moves the outer iterator `it` too. -/
def insertLoop (sentScoreIndex : IrsPair) :
    Nat → Heap IrsPair → IrsList → IrsIterator → IrsIterator →
    Except Fault (Heap IrsPair × IrsList × IrsIterator)
  | 0, _, _, _, _ => .error .endless
  | fuel + 1, heap, sorted, it, other => do
    let (more, other) ← irsIteratorNext heap other
    if more then
      let otherSentScoreIndex ← pairAt heap other
      if sentScoreIndex.first ≤ otherSentScoreIndex.first then
        let (heap, sorted, _) ← irsListPushFront heap sorted other.current (some sentScoreIndex)
        .ok (heap, sorted, it)
      else
        let (goesOn, it) ← irsIteratorNext heap it
        if goesOn then
          let (_, it) ← irsIteratorPrev heap it
          insertLoop sentScoreIndex fuel heap sorted it other
        else
          let (heap, sorted, _) ← irsListPushBack heap sorted (some sentScoreIndex)
          .ok (heap, sorted, it)
    else .ok (heap, sorted, it)

def sortLoop (bound : Nat) : Nat → Heap IrsPair → IrsList → IrsIterator →
    Except Fault (Heap IrsPair × IrsList)
  | 0, _, _, _ => .error .endless
  | fuel + 1, heap, sorted, it => do
    let (more, it) ← irsIteratorNext heap it
    if more ∧ it.current ≠ none then
      let sentScoreIndex ← pairAt heap it
      let (heap, sorted, it) ← insertLoop sentScoreIndex bound heap sorted it
        (irsListIterator sorted)
      sortLoop bound fuel heap sorted it
    else .ok (heap, sorted)

/-- No loop takes more steps than there are nodes in memory, and one. -/
def irsSortDocSentencesByScore (heap : Heap IrsPair) (sentsScores : IrsList) :
    Except Fault (Heap IrsPair × IrsList) := do
  let bound := heap.fresh + 1
  let (more, it) ← irsIteratorNext heap (irsListIterator sentsScores)
  if more then
    let pair ← irsIteratorGet heap it
    let (heap, sorted, _) ← irsListPushBack heap irsListInit pair
    sortLoop bound bound heap sorted it
  else sortLoop bound bound heap irsListInit it

/-! ### The lists in memory -/

def scoreLe (one other : IrsPair) : Prop := one.first ≤ other.first

instance : DecidableRel scoreLe :=
  fun one other => inferInstanceAs (Decidable (one.first ≤ other.first))

instance : Std.Total scoreLe := ⟨fun one other => UInt64.le_total one.first other.first⟩

instance : IsTrans IrsPair scoreLe := ⟨fun _ _ _ => UInt64.le_trans⟩

/-- The sorted list holds these pairs, and takes no memory that was in use before. -/
structure Sorting (start heap : Heap IrsPair) (sorted : IrsList) (endNode : Nat)
    (elements : List (Nat × Option IrsPair)) : Prop where
  chain : Chain heap sorted endNode elements
  apart : ∀ node ∈ addresses (nodesOf elements endNode), start.fresh ≤ node
  fresh : start.fresh ≤ heap.fresh
  others : ∀ node < start.fresh, heap.nodes node = start.nodes node

section
variable {start heap : Heap IrsPair} {sorted : IrsList} {endNode : Nat}
  {elements before after : List (Nat × Option IrsPair)}

theorem Sorting.pushed {heap' : Heap IrsPair} {sorted' : IrsList}
    {more : List (Nat × Option IrsPair)} (sorting : Sorting start heap sorted endNode elements)
    (pushed : Pushed heap heap' sorted' endNode elements more)
    (nodes : ∀ node ∈ addresses more, node ∈ addresses elements ∨ node = heap.fresh) :
    Sorting start heap' sorted' endNode more := by
  have fresh := sorting.fresh
  refine ⟨pushed.chain, fun node member => ?_, fresh.trans pushed.frame.fresh, fun node old => ?_⟩
  · rw [nodesOf, addresses, List.map_append, List.mem_append] at member
    rcases member with element | ends
    · rcases nodes node element with known | new
      · exact sorting.apart node
          (by rw [nodesOf, addresses, List.map_append]; exact List.mem_append_left _ known)
      · omega
    · exact sorting.apart node
        (by rw [nodesOf, addresses, List.map_append]; exact List.mem_append_right _ ends)
  · rw [pushed.frame.others node (by omega), sorting.others node old]
    intro member
    have beyond := sorting.apart node member
    omega

theorem Sorting.pushBack (pair : IrsPair) (sorting : Sorting start heap sorted endNode elements) :
    ∃ heap' sorted', irsListPushBack heap sorted (some pair) = .ok (heap', sorted', heap.fresh) ∧
      Sorting start heap' sorted' endNode (elements ++ [(heap.fresh, some pair)]) := by
  obtain ⟨heap', sorted', run, pushed⟩ := irsListPushBack_ok (some pair) sorting.chain
  refine ⟨heap', sorted', run, sorting.pushed pushed fun node member => ?_⟩
  rw [addresses, List.map_append, List.mem_append] at member
  exact member.imp_right List.mem_singleton.mp

theorem Sorting.pushFront {element : Nat × Option IrsPair} (pair : IrsPair)
    (sorting : Sorting start heap sorted endNode (before ++ element :: after)) :
    ∃ heap' sorted', irsListPushFront heap sorted (some element.1) (some pair) =
      .ok (heap', sorted', heap.fresh) ∧
      Sorting start heap' sorted' endNode
        (before ++ (heap.fresh, some pair) :: element :: after) := by
  obtain ⟨heap', sorted', run, pushed⟩ := irsListPushFront_ok (some pair) sorting.chain
  refine ⟨heap', sorted', run, sorting.pushed pushed fun node member => ?_⟩
  simp only [addresses, List.map_append, List.map_cons, List.mem_append, List.mem_cons] at member ⊢
  tauto

/-- The inner loop, from a pair of the sorted list on, while the outer iterator stands at the pair
that is to be put in. -/
theorem insertLoop_ok {new : IrsPair} {isLast : Bool} {it ahead other : IrsIterator}
    {middle first : NodePointer} {pairs : List IrsPair} (fuel : Nat)
    (sorting : Sorting start heap sorted endNode (before ++ after))
    (data : after.map Prod.snd = pairs.map some)
    (segment : Segment heap.nodes middle first (nodesOf after endNode) (some endNode) none)
    (begins : other.begin ≠ none) (ends : other.end' = some endNode)
    (step : irsIteratorNext heap other =
      .ok (decide (first ≠ some endNode), { other with current := first }))
    (next : irsIteratorNext heap it = .ok (!isLast, ahead))
    (back : isLast = false → irsIteratorPrev heap ahead = .ok (true, it))
    (enough : after.length < fuel) :
    ∃ heap' sorted' it' elements,
      insertLoop new fuel heap sorted it other = .ok (heap', sorted', it') ∧
      Sorting start heap' sorted' endNode (before ++ elements) ∧
      elements.map Prod.snd = (insertScore scoreLe isLast new pairs).map some ∧
      (it' = it ∨ isLast = true ∧ it' = ahead) := by
  induction after generalizing before middle first other pairs fuel with
  | nil =>
    obtain ⟨fuel, rfl⟩ := Nat.exists_eq_succ_of_ne_zero (Nat.ne_of_gt enough)
    obtain rfl : pairs = [] := List.map_eq_nil_iff.mp data.symm
    obtain ⟨rfl, -, -⟩ := segment_singleton.mp segment
    refine ⟨heap, sorted, it, [], ?_, sorting, rfl, .inl rfl⟩
    unfold insertLoop
    rw [step, ok_bind]
    simp
  | cons element after ih =>
    obtain ⟨fuel, rfl⟩ := Nat.exists_eq_succ_of_ne_zero (Nat.ne_of_gt (Nat.zero_lt_of_lt enough))
    obtain ⟨node, value⟩ := element
    cases pairs with
    | nil => cases data
    | cons old pairs =>
      obtain ⟨rfl, data'⟩ := List.cons.inj data
      obtain ⟨rfl, onward, here, rest⟩ := segment
      have notEnd : node ≠ endNode := by
        rintro rfl
        exact (nodup_addresses_append.mp sorting.chain.different).2.2 node (by simp) (by simp)
      have more : decide (some node ≠ some endNode) = true :=
        decide_eq_true fun same => notEnd (Option.some.inj same)
      have read : pairAt heap { other with current := some node } = .ok old := by
        unfold pairAt irsIteratorGet
        simp only [Heap.read_ok here, ok_bind]
      unfold insertLoop
      rw [step, ok_bind]
      dsimp only
      rw [if_pos more, read, ok_bind]
      by_cases under : new.first ≤ old.first
      · obtain ⟨heap', sorted', run, sorting'⟩ := sorting.pushFront new
        refine ⟨heap', sorted', it, (heap.fresh, some new) :: (node, some old) :: after, ?_,
          sorting', ?_, .inl rfl⟩
        · dsimp only at run
          rw [if_pos under, run, ok_bind]
        · rw [insertScore, if_pos (show scoreLe new old from under), List.map_cons, List.map_cons,
            List.map_cons, List.map_cons, data']
      · rw [if_neg under, next, ok_bind]
        cases isLast with
        | true =>
          -- there is nothing to take after this pair
          obtain ⟨heap', sorted', run, sorting'⟩ := sorting.pushBack new
          refine ⟨heap', sorted', ahead, (node, some old) :: after ++ [(heap.fresh, some new)], ?_,
            ?_, ?_, .inr ⟨rfl, rfl⟩⟩
          · rw [Bool.not_true]
            dsimp only
            rw [if_neg Bool.false_ne_true, run, ok_bind]
          · rw [← List.append_assoc]
            exact sorting'
          · rw [insertScore, if_neg (show ¬ scoreLe new old from under), if_pos rfl,
              List.map_append, List.map_append, List.map_cons, List.map_cons, data']
            rfl
        | false =>
          have regroup : before ++ (node, some old) :: after =
              (before ++ [(node, some old)]) ++ after := by simp
          rw [regroup] at sorting
          have step' : irsIteratorNext heap { other with current := some node } =
              .ok (decide (onward ≠ some endNode), { other with current := onward }) :=
            ends ▸ irsIteratorNext_at here begins rfl
          obtain ⟨heap', sorted', it', elements, run, sorting', same, outer⟩ :=
            ih fuel sorting data' rest
              (show ({ other with current := some node } : IrsIterator).begin ≠
                none from begins) ends step'
              (Nat.lt_of_succ_lt_succ enough)
          refine ⟨heap', sorted', it', (node, some old) :: elements, ?_, ?_, ?_, outer⟩
          · rw [Bool.not_false]
            dsimp only
            rw [if_pos rfl, back rfl, ok_bind]
            exact run
          · rw [List.append_assoc] at sorting'
            exact sorting'
          · rw [insertScore, if_neg (show ¬ scoreLe new old from under), if_neg Bool.false_ne_true,
              List.map_cons, List.map_cons, same]

/-! The input is where it was before. -/

theorem Sorting.input_eq (sorting : Sorting start heap sorted endNode elements) {address : Nat}
    {node : IrsStructNode IrsPair} (here : start.nodes address = some node) :
    heap.nodes address = some node :=
  (sorting.others address (Heap.lt_fresh (by rw [here]; rfl))).trans here

theorem Sorting.next {it : IrsIterator} {address : Nat} {node : IrsStructNode IrsPair}
    (sorting : Sorting start heap sorted endNode elements) (here : start.nodes address = some node)
    (begins : it.begin ≠ none) (current : it.current = some address) :
    irsIteratorNext heap it = .ok
      (decide (node.next ≠ it.end'), { it with current := node.next }) :=
  irsIteratorNext_at (sorting.input_eq here) begins current

theorem Sorting.prev {it : IrsIterator} {address : Nat} {node : IrsStructNode IrsPair}
    (sorting : Sorting start heap sorted endNode elements) (here : start.nodes address = some node)
    (ends : it.end' ≠ none) (current : it.current = some address) :
    irsIteratorPrev heap it = .ok (decide (node.prev ≠ none), { it with current := node.prev }) :=
  irsIteratorPrev_at (sorting.input_eq here) ends current

/-- One step ahead from a pair of the input is the end node exactly when the pair is the last
one. -/
theorem Sorting.ahead {it : IrsIterator} {address inputEnd : Nat} {value : Option IrsPair}
    {previous after : NodePointer} {input : List (Nat × Option IrsPair)} {scores : List IrsPair}
    (sorting : Sorting start heap sorted endNode elements)
    (here : start.nodes address = some ⟨after, previous, value⟩) (begins : it.begin ≠ none)
    (ends : it.end' = some inputEnd) (current : it.current = some address)
    (taken : input.map Prod.snd = scores.map some)
    (rest : Segment start.nodes (some address) after (nodesOf input inputEnd) (some inputEnd) none)
    (outside : inputEnd ∉ addresses input) :
    irsIteratorNext heap it = .ok (!scores.isEmpty, { it with current := after }) := by
  rw [sorting.next here begins current, ends]
  cases scores with
  | nil =>
    obtain rfl : input = [] := List.map_eq_nil_iff.mp taken
    obtain ⟨stop, -, -⟩ := segment_singleton.mp rest
    simp [stop]
  | cons score scores =>
    cases input with
    | nil => cases taken
    | cons cell input =>
      obtain ⟨start', -⟩ := rest
      have notEnd : cell.1 ≠ inputEnd := by
        rintro rfl
        exact outside (by simp)
      simp [start', notEnd]

/-- A step back undoes the step ahead. -/
theorem Sorting.behind {it : IrsIterator} {address inputEnd : Nat} {after : NodePointer}
    {input : List (Nat × Option IrsPair)} (sorting : Sorting start heap sorted endNode elements)
    (ends : it.end' = some inputEnd) (current : it.current = some address) (goesOn : input ≠ [])
    (rest : Segment start.nodes (some address) after (nodesOf input inputEnd)
      (some inputEnd) none) :
    irsIteratorPrev heap { it with current := after } = .ok (true, it) := by
  obtain ⟨cell, input, rfl⟩ := List.exists_cons_of_ne_nil goesOn
  obtain ⟨rfl, _, there, -⟩ := rest
  have ends' : ({ it with current := some cell.1 } : IrsIterator).end' ≠ none := by
    show it.end' ≠ none
    rw [ends]
    exact Option.some_ne_none _
  have here : ({ it with current := some address } : IrsIterator) = it := by rw [← current]
  rw [sorting.prev there ends' rfl]
  exact congrArg (fun it => Except.ok (true, it)) here

/-- The inner loop from the begin of the sorted list. -/
theorem insertLoop_start {new : IrsPair} {isLast : Bool} {it ahead : IrsIterator}
    {pairs : List IrsPair} (fuel : Nat) (sorting : Sorting start heap sorted endNode elements)
    (data : elements.map Prod.snd = pairs.map some) (goesOn : pairs ≠ [])
    (next : irsIteratorNext heap it = .ok (!isLast, ahead))
    (back : isLast = false → irsIteratorPrev heap ahead = .ok (true, it))
    (enough : pairs.length < fuel) :
    ∃ heap' sorted' it' elements',
      insertLoop new fuel heap sorted it (irsListIterator sorted) = .ok (heap', sorted', it') ∧
      Sorting start heap' sorted' endNode elements' ∧
      elements'.map Prod.snd = (insertScore scoreLe isLast new pairs).map some ∧
      (it' = it ∨ isLast = true ∧ it' = ahead) := by
  have some' : elements ≠ [] := by
    rintro rfl
    exact goesOn (List.map_eq_nil_iff.mp data.symm)
  have segment := sorting.chain.segment
  rw [if_neg some'] at segment
  obtain ⟨address, -, begin⟩ := segment.first_eq (by simp)
  have begins : (irsListIterator sorted).begin ≠ none := by
    show sorted.begin ≠ none
    rw [begin]
    exact Option.some_ne_none _
  have step : irsIteratorNext heap (irsListIterator sorted) =
      .ok (decide (sorted.begin ≠ some endNode),
        { irsListIterator sorted with current := sorted.begin }) := by
    rw [← sorting.chain.ends]
    exact irsIteratorNext_first begins rfl
  have length : elements.length = pairs.length := by
    have same := congrArg List.length data
    rwa [List.length_map, List.length_map] at same
  have whole : Sorting start heap sorted endNode ([] ++ elements) := sorting
  exact insertLoop_ok fuel whole data segment begins sorting.chain.ends step next back (by omega)

/-- The outer loop, from where its iterator stands at a pair that is done. -/
theorem sortLoop_ok {it : IrsIterator} {inputEnd address : Nat}
    {input : List (Nat × Option IrsPair)} {pairs scores : List IrsPair} {middle : NodePointer}
    {node : IrsStructNode IrsPair} (bound fuel : Nat)
    (sorting : Sorting start heap sorted endNode elements)
    (data : elements.map Prod.snd = pairs.map some) (goesOn : pairs ≠ [])
    (taken : input.map Prod.snd = scores.map some)
    (segment : Segment start.nodes middle node.next (nodesOf input inputEnd) (some inputEnd) none)
    (outside : inputEnd ∉ addresses input) (begins : it.begin ≠ none)
    (ends : it.end' = some inputEnd) (current : it.current = some address)
    (here : start.nodes address = some node) (enough : scores.length < fuel)
    (within : pairs.length + scores.length ≤ bound) :
    ∃ heap' sorted' elements', sortLoop bound fuel heap sorted it = .ok (heap', sorted') ∧
      Sorting start heap' sorted' endNode elements' ∧
      elements'.map Prod.snd = (insertScores scoreLe pairs scores).map some := by
  have move := sorting.next here begins current
  obtain ⟨fuel, rfl⟩ := Nat.exists_eq_succ_of_ne_zero (Nat.ne_of_gt (Nat.zero_lt_of_lt enough))
  induction input generalizing heap sorted elements it address pairs scores middle node fuel with
  | nil =>
    obtain rfl : scores = [] := List.map_eq_nil_iff.mp taken.symm
    obtain ⟨stop, -, -⟩ := segment_singleton.mp segment
    refine ⟨heap, sorted, elements, ?_, sorting, data⟩
    unfold sortLoop
    rw [move, ok_bind, stop, ends]
    simp
  | cons cell input ih =>
    obtain ⟨next, value⟩ := cell
    cases scores with
    | nil => cases taken
    | cons new scores =>
      obtain ⟨rfl, taken'⟩ := List.cons.inj taken
      obtain ⟨onward, after, here', rest⟩ := segment
      have notEnd : next ≠ inputEnd := by
        rintro rfl
        exact outside (by simp)
      -- the iterator moves to the next pair
      obtain ⟨moved, movedIs⟩ : ∃ moved : IrsIterator, moved = { it with current := some next } :=
        ⟨_, rfl⟩
      have begins' : moved.begin ≠ none := by
        rw [movedIs]
        exact begins
      have ends' : moved.end' = some inputEnd := by
        rw [movedIs]
        exact ends
      have current' : moved.current = some next := by rw [movedIs]
      have move' : irsIteratorNext heap it = .ok (true, moved) := by
        rw [move, onward, movedIs]
        simp [notEnd, ends]
      have read : pairAt heap moved = .ok new := by
        unfold pairAt irsIteratorGet
        rw [current']
        simp only [Heap.read_ok (sorting.input_eq here'), ok_bind]
      obtain ⟨fuel, rfl⟩ :=
        Nat.exists_eq_succ_of_ne_zero
          (Nat.ne_of_gt (Nat.zero_lt_of_lt (Nat.lt_of_succ_lt_succ enough)))
      have enough' : pairs.length < bound := by
        rw [List.length_cons] at within
        omega
      have outside' : inputEnd ∉ addresses input :=
        fun member => outside (List.mem_cons_of_mem _ member)
      have further := sorting.ahead here' begins' ends' current' taken' rest outside'
      have back : scores.isEmpty = false →
          irsIteratorPrev heap { moved with current := after } = .ok (true, moved) := by
        intro goesOn'
        refine sorting.behind ends' current' ?_ rest
        rintro rfl
        obtain rfl : scores = [] := List.map_eq_nil_iff.mp taken'.symm
        cases goesOn'
      obtain ⟨heap', sorted', it', elements', run, sorting', data', outer⟩ :=
        insertLoop_start bound sorting data goesOn further back enough'
      have step : sortLoop bound (fuel + 1 + 1) heap sorted it =
          sortLoop bound (fuel + 1) heap' sorted' it' := by
        rw [sortLoop, move', ok_bind]
        dsimp only
        rw [if_pos ⟨rfl, by rw [current']; exact Option.some_ne_none _⟩, read,
          ok_bind, run, ok_bind]
      rw [step, insertScores]
      rcases outer with rfl | ⟨isLast, rfl⟩
      · have longer := length_insertScore_le (r := scoreLe) scores.isEmpty new pairs
        rw [List.length_cons] at within
        exact ih sorting' data' (insertScore_ne_nil _ _ goesOn) taken' rest outside' begins' ends'
          current' here' (by omega) (sorting'.next here' begins' current') fuel
          (Nat.lt_of_succ_lt_succ enough)
      · -- the iterator is at the end node
        obtain rfl : scores = [] := List.isEmpty_iff.mp isLast
        obtain rfl : input = [] := List.map_eq_nil_iff.mp taken'
        obtain ⟨stop, -, hereEnd⟩ := segment_singleton.mp rest
        refine ⟨heap', sorted', elements', ?_, sorting', data'⟩
        have atEnd : ({ moved with current := after } : IrsIterator).begin ≠ none := begins'
        rw [sortLoop, sorting'.next hereEnd atEnd stop, ok_bind]
        simp

/-! ### The whole sort -/

variable {sentsScores : IrsList} {pairs : List IrsPair}

theorem irsSortDocSentencesByScore_ok (lists : Listed heap sentsScores elements)
    (data : elements.map Prod.snd = pairs.map some) :
    ∃ heap' sorted elements', irsSortDocSentencesByScore heap sentsScores = .ok (heap', sorted) ∧
      Listed heap' sorted elements' ∧
      elements'.map Prod.snd = (sortScores scoreLe pairs).map some := by
  cases elements with
  | nil =>
    obtain rfl : pairs = [] := List.map_eq_nil_iff.mp data.symm
    have begins : (irsListIterator sentsScores).begin = none := lists.traversed.begins
    have stays : irsIteratorNext heap (irsListIterator sentsScores) =
        .ok (false, irsListIterator sentsScores) := irsIteratorNext_none begins
    refine ⟨heap, irsListInit, [], ?_, .inl ⟨rfl, rfl⟩, rfl⟩
    unfold irsSortDocSentencesByScore
    dsimp only
    rw [stays, ok_bind]
    dsimp only
    rw [if_neg Bool.false_ne_true, sortLoop, stays, ok_bind]
    simp
  | cons element input =>
    obtain ⟨address, value⟩ := element
    rcases lists with ⟨-, nothing⟩ | ⟨inputEnd, chain⟩
    · cases nothing
    cases pairs with
    | nil => cases data
    | cons first scores =>
      obtain ⟨rfl, taken⟩ := List.cons.inj data
      have length : scores.length < heap.fresh := by
        have shorter := chain.length_lt
        have same := congrArg List.length taken
        rw [List.length_map, List.length_map] at same
        rw [List.length_cons] at shorter
        omega
      have segment := chain.segment
      rw [if_neg (List.cons_ne_nil _ _)] at segment
      obtain ⟨begin, next, here, rest⟩ := segment
      have outside : inputEnd ∉ addresses ((address, some first) :: input) := by
        intro member
        exact (nodup_addresses_append.mp chain.different).2.2 _ member (by simp)
      have notEnd : address ≠ inputEnd := by
        rintro rfl
        exact outside (by simp)
      have begins : (irsListIterator sentsScores).begin ≠ none := by
        show sentsScores.begin ≠ none
        rw [begin]
        exact Option.some_ne_none _
      have ends : (irsListIterator sentsScores).end' = some inputEnd := chain.ends
      have start : irsIteratorNext heap (irsListIterator sentsScores) =
          .ok (true, { irsListIterator sentsScores with current := some address }) := by
        rw [irsIteratorNext_first begins rfl]
        simp [irsListIterator, irsIteratorInit, begin, chain.ends, notEnd]
      have read : irsIteratorGet heap { irsListIterator sentsScores with current := some address } =
        .ok (some first) :=
        irsIteratorGet_at here rfl
      have empty : Listed heap irsListInit [] := .inl ⟨rfl, rfl⟩
      obtain ⟨heap₁, sorted₁, endNode, pushed, chain₁, frame, new⟩ :=
        irsListPushBack_listed (some first) empty
      have sorting : Sorting heap heap₁ sorted₁ endNode [(heap.fresh, some first)] := by
        refine ⟨chain₁, fun node member => ?_, frame.fresh,
          fun node old => frame.others node old nofun⟩
        rcases List.mem_cons.mp member with rfl | last
        · exact le_refl _
        · obtain ⟨-, beyond⟩ := new.resolve_left nofun
          rw [List.mem_singleton.mp last]
          exact beyond
      obtain ⟨heap', sorted', elements', run, sorting', same⟩ :=
        sortLoop_ok (heap.fresh + 1) (heap.fresh + 1) sorting
        (show [some first] = [first].map some from rfl) (List.cons_ne_nil _ _) taken rest
          (fun member => outside (List.mem_cons_of_mem _ member))
        (show ({ irsListIterator sentsScores with current := some address } : IrsIterator).begin ≠
          none from begins) ends rfl here (by omega)
        (by rw [List.length_singleton]; omega)
      refine ⟨heap', sorted', elements', ?_, .inr ⟨endNode, sorting'.chain⟩, same⟩
      unfold irsSortDocSentencesByScore
      dsimp only
      rw [start, ok_bind]
      dsimp only
      rw [if_pos rfl, read, ok_bind, pushed, ok_bind]
      exact run

/-- The sort always ends. It gives back the pairs in order exactly when no pair but the last one is
greater than the first, and the last one belongs before or behind all others. -/
theorem irsSortDocSentencesByScore_iff (lists : Listed heap sentsScores elements)
    (data : elements.map Prod.snd = pairs.map some) :
    ∃ (heap' : Heap IrsPair) (sorted : IrsList) (elements' : List (Nat × Option IrsPair))
      (result : List IrsPair),
      irsSortDocSentencesByScore heap sentsScores = .ok (heap', sorted) ∧
      Traversed heap' sorted elements' ∧
      elements'.map Prod.snd = result.map some ∧
      (result.Perm pairs ∧ result.Pairwise (fun one other => one.first ≤ other.first) ↔
        Sortable scoreLe pairs) := by
  obtain ⟨heap', sorted, elements', run, lists', same⟩ := irsSortDocSentencesByScore_ok lists data
  exact ⟨heap', sorted, elements', _, run, lists'.traversed, same, sortScores_iff pairs⟩

/-- The list of three pairs that the next two results are about. -/
def threeScores (one two three : UInt64) : Except Fault (ListState IrsPair) :=
  insertAll { heap := .empty, list := irsListInit, elements := [] }
    [.pushBack (some ⟨one, 0⟩), .pushBack (some ⟨two, 1⟩), .pushBack (some ⟨three, 2⟩)]

theorem threeScores_ok (one two three : UInt64) :
    ∃ state, threeScores one two three = .ok state ∧ Listed state.heap state.list state.elements ∧
      state.elements.map Prod.snd = [⟨one, 0⟩, ⟨two, 1⟩, ⟨three, 2⟩].map some := by
  have admissible : Admissible { heap := .empty, list := irsListInit, elements := [] }
      [Insertion.pushBack (some (⟨one, 0⟩ : IrsPair)), .pushBack (some ⟨two, 1⟩),
        .pushBack (some ⟨three, 2⟩)] :=
    ⟨trivial, fun _ _ => ⟨trivial, fun _ _ => ⟨trivial, fun _ _ => trivial⟩⟩⟩
  obtain ⟨state, run, lists, -⟩ := insertAll_listed (.inl ⟨rfl, rfl⟩) admissible
  refine ⟨state, run, lists, ?_⟩
  cases run
  rfl

/-- The scores `2`, `1`, `3` come out in order. -/
theorem irsSortDocSentencesByScore_iff_two_one_three :
    ∃ (state : ListState IrsPair) (heap' : Heap IrsPair) (sorted : IrsList)
      (elements' : List (Nat × Option IrsPair)),
      threeScores 2 1 3 = .ok state ∧ irsSortDocSentencesByScore state.heap state.list =
        .ok (heap', sorted) ∧
      Traversed heap' sorted elements' ∧
      elements'.map Prod.snd = [⟨1, 1⟩, ⟨2, 0⟩, ⟨3, 2⟩].map some := by
  obtain ⟨state, run, lists, data⟩ := threeScores_ok 2 1 3
  obtain ⟨heap', sorted, elements', result, sort, traversed, same, inOrder⟩ :=
    irsSortDocSentencesByScore_iff lists data
  have sortable : Sortable scoreLe [⟨2, 0⟩, ⟨1, 1⟩, ⟨3, 2⟩] := by
    refine ⟨by decide, fun last member => .inr ?_⟩
    cases member
    decide
  obtain ⟨permuted, sortedUp⟩ := inOrder.mpr sortable
  have result' : result = [⟨1, 1⟩, ⟨2, 0⟩, ⟨3, 2⟩] := by
    have permuted' : result.Perm [⟨1, 1⟩, ⟨2, 0⟩, ⟨3, 2⟩] := permuted.trans (.swap ..)
    -- No two of the scores are equal.
    have scores : ∀ one ∈ ([⟨1, 1⟩, ⟨2, 0⟩, ⟨3, 2⟩] : List IrsPair),
        ∀ other ∈ ([⟨1, 1⟩, ⟨2, 0⟩, ⟨3, 2⟩] : List IrsPair),
        one.first ≤ other.first → other.first ≤ one.first → one = other := by decide
    exact permuted'.eq_of_pairwise
      (fun one other inside => scores one (permuted'.subset inside) other) sortedUp (by decide)
  exact ⟨state, heap', sorted, elements', run, sort, traversed, same.trans (by rw [result'])⟩

/-- Of the scores `1`, `3`, `2` the greatest one gets lost. -/
theorem sort_fails_one_three_two :
    ∃ (state : ListState IrsPair) (heap' : Heap IrsPair) (sorted : IrsList)
      (elements' : List (Nat × Option IrsPair)) (result : List IrsPair),
      threeScores 1 3 2 = .ok state ∧ irsSortDocSentencesByScore state.heap state.list =
        .ok (heap', sorted) ∧
      Traversed heap' sorted elements' ∧ elements'.map Prod.snd = result.map some ∧
      result = [⟨1, 0⟩, ⟨2, 2⟩] ∧
      ¬ (result.Perm [⟨1, 0⟩, ⟨3, 1⟩, ⟨2, 2⟩] ∧
        result.Pairwise fun one other => one.first ≤ other.first) := by
  obtain ⟨state, run, lists, data⟩ := threeScores_ok 1 3 2
  obtain ⟨heap', sorted, elements', sort, lists', same⟩ := irsSortDocSentencesByScore_ok lists data
  refine ⟨state, heap', sorted, elements', _, run, sort, lists'.traversed, same, by decide, ?_⟩
  rintro ⟨permuted, -⟩
  cases permuted.length_eq

end

end IrsMachine
