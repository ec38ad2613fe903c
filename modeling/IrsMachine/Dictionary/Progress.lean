import IrsMachine.Dictionary.Append

/-!
# When an append stays inside the arrays

`Selects node rest b`: the append of `rest` below `node` uses the byte `b` to choose a child,
either because `b` is the next byte of the string at a node or because a label is cut before
it. `appendLoop_ok_iff`: the append ends, and ends well, exactly when all these bytes have a
slot.
-/

namespace IrsMachine
open IrsDictionaryNode Except

variable {α : Type} {toInt : UInt8 → UInt8} {ok : UInt8 → Prop} {size : UInt8}

def agreed (old : IrsDictionaryNode α) (rest : Bytes) : Nat :=
  matchLength old.label old.label.length rest

inductive Selects (toInt : UInt8 → UInt8) : IrsDictionaryNode α → Bytes → UInt8 → Prop where
  | key {node : IrsDictionaryNode α} {c : UInt8} {cs : Bytes} : Selects toInt node (c :: cs) c
  | cut {node old : IrsDictionaryNode α} {c b : UInt8} {cs : Bytes}
      (stored : node.next[(toInt c).toNat]? = some (some old))
      (read : old.label[agreed old (c :: cs)]? = some b) : Selects toInt node (c :: cs) b
  | afterCut {node old : IrsDictionaryNode α} {c b : UInt8} {cs : Bytes}
      (stored : node.next[(toInt c).toNat]? = some (some old))
      (inside : agreed old (c :: cs) < old.label.length)
      (read : (c :: cs)[agreed old (c :: cs)]? = some b) : Selects toInt node (c :: cs) b
  | deeper {node old : IrsDictionaryNode α} {c b : UInt8} {cs : Bytes}
      (stored : node.next[(toInt c).toNat]? = some (some old))
      (whole : agreed old (c :: cs) = old.label.length)
      (selects : Selects toInt old ((c :: cs).drop old.label.length) b) :
      Selects toInt node (c :: cs) b

theorem matchLength_take (offset : Bytes) (n : Nat) (rest : Bytes) :
    matchLength (offset.take n) n rest = matchLength offset n rest := by
  fun_induction matchLength offset n rest with
  | case1 ch offset n c rest same ih => simp [matchLength, same, ih]
  | case2 ch offset n c rest different => simp [matchLength, different]
  | case3 offset n rest impossible =>
    cases offset <;> cases n <;> cases rest <;>
      first | rfl | exact (impossible _ _ _ _ _ rfl rfl rfl).elim

theorem appendIteration_stored {node old : IrsDictionaryNode α} {num : Nat} {c : UInt8} {cs : Bytes}
    (edge : Edge toInt ok num old) (stored : node.next[(toInt c).toNat]? = some (some old)) :
    (agreed old (c :: cs) = old.label.length ∧
      appendIteration toInt size node c cs = .ok (.enter (toInt c).toNat old old.label.length)) ∨
    ∃ b, agreed old (c :: cs) < old.label.length ∧ old.label[agreed old (c :: cs)]? = some b ∧
      if (toInt b).toNat < size.toNat then
        ∃ child, appendIteration toInt size node c cs =
          .ok (.enter (toInt c).toNat child (agreed old (c :: cs))) ∧
          SplitOf toInt size old child (old.label.take (agreed old (c :: cs))) b
            (old.label.drop (agreed old (c :: cs) + 1))
      else appendIteration toInt size node c cs = .error .outOfBounds := by
  have exact := edge.exact
  cases buffer : old.offset with
  | none => exact absurd (by simp [label, buffer]) edge.nonempty
  | some offset =>
    have labelEq : old.label = offset.take old.offsetSize := by simp [label, buffer]
    have same : matchLength offset old.offsetSize (c :: cs) = agreed old (c :: cs) := by
      rw [agreed, exact, labelEq, matchLength_take]
    have bound : agreed old (c :: cs) ≤ old.label.length := matchLength_le_size _ _ _
    simp only [appendIteration, stored, buffer, same]
    by_cases whole : agreed old (c :: cs) = old.label.length
    · exact Or.inl ⟨whole, by rw [if_pos (whole.trans exact), whole]⟩
    · have inside : agreed old (c :: cs) < old.label.length := by omega
      obtain ⟨b, read⟩ : ∃ b, old.label[agreed old (c :: cs)]? = some b :=
        ⟨_, List.getElem?_eq_getElem inside⟩
      have offsetRead : offset[agreed old (c :: cs)]? = some b := by
        rw [labelEq, List.getElem?_take] at read
        split at read
        · exact read
        · cases read
      right
      refine ⟨b, inside, read, ?_⟩
      have short : ¬agreed old (c :: cs) = old.offsetSize :=
        fun same => whole (same.trans exact.symm)
      simp only [if_neg short]
      simp only [offsetRead]
      have slots : (prefixNode size offset (agreed old (c :: cs)) :
        IrsDictionaryNode α).next.length = size.toNat := by
        simp [prefixNode, irsDictionaryNodeInitialize]
      rw [slots]
      split
      · rename_i inBounds
        exact ⟨_, rfl, splitOf_setNext buffer exact (by omega) offsetRead inBounds⟩
      · rfl

theorem splitOf_next {old child : IrsDictionaryNode α} {front back : Bytes} {b : UInt8}
    (splitOf : SplitOf toInt size old child front b back) {num : Nat}
    (other : (toInt b).toNat ≠ num) (bound : num < size.toNat) :
    child.next[num]? = some none := by
  obtain ⟨hang, child_eq, -⟩ := splitOf.hang
  rw [child_eq, getElem?_setNext, if_neg (fun same => other same.1)]
  simp [prefixNode, irsDictionaryNodeInitialize, bound]

theorem splitOf_length {old child : IrsDictionaryNode α} {front back : Bytes} {b : UInt8}
    (splitOf : SplitOf toInt size old child front b back) : child.next.length = size.toNat := by
  obtain ⟨hang, child_eq, -⟩ := splitOf.hang
  rw [child_eq]
  simp [prefixNode, irsDictionaryNodeInitialize]

/-! ### The loop, one iteration at a time -/

theorem appendLoop_leaf {fuel : Nat} {node temp : IrsDictionaryNode α} {c : UInt8} {cs : Bytes}
    {num : Nat} (step : appendIteration toInt size node c cs = .ok (.leaf num temp)) :
    appendLoop toInt size (fuel + 1) node (c :: cs) = .ok (node.setNext num temp, [num]) := by
  simp [appendLoop, step]

theorem appendLoop_enter {fuel : Nat} {node child child' : IrsDictionaryNode α} {c : UInt8}
    {cs : Bytes} {num advance : Nat} {address : Address}
    (step : appendIteration toInt size node c cs = .ok (.enter num child advance))
    (lower : appendLoop toInt size fuel child ((c :: cs).drop advance) = .ok (child', address)) :
    appendLoop toInt size (fuel + 1) node (c :: cs) =
      .ok (node.setNext num child', num :: address) := by
  simp only [appendLoop, step, ok_bind, lower]

theorem appendLoop_error {fuel : Nat} {node : IrsDictionaryNode α} {c : UInt8} {cs : Bytes}
    {fault : Fault} (step : appendIteration toInt size node c cs = .error fault) :
    appendLoop toInt size (fuel + 1) node (c :: cs) = .error fault := by
  simp [appendLoop, step]

theorem appendLoop_enter_ok_iff {fuel : Nat} {node child : IrsDictionaryNode α} {c : UInt8}
    {cs : Bytes} {num advance : Nat}
    (step : appendIteration toInt size node c cs = .ok (.enter num child advance)) :
    (∃ result, appendLoop toInt size (fuel + 1) node (c :: cs) = .ok result) ↔
      ∃ result, appendLoop toInt size fuel child ((c :: cs).drop advance) = .ok result := by
  constructor
  · rintro ⟨result, run⟩
    simp only [appendLoop, step, ok_bind] at run
    obtain ⟨below, lower, -⟩ := bind_ok.mp run
    exact ⟨below, lower⟩
  · rintro ⟨⟨child', address⟩, lower⟩
    exact ⟨_, appendLoop_enter step lower⟩

theorem appendLoop_empty_ok_iff {fuel : Nat} {node : IrsDictionaryNode α} {c : UInt8} {cs : Bytes}
    (slots : node.next.length = size.toNat)
    (empty : ∀ old, node.next[(toInt c).toNat]? ≠ some (some old)) :
    (∃ result, appendLoop toInt size (fuel + 1) node (c :: cs) = .ok result) ↔
      (toInt c).toNat < size.toNat := by
  cases stored : node.next[(toInt c).toNat]? with
  | none =>
    have step : appendIteration toInt size node c cs = .error .outOfBounds := by
      simp [appendIteration, stored]
    have outside := List.getElem?_eq_none_iff.mp stored
    simp only [appendLoop_error step, reduceCtorEq, exists_false, false_iff]
    omega
  | some slot =>
    cases slot with
    | some old => exact absurd stored (empty old)
    | none =>
      have step : appendIteration toInt size node c cs =
          .ok (.leaf (toInt c).toNat (leafNode size (c :: cs))) := by
        simp [appendIteration, stored]
      have inside := (List.getElem?_eq_some_iff.mp stored).1
      simp only [appendLoop_leaf step, Except.ok.injEq, exists_eq', true_iff]
      omega

theorem appendLoop_split_ok_iff {fuel : Nat} {old child : IrsDictionaryNode α}
    {front back rest : Bytes} {b : UInt8} (splitOf : SplitOf toInt size old child front b back)
    (injective : Function.Injective toInt)
    (differs : ∀ c, rest.head? = some c → tolower b ≠ tolower c) (enough : rest.length ≤ fuel) :
    (∃ result, appendLoop toInt size fuel child rest = .ok result) ↔
      ∀ c, rest.head? = some c → (toInt c).toNat < size.toNat := by
  cases rest with
  | nil => simp [appendLoop]
  | cons c cs =>
    obtain ⟨fuel, rfl⟩ : ∃ n, fuel = n + 1 :=
      ⟨fuel - 1, by simp only [List.length_cons] at enough; omega⟩
    have other : (toInt b).toNat ≠ (toInt c).toNat := fun same =>
      differs c rfl (congrArg tolower (injective (UInt8.toNat_inj.mp same)))
    have empty : ∀ node, child.next[(toInt c).toNat]? ≠ some (some node) := by
      intro node stored
      have bound := (List.getElem?_eq_some_iff.mp stored).1
      rw [splitOf_next splitOf other (splitOf_length splitOf ▸ bound)] at stored
      cases stored
    rw [appendLoop_empty_ok_iff (splitOf_length splitOf) empty]
    simp

/-! ### The bytes that select a child -/

theorem selects_empty {node : IrsDictionaryNode α} {c : UInt8} {cs : Bytes}
    (empty : ∀ old, node.next[(toInt c).toNat]? ≠ some (some old)) (b : UInt8) :
    Selects toInt node (c :: cs) b ↔ b = c := by
  constructor
  · intro selects
    cases selects with
    | key => rfl
    | cut stored | afterCut stored | deeper stored => exact absurd stored (empty _)
  · rintro rfl
    exact .key

theorem selects_whole {node old : IrsDictionaryNode α} {c : UInt8} {cs : Bytes}
    (stored : node.next[(toInt c).toNat]? = some (some old))
    (whole : agreed old (c :: cs) = old.label.length) (b : UInt8) :
    Selects toInt node (c :: cs) b ↔
      b = c ∨ Selects toInt old ((c :: cs).drop old.label.length) b := by
  constructor
  · intro selects
    cases selects with
    | key => exact Or.inl rfl
    | cut stored' read =>
      cases stored.symm.trans stored'
      rw [whole, List.getElem?_eq_none (Nat.le_refl _)] at read
      cases read
    | afterCut stored' inside =>
      cases stored.symm.trans stored'
      omega
    | deeper stored' _ selects =>
      cases stored.symm.trans stored'
      exact Or.inr selects
  · rintro (rfl | selects)
    · exact .key
    · exact .deeper stored whole selects

theorem selects_cut {node old : IrsDictionaryNode α} {c ch : UInt8} {cs : Bytes}
    (stored : node.next[(toInt c).toNat]? = some (some old))
    (read : old.label[agreed old (c :: cs)]? = some ch) (b : UInt8) :
    Selects toInt node (c :: cs) b ↔
      b = c ∨ b = ch ∨ ((c :: cs).drop (agreed old (c :: cs))).head? = some b := by
  have inside := (List.getElem?_eq_some_iff.mp read).1
  rw [List.head?_drop]
  constructor
  · intro selects
    cases selects with
    | key => exact Or.inl rfl
    | cut stored' read' =>
      cases stored.symm.trans stored'
      cases read.symm.trans read'
      exact Or.inr (Or.inl rfl)
    | afterCut stored' _ second =>
      cases stored.symm.trans stored'
      exact Or.inr (Or.inr second)
    | deeper stored' whole =>
      cases stored.symm.trans stored'
      omega
  · rintro (rfl | rfl | second)
    · exact .key
    · exact .cut stored read
    · exact .afterCut stored inside second

/-- The append loop ends within as many iterations as there are characters, and it fails
only where it would leave an array. -/
theorem appendLoop_ok_iff (injective : Function.Injective toInt) {fuel : Nat}
    {node : IrsDictionaryNode α} {rest : Bytes} (tidy : Tidy toInt ok size node)
    (enough : rest.length ≤ fuel) :
    (∃ result, appendLoop toInt size fuel node rest = .ok result) ↔
      ∀ b, Selects toInt node rest b → (toInt b).toNat < size.toNat := by
  induction fuel generalizing node rest with
  | zero =>
    obtain rfl : rest = [] := List.length_eq_zero_iff.mp (by omega)
    exact iff_of_true ⟨_, rfl⟩ (by rintro b ⟨⟩)
  | succ fuel ih =>
    cases rest with
    | nil => exact iff_of_true ⟨_, rfl⟩ (by rintro b ⟨⟩)
    | cons c cs =>
      simp only [List.length_cons] at enough
      obtain empty | ⟨old, stored⟩ := absent_or_stored node (toInt c).toNat
      · simp only [appendLoop_empty_ok_iff tidy.slots empty, selects_empty empty, forall_eq]
      have inside : (toInt c).toNat < size.toNat :=
        tidy.slots ▸ (List.getElem?_eq_some_iff.mp stored).1
      have edge := tidy.edge stored
      rcases @appendIteration_stored α toInt ok size node old _ c cs edge
        stored with ⟨whole, step⟩ | ⟨b, cutInside, read, outcome⟩
      · have nonempty := List.length_pos_iff.mpr edge.nonempty
        rw [appendLoop_enter_ok_iff step,
          ih (tidy.child stored) (by simp only [List.length_drop, List.length_cons]; omega)]
        simp only [selects_whole stored whole, or_imp, forall_and, forall_eq, inside, true_and]
      · simp only [selects_cut stored read, or_imp, forall_and, forall_eq, inside, true_and]
        split at outcome
        · rename_i bound
          obtain ⟨child, step, splitOf⟩ := outcome
          have positive : 0 < agreed old (c :: cs) := by
            obtain ⟨back, head⟩ := edge.head injective
            rw [agreed, head]
            exact matchLength_pos (by simp)
          have differs : ∀ c', ((c :: cs).drop (agreed old (c :: cs))).head? = some c' →
              tolower b ≠ tolower c' := by
            intro c' second
            exact matchLength_differs cutInside read (List.head?_drop ▸ second)
          rw [appendLoop_enter_ok_iff step, appendLoop_split_ok_iff splitOf injective differs
            (by simp only [List.length_drop, List.length_cons]; omega)]
          simp only [bound, true_and]
        · rename_i outside
          simp only [appendLoop_error outcome, reduceCtorEq, exists_false, outside, false_and]

end IrsMachine
