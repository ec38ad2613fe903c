import Mathlib.Data.List.Sort

/-!
# What the sort makes of a sequence

Pairs are put in order one after another. A pair that is not the last one is lost at the end of
those in order, and the last one is put there as soon as it does not come first.
`sortScores_iff`: the sequences that are sorted all the same.
-/

namespace IrsMachine

section
variable {α : Type} (r : α → α → Prop) [DecidableRel r]

/-- A pair that is greater than all others is kept only where it is the last one. -/
def insertScore (isLast : Bool) (new : α) : List α → List α
  | [] => []
  | old :: rest =>
    if r new old then new :: old :: rest else if isLast then old :: rest ++ [new]
      else old :: insertScore isLast new rest

def insertScores : List α → List α → List α
  | sorted, [] => sorted
  | sorted, new :: rest => insertScores (insertScore r rest.isEmpty new sorted) rest

def sortScores : List α → List α
  | [] => []
  | first :: rest => insertScores r [first] rest

/-- The first one is the greatest but for the last, and the last one comes before or after all
others. -/
def Sortable : List α → Prop
  | [] => True
  | first :: rest => (∀ score ∈ rest.dropLast, r score first) ∧
    ∀ last ∈ rest.getLast?, (∀ score ∈ first :: rest.dropLast, r last score) ∨ r first last

variable {r} {new greatest : α} {sorted rest : List α}

theorem insertScore_kept (below : ∃ old ∈ sorted, r new old) :
    insertScore r false new sorted = sorted.orderedInsert r new := by
  induction sorted with
  | nil =>
    obtain ⟨old, member, -⟩ := below
    cases member
  | cons head sorted ih =>
    rw [insertScore, List.orderedInsert_cons]
    split
    · rfl
    · rename_i above
      rw [if_neg Bool.false_ne_true, ih]
      obtain ⟨old, member, under⟩ := below
      rcases List.mem_cons.mp member with rfl | later
      · exact absurd under above
      · exact ⟨old, later, under⟩

theorem insertScore_lost (above : ∀ old ∈ sorted, ¬ r new old) :
    insertScore r false new sorted = sorted := by
  induction sorted with
  | nil => rfl
  | cons head sorted ih =>
    rw [insertScore, if_neg (above head List.mem_cons_self), if_neg Bool.false_ne_true,
      ih fun old member => above old (List.mem_cons_of_mem _ member)]

theorem length_insertScore_le (isLast : Bool) (new : α) (sorted : List α) :
    (insertScore r isLast new sorted).length ≤ sorted.length + 1 := by
  induction sorted with
  | nil => exact Nat.zero_le _
  | cons head sorted ih =>
    unfold insertScore
    split
    · exact le_refl _
    · split
      · simp
      · exact Nat.succ_le_succ ih

theorem insertScore_ne_nil (isLast : Bool) (new : α) (goesOn : sorted ≠ []) :
    insertScore r isLast new sorted ≠ [] := by
  obtain ⟨head, tail, rfl⟩ := List.exists_cons_of_ne_nil goesOn
  unfold insertScore
  split
  · exact List.cons_ne_nil _ _
  · split
    · exact List.cons_ne_nil _ _
    · exact List.cons_ne_nil _ _

theorem length_insertScores_le (sorted rest : List α) :
    (insertScores r sorted rest).length ≤ sorted.length + rest.length := by
  induction rest generalizing sorted with
  | nil => exact le_refl _
  | cons new rest ih =>
    have longer := length_insertScore_le (r := r) rest.isEmpty new sorted
    have goesOn := ih (insertScore r rest.isEmpty new sorted)
    rw [insertScores, List.length_cons]
    omega

variable [IsTrans α r]

/-- The last pair is put before all others or behind them. -/
theorem insertScores_last_iff (ordered : sorted.Pairwise r) (member : greatest ∈ sorted)
    (bounds : ∀ old ∈ sorted, r old greatest) :
    (insertScores r sorted [new]).Perm (sorted ++ [new]) ∧
    (insertScores r sorted [new]).Pairwise r ↔
      (∀ score ∈ sorted, r new score) ∨ r greatest new := by
  obtain ⟨head, tail, rfl⟩ := List.exists_cons_of_ne_nil (List.ne_nil_of_mem member)
  have last : insertScores r (head :: tail) [new] = if r new head then new :: head :: tail
      else head :: tail ++ [new] := rfl
  rw [last]
  split
  · rename_i under
    have first : ∀ old ∈ head :: tail, r new old := by
      intro old inside
      rcases List.mem_cons.mp inside with rfl | later
      · exact under
      · exact trans_of r under (List.rel_of_pairwise_cons ordered later)
    apply iff_of_true
    · exact ⟨(List.perm_append_singleton new (head :: tail)).symm,
        List.pairwise_cons.mpr ⟨first, ordered⟩⟩
    · exact .inl first
  · rename_i above
    rw [List.pairwise_append]
    constructor
    · rintro ⟨-, -, -, behind⟩
      exact .inr (behind _ member _ List.mem_cons_self)
    · rintro (first | behind)
      · exact absurd (first head List.mem_cons_self) above
      · refine ⟨.refl _, ordered, List.pairwise_singleton .., fun old inside other isNew => ?_⟩
        rw [List.mem_singleton.mp isNew]
        exact trans_of r (bounds old inside) behind

variable [Std.Total r]

theorem insertScores_iff (ordered : sorted.Pairwise r) (member : greatest ∈ sorted)
    (bounds : ∀ old ∈ sorted, r old greatest) :
    (insertScores r sorted rest).Perm (sorted ++ rest) ∧ (insertScores r sorted rest).Pairwise r ↔
      (∀ score ∈ rest.dropLast, r score greatest) ∧
        ∀ last ∈ rest.getLast?, (∀ score ∈ sorted ++ rest.dropLast, r last score) ∨
          r greatest last := by
  induction rest generalizing sorted with
  | nil =>
    rw [insertScores, List.append_nil]
    exact ⟨fun _ => ⟨nofun, nofun⟩, fun _ => ⟨.refl _, ordered⟩⟩
  | cons new rest ih =>
    cases rest with
    | nil =>
      rw [insertScores_last_iff ordered member bounds]
      simp
    | cons next rest =>
      have drop : (new :: next :: rest).dropLast = new :: (next :: rest).dropLast := rfl
      have last : (new :: next :: rest).getLast? = (next :: rest).getLast? :=
        List.getLast?_cons_cons
      have step : insertScores r sorted (new :: next :: rest) =
          insertScores r (insertScore r false new sorted) (next :: rest) := rfl
      rw [drop, last, step]
      by_cases below : r new greatest
      · have same := List.perm_orderedInsert r new sorted
        have inside : ∀ old, old ∈ sorted.orderedInsert r new ++ (next :: rest).dropLast ↔
            old ∈ sorted ++ new :: (next :: rest).dropLast := by
          intro old
          rw [List.mem_append, List.mem_append, List.mem_orderedInsert, List.mem_cons]
          tauto
        have bounds' : ∀ old ∈ sorted.orderedInsert r new, r old greatest := by
          intro old member
          rcases (List.mem_orderedInsert r).mp member with rfl | old'
          · exact below
          · exact bounds old old'
        have goesOn := ih (ordered.orderedInsert new)
          ((List.mem_orderedInsert r).mpr (.inr member)) bounds'
        have permuted : (sorted.orderedInsert r new ++ next :: rest).Perm
            (sorted ++ new :: next :: rest) :=
          (same.append_right _).trans List.perm_middle.symm
        rw [insertScore_kept ⟨greatest, member, below⟩, ← permuted.congr_right, goesOn]
        simp only [inside, List.forall_mem_cons, below, true_and]
      · have lost : insertScore r false new sorted = sorted :=
          insertScore_lost fun old inside under => below (trans_of r under (bounds old inside))
        rw [lost]
        constructor
        · rintro ⟨permuted, -⟩
          have shorter := length_insertScores_le (r := r) sorted (next :: rest)
          have length := permuted.length_eq
          simp only [List.length_append, List.length_cons] at length shorter
          omega
        · rintro ⟨between, -⟩
          exact absurd (between new List.mem_cons_self) below

theorem sortScores_iff (scores : List α) :
    (sortScores r scores).Perm scores ∧ (sortScores r scores).Pairwise r ↔ Sortable r scores := by
  cases scores with
  | nil => exact ⟨fun _ => trivial, fun _ => ⟨.refl _, .nil⟩⟩
  | cons first rest =>
    have reflexive : ∀ old ∈ [first], r old first := by
      intro old member
      rw [List.mem_singleton.mp member]
      exact refl_of r first
    exact insertScores_iff (List.pairwise_singleton ..) List.mem_cons_self reflexive

end

end IrsMachine
