import IrsMachine.Engine.Summary

/-!
# The size of the array for a summary

The array has a place for each pair that the sort keeps, and its places are those of the sentences
in the document. `summarizeScored_iff`: the scores for which all places that are used are in it.
-/

namespace IrsMachine
open Except

/-! ### What the sort keeps, and in which order -/

section
variable (scores : List UInt64)

def scoreOf (k : Nat) : Nat := (scores.getD k 0).toNat

/-- The sort keeps the first pair and the last one, and those that are not above the first. -/
def IsKept (k : Nat) : Prop := k = 0 ∨ k + 1 = scores.length ∨ scoreOf scores k ≤ scoreOf scores 0

instance : DecidablePred (IsKept scores) := fun _ => inferInstanceAs (Decidable (_ ∨ _ ∨ _))

def keptIndices : List Nat := (List.range scores.length).filter fun k => decide (IsKept scores k)

/-- The last pair comes to the begin, not to the end. -/
def LastComesFirst : Prop :=
  ∀ k ∈ keptIndices scores, scoreOf scores (scores.length - 1) ≤ scoreOf scores k

instance : Decidable (LastComesFirst scores) :=
  inferInstanceAs
    (Decidable (∀ k ∈ keptIndices scores, scoreOf scores (scores.length - 1) ≤ scoreOf scores k))

/-- The pair of `i` stands behind the one of `k`. Of equal scores the earlier one is behind. -/
def Outranks (i k : Nat) : Prop :=
  if k + 1 = scores.length then i ≠ k ∧ LastComesFirst scores
  else if i + 1 = scores.length then ¬LastComesFirst scores
  else scoreOf scores k < scoreOf scores i ∨ (scoreOf scores k = scoreOf scores i ∧ i < k)

instance : DecidableRel (Outranks scores) := fun i k => inferInstanceAs (Decidable
  (if k + 1 = scores.length then i ≠ k ∧ LastComesFirst scores
    else if i + 1 = scores.length then ¬LastComesFirst scores
    else scoreOf scores k < scoreOf scores i ∨ (scoreOf scores k = scoreOf scores i ∧ i < k)))

/-- Of the pairs with fewer than ten behind them, the places in the document are in the array. -/
def WithinArray : Prop :=
  ∀ k ∈ keptIndices scores,
    ((keptIndices scores).filter fun i => decide (Outranks scores i k)).length < 10 →
    summarPlace (UInt64.ofNat k) < scores.length →
    summarPlace (UInt64.ofNat k) < (keptIndices scores).length % 2 ^ 32

instance : Decidable (WithinArray scores) := inferInstanceAs (Decidable
  (∀ k ∈ keptIndices scores,
    ((keptIndices scores).filter fun i => decide (Outranks scores i k)).length < 10 →
    summarPlace (UInt64.ofNat k) < scores.length →
    summarPlace (UInt64.ofNat k) < (keptIndices scores).length % 2 ^ 32))

def scoredPair (k : Nat) : IrsPair := ⟨scores.getD k 0, UInt64.ofNat k⟩

def scoredLe (i k : Nat) : Prop := scoreOf scores i ≤ scoreOf scores k

instance : DecidableRel (scoredLe scores) := fun _ _ => inferInstanceAs (Decidable (_ ≤ _))

/-- The order that the sort gives to pairs it meets in the order of their indices. -/
def stableLe (i k : Nat) : Prop :=
  scoreOf scores i < scoreOf scores k ∨ (scoreOf scores i = scoreOf scores k ∧ k ≤ i)

instance : DecidableRel (stableLe scores) := fun _ _ => inferInstanceAs (Decidable (_ ∨ _))

instance : Std.Total (stableLe scores) := ⟨fun i k => by unfold stableLe; omega⟩

instance : IsTrans Nat (stableLe scores) := ⟨fun i k l => by unfold stableLe; omega⟩

instance : Std.Total (scoredLe scores) := ⟨fun i k => by unfold scoredLe; omega⟩

instance : IsTrans Nat (scoredLe scores) := ⟨fun i k l => by unfold scoredLe; omega⟩

end

variable {scores : List UInt64}

theorem Outranks.asymm {i k : Nat} (outranks : Outranks scores i k) : ¬Outranks scores k i := by
  unfold Outranks at *
  split at outranks
  · rw [if_neg (by omega), if_pos (by assumption)]
    exact not_not_intro outranks.2
  · split at outranks
    · rw [if_pos (by assumption)]
      exact fun both => outranks both.2
    · rw [if_neg (by assumption), if_neg (by assumption)]
      omega

theorem insertScore_map {α β : Type} {r : α → α → Prop} {r' : β → β → Prop} [DecidableRel r]
    [DecidableRel r'] (f : β → α) (agree : ∀ one other, r (f one) (f other) ↔ r' one other)
    (isLast : Bool) (new : β) (sorted : List β) :
    insertScore r isLast (f new) (sorted.map f) = (insertScore r' isLast new sorted).map f := by
  induction sorted with
  | nil => rfl
  | cons old sorted ih =>
    rw [List.map_cons, insertScore, insertScore, ih]
    simp only [agree]
    split
    · rfl
    · split
      · simp
      · rfl

theorem insertScores_map {α β : Type} {r : α → α → Prop} {r' : β → β → Prop} [DecidableRel r]
    [DecidableRel r'] (f : β → α) (agree : ∀ one other, r (f one) (f other) ↔ r' one other)
    (sorted rest : List β) :
    insertScores r (sorted.map f) (rest.map f) = (insertScores r' sorted rest).map f := by
  induction rest generalizing sorted with
  | nil => rfl
  | cons new rest ih =>
    rw [List.map_cons, insertScores, insertScores, List.isEmpty_map, insertScore_map f agree, ih]

/-! ### The sort of scored pairs -/

theorem orderedInsert_congr {α : Type} {r r' : α → α → Prop} [DecidableRel r] [DecidableRel r']
    {new : α} {sorted : List α} (agree : ∀ old ∈ sorted, r new old ↔ r' new old) :
    sorted.orderedInsert r new = sorted.orderedInsert r' new := by
  induction sorted with
  | nil => rfl
  | cons old sorted ih =>
    obtain ⟨here, later⟩ := List.forall_mem_cons.mp agree
    rw [List.orderedInsert_cons, List.orderedInsert_cons, ih later]
    simp only [here]

/-- The pairs between the first and the last one. -/
theorem insertScores_middle {α : Type} {r : α → α → Prop} [DecidableRel r] (sorted middle : List α)
    (last : α) :
    insertScores r sorted (middle ++ [last]) =
      insertScore r true last
        (middle.foldl (fun sorted new => insertScore r false new sorted) sorted) := by
  induction middle generalizing sorted with
  | nil => rfl
  | cons new middle ih =>
    have goesOn : (middle ++ [last]).isEmpty = false := by simp
    rw [List.cons_append, insertScores, goesOn, ih, List.foldl_cons]

theorem foldl_insertScore (scores : List UInt64) {sorted middle : List Nat} {first : Nat}
    (member : first ∈ sorted) (greatest : ∀ old ∈ sorted, scoredLe scores old first)
    (ordered : sorted.Pairwise (stableLe scores))
    (later : ∀ old ∈ sorted, ∀ new ∈ middle, old < new) (increasing : middle.Pairwise (· < ·)) :
    (middle.foldl (fun sorted new => insertScore (scoredLe scores) false new sorted) sorted).Perm
        (sorted ++ middle.filter fun k => decide (scoredLe scores k first)) ∧
      (middle.foldl (fun sorted new => insertScore (scoredLe scores) false new sorted)
        sorted).Pairwise (stableLe scores) := by
  induction middle generalizing sorted with
  | nil =>
    rw [List.filter_nil, List.append_nil]
    exact ⟨.refl _, ordered⟩
  | cons new middle ih =>
    obtain ⟨above, increasing⟩ := List.pairwise_cons.mp increasing
    rw [List.foldl_cons]
    by_cases below : scoredLe scores new first
    · have inserted : insertScore (scoredLe scores) false new sorted =
          sorted.orderedInsert (stableLe scores) new := by
        rw [insertScore_kept ⟨first, member, below⟩]
        apply orderedInsert_congr
        intro old inside
        have earlier := later old inside new List.mem_cons_self
        unfold scoredLe stableLe
        omega
      have same := List.perm_orderedInsert (stableLe scores) new sorted
      rw [inserted, List.filter_cons, if_pos (decide_eq_true below)]
      obtain ⟨permuted, ordered'⟩ := ih ((List.mem_orderedInsert _).mpr (.inr member)) (by
        intro old inside
        rcases (List.mem_orderedInsert _).mp inside with rfl | inside
        · exact below
        · exact greatest old inside) (ordered.orderedInsert new) (by
        intro old inside other member'
        rcases (List.mem_orderedInsert _).mp inside with rfl | inside
        · exact above other member'
        · exact later old inside other (List.mem_cons_of_mem _ member')) increasing
      refine ⟨permuted.trans ?_, ordered'⟩
      exact (same.append_right _).trans List.perm_middle.symm
    · have lost : insertScore (scoredLe scores) false new sorted = sorted := by
        apply insertScore_lost
        intro old inside under
        exact below (le_trans under (greatest old inside))
      rw [lost, List.filter_cons, if_neg (by simpa using below)]
      exact ih member greatest ordered
        (fun old inside other member' => later old inside other (List.mem_cons_of_mem _ member'))
        increasing

/-- The indices that are kept are the first one, some of the middle ones and the last one. -/
theorem keptIndices_eq {more : Nat} (length : scores.length = more + 2) :
    keptIndices scores =
      0 :: (((List.range more).map Nat.succ).filter fun k => decide (scoredLe scores k 0)) ++
        [more + 1] := by
  have first : IsKept scores 0 := .inl rfl
  have last : IsKept scores (more + 1) := .inr (.inl length.symm)
  rw [keptIndices, length, List.range_succ, List.range_succ_eq_map, List.filter_append,
    List.filter_cons, if_pos (decide_eq_true first), List.filter_singleton,
    decide_eq_true last, cond_true]
  congr 2
  apply List.filter_congr
  intro k member
  obtain ⟨j, inside, rfl⟩ := List.mem_map.mp member
  have below := List.mem_range.mp inside
  rw [decide_eq_decide]
  unfold IsKept scoredLe
  omega

theorem stableLe.outranks {i k more : Nat} (length : scores.length = more + 2)
    (ordered : stableLe scores i k) (different : i ≠ k) (before : i ≤ more) (before' : k ≤ more) :
    Outranks scores k i := by
  unfold Outranks
  rw [if_neg (by omega), if_neg (by omega)]
  unfold stableLe at ordered
  omega

/-- The last pair is put before those in order or behind them. -/
theorem insertScore_last {front : List Nat} {more : Nat} (length : scores.length = more + 2)
    (permuted : (front ++ [more + 1]).Perm (keptIndices scores))
    (ordered : front.Pairwise (stableLe scores)) (below : ∀ k ∈ front, k ≤ more)
    (goesOn : front ≠ []) :
    (insertScore (scoredLe scores) true (more + 1) front).Perm (keptIndices scores) ∧
      (insertScore (scoredLe scores) true (more + 1) front).Pairwise fun i k =>
        Outranks scores k i := by
  have different : front.Nodup := by
    have nodup := permuted.nodup_iff.mpr (List.nodup_range.filter _)
    exact (List.nodup_append.mp nodup).1
  have ranked : front.Pairwise fun i k => Outranks scores k i :=
    (ordered.and different).imp_of_mem fun first second both =>
      both.1.outranks length both.2 (below _ first) (below _ second)
  obtain ⟨head, tail, rfl⟩ := List.exists_cons_of_ne_nil goesOn
  have comesFirst : LastComesFirst scores ↔ scoredLe scores (more + 1) head := by
    unfold LastComesFirst
    simp only [← permuted.mem_iff, length]
    constructor
    · intro least
      exact least head (by simp)
    · intro under k member
      rcases List.mem_append.mp member with inside | last
      · rcases List.mem_cons.mp inside with rfl | later
        · exact under
        · have behind := List.rel_of_pairwise_cons ordered later
          unfold scoredLe at under
          unfold stableLe at behind
          show scoreOf scores (more + 1) ≤ scoreOf scores k
          omega
      · rw [List.mem_singleton.mp last]
        exact le_refl _
  rw [insertScore]
  by_cases under : scoredLe scores (more + 1) head
  · rw [if_pos under]
    refine ⟨(List.perm_append_singleton _ _).symm.trans permuted,
      List.pairwise_cons.mpr ⟨fun k member => ?_, ranked⟩⟩
    unfold Outranks
    rw [if_pos length.symm]
    have := below k member
    exact ⟨by omega, comesFirst.mpr under⟩
  · rw [if_neg under, if_pos rfl]
    refine ⟨permuted, List.pairwise_append.mpr
      ⟨ranked, List.pairwise_singleton .., fun k member last isLast => ?_⟩⟩
    have := below k member
    rw [List.mem_singleton.mp isLast]
    unfold Outranks
    rw [if_neg (by omega), if_pos length.symm]
    exact fun first => under (comesFirst.mp first)

theorem sortScores_range (scores : List UInt64) :
    (sortScores (scoredLe scores) (List.range scores.length)).Perm (keptIndices scores) ∧
      (sortScores (scoredLe scores) (List.range scores.length)).Pairwise fun i k =>
        Outranks scores k i := by
  rcases length : scores.length with _ | _ | more
  · rw [keptIndices, length]
    exact ⟨.refl _, .nil⟩
  · have first : IsKept scores 0 := .inl rfl
    rw [keptIndices, length]
    refine ⟨?_, List.pairwise_singleton ..⟩
    show [0].Perm ([0].filter _)
    rw [List.filter_singleton, decide_eq_true first]
    exact .refl _
  · have increasing : ((List.range more).map Nat.succ).Pairwise (· < ·) := by
      rw [List.pairwise_map]
      exact List.pairwise_lt_range.imp Nat.succ_lt_succ
    obtain ⟨permuted, ordered⟩ :=
      foldl_insertScore scores (show 0 ∈ [0] from List.mem_cons_self)
        (fun old member => by rw [List.mem_singleton.mp member]; exact le_refl (scoreOf scores 0))
        (List.pairwise_singleton ..)
      (fun old member new inside => by
        obtain ⟨j, -, rfl⟩ := List.mem_map.mp inside
        rw [List.mem_singleton.mp member]
        exact Nat.succ_pos j) increasing
    have sorted : sortScores (scoredLe scores) (List.range (more + 1 + 1)) =
        insertScore (scoredLe scores) true (more + 1)
        (((List.range more).map Nat.succ).foldl
          (fun sorted new => insertScore (scoredLe scores) false new sorted) [0]) := by
      rw [List.range_succ, List.range_succ_eq_map, List.cons_append, sortScores,
        insertScores_middle]
    rw [sorted, keptIndices_eq length]
    generalize ((List.range more).map Nat.succ).foldl
      (fun sorted new => insertScore (scoredLe scores) false new sorted) [0] =
      front at permuted ordered
    have below : ∀ k ∈ front, k ≤ more := by
      intro k member
      rcases List.mem_cons.mp (permuted.subset member) with rfl | inside
      · exact Nat.zero_le more
      · obtain ⟨j, inRange, rfl⟩ := List.mem_map.mp (List.mem_filter.mp inside).1
        exact List.mem_range.mp inRange
    have goesOn : front ≠ [] := by
      rintro rfl
      cases permuted.length_eq
    rw [← keptIndices_eq length]
    apply insertScore_last length _ ordered below goesOn
    rw [keptIndices_eq length]
    exact permuted.append_right _

/-! ### The places that are used -/

/-- Of a list in order, those among the last `count` have fewer than so many behind them. -/
theorem mem_take_reverse_iff {α : Type} {R : α → α → Prop} [DecidableRel R]
    (asymm : ∀ one other, R one other → ¬R other one) {list : List α}
    (ordered : list.Pairwise fun one other => R other one) {value : α} (member : value ∈ list)
    (count : Nat) :
    value ∈ list.reverse.take count ↔
      (list.filter fun other => decide (R other value)).length < count := by
  obtain ⟨before, after, rfl⟩ := List.append_of_mem member
  obtain ⟨-, rest, apart⟩ := List.pairwise_append.mp ordered
  obtain ⟨behind, -⟩ := List.pairwise_cons.mp rest
  have own : ¬R value value := fun self => asymm _ _ self self
  have ahead : before.filter (fun other => decide (R other value)) = [] := by
    rw [List.filter_eq_nil_iff]
    intro other inside
    simpa using asymm _ _ (apart other inside value List.mem_cons_self)
  have all : after.filter (fun other => decide (R other value)) = after := by
    rw [List.filter_eq_self]
    intro other inside
    exact decide_eq_true (behind other inside)
  rw [List.filter_append, List.filter_cons, if_neg (by simpa using own), ahead, all,
    List.nil_append, List.reverse_append, List.reverse_cons, List.append_assoc,
    List.singleton_append]
  constructor
  · intro taken
    by_contra late
    rw [List.take_append_of_le_length (by rw [List.length_reverse]; omega)] at taken
    exact own (behind value (List.mem_reverse.mp (List.mem_of_mem_take taken)))
  · intro early
    rw [List.take_append, List.length_reverse, List.mem_append]
    obtain ⟨left, same⟩ := Nat.exists_eq_succ_of_ne_zero (Nat.sub_ne_zero_of_lt early)
    rw [same, List.take_succ_cons]
    exact .inr List.mem_cons_self

theorem mapIdx_eq (scores : List UInt64) :
    (scores.mapIdx fun k score => (⟨score, UInt64.ofNat k⟩ : IrsPair)) =
      (List.range scores.length).map (scoredPair scores) := by
  apply List.ext_getElem
  · rw [List.length_mapIdx, List.length_map, List.length_range]
  · intro k inside _
    rw [List.length_mapIdx] at inside
    rw [List.getElem_mapIdx, List.getElem_map, List.getElem_range, scoredPair,
      List.getD_eq_getElem?_getD, List.getElem?_eq_getElem inside]
    rfl

theorem sortScores_scored (scores : List UInt64) :
    sortScores scoreLe ((List.range scores.length).map (scoredPair scores)) =
      (sortScores (scoredLe scores) (List.range scores.length)).map (scoredPair scores) := by
  have agree : ∀ i k, scoreLe (scoredPair scores i) (scoredPair scores k) ↔ scoredLe scores i k :=
    fun i k => UInt64.le_iff_toNat_le
  cases List.range scores.length with
  | nil => rfl
  | cons first rest => exact insertScores_map (scoredPair scores) agree [first] rest

section
variable {sentencesHeap : Heap Bytes} {heap : Heap IrsPair} {sentences sentsScores : IrsList}
  {texts : List Bytes}

/-- The sentences that are taken are those before the last ten indices in the order of the sort. -/
theorem summarizeScored_eq (scores : List UInt64) {elements : List (Nat × Option Bytes)}
    {elements' : List (Nat × Option IrsPair)} (lists : Listed sentencesHeap sentences elements)
    (data : elements.map Prod.snd = texts.map some) (lists' : Listed heap sentsScores elements')
    (data' : elements'.map Prod.snd = ((List.range scores.length).map (scoredPair scores)).map some)
    (assigned : scores.length = texts.length) :
    summarizeScored sentencesHeap sentences heap sentsScores =
      if WithinArray scores then .ok (sentencesAt texts
        (((sortScores (scoredLe scores) (List.range scores.length)).reverse.take maxSentNumber).map
          fun k => summarPlace (UInt64.ofNat k)))
      else .error .outOfBounds := by
  obtain ⟨heap', sorted, elements'', run, lists'', data''⟩ :=
    irsSortDocSentencesByScore_ok lists' data'
  obtain ⟨permuted, ordered⟩ := sortScores_range scores
  rw [sortScores_scored] at data''
  generalize sortScores (scoredLe scores) (List.range scores.length) =
    indices at data'' permuted ordered
  have length : (indices.map (scoredPair scores)).length = (keptIndices scores).length := by
    rw [List.length_map, permuted.length_eq]
  have shorter : (keptIndices scores).length ≤ scores.length := by
    have filtered :=
      List.length_filter_le (fun k => decide (IsKept scores k)) (List.range scores.length)
    rwa [List.length_range] at filtered
  have taken : ((indices.map (scoredPair scores)).reverse.take maxSentNumber).map IrsPair.second =
      (indices.reverse.take maxSentNumber).map UInt64.ofNat := by
    rw [← List.map_reverse, ← List.map_take, List.map_map]
    rfl
  have used : CopiesWithin texts ((keptIndices scores).length % 2 ^ 32)
      ((indices.reverse.take maxSentNumber).map UInt64.ofNat) ↔
      WithinArray scores := by
    rw [CopiesWithin, List.forall_mem_map, ← assigned, WithinArray]
    refine forall_congr' fun k => ?_
    have member : k ∈ indices ↔ k ∈ keptIndices scores := permuted.mem_iff
    have counted : (indices.filter fun i => decide (Outranks scores i k)).length =
        ((keptIndices scores).filter fun i => decide (Outranks scores i k)).length :=
        (permuted.filter _).length_eq
    rw [← member, ← counted]
    constructor
    · intro within inside few
      exact within ((mem_take_reverse_iff (fun _ _ => Outranks.asymm) ordered inside _).mpr few)
    · intro within last
      have inside := List.mem_reverse.mp (List.mem_of_mem_take last)
      exact within inside
        ((mem_take_reverse_iff (fun _ _ => Outranks.asymm) ordered inside _).mp last)
  rw [summarizeScored, run, ok_bind]
  dsimp only
  rw [irsGetDocumentSummarization_eq lists data lists'' data'' (by omega), taken,
    length, List.map_map]
  simp only [used]
  rfl

/-- All places that are used are in the array exactly if those of the greatest scores are below the
number of pairs that are kept. -/
theorem summarizeScored_iff (scores : List UInt64) {elements : List (Nat × Option Bytes)}
    {elements' : List (Nat × Option IrsPair)} (lists : Listed sentencesHeap sentences elements)
    (data : elements.map Prod.snd = texts.map some) (lists' : Listed heap sentsScores elements')
    (data' : elements'.map Prod.snd =
      (scores.mapIdx fun k score => (⟨score, UInt64.ofNat k⟩ : IrsPair)).map some)
    (assigned : scores.length = texts.length) :
    ((∃ summary, summarizeScored sentencesHeap sentences heap sentsScores = .ok summary) ↔
      WithinArray scores) ∧
      (summarizeScored sentencesHeap sentences heap sentsScores = .error .outOfBounds ↔
        ¬WithinArray scores) := by
  rw [mapIdx_eq] at data'
  rw [summarizeScored_eq scores lists data lists' data' assigned]
  split
  · rename_i within
    exact ⟨iff_of_true ⟨_, rfl⟩ within, iff_of_false nofun (not_not_intro within)⟩
  · rename_i outside
    refine ⟨iff_of_false ?_ outside, iff_of_true rfl outside⟩
    intro ⟨_, same⟩
    cases same

/-- Both pairs are kept. -/
theorem summarizeScored_iff_two :
    ∃ sentencesHeap sentences heap sentsScores,
      pushAll [irsChars "a", irsChars "b"] = .ok (sentencesHeap, sentences) ∧
      pushAll [(⟨2, 0⟩ : IrsPair), ⟨1, 1⟩] = .ok (heap, sentsScores) ∧
      ∃ summary, summarizeScored sentencesHeap sentences heap sentsScores = .ok summary := by
  obtain ⟨sentencesHeap, sentences, elements, run, lists, data⟩ :=
    pushAll_listed [irsChars "a", irsChars "b"]
  obtain ⟨heap, sentsScores, elements', run', lists', data'⟩ :=
    pushAll_listed [(⟨2, 0⟩ : IrsPair), ⟨1, 1⟩]
  refine ⟨sentencesHeap, sentences, heap, sentsScores, run, run', ?_⟩
  exact (summarizeScored_iff [2, 1] lists data lists' data' rfl).1.mpr (by decide)

/-- Two of four pairs are kept, and the last sentence has its place behind them. -/
theorem summarizeScored_fails :
    ∃ sentencesHeap sentences heap sentsScores,
      pushAll [irsChars "a", irsChars "b", irsChars "c", irsChars "d"] =
        .ok (sentencesHeap, sentences) ∧
      pushAll [(⟨1, 0⟩ : IrsPair), ⟨3, 1⟩, ⟨4, 2⟩, ⟨2, 3⟩] = .ok (heap, sentsScores) ∧
      summarizeScored sentencesHeap sentences heap sentsScores = .error .outOfBounds := by
  obtain ⟨sentencesHeap, sentences, elements, run, lists, data⟩ :=
    pushAll_listed [irsChars "a", irsChars "b", irsChars "c", irsChars "d"]
  obtain ⟨heap, sentsScores, elements', run', lists', data'⟩ :=
    pushAll_listed [(⟨1, 0⟩ : IrsPair), ⟨3, 1⟩, ⟨4, 2⟩, ⟨2, 3⟩]
  refine ⟨sentencesHeap, sentences, heap, sentsScores, run, run', ?_⟩
  rw [summarizeScored_eq [1, 3, 4, 2] lists data lists' data' rfl, if_neg (by decide)]

end

end IrsMachine
