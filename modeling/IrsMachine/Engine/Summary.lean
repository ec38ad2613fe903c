import IrsMachine.Engine.Model

/-!
# The summary of a document

For each of the last ten pairs the sentence before its index is copied, to its own place in an array
with a place for each pair. The summary is made of those sentences then, and not of the ones with
the indices, and a place may be outside the array.
-/

namespace IrsMachine
open Except

/-! ### The loops -/

/-- Where the sentence for an index is taken from and put. -/
def summarPlace (index : UInt64) : Nat := (index - 1).toNat

def copySentence (texts : List Bytes) (summar : List (Option Bytes)) (index : UInt64) :
    Except Fault (List (Option Bytes)) :=
  match texts[summarPlace index]? with
  | none => .ok summar
  | some text =>
    if summarPlace index < summar.length then
      .ok (summar.set (summarPlace index) (some (cString text)))
    else .error .outOfBounds

section
variable {sentencesHeap : Heap Bytes} {heap : Heap IrsPair} {sentences sorted : IrsList}
  {it : IrsIterator} {texts : List Bytes}
  {pairs : List IrsPair}

/-- The loop counts the sentences that it passes, so it stops at the place before it can wrap. -/
theorem copySentenceLoop_eq (done : List Bytes) {rest : List Bytes} (index : UInt64)
    (summar : List (Option Bytes)) (fuel : Nat) (all : texts = done ++ rest)
    (yields : Yields (irsIteratorNext sentencesHeap) sentencesHeap it (rest.map some))
    (before : done.length ≤ summarPlace index) (enough : rest.length < fuel) :
    copySentenceLoop sentencesHeap index fuel (UInt64.ofNat done.length) it summar =
      copySentence texts summar index := by
  induction rest generalizing done it fuel with
  | nil =>
    obtain ⟨fuel, rfl⟩ := Nat.exists_eq_succ_of_ne_zero (Nat.ne_of_gt enough)
    obtain ⟨it', step⟩ := yields
    have passed : texts[summarPlace index]? = none := by
      rw [all, List.append_nil]
      exact List.getElem?_eq_none before
    rw [copySentenceLoop, step, ok_bind, copySentence, passed]
    rfl
  | cons text rest ih =>
    obtain ⟨fuel, rfl⟩ := Nat.exists_eq_succ_of_ne_zero (Nat.ne_of_gt (Nat.zero_lt_of_lt enough))
    obtain ⟨it', step, read, yields'⟩ := yields
    rw [copySentenceLoop, step, ok_bind]
    dsimp only
    rw [if_pos rfl]
    by_cases here : UInt64.ofNat done.length = index - 1
    · have place : done.length = summarPlace index := by
        rw [summarPlace, ← here, UInt64.toNat_ofNat_of_lt'
          (Nat.lt_of_le_of_lt before (UInt64.toNat_lt _))]
      have found : texts[summarPlace index]? = some text := by
        rw [← place, all, List.getElem?_append_right (Nat.le_refl _), Nat.sub_self]
        rfl
      have sentence : sentenceAt sentencesHeap it' = .ok text := by
        unfold sentenceAt
        rw [read]
        rfl
      rw [if_pos here, sentence, ok_bind, copySentence, found, here, take_irsStrLen]
      rfl
    · have further : done.length < summarPlace index := by
        apply Nat.lt_of_le_of_ne before
        intro same
        apply here
        rw [same, summarPlace, UInt64.ofNat_toNat]
      have goesOn := ih (done ++ [text]) fuel (by rw [all, List.append_assoc]; rfl) yields'
        (by rw [List.length_append, List.length_singleton]; omega) (Nat.lt_of_succ_lt_succ enough)
      rw [List.length_append, List.length_singleton, UInt64.ofNat_add] at goesOn
      rw [if_neg here]
      exact goesOn

theorem summarLoop_eq {elements : List (Nat × Option Bytes)}
    (lists : Listed sentencesHeap sentences elements)
    (data : elements.map Prod.snd = texts.map some) (left : Nat) (summar : List (Option Bytes))
    (yields : Yields (irsIteratorPrev heap) heap it (pairs.map some)) :
    summarLoop sentencesHeap sentences heap left it summar =
      ((pairs.take left).map IrsPair.second).foldlM (copySentence texts) summar := by
  obtain ⟨walk, fits⟩ := lists.reads data
  induction left generalizing it pairs summar with
  | zero =>
    have step : ∃ more it', irsIteratorPrev heap it = .ok (more, it') := by
      cases pairs with
      | nil => exact ⟨_, yields⟩
      | cons pair pairs => exact ⟨_, _, yields.choose_spec.1⟩
    obtain ⟨more, it', step⟩ := step
    rw [summarLoop, step]
    rfl
  | succ left ih =>
    cases pairs with
    | nil =>
      obtain ⟨it', step⟩ := yields
      rw [summarLoop, step]
      rfl
    | cons pair pairs =>
      obtain ⟨it', step, read, yields'⟩ := yields
      have pair' : pairAt heap it' = .ok pair := by
        unfold pairAt
        rw [read]
        rfl
      have copy := copySentenceLoop_eq [] pair.second summar (sentencesHeap.fresh + 1) rfl walk
        (Nat.zero_le _) (by omega)
      rw [summarLoop, step, ok_bind]
      dsimp only
      rw [if_pos rfl, pair', ok_bind, show (0 : UInt64) =
        UInt64.ofNat ([] : List Bytes).length from rfl, copy, List.take_succ_cons, List.map_cons,
        List.foldlM_cons]
      exact congrArg _ (funext fun summar => ih summar yields')

/-! ### The array -/

/-- The array after the sentences at these places are copied. -/
def filled (texts : List Bytes) (size : Nat) (places : List Nat) : List (Option Bytes) :=
  (List.range size).map fun j => if j ∈ places then texts[j]?.map cString else none

/-- The sentences at these places, in the order of the document. -/
def sentencesAt (texts : List Bytes) (places : List Nat) : List Bytes :=
  ((List.range texts.length).filter fun k => decide (k ∈ places)).filterMap fun k =>
    texts[k]?.map cString

theorem length_filled (texts : List Bytes) (size : Nat) (places : List Nat) :
    (filled texts size places).length = size := by
  rw [filled, List.length_map, List.length_range]

theorem filled_nil (texts : List Bytes) (size : Nat) :
    filled texts size [] = List.replicate size none := by
  simp [filled]

theorem getElem?_filled (texts : List Bytes) {size j : Nat} (places : List Nat)
    (inside : j < size) :
    (filled texts size places)[j]? = some (if j ∈ places then texts[j]?.map cString else none) := by
  rw [filled, List.getElem?_map, List.getElem?_range inside, Option.map_some]

theorem filled_concat (texts : List Bytes) {size place : Nat} (places : List Nat)
    (inside : place < texts.length) (within : place < size) :
    filled texts size (places ++ [place]) = (filled texts size places).set place
      (some (cString texts[place])) := by
  apply List.ext_getElem?
  intro j
  by_cases below : j < size
  · rw [getElem?_filled texts _ below, List.getElem?_set, length_filled,
      getElem?_filled texts _ below]
    by_cases here : place = j
    · subst here
      simp [within, inside]
    · simp [here, Ne.symm here]
  · rw [List.getElem?_eq_none (by rw [length_filled]; omega),
      List.getElem?_eq_none (by rw [List.length_set, length_filled]; omega)]

theorem filled_concat_outside (texts : List Bytes) {size place : Nat} (places : List Nat)
    (outside : texts.length ≤ place) :
    filled texts size (places ++ [place]) = filled texts size places := by
  apply List.map_congr_left
  intro j _
  by_cases here : j = place
  · subst here
    simp [List.getElem?_eq_none outside]
  · simp [here]

theorem copySentence_filled {size : Nat} (places : List Nat) (index : UInt64) :
    copySentence texts (filled texts size places) index =
      if summarPlace index < texts.length →
      summarPlace index < size then .ok (filled texts size (places ++ [summarPlace index]))
      else .error .outOfBounds := by
  generalize place : summarPlace index = p
  unfold copySentence
  rw [place, length_filled]
  by_cases inside : p < texts.length
  · rw [List.getElem?_eq_getElem inside]
    dsimp only
    by_cases within : p < size
    · rw [if_pos within, if_pos fun _ => within, filled_concat texts places inside within]
    · rw [if_neg within, if_neg fun both => within (both inside)]
  · rw [List.getElem?_eq_none (Nat.le_of_not_lt inside), if_pos fun both => absurd both inside,
      filled_concat_outside texts places (Nat.le_of_not_lt inside)]

/-- All places inside the document are inside the array. -/
def CopiesWithin (texts : List Bytes) (size : Nat) (indices : List UInt64) : Prop :=
  ∀ index ∈ indices, summarPlace index < texts.length → summarPlace index < size

instance (texts : List Bytes) (size : Nat) (indices : List UInt64) :
    Decidable (CopiesWithin texts size indices) :=
  List.decidableBAll _ indices

theorem copiesWithin_cons {size : Nat} {index : UInt64} {indices : List UInt64} :
    CopiesWithin texts size (index :: indices) ↔
    (summarPlace index < texts.length → summarPlace index < size) ∧
      CopiesWithin texts size indices := List.forall_mem_cons

theorem foldlM_copySentence {size : Nat} (indices : List UInt64) (places : List Nat) :
    indices.foldlM (copySentence texts) (filled texts size places) =
      if CopiesWithin texts size indices then
        .ok (filled texts size (places ++ indices.map summarPlace))
      else .error .outOfBounds := by
  induction indices generalizing places with
  | nil =>
    rw [if_pos nofun, List.map_nil, List.append_nil]
    rfl
  | cons index indices ih =>
    rw [List.foldlM_cons, copySentence_filled]
    simp only [copiesWithin_cons]
    by_cases here : summarPlace index < texts.length → summarPlace index < size
    · rw [if_pos here, ok_bind, ih, List.map_cons, List.append_assoc, List.singleton_append]
      simp only [eq_true here, true_and]
    · rw [if_neg here, if_neg fun both => here both.1]
      rfl

theorem filterMap_filled {size : Nat} {places : List Nat} (shorter : size ≤ texts.length)
    (within : ∀ place ∈ places, place < texts.length → place < size) :
    (filled texts size places).filterMap id = sentencesAt texts places := by
  obtain ⟨more, rest⟩ := Nat.exists_eq_add_of_le shorter
  have beyond : ((List.range more).map (size + ·)).filter (fun k => decide (k ∈ places)) = [] := by
    rw [List.filter_eq_nil_iff]
    intro k member here
    obtain ⟨offset, inside, rfl⟩ := List.mem_map.mp member
    have outside :=
      within _ (of_decide_eq_true here) (by rw [rest]; have := List.mem_range.mp inside; omega)
    omega
  rw [sentencesAt, rest, List.range_add, List.filter_append, beyond, List.append_nil, filled,
    List.filterMap_map, List.filterMap_filter]
  apply List.filterMap_congr
  intro j _
  simp

theorem irsGetDocumentSummarization_eq {elements : List (Nat × Option Bytes)}
    {elements' : List (Nat × Option IrsPair)} (lists : Listed sentencesHeap sentences elements)
    (data : elements.map Prod.snd = texts.map some) (lists' : Listed heap sorted elements')
    (data' : elements'.map Prod.snd = pairs.map some) (shorter : pairs.length ≤ texts.length) :
    irsGetDocumentSummarization sentencesHeap sentences heap sorted =
      if CopiesWithin texts (pairs.length % 2 ^ 32)
        ((pairs.reverse.take maxSentNumber).map IrsPair.second) then
        .ok (sentencesAt texts
          (((pairs.reverse.take maxSentNumber).map IrsPair.second).map summarPlace))
      else .error .outOfBounds := by
  have length := congrArg List.length data'
  rw [List.length_map, List.length_map] at length
  have size : sorted.size.toNat = pairs.length % 2 ^ 32 := by
    rw [lists'.size_eq, length, UInt32.toNat_ofNat']
  have walk := lists'.yields.2
  rw [data', ← List.map_reverse] at walk
  rw [irsGetDocumentSummarization, summarLoop_eq lists data _ _ walk, size, ← filled_nil texts,
    foldlM_copySentence, List.nil_append]
  split
  · rename_i within
    rw [ok_bind, filterMap_filled (by have := Nat.mod_le pairs.length (2 ^ 32); omega)]
    intro place member inside
    obtain ⟨index, chosen, rfl⟩ := List.mem_map.mp member
    exact within index chosen inside
  · rfl

/-! ### Places that are one too small -/

theorem map_some_filterMap {β γ : Type} {f : β → Option γ} {list : List β}
    (total : ∀ k ∈ list, (f k).isSome) :
    (list.filterMap f).map some = list.map f := by
  induction list with
  | nil => rfl
  | cons k list ih =>
    obtain ⟨here, later⟩ := List.forall_mem_cons.mp total
    obtain ⟨value, same⟩ := Option.isSome_iff_exists.mp here
    rw [List.filterMap_cons, same, List.map_cons, ih later, List.map_cons, same]

theorem filter_range_succ (last : Nat) (indices : List Nat) :
    (List.range (last + 1)).filter (fun k => decide (k ∈ indices)) =
      (if 0 ∈ indices then [0] else []) ++
        ((List.range last).filter fun j => decide (j + 1 ∈ indices)).map Nat.succ := by
  rw [List.range_succ_eq_map, List.filter_cons, List.filter_map]
  by_cases zero : 0 ∈ indices
  · rw [if_pos zero, if_pos (decide_eq_true zero)]
    rfl
  · rw [if_neg zero, if_neg (by simpa using zero)]
    rfl

theorem filter_range_before {last : Nat} {places indices : List Nat}
    (inside : ∀ k ∈ indices, k < last + 1) (before : ∀ j < last + 1, j ∈ places ↔ j + 1 ∈ indices) :
    (List.range (last + 1)).filter (fun k => decide (k ∈ places)) =
      (List.range last).filter fun j => decide (j + 1 ∈ indices) := by
  have beyond : last ∉ places := by
    rw [before last (Nat.lt_succ_self last)]
    intro member
    exact Nat.lt_irrefl _ (inside _ member)
  rw [List.range_succ, List.filter_append, List.filter_singleton, decide_eq_false beyond,
    cond_false, List.append_nil]
  apply List.filter_congr
  intro j member
  rw [decide_eq_decide]
  exact before j (Nat.lt_succ_of_lt (List.mem_range.mp member))

/-- Each index stands for the sentence behind its place. -/
theorem sentencesAt_before_iff {places indices : List Nat}
    (inside : ∀ k ∈ indices, k < texts.length) (before : ∀ j < texts.length, j ∈ places ↔
      j + 1 ∈ indices) :
    sentencesAt texts places = sentencesAt texts indices ↔
      ∀ k ∈ indices, 0 < k ∧ texts[k - 1]?.map cString = texts[k]?.map cString := by
  cases length : texts.length with
  | zero =>
    have nothing : ∀ k, k ∉ indices := by
      intro k member
      have := inside k member
      omega
    simp [sentencesAt, length, nothing]
  | succ last =>
    rw [length] at inside before
    have total : ∀ (list : List Nat), (∀ k ∈ list, k < last + 1) →
        ∀ k ∈ list, (texts[k]?.map cString).isSome := by
      intro list within k member
      rw [List.getElem?_eq_getElem (by rw [length]; exact within k member)]
      rfl
    have shifted : ∀ j ∈ (List.range last).filter (fun j => decide (j + 1 ∈ indices)),
        j < last ∧ j + 1 ∈ indices := by
      intro j member
      obtain ⟨within, chosen⟩ := List.mem_filter.mp member
      exact ⟨List.mem_range.mp within, of_decide_eq_true chosen⟩
    rw [sentencesAt, sentencesAt, length, filter_range_before inside before, filter_range_succ,
      ← (List.map_injective_iff.mpr (Option.some_injective Bytes)).eq_iff, map_some_filterMap,
      map_some_filterMap, List.map_append, List.map_map]
    · by_cases zero : 0 ∈ indices
      · rw [if_pos zero]
        constructor
        · intro same
          have lengths := congrArg List.length same
          simp only [List.length_append, List.length_map, List.length_singleton] at lengths
          omega
        · intro positive
          exact absurd (positive 0 zero).1 (Nat.lt_irrefl 0)
      · rw [if_neg zero, List.map_nil, List.nil_append, List.map_inj_left]
        constructor
        · intro same k member
          have positive : 0 < k := Nat.pos_of_ne_zero fun nothing => zero (nothing ▸ member)
          have here := same (k - 1)
            (List.mem_filter.mpr ⟨List.mem_range.mpr (by have := inside k member; omega), by
            rw [Nat.sub_add_cancel positive]
            exact decide_eq_true member⟩)
          rw [Function.comp_apply, Nat.succ_eq_add_one, Nat.sub_add_cancel positive] at here
          exact ⟨positive, here⟩
        · intro same j member
          exact (same (j + 1) (shifted j member).2).2
    · apply total
      intro k member
      rcases List.mem_append.mp member with first | later
      · split at first
        · rw [List.mem_singleton.mp first]
          omega
        · cases first
      · obtain ⟨j, chosen, rfl⟩ := List.mem_map.mp later
        exact Nat.succ_lt_succ (shifted j chosen).1
    · apply total
      intro k member
      exact Nat.lt_succ_of_lt (shifted k member).1

theorem summarPlace_eq (index : UInt64) :
    summarPlace index = if index.toNat = 0 then 2 ^ 64 - 1 else index.toNat - 1 := by
  rw [summarPlace, UInt64.toNat_sub]
  have := index.toNat_lt
  have one : (1 : UInt64).toNat = 1 := rfl
  split <;> omega

def topIndices (pairs : List IrsPair) : List Nat :=
  (pairs.drop (pairs.length - 10)).map fun pair => pair.second.toNat

theorem mem_topIndices {k : Nat} : k ∈ topIndices pairs ↔
    ∃ index ∈ (pairs.reverse.take maxSentNumber).map IrsPair.second, index.toNat = k := by
  have same : pairs.reverse.take maxSentNumber = (pairs.drop (pairs.length - 10)).reverse :=
    List.take_reverse
  rw [topIndices, same, List.mem_map]
  simp only [List.mem_map, List.mem_reverse, exists_exists_and_eq_and]

/-- The sentences of the last ten pairs make up the summary exactly if none of them is the first
one, the places before them are inside the array, and before each of them the same text stands. -/
theorem irsGetDocumentSummarization_iff {elements : List (Nat × Option Bytes)}
    {elements' : List (Nat × Option IrsPair)} (lists : Listed sentencesHeap sentences elements)
    (data : elements.map Prod.snd = texts.map some) (lists' : Listed heap sorted elements')
    (data' : elements'.map Prod.snd = pairs.map some)
    (permuted : (pairs.map fun pair => pair.second.toNat).Perm (List.range texts.length)) :
    irsGetDocumentSummarization sentencesHeap sentences heap sorted =
      .ok (sentencesAt texts (topIndices pairs)) ↔
      ∀ k ∈ topIndices pairs, 0 < k ∧ k ≤ texts.length % 2 ^ 32 ∧
        texts[k - 1]?.map cString = texts[k]?.map cString := by
  have length : pairs.length = texts.length := by
    have lengths := permuted.length_eq
    rwa [List.length_map, List.length_range] at lengths
  have inside : ∀ k ∈ topIndices pairs, k < texts.length := by
    intro k member
    rw [topIndices, List.mem_map] at member
    obtain ⟨pair, chosen, rfl⟩ := member
    exact List.mem_range.mp (permuted.subset (List.mem_map_of_mem (List.mem_of_mem_drop chosen)))
  have small : (2 : Nat) ^ 32 ≤ 2 ^ 64 - 1 := by decide
  have width := Nat.mod_lt texts.length (show 0 < 2 ^ 32 by decide)
  rw [irsGetDocumentSummarization_eq lists data lists' data' length.le, length]
  split
  · rename_i within
    have before : ∀ j < texts.length,
        j ∈ ((pairs.reverse.take maxSentNumber).map IrsPair.second).map summarPlace ↔
        j + 1 ∈ topIndices pairs := by
      intro j below
      rw [mem_topIndices, List.mem_map]
      refine exists_congr fun index => and_congr_right fun chosen => ?_
      have place := within index chosen
      rw [summarPlace_eq] at place ⊢
      by_cases zero : index.toNat = 0
      · rw [if_pos zero] at place ⊢
        omega
      · rw [if_neg zero] at place ⊢
        omega
    rw [Except.ok.injEq, sentencesAt_before_iff inside before]
    refine forall₂_congr fun k member => and_congr_right fun positive => (and_iff_right ?_).symm
    obtain ⟨index, chosen, rfl⟩ := mem_topIndices.mp member
    have below := inside _ member
    have place := within index chosen
    rw [summarPlace_eq, if_neg (Nat.ne_of_gt positive)] at place
    omega
  · rename_i outside
    apply iff_of_false nofun
    intro right
    apply outside
    intro index chosen _
    obtain ⟨positive, bound, -⟩ := right index.toNat (mem_topIndices.mpr ⟨index, chosen, rfl⟩)
    rw [summarPlace_eq, if_neg (Nat.ne_of_gt positive)]
    omega

/-- Eleven sentences with one text. -/
theorem irsGetDocumentSummarization_iff_eleven :
    ∃ sentencesHeap sentences heap sorted,
      pushAll (List.replicate 11 (irsChars "a")) = .ok (sentencesHeap, sentences) ∧
      pushAll ((List.range 11).map fun k => (⟨0, UInt64.ofNat k⟩ : IrsPair)) = .ok (heap, sorted) ∧
      irsGetDocumentSummarization sentencesHeap sentences heap sorted =
        .ok (List.replicate 10 (irsChars "a")) := by
  obtain ⟨sentencesHeap, sentences, elements, run, lists, data⟩ :=
    pushAll_listed (List.replicate 11 (irsChars "a"))
  obtain ⟨heap, sorted, elements', run', lists', data'⟩ :=
    pushAll_listed ((List.range 11).map fun k => (⟨0, UInt64.ofNat k⟩ : IrsPair))
  refine ⟨sentencesHeap, sentences, heap, sorted, run, run', ?_⟩
  have holds := (irsGetDocumentSummarization_iff lists data lists' data' (.of_eq (by decide))).mpr
    (by decide)
  rw [holds]
  decide

/-- The only sentence of a document is left out. -/
theorem irsGetDocumentSummarization_fails :
    ∃ sentencesHeap sentences heap sorted, pushAll [irsChars "a"] = .ok (sentencesHeap, sentences) ∧
      pushAll [(⟨0, 0⟩ : IrsPair)] = .ok (heap, sorted) ∧
      irsGetDocumentSummarization sentencesHeap sentences heap sorted = .ok [] ∧
      sentencesAt [irsChars "a"] (topIndices [⟨0, 0⟩]) = [irsChars "a"] := by
  obtain ⟨sentencesHeap, sentences, elements, run, lists, data⟩ := pushAll_listed [irsChars "a"]
  obtain ⟨heap, sorted, elements', run', lists', data'⟩ := pushAll_listed [(⟨0, 0⟩ : IrsPair)]
  refine ⟨sentencesHeap, sentences, heap, sorted, run, run', ?_, by decide⟩
  rw [irsGetDocumentSummarization_eq lists data lists' data' (by decide)]
  decide +kernel

end

end IrsMachine
