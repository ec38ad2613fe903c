import IrsMachine.Engine.Overrun
import IrsMachine.Engine.Parts

/-!
# Summaries of documents

Where the sentences of a document have scores, the engine sorts them and takes the summary from
them; every sentence with newlines only at its ends has a score.
-/

namespace IrsMachine
open Except

section
variable {sentencesHeap : Heap Bytes} {heap : Heap IrsPair} {sentences sentsScores : IrsList}
  {it : IrsIterator}
  {elements : List (Nat × Option IrsPair)} {rest : List Bytes} {scores : List UInt64}
  {score : Bytes → Except Fault UInt64}

/-- The pairs from the sentence with the number `i` on. -/
theorem sentencesScoresLoop_ok (i fuel : Nat)
    (yields : Yields (irsIteratorNext sentencesHeap) sentencesHeap it (rest.map some))
    (scored : rest.mapM score = .ok scores) (lists : Listed heap sentsScores elements)
    (enough : rest.length < fuel) :
    ∃ heap' sentsScores' elements',
      sentencesScoresLoop score sentencesHeap fuel (UInt64.ofNat i) it heap sentsScores =
        .ok (heap', sentsScores') ∧
      Listed heap' sentsScores' elements' ∧
      elements'.map Prod.snd = elements.map Prod.snd ++
        (scores.mapIdx fun k score => (⟨score, UInt64.ofNat (i + k)⟩ : IrsPair)).map some := by
  induction rest generalizing i fuel it heap sentsScores elements scores with
  | nil =>
    obtain ⟨fuel, rfl⟩ := Nat.exists_eq_succ_of_ne_zero (Nat.ne_of_gt enough)
    obtain ⟨it', step⟩ := yields
    cases scored
    refine ⟨heap, sentsScores, elements, ?_, lists, by simp⟩
    rw [sentencesScoresLoop, step]
    rfl
  | cons sentence rest ih =>
    obtain ⟨fuel, rfl⟩ := Nat.exists_eq_succ_of_ne_zero (Nat.ne_of_gt (Nat.zero_lt_of_lt enough))
    obtain ⟨it', step, read, yields'⟩ := yields
    obtain ⟨first, scores, here, later, rfl⟩ := mapM_cons_ok.mp scored
    have there : sentenceAt sentencesHeap it' = .ok sentence := by
      unfold sentenceAt
      rw [read]
      rfl
    obtain ⟨heap₁, sentsScores₁, endNode, pushed, chain, -⟩ :=
      irsListPushBack_listed (some (⟨first, UInt64.ofNat i⟩ : IrsPair)) lists
    obtain ⟨heap', sentsScores', elements', run, lists', data⟩ :=
      ih (i + 1) fuel yields' later (.inr ⟨endNode, chain⟩) (Nat.lt_of_succ_lt_succ enough)
    refine ⟨heap', sentsScores', elements', ?_, lists', ?_⟩
    · rw [sentencesScoresLoop, step, ok_bind]
      dsimp only
      rw [if_pos rfl, there, ok_bind, here, ok_bind, pushed, ok_bind]
      dsimp only
      rw [← run, UInt64.ofNat_add]
      rfl
    · rw [data, List.map_append, List.mapIdx_cons, List.append_assoc]
      simp [Nat.add_assoc, Nat.add_comm 1]

theorem irsGetSentencesScores_ok {F : Type} [ScoreFloat F] {document : Bytes} {texts : List Bytes}
    {elements : List (Nat × Option Bytes)} (lists : Listed sentencesHeap sentences elements)
    (data : elements.map Prod.snd = texts.map some)
    (scored : texts.mapM (irsDefineSentenceScore F document) = .ok scores) :
    ∃ heap sentsScores elements',
      irsGetSentencesScores F document sentencesHeap sentences = .ok (heap, sentsScores) ∧
      Listed heap sentsScores elements' ∧
      elements'.map Prod.snd =
        (scores.mapIdx fun k score => (⟨score, UInt64.ofNat k⟩ : IrsPair)).map some := by
  obtain ⟨walk, fits⟩ := lists.reads data
  obtain ⟨heap, sentsScores, elements', run, lists', data'⟩ :=
    sentencesScoresLoop_ok 0 (sentencesHeap.fresh + 1) walk scored (.inl ⟨rfl, rfl⟩) (by omega)
  refine ⟨heap, sentsScores, elements', run, lists', ?_⟩
  rw [data']
  simp

end

/-- A document whose sentences have these scores. -/
theorem irsEngineGetDocumentSummarization_eq {F : Type} [ScoreFloat F] {document : Bytes}
    {scores : List UInt64}
    (scored : (irsStorageGetDocumentSentences document).mapM (irsDefineSentenceScore F document) =
      .ok scores) :
    irsEngineGetDocumentSummarization F document =
      if WithinArray scores then .ok (sentencesAt (irsStorageGetDocumentSentences document)
        (((sortScores (scoredLe scores) (List.range scores.length)).reverse.take maxSentNumber).map
          fun k => summarPlace (UInt64.ofNat k)))
      else .error .outOfBounds := by
  obtain ⟨sentencesHeap, sentences, elements, run, lists, data⟩ :=
    pushAll_listed (irsStorageGetDocumentSentences document)
  obtain ⟨heap, sentsScores, elements', run', lists', data'⟩ :=
    irsGetSentencesScores_ok lists data scored
  rw [mapIdx_eq] at data'
  rw [irsEngineGetDocumentSummarization, run, ok_bind]
  dsimp only
  rw [run', ok_bind]
  exact summarizeScored_eq scores lists data lists' data' (length_mapM scored)

/-! ### Any documents -/

def Scored (F : Type) [ScoreFloat F] (document : Bytes) (scores : List UInt64) : Prop :=
  (irsStorageGetDocumentSentences document).mapM (irsDefineSentenceScore F document) = .ok scores

theorem sentencesScoresLoop_scored {sentencesHeap : Heap Bytes} {rest : List Bytes}
    {score : Bytes → Except Fault UInt64} {it : IrsIterator} {heap : Heap IrsPair}
    {sentsScores : IrsList} {fuel : Nat} {i : UInt64} {result : Heap IrsPair × IrsList}
    (yields : Yields (irsIteratorNext sentencesHeap) sentencesHeap it (rest.map some))
    (run : sentencesScoresLoop score sentencesHeap fuel i it heap sentsScores = .ok result) :
    ∃ scores, rest.mapM score = .ok scores := by
  induction rest generalizing i fuel it heap sentsScores with
  | nil => exact ⟨[], rfl⟩
  | cons sentence rest ih =>
    obtain ⟨it', step, read, yields'⟩ := yields
    have there : sentenceAt sentencesHeap it' = .ok sentence := by
      unfold sentenceAt
      rw [read]
      rfl
    cases fuel with
    | zero => cases run
    | succ fuel =>
      rw [sentencesScoresLoop, step, ok_bind] at run
      dsimp only at run
      rw [if_pos rfl, there, ok_bind] at run
      obtain ⟨first, here, run⟩ := bind_ok.mp run
      obtain ⟨pushed, -, run⟩ := bind_ok.mp run
      obtain ⟨scores, later⟩ := ih yields' run
      exact ⟨first :: scores, mapM_cons_ok.mpr ⟨first, scores, here, later, rfl⟩⟩

/-- The places before the last ten indices in the order of the sort. -/
def chosenPlaces (scores : List UInt64) : List Nat :=
  ((sortScores (scoredLe scores) (List.range scores.length)).reverse.take maxSentNumber).map
    fun k => summarPlace (UInt64.ofNat k)

theorem irsEngineGetDocumentSummarization_ok {F : Type} [ScoreFloat F] {document : Bytes}
    {summary : List Bytes} :
    irsEngineGetDocumentSummarization F document = .ok summary ↔
      ∃ scores, Scored F document scores ∧ WithinArray scores ∧
        summary = sentencesAt (irsStorageGetDocumentSentences document) (chosenPlaces scores) := by
  constructor
  · intro run
    obtain ⟨scores, scored⟩ : ∃ scores, Scored F document scores := by
      obtain ⟨sentencesHeap, sentences, elements, pushed, lists, data⟩ :=
        pushAll_listed (irsStorageGetDocumentSentences document)
      rw [irsEngineGetDocumentSummarization, pushed, ok_bind] at run
      obtain ⟨_, loop, -⟩ := bind_ok.mp run
      exact sentencesScoresLoop_scored (lists.reads data).1 loop
    rw [irsEngineGetDocumentSummarization_eq scored] at run
    split at run
    · rename_i within
      exact ⟨scores, scored, within, (Except.ok.inj run).symm⟩
    · cases run
  · intro summarized
    obtain ⟨scores, scored, within, rfl⟩ := summarized
    rw [irsEngineGetDocumentSummarization_eq scored, if_pos within]
    rfl

theorem length_nonempty_splitOnP_le (p : UInt8 → Bool) (list : Bytes) :
    ((list.splitOnP p).filter fun part => decide (part ≠ [])).length ≤ list.length := by
  induction list with
  | nil => simp
  | cons ch list ih =>
    rw [List.splitOnP_cons_eq_if_modifyHead]
    split_ifs
    · rw [List.filter_cons_of_neg (by simp), List.length_cons]
      omega
    · obtain ⟨first, rest, split⟩ := List.exists_cons_of_ne_nil (List.splitOnP_ne_nil p list)
      rw [split] at ih ⊢
      have shorter :=
        (List.filter_sublist (p := fun part => decide (part ≠ [])) (l := rest)).length_le
      rw [List.modifyHead_cons, List.filter_cons_of_pos (by simp), List.length_cons,
        List.length_cons]
      rw [List.filter_cons] at ih
      split at ih
      · rw [List.length_cons] at ih
        omega
      · omega

theorem length_sentences_lt (document : CString) :
    (irsStorageGetDocumentSentences document.bytes).length < 2 ^ 64 := by
  refine Nat.lt_of_le_of_lt (length_nonempty_splitOnP_le _ _) (Nat.lt_of_le_of_lt ?_ document.fits)
  exact (List.takeWhile_prefix _).length_le

/-- The place of the last sentence is never chosen. -/
theorem chosenPlaces_before {scores : List UInt64} (fits : scores.length < 2 ^ 64) {place : Nat}
    (member : place ∈ chosenPlaces scores) (inside : place < scores.length) :
    place + 1 < scores.length := by
  obtain ⟨k, taken, rfl⟩ := List.mem_map.mp member
  have kept := (sortScores_range scores).1.mem_iff.mp
    (List.mem_reverse.mp (List.mem_of_mem_take taken))
  have below := List.mem_range.mp (List.mem_filter.mp kept).1
  have number : (UInt64.ofNat k).toNat = k := UInt64.toNat_ofNat_of_lt' (Nat.lt_trans below fits)
  rw [summarPlace_eq, number] at inside ⊢
  split_ifs at inside ⊢
  · omega
  · omega

theorem filterMap_range_take (texts : List Bytes) (size : Nat) :
    ((List.range size).filterMap fun k => texts[k]?.map cString) =
      (texts.take size).map cString := by
  induction size with
  | zero => rfl
  | succ size ih =>
    rw [List.range_succ, List.filterMap_append, ih, List.take_add_one, List.map_append,
      List.filterMap_cons, List.filterMap_nil]
    cases texts[size]? with
    | none => rfl
    | some text => rfl

theorem sentencesAt_sublist {texts : List Bytes} {places : List Nat}
    (before : ∀ place ∈ places, place < texts.length → place + 1 < texts.length) :
    (sentencesAt texts places).Sublist (texts.dropLast.map cString) := by
  rw [List.dropLast_eq_take, ← filterMap_range_take, sentencesAt]
  apply List.Sublist.filterMap
  cases length : texts.length with
  | zero => exact List.nil_sublist _
  | succ last =>
    have out : last ∉ places := by
      intro member
      have := before last member (by omega)
      omega
    rw [List.range_succ, List.filter_append, List.filter_cons_of_neg (by simpa using out),
      List.filter_nil, List.append_nil]
    exact List.filter_sublist

theorem length_sentencesAt_le (texts : List Bytes) (places : List Nat) :
    (sentencesAt texts places).length ≤ places.length := by
  refine (List.length_filterMap_le _ _).trans ?_
  have different : ((List.range texts.length).filter fun k => decide (k ∈ places)).Nodup :=
    List.nodup_range.filter _
  exact (different.subperm fun k member => of_decide_eq_true
    (List.mem_filter.mp member).2).length_le

/-- A summary is made of at most ten sentences of the document, in their order, and the last
sentence is never one of them. -/
structure SummaryOf (document : CString) (summary : List Bytes) : Prop where
  sentences : summary.Sublist (irsStorageGetDocumentSentences document.bytes).dropLast
  few : summary.length ≤ 10

theorem irsEngineGetDocumentSummarization_summaryOf {F : Type} [ScoreFloat F] {document : CString}
    {summary : List Bytes}
    (run : irsEngineGetDocumentSummarization F document.bytes = .ok summary) :
    SummaryOf document summary := by
  obtain ⟨scores, scored, -, rfl⟩ := irsEngineGetDocumentSummarization_ok.mp run
  have length : scores.length = (irsStorageGetDocumentSentences document.bytes).length :=
    length_mapM scored
  have fits := length_sentences_lt document
  have strings : (irsStorageGetDocumentSentences document.bytes).dropLast.map cString =
      (irsStorageGetDocumentSentences document.bytes).dropLast := by
    refine (List.map_congr_left fun sentence member => ?_).trans (List.map_id _)
    have part := (strtok_part (List.mem_of_mem_dropLast member)).2
    exact cString_of_noNul fun ch here => cString_noNul document.bytes ch (part.subset here)
  constructor
  · rw [← strings]
    apply sentencesAt_sublist
    intro place member inside
    rw [← length] at inside fits ⊢
    exact chosenPlaces_before fits member inside
  · refine (length_sentencesAt_le _ _).trans ?_
    rw [chosenPlaces, List.length_map]
    exact List.length_take_le _ _

/-- For any documents: the engine gives summaries if all sentences have scores and no array is
overrun, and each of them is one of its document. -/
theorem irsEngineGetDocumentsSummarizations_spec (F : Type) [ScoreFloat F]
    (documents : List CString) :
    ((∃ summarizations, irsEngineGetDocumentsSummarizations F (documents.map CString.bytes) =
      .ok summarizations) ↔
      ∀ document ∈ documents, ∃ scores, Scored F document.bytes scores ∧ WithinArray scores) ∧
    ∀ summarizations, irsEngineGetDocumentsSummarizations F (documents.map CString.bytes) =
      .ok summarizations →
      List.Forall₂ SummaryOf documents summarizations := by
  unfold irsEngineGetDocumentsSummarizations
  rw [exists_mapM, List.forall_mem_map]
  simp only [irsEngineGetDocumentSummarization_ok]
  constructor
  · refine forall₂_congr fun document _ => ?_
    constructor
    · intro summarized
      obtain ⟨_, scores, scored, within, -⟩ := summarized
      exact ⟨scores, scored, within⟩
    · intro summarized
      obtain ⟨scores, scored, within⟩ := summarized
      exact ⟨_, scores, scored, within, rfl⟩
  · intro summarizations run
    rw [List.mapM_map] at run
    exact (forall₂_of_mapM run).imp fun document summary =>
      irsEngineGetDocumentSummarization_summaryOf

end IrsMachine
