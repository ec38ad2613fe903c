import IrsMachine.Storage.Entries

/-!
# The index in memory

The dictionary of the terms should lead from every token to the documents that have it. It does
so exactly if all the entries are due when their documents come, and no offsets are confused.
-/

namespace IrsMachine
open IrsDictionaryNode Except Words

variable {F : Type} [IrsFloat F] {documentOffsetMap : List (Bytes × UInt64)} {term : Bytes}

/-- The dictionary of documents of a term: the first element of the list that a lookup gives. -/
def docDictionaryOf (state : AssignState F) (term : Bytes) :
    Except Fault (Option (IrsDictionary DocValue)) := do
  match ← irsDictionaryGet state.termsDocSignificancy term with
  | none => .ok none
  | some list => .ok (some (← docDictionaryAt state.docDictionaries (← firstDictionary list)))

/-- Every token that is not contained in all documents leads to each document that has it, and no
token leads to another document. -/
structure IndexRight (documentOffsetMap : List (Bytes × UInt64)) (state : AssignState F) :
    Prop where
  complete : ∀ pair ∈ documentOffsetMap, ∀ term ∈ irsStorageGetDocumentTerms pair.1,
    docsWith documentOffsetMap term < documentOffsetMap.length →
      ∃ dictionary text, docDictionaryOf state term = .ok (some dictionary) ∧
      (pair.2, text) ∈ docEntries dictionary
  sound : ∀ term ∈ tokensOf (documentOffsetMap.map Prod.fst),
    ∀ dictionary, docDictionaryOf state term = .ok (some dictionary) →
    ∀ entry ∈ docEntries dictionary, ∃ document, (document, entry.1) ∈ documentOffsetMap ∧
    term ∈ irsStorageGetDocumentTerms document

theorem AssignedExactly.docDictionaryOf {terms : List Bytes} {stored : Bytes → UInt64 → Prop}
    {state : AssignState F}
    (assigned : AssignedExactly Admitted documentOffsetMap terms stored state)
    (admitted : ∀ ch ∈ term, Admitted ch) (short : term.length < 2 ^ 32) (member : term ∈ terms) :
    ∃ dictionary, docDictionaryOf state term = .ok (some dictionary) ∧
      (∀ docOffset, docOffset ∈ (docEntries dictionary).map Prod.fst ↔ stored term docOffset) ∧
      ∀ entry ∈ docEntries dictionary,
        SignificancyText F documentOffsetMap term entry.1 entry.2 := by
  obtain ⟨dictionary, located, indexed⟩ := assigned.dictionaries term member
  obtain ⟨-, offsets, texts⟩ := indexed.docEntries
  have found := assigned.entries term member dictionary located
  have get := assigned.get (fun _ => And.left)
    (fun ch inside => (admitted ch inside).1) short member
  refine ⟨dictionary, ?_, fun docOffset => (offsets docOffset).trans (found docOffset), texts⟩
  simp only [IrsMachine.docDictionaryOf, get, ok_bind, firstDictionary, docDictionaryAt, located]

theorem mem_tokensOf_map {pair : Bytes × UInt64} (inMap : pair ∈ documentOffsetMap)
    (isToken : term ∈ irsStorageGetDocumentTerms pair.1) :
    term ∈ tokensOf (documentOffsetMap.map Prod.fst) :=
  List.mem_flatMap.mpr ⟨pair.1, List.mem_map_of_mem inMap, isToken⟩

/-- What is exactly assigned is sound, and complete if all entries are made. -/
theorem AssignedExactly.indexRight_iff {due : Occurrence → List Bytes → Prop}
    {state : AssignState F}
    (assigned : AssignedExactly Admitted documentOffsetMap
      (tokensOf (documentOffsetMap.map Prod.fst))
      (EntryMade due (occurrences documentOffsetMap)) state)
    (admitted : ∀ term ∈ tokensOf (documentOffsetMap.map Prod.fst), ∀ ch ∈ term, Admitted ch)
    (short : ∀ term ∈ tokensOf (documentOffsetMap.map Prod.fst), term.length < 2 ^ 32) :
    IndexRight documentOffsetMap state ↔ ∀ term ∈ tokensOf (documentOffsetMap.map Prod.fst),
      docsWith documentOffsetMap term < documentOffsetMap.length →
      Complete due documentOffsetMap term := by
  constructor
  · intro right term member fewer pair inMap isToken
    obtain ⟨dictionary, found, offsets, -⟩ :=
      assigned.docDictionaryOf (admitted term member) (short term member) member
    obtain ⟨_, text, found', entry⟩ := right.complete pair inMap term isToken fewer
    cases found.symm.trans found'
    exact (offsets pair.2).mp (List.mem_map_of_mem (f := Prod.fst) entry)
  · intro complete
    refine ⟨fun pair inMap term isToken fewer => ?_, fun term member _ found entry inside => ?_⟩
    · have member := mem_tokensOf_map inMap isToken
      obtain ⟨dictionary, found, offsets, -⟩ :=
        assigned.docDictionaryOf (admitted term member) (short term member) member
      obtain ⟨⟨_, text⟩, entry, rfl⟩ :=
        List.mem_map.mp ((offsets pair.2).mpr (complete term member fewer pair inMap isToken))
      exact ⟨dictionary, text, found, entry⟩
    · obtain ⟨dictionary, found', -, texts⟩ :=
        assigned.docDictionaryOf (admitted term member) (short term member) member
      cases found.symm.trans found'
      obtain ⟨document, _, inMap, isToken, -, -⟩ := texts entry inside
      exact ⟨document, inMap, isToken⟩

theorem irsStorageAssignTermsInDocuments_index_iff [SignedIrsFloat F]
    (bytes : ∀ pair ∈ documentOffsetMap, ∀ ch ∈ pair.1, Admitted ch)
    (distinct : (documentOffsetMap.map Prod.snd).Nodup)
    (small : ∀ pair ∈ documentOffsetMap, pair.2.toNat < 2 ^ 53)
    (few : documentOffsetMap.length < 2 ^ 32)
    (lengths : ∀ pair ∈ documentOffsetMap, pair.1.length < 2 ^ 63)
    (told : TokensTold (tokensOf (documentOffsetMap.map Prod.fst))) :
    (∃ state : AssignState F, irsStorageAssignTermsInDocuments documentOffsetMap = .ok state ∧
      IndexRight documentOffsetMap state) ↔
      ∀ term ∈ tokensOf (documentOffsetMap.map Prod.fst),
        docsWith documentOffsetMap term < documentOffsetMap.length →
        Recorded (fun _ => Positive documentOffsetMap) documentOffsetMap term := by
  have admitted : ∀ term ∈ tokensOf (documentOffsetMap.map Prod.fst), ∀ ch ∈ term, Admitted ch := by
    refine fun term member => (token_admitted ?_ term member).2
    intro document inMap
    obtain ⟨pair, inside, rfl⟩ := List.mem_map.mp inMap
    exact bytes pair inside
  obtain ⟨state, run, assigned⟩ := irsStorageAssignTermsInDocuments_exactly (F := F)
    (fun pair inMap => SignedIrsFloat.toStrInt pair.2 (small pair inMap)) admitted told
  have right := assigned.indexRight_iff admitted told.short
  have signed := signed_of_signedIrsFloat (F := F) few lengths
  calc (∃ state : AssignState F, irsStorageAssignTermsInDocuments documentOffsetMap = .ok state ∧
    IndexRight documentOffsetMap state)
      ↔ IndexRight documentOffsetMap state := by
        constructor
        · rintro ⟨state', run', right'⟩
          cases run.symm.trans run'
          exact right'
        · exact fun right' => ⟨state, run, right'⟩
    _ ↔ ∀ term ∈ tokensOf (documentOffsetMap.map Prod.fst),
    docsWith documentOffsetMap term < documentOffsetMap.length →
          Complete (Significant F documentOffsetMap) documentOffsetMap term := right
    _ ↔ _ := by
        apply forall₃_congr
        intro term _ _
        rw [recorded_iff distinct]
        exact recorded_congr distinct fun before pair after =>
          (signed term).significant_iff_positive

/-- When the second document comes, the last new token is `x`, which is contained in all of them. -/
theorem index_fails_a_x : ∃ state : AssignState Ratio,
    irsStorageAssignTermsInDocuments [([97, 32, 120], 0), ([97, 32, 120], 11), ([120], 22)] =
      .ok state ∧
      ¬IndexRight [([97, 32, 120], 0), ([97, 32, 120], 11), ([120], 22)] state := by
  have facts : ((irsStorageAssignTermsInDocuments
    [([97, 32, 120], 0), ([97, 32, 120], 11), ([120], 22)] :
      Except Fault (AssignState Ratio)) >>= fun state => docDictionaryOf state [97] >>= fun found =>
        .ok (found.map fun dictionary => (docEntries dictionary).map Prod.fst)) =
          .ok (some [0]) := by decide +kernel
  obtain ⟨state, run, facts⟩ := bind_ok.mp facts
  obtain ⟨found, lookup, offsets⟩ := bind_ok.mp facts
  refine ⟨state, run, fun right => ?_⟩
  obtain ⟨dictionary, text, lookup', entry⟩ :=
    right.complete ([97, 32, 120], 11) (by simp) [97] (by decide +kernel) (by decide +kernel)
  obtain rfl : found = some dictionary := Except.ok.inj (lookup.symm.trans lookup')
  have offsets : (docEntries dictionary).map Prod.fst = [0] := by simpa using offsets
  have member : (11 : UInt64) ∈ (docEntries dictionary).map Prod.fst :=
    List.mem_map_of_mem (f := Prod.fst) entry
  rw [offsets] at member
  revert member
  decide

theorem irsStorageAssignTermsInDocuments_index_iff_a_b : ∃ state : AssignState Ratio,
    irsStorageAssignTermsInDocuments [([97, 32, 98], 0), ([97], 11), ([98], 22)] = .ok state ∧
      IndexRight [([97, 32, 98], 0), ([97], 11), ([98], 22)] state := by
  have first : irsStorageGetDocumentTerms [97, 32, 98] = [[97], [98]] := by decide +kernel
  have second : irsStorageGetDocumentTerms [97] = [[97]] := by decide +kernel
  have third : irsStorageGetDocumentTerms [98] = [[98]] := by decide +kernel
  have tokens : tokensOf ([([97, 32, 98], (0 : UInt64)), ([97], 11), ([98], 22)].map Prod.fst) =
      [[97], [98], [97], [98]] := by
    decide +kernel
  have fewer : ∀ term ∈ tokensOf ([([97, 32, 98], (0 : UInt64)), ([97], 11),
    ([98], 22)].map Prod.fst),
      docsWith [([97, 32, 98], 0), ([97], 11), ([98], 22)] term <
      [([97, 32, 98], (0 : UInt64)), ([97], 11), ([98], 22)].length := by
    decide +kernel
  have told : TokensTold
      (tokensOf ([([97, 32, 98], (0 : UInt64)), ([97], 11), ([98], 22)].map Prod.fst)) := by
    rw [tokens]
    exact ⟨by simp, unmixed_of_lower (by simp [tolower]), unconfused_of_head (by simp)⟩
  apply (irsStorageAssignTermsInDocuments_index_iff (by simp [Admitted]) (by simp) (by simp)
    (by simp) (by simp) told).mpr
  rw [tokens]
  intro term member _
  refine ⟨fun pair inMap isToken => entryDue_of_fewer fewer inMap isToken, unconfused_of_head ?_⟩
  simp only [List.mem_cons, List.not_mem_nil, or_false] at member
  rcases member with rfl | rfl | rfl | rfl <;> decide +kernel

end IrsMachine
