import IrsMachine.Dictionary.Traversal
import IrsMachine.Storage.Records

/-!
# Batches

Runs of `irs_storage_add_documents`. A run keeps account of what it recorded: the offsets of
the documents, and the pairs that each call added to the dictionary of term offsets.
-/

namespace IrsMachine
open IrsDictionaryNode Except Multimap

def heldPairs (dictionary : IrsDictionary TermOffsetValue) : List (UInt64 × Bytes) :=
  (entries dictionary.root).flatMap fun entry => pairsOf entry.2

structure Run where
  statuses : List IrsStorageStatus
  system : System
  documentOffsets : List (Bytes × UInt64)
  termOffsets : List (List (UInt64 × Bytes))

def addBatch (F : Type) [IrsFloat F] (outcomes : Nat → WriteOutcome) (run : Run)
    (documents : List Bytes) : Except Fault Run := do
  let (status, system) ← irsStorageAddDocuments F outcomes run.system documents
  let written := (irsStorageWriteDocuments outcomes run.system.storage run.system.world documents).2
  .ok { statuses := run.statuses ++ [status], system,
        documentOffsets := run.documentOffsets ++ written.documentOffsetMap,
        termOffsets := run.termOffsets ++ [(heldPairs system.storage.termOffsetDictionary).diff
          (heldPairs run.system.storage.termOffsetDictionary)] }

def addBatches (F : Type) [IrsFloat F] (outcomes : Nat → WriteOutcome) (system : System)
    (batches : List (List Bytes)) :
    Except Fault Run :=
  batches.foldlM (addBatch F outcomes)
    { statuses := [], system, documentOffsets := [], termOffsets := [] }

/-- A storage just initialized; the files may hold anything. -/
def freshSystem (path : Bytes) (world : World) : System :=
  { storage := irsStorageInitialize path, world }

/-! ### One call -/

variable {F : Type} [IrsFloat F]

theorem irsStorageAddDocuments_ok {outcomes : Nat → WriteOutcome} {system system' : System}
    {documents : List Bytes}
    (run : irsStorageAddDocuments F outcomes system documents = .ok (.ok, system')) :
    ∃ (written : DocumentsWriter) (assigned : AssignState F) (writer : TermsWriter),
      irsStorageWriteDocuments outcomes system.storage system.world documents = (.ok, written) ∧
      irsStorageAssignTermsInDocuments written.documentOffsetMap = .ok assigned ∧
      irsStorageWriteInfixTermsSignificanciesInDocuments outcomes written.storage written.world
        assigned = .ok writer ∧
      system' = { storage := writer.storage, world := writer.world } := by
  unfold irsStorageAddDocuments at run
  split at run
  · rename_i written documentsRun
    obtain ⟨assigned, assign, run⟩ := bind_ok.mp run
    obtain ⟨writer, terms, run⟩ := bind_ok.mp run
    cases run
    exact ⟨written, assigned, writer, documentsRun, assign, terms, rfl⟩
  · cases run

/-- A call that fails stops after the documents. -/
theorem irsStorageAddDocuments_failed {outcomes : Nat → WriteOutcome} {system system' : System}
    {documents : List Bytes} {status : IrsStorageStatus}
    (run : irsStorageAddDocuments F outcomes system documents = .ok (status, system'))
    (failed : status ≠ .ok) :
    ∃ (status' : IrsStorageStatus) (written : DocumentsWriter),
      status' ≠ .ok ∧ status = .writeError ∧
      irsStorageWriteDocuments outcomes system.storage system.world documents = (status', written) ∧
      system' = { storage := written.storage, world := written.world } := by
  unfold irsStorageAddDocuments at run
  split at run
  · obtain ⟨assigned, assign, run⟩ := bind_ok.mp run
    obtain ⟨writer, terms, run⟩ := bind_ok.mp run
    cases run
    exact absurd rfl failed
  · rename_i status' written notOk documentsRun
    cases run
    exact ⟨status', written, notOk, rfl, documentsRun, rfl⟩

/-- Any call makes the storage grow by what is written of the documents. If that is all of them,
their terms are recorded then; otherwise this is all that the call does to the storage. -/
theorem irsStorageAddDocuments_cases {outcomes : Nat → WriteOutcome} {system system' : System}
    {documents : List Bytes} {status : IrsStorageStatus}
    (run : irsStorageAddDocuments F outcomes system documents = .ok (status, system')) :
    (∃ (written : DocumentsWriter) (assigned : AssignState F) (writer : TermsWriter) (bytes : Nat),
      written.storage = system.storage.grow bytes ∧
      written.documentOffsetMap.map Prod.fst = documents ∧
      irsStorageAssignTermsInDocuments written.documentOffsetMap = .ok assigned ∧
      irsStorageWriteInfixTermsSignificanciesInDocuments outcomes written.storage written.world
        assigned = .ok writer ∧
      system' = { storage := writer.storage, world := writer.world }) ∨
    ∃ bytes, system'.storage = system.storage.grow bytes := by
  by_cases failed : status = .ok
  · subst failed
    obtain ⟨written, assigned, writer, documentsRun, assign, terms, rfl⟩ :=
      irsStorageAddDocuments_ok run
    obtain ⟨storage, -, -, map, -⟩ := irsStorageWriteDocuments_ok documentsRun
    have documents' : written.documentOffsetMap.map Prod.fst = documents := by
      rw [map, map_fst_recordOffsets]
    exact .inl ⟨written, assigned, writer, _, storage, documents', assign, terms, rfl⟩
  · obtain ⟨status', written, notOk, -, documentsRun, rfl⟩ :=
      irsStorageAddDocuments_failed run failed
    obtain ⟨_, _, _, _, -, -, storage, -⟩ := irsStorageWriteDocuments_error documentsRun notOk
    exact .inr ⟨_, storage⟩

/-! ### The visit of the terms -/

/-- The visitor's writer is in step with its file: the pairs say where the records are. -/
structure InStep (writer : TermsWriter) (written : Bytes) : Prop where
  atEnd : AtEnd writer.channel writer.world written
  size : writer.storage.termsSize = UInt64.ofNat written.length
  indexed : Indexed (fun _ => True) writer.storage.termOffsetDictionary
  located : ∀ word,
    ∀ pair ∈ pairsOf (contents irsCharToIrsInt writer.storage.termOffsetDictionary.root word),
    record pair.2 <+: written.drop pair.1.toNat

theorem drop_append_prefix {written chars more : Bytes} {offset : Nat}
    (here : chars <+: written.drop offset) :
    chars <+: (written ++ more).drop offset := by
  rw [List.drop_append]
  exact here.trans (List.prefix_append _ _)

theorem toNat_size {written : Bytes} (small : written.length ≤ maxFileSize) :
    (UInt64.ofNat written.length).toNat = written.length :=
  UInt64.toNat_ofNat_of_lt' (Nat.lt_of_le_of_lt small (by decide))

/-- What the visitor leaves alone: the other files and the storage's other fields. -/
structure TermsFrame (writer writer' : TermsWriter) : Prop where
  path : writer'.channel.path = writer.channel.path
  others : ∀ other, other ≠ writer.channel.path →
    writer'.world.files other = writer.world.files other
  storage : writer'.storage = { writer.storage with
    termOffsetDictionary := writer'.storage.termOffsetDictionary
    termsSize := writer'.storage.termsSize }

theorem TermsFrame.refl (writer : TermsWriter) : TermsFrame writer writer :=
  ⟨rfl, fun _ _ => rfl, rfl⟩

theorem TermsFrame.trans {first second third : TermsWriter} (one : TermsFrame first second)
    (two : TermsFrame second third) :
    TermsFrame first third where
  path := two.path.trans one.path
  others := fun other different =>
    (two.others other (by rw [one.path]; exact different)).trans (one.others other different)
  storage := by rw [two.storage, one.storage]

theorem Extended.frame {writer writer' : TermsWriter} {written chars : Bytes}
    {dictionary : IrsDictionary TermOffsetValue}
    (extended : Extended
      { writer with storage := { writer.storage with termOffsetDictionary := dictionary } } writer'
      written chars) : TermsFrame writer writer' :=
  ⟨extended.path, extended.others, by rw [extended.storage]; rfl⟩

theorem InStep.visit {outcomes : Nat → WriteOutcome}
    {docDictionaries : List (IrsDictionary DocValue)} {writer writer' : TermsWriter}
    {node : IrsDictionaryNode TermDocValue} {written : Bytes} (inStep : InStep writer written)
    (run : irsStoragePassTermsDocSignificancyDictionary outcomes docDictionaries writer node =
      .ok writer') :
    ∃ written', InStep writer' written' := by
  rcases irsStoragePassTermsDocSignificancyDictionary_ok inStep.atEnd run with
    ⟨-, rfl⟩ | ⟨term, dictionary, -, append, ⟨more, split⟩, extended⟩
  · exact ⟨written, inStep⟩
  refine ⟨written ++ termRecord docDictionaries node, ?_⟩
  obtain ⟨indexed, word, -, -, pushed⟩ := appendPair_ok inStep.indexed (fun _ _ => trivial) append
  refine ⟨extended.atEnd, ?_, by rw [extended.storage]; exact indexed, fun other pair member => ?_⟩
  · rw [extended.storage, List.length_append, UInt64.ofNat_add]
    exact congrArg (· + _) inStep.size
  · rw [extended.storage] at member
    simp only [IrsStorage.growTerms, pushed] at member
    split at member
    · rw [((inStep.indexed.paired word).concat _ _).2, List.mem_append,
        List.mem_singleton] at member
      rcases member with old | rfl
      · exact drop_append_prefix (inStep.located word pair old)
      · -- the new pair: its record begins where the file ended
        rw [inStep.size, toNat_size inStep.atEnd.small, List.drop_left, split]
        exact List.prefix_append _ _
    · exact drop_append_prefix (inStep.located other pair member)

theorem InStep.visits {outcomes : Nat → WriteOutcome}
    {docDictionaries : List (IrsDictionary DocValue)}
    {visits : List (Address × IrsDictionaryNode TermDocValue)} {writer writer' : TermsWriter}
    {written : Bytes} (inStep : InStep writer written)
    (run : visits.foldlM
      (fun writer visit => irsStoragePassTermsDocSignificancyDictionary outcomes docDictionaries
        writer visit.2)
      writer = .ok writer') : ∃ written', InStep writer' written' :=
  foldlM_invariant (fun writer => ∃ written, InStep writer written) ⟨written, inStep⟩
    (fun _ _ _ _ ⟨_, inStep⟩ step => inStep.visit step) run

/-- The visitor stays at the end of its file and leaves everything else alone. -/
theorem passRecords_frame {outcomes : Nat → WriteOutcome}
    {docDictionaries : List (IrsDictionary DocValue)}
    {visits : List (Address × IrsDictionaryNode TermDocValue)} {writer writer' : TermsWriter}
    {written : Bytes} (atEnd : AtEnd writer.channel writer.world written)
    (run : visits.foldlM
      (fun writer visit => irsStoragePassTermsDocSignificancyDictionary outcomes docDictionaries
        writer visit.2)
      writer = .ok writer') :
    (∃ written', AtEnd writer'.channel writer'.world written') ∧ TermsFrame writer writer' := by
  refine foldlM_invariant
    (fun current => (∃ written', AtEnd current.channel current.world written') ∧
    TermsFrame writer current) ⟨⟨written, atEnd⟩, .refl _⟩ ?_ run
  rintro current visit next - ⟨⟨written, atEnd⟩, frame⟩ step
  rcases irsStoragePassTermsDocSignificancyDictionary_ok atEnd
    step with ⟨-, rfl⟩ | ⟨term, dictionary, -, -, -, extended⟩
  · exact ⟨⟨written, atEnd⟩, frame⟩
  · exact ⟨⟨_, extended.atEnd⟩, frame.trans extended.frame⟩

end IrsMachine
