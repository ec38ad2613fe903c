import IrsMachine.Storage.Channels
import IrsMachine.Storage.Model

/-!
# The documents file

A batch is written to the emptied documents file, one record after another, while
`documents_size` goes on counting from the batches before.
-/

namespace IrsMachine

def record (text : Bytes) : Bytes := uint64Chars (UInt64.ofNat (irsStrLen text)) ++ cString text

theorem length_record (text : Bytes) : (record text).length = 8 + irsStrLen text := by
  rw [record, List.length_append, length_uint64Chars, irsStrLen]

theorem toNat_record_size {text : Bytes} (small : irsStrLen text < 2 ^ 64) :
    (UInt64.ofNat (irsStrLen text)).toNat = (cString text).length := UInt64.toNat_ofNat_of_lt' small

/-- What `document_offset_map` gets for a batch. -/
def recordOffsets (start : UInt64) : List Bytes → List (Bytes × UInt64)
  | [] => []
  | document :: documents =>
    (document, start) :: recordOffsets (start + UInt64.ofNat (record document).length) documents

theorem map_fst_recordOffsets (start : UInt64) (documents : List Bytes) :
    (recordOffsets start documents).map Prod.fst = documents := by
  induction documents generalizing start with
  | nil => rfl
  | cons document documents ih => rw [recordOffsets, List.map_cons, ih]

def IrsStorage.grow (storage : IrsStorage) (bytes : Nat) : IrsStorage :=
  { storage with documentsSize := storage.documentsSize + UInt64.ofNat bytes }

theorem IrsStorage.grow_grow (storage : IrsStorage) (a b : Nat) :
    (storage.grow a).grow b = storage.grow (a + b) := by
  simp only [grow, UInt64.ofNat_add, UInt64.add_assoc]

@[simp] theorem IrsStorage.grow_zero (storage : IrsStorage) : storage.grow 0 = storage := by
  simp [grow]

/-! ### Fields -/

structure Advanced (writer writer' : DocumentsWriter) (written chars : Bytes) : Prop where
  storage : writer'.storage = writer.storage.grow chars.length
  path : writer'.channel.path = writer.channel.path
  atEnd : AtEnd writer'.channel writer'.world (written ++ chars)
  others : ∀ other, other ≠ writer.channel.path →
    writer'.world.files other = writer.world.files other

structure Failed (writer writer' : DocumentsWriter) (written chars : Bytes) : Prop where
  storage : writer'.storage = writer.storage
  contents : ∃ part, part <+: chars ∧
    writer'.world.files writer.channel.path = some (written ++ part)
  others : ∀ other, other ≠ writer.channel.path →
    writer'.world.files other = writer.world.files other

theorem writeDocumentsField_true {outcomes : Nat → WriteOutcome} {writer writer' : DocumentsWriter}
    {written chars : Bytes} (atEnd : AtEnd writer.channel writer.world written)
    (run : writeDocumentsField outcomes writer chars = (true, writer')) :
    Advanced writer writer' written chars ∧
    writer'.documentOffsetMap = writer.documentOffsetMap := by
  simp only [writeDocumentsField] at run
  split at run
  · rename_i complete
    obtain ⟨bytes, atEnd'⟩ := write_complete atEnd complete
    cases run
    exact ⟨⟨by rw [bytes]; rfl, write_path .., atEnd',
      fun other different => write_other _ _ _ _ different⟩, rfl⟩
  · cases run

theorem writeDocumentsField_false {outcomes : Nat → WriteOutcome} {writer writer' : DocumentsWriter}
    {written chars : Bytes} (atEnd : AtEnd writer.channel writer.world written)
    (run : writeDocumentsField outcomes writer chars = (false, writer')) :
    Failed writer writer' written chars := by
  simp only [writeDocumentsField] at run
  split at run
  · cases run
  · cases run
    exact ⟨rfl, write_part chars atEnd, fun other different => write_other _ _ _ _ different⟩

/-! ### Documents -/

theorem Advanced.trans {first second third : DocumentsWriter} {written a b : Bytes}
    (one : Advanced first second written a) (two : Advanced second third (written ++ a) b) :
    Advanced first third written (a ++ b) where
  storage := by rw [two.storage, one.storage, IrsStorage.grow_grow, List.length_append]
  path := two.path.trans one.path
  atEnd := by rw [← List.append_assoc]; exact two.atEnd
  others := fun other different =>
    (two.others other (by rw [one.path]; exact different)).trans (one.others other different)

theorem irsStorageWriteDocument_true {outcomes : Nat → WriteOutcome}
    {writer writer' : DocumentsWriter} {written document : Bytes}
    (atEnd : AtEnd writer.channel writer.world written)
    (run : irsStorageWriteDocument outcomes writer document = (true, writer')) :
    Advanced writer writer' written (record document) ∧
      writer'.documentOffsetMap = writer.documentOffsetMap ++
        [(document, writer.storage.documentsSize)] := by
  simp only [irsStorageWriteDocument] at run
  split at run
  · cases run
  · rename_i middle header
    obtain ⟨first, map⟩ := writeDocumentsField_true (by exact atEnd) header
    obtain ⟨second, map'⟩ := writeDocumentsField_true first.atEnd run
    rw [take_irsStrLen] at second
    have both := Advanced.trans ⟨first.storage, first.path, first.atEnd, first.others⟩ second
    exact ⟨⟨both.storage, both.path, both.atEnd, both.others⟩, by rw [map', map]⟩

def documentFields (document : Bytes) : List Bytes :=
  [uint64Chars (UInt64.ofNat (irsStrLen document)), cString document]

/-- A failure between two fields: what is complete is counted and nothing else. -/
structure Stopped (writer writer' : DocumentsWriter) (written : Bytes) (fields : List Bytes) :
    Prop where
  split : ∃ done failed rest part, fields = done ++ failed :: rest ∧ part <+: failed ∧
    writer'.storage = writer.storage.grow done.flatten.length ∧
    writer'.world.files writer.channel.path = some (written ++ done.flatten ++ part)
  others : ∀ other, other ≠ writer.channel.path →
    writer'.world.files other = writer.world.files other

theorem Failed.stopped {writer writer' : DocumentsWriter} {written chars : Bytes}
    (failed : Failed writer writer' written chars) (rest : List Bytes) :
    Stopped writer writer' written (chars :: rest) := by
  obtain ⟨part, isPart, contents⟩ := failed.contents
  exact ⟨⟨[], chars, rest, part, rfl, isPart,
    by rw [failed.storage, List.flatten_nil, List.length_nil, IrsStorage.grow_zero],
    by rw [contents, List.flatten_nil, List.append_nil]⟩, failed.others⟩

theorem Advanced.stopped {first second third : DocumentsWriter} {written : Bytes}
    {before fields : List Bytes} (one : Advanced first second written before.flatten)
    (two : Stopped second third (written ++ before.flatten) fields) :
    Stopped first third written (before ++ fields) := by
  obtain ⟨⟨done, failed, rest, part, split, isPart, storage, contents⟩, others⟩ := two
  refine ⟨⟨before ++ done, failed, rest, part, by rw [split, List.append_assoc], isPart, ?_, ?_⟩,
    fun other different => ?_⟩
  · rw [storage, one.storage, IrsStorage.grow_grow, List.flatten_append, List.length_append]
  · rw [← one.path, contents, List.flatten_append, List.append_assoc written]
  · exact (others other (by rw [one.path]; exact different)).trans (one.others other different)

theorem irsStorageWriteDocument_false {outcomes : Nat → WriteOutcome}
    {writer writer' : DocumentsWriter} {written document : Bytes}
    (atEnd : AtEnd writer.channel writer.world written)
    (run : irsStorageWriteDocument outcomes writer document = (false, writer')) :
    Stopped writer writer' written (documentFields document) := by
  simp only [irsStorageWriteDocument] at run
  split at run
  · rename_i middle header
    cases run
    have failed := writeDocumentsField_false (by exact atEnd) header
    have same : Failed writer writer' written (uint64Chars (UInt64.ofNat (irsStrLen document))) :=
      ⟨failed.storage, failed.contents, failed.others⟩
    exact same.stopped _
  · rename_i middle header
    obtain ⟨first, -⟩ := writeDocumentsField_true (by exact atEnd) header
    have second := writeDocumentsField_false first.atEnd run
    rw [take_irsStrLen] at second
    have one : Advanced writer middle written
        [uint64Chars (UInt64.ofNat (irsStrLen document))].flatten := by
      rw [List.flatten_singleton]
      exact ⟨first.storage, first.path, first.atEnd, first.others⟩
    refine one.stopped (Failed.stopped ?_ [])
    rwa [List.flatten_singleton]

/-! ### Batches -/

theorem writeDocumentsLoop_true {outcomes : Nat → WriteOutcome} {writer writer' : DocumentsWriter}
    {written : Bytes} {documents : List Bytes} (atEnd : AtEnd writer.channel writer.world written)
    (run : writeDocumentsLoop outcomes writer documents = (true, writer')) :
    Advanced writer writer' written (documents.flatMap record) ∧
      writer'.documentOffsetMap = writer.documentOffsetMap ++
        recordOffsets writer.storage.documentsSize documents := by
  induction documents generalizing writer written with
  | nil =>
    cases run
    exact ⟨⟨by simp, rfl, by simpa using atEnd, fun _ _ => rfl⟩, by simp [recordOffsets]⟩
  | cons document documents ih =>
    unfold writeDocumentsLoop at run
    split at run
    · cases run
    · rename_i middle step
      obtain ⟨one, map⟩ := irsStorageWriteDocument_true atEnd step
      obtain ⟨rest, map'⟩ := ih one.atEnd run
      refine ⟨by rw [List.flatMap_cons]; exact one.trans rest, ?_⟩
      rw [map', map, one.storage, recordOffsets, List.append_assoc]
      rfl

theorem writeDocumentsLoop_false {outcomes : Nat → WriteOutcome} {writer writer' : DocumentsWriter}
    {written : Bytes} {documents : List Bytes} (atEnd : AtEnd writer.channel writer.world written)
    (run : writeDocumentsLoop outcomes writer documents = (false, writer')) :
    Stopped writer writer' written (documents.flatMap documentFields) := by
  induction documents generalizing writer written with
  | nil => cases run
  | cons document documents ih =>
    unfold writeDocumentsLoop at run
    rw [List.flatMap_cons]
    split at run
    · rename_i middle step
      cases run
      obtain ⟨⟨done, failed, rest, part, split, found⟩, others⟩ :=
        irsStorageWriteDocument_false atEnd step
      exact ⟨⟨done, failed, rest ++ documents.flatMap documentFields, part, by rw [split]; simp,
        found⟩, others⟩
    · rename_i middle step
      obtain ⟨one, -⟩ := irsStorageWriteDocument_true atEnd step
      have flat : record document = (documentFields document).flatten := by
        simp [record, documentFields]
      rw [flat] at one
      exact one.stopped (ih one.atEnd run)

/-- A batch written in full: its records are the file. -/
theorem irsStorageWriteDocuments_ok {outcomes : Nat → WriteOutcome} {storage : IrsStorage}
    {world : World} {documents : List Bytes} {writer : DocumentsWriter}
    (run : irsStorageWriteDocuments outcomes storage world documents = (.ok, writer)) :
    writer.storage = storage.grow (documents.flatMap record).length ∧
      writer.world.files storage.documentsPath = some (documents.flatMap record) ∧
      (documents.flatMap record).length ≤ maxFileSize ∧
      writer.documentOffsetMap = recordOffsets storage.documentsSize documents ∧
      ∀ other, other ≠ storage.documentsPath → writer.world.files other = world.files other := by
  simp only [irsStorageWriteDocuments] at run
  split at run
  · rename_i loop
    cases run
    obtain ⟨advanced, map⟩ := writeDocumentsLoop_true (atEnd_open world storage.documentsPath) loop
    refine ⟨advanced.storage, ?_, advanced.atEnd.small, map, fun other different => ?_⟩
    · have contents := advanced.atEnd.contents
      rwa [advanced.path] at contents
    · rw [advanced.others other different]
      exact open_other world different
  · cases run

theorem irsStorageWriteDocuments_error {outcomes : Nat → WriteOutcome} {storage : IrsStorage}
    {world : World} {documents : List Bytes} {status : IrsStorageStatus} {writer : DocumentsWriter}
    (run : irsStorageWriteDocuments outcomes storage world documents = (status, writer))
    (failed : status ≠ .ok) :
    ∃ done failed rest part, documents.flatMap documentFields = done ++ failed :: rest ∧
      part <+: failed ∧
      writer.storage = storage.grow done.flatten.length ∧
      writer.world.files storage.documentsPath = some (done.flatten ++ part) := by
  simp only [irsStorageWriteDocuments] at run
  split at run
  · cases run
    exact absurd rfl failed
  · rename_i loop
    cases run
    obtain ⟨⟨done, failed, rest, part, split, isPart, storage', contents⟩, -⟩ :=
      writeDocumentsLoop_false (atEnd_open world storage.documentsPath) loop
    exact ⟨done, failed, rest, part, split, isPart, storage',
      by rw [List.nil_append] at contents; exact contents⟩

end IrsMachine
