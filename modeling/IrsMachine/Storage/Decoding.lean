import IrsMachine.Storage.Layout

/-!
# Reading the documents file back

The file is read as a length of eight bytes and as many bytes of text, again and again. The
recorded offsets are the places of the records in it, counted on from `documents_size` in 64 bits.
-/

namespace IrsMachine

/-- Eight bytes, read as a length, and as many bytes of text, until nothing is left. -/
inductive Decodes : Bytes → List Bytes → Prop where
  | nil : Decodes [] []
  | cons {size text rest : Bytes} {texts : List Bytes} (eight : size.length = 8)
    (length : (uint64OfChars size).toNat = text.length)
    (later : Decodes rest texts) : Decodes (size ++ (text ++ rest)) (text :: texts)

theorem Decodes.unique {file : Bytes} {texts texts' : List Bytes} (one : Decodes file texts)
    (other : Decodes file texts') : texts = texts' := by
  induction one generalizing texts' with
  | nil =>
    generalize none' : ([] : Bytes) = file at other
    cases other with
    | nil => rfl
    | cons eight length later =>
      have lengths := congrArg List.length none'
      rw [List.length_nil, List.length_append] at lengths
      omega
  | @cons size text rest texts eight length later ih =>
    generalize same : size ++ (text ++ rest) = file at other
    cases other with
    | nil =>
      have lengths := congrArg List.length same
      rw [List.length_nil, List.length_append] at lengths
      omega
    | cons eight' length' later' =>
      obtain ⟨rfl, same'⟩ := List.append_inj same (eight.trans eight'.symm)
      obtain ⟨rfl, rfl⟩ := List.append_inj same' (length.symm.trans length')
      rw [ih later']

def recordPlace (documents : List Bytes) (i : Nat) : Nat :=
  ((documents.take i).flatMap record).length

variable {documents : List Bytes}

theorem decodes_records (small : (documents.flatMap record).length ≤ maxFileSize) :
    Decodes (documents.flatMap record) (documents.map cString) := by
  induction documents with
  | nil => exact .nil
  | cons document documents ih =>
    rw [List.flatMap_cons, List.length_append, length_record] at small
    rw [List.flatMap_cons, List.map_cons, record, List.append_assoc]
    apply Decodes.cons (length_uint64Chars _)
    · rw [uint64OfChars_uint64Chars]
      apply toNat_record_size
      exact Nat.lt_of_le_of_lt ((Nat.le_add_left _ _).trans (Nat.le_add_right _ _ |>.trans small))
        (by decide)
    · exact ih (by omega)

theorem getElem?_recordOffsets (start : UInt64) (documents : List Bytes) (i : Nat) :
    (recordOffsets start documents)[i]? = documents[i]?.map fun document =>
      (document, start + UInt64.ofNat (recordPlace documents i)) := by
  induction documents generalizing start i with
  | nil => rfl
  | cons document documents ih =>
    rw [recordOffsets]
    cases i with
    | zero => simp [recordPlace]
    | succ i =>
      rw [List.getElem?_cons_succ, List.getElem?_cons_succ, ih]
      simp only [recordPlace, List.take_succ_cons, List.flatMap_cons, List.length_append,
        UInt64.ofNat_add, UInt64.add_assoc]

theorem flatMap_split (documents : List Bytes) (i : Nat) :
    documents.flatMap record = (documents.take i).flatMap record ++
      (documents.drop i).flatMap record := by
  rw [← List.flatMap_append, List.take_append_drop]

theorem recordPlace_lt {i j : Nat} (before : i < j) (inside : j ≤ documents.length) :
    recordPlace documents i < recordPlace documents j := by
  have between : ((documents.take j).drop i).flatMap record ≠ [] := by
    apply List.ne_nil_of_length_pos
    apply flatMap_record_pos
    apply List.ne_nil_of_length_pos
    rw [List.length_drop, List.length_take]
    omega
  have split := flatMap_split (documents.take j) i
  rw [List.take_take, Nat.min_eq_left before.le] at split
  rw [recordPlace, recordPlace, split, List.length_append]
  have := List.length_pos_of_ne_nil between
  omega

theorem recordPlace_le (documents : List Bytes) (i : Nat) :
    recordPlace documents i ≤ (documents.flatMap record).length := by
  rw [flatMap_split documents i, List.length_append]
  exact Nat.le_add_right _ _

theorem map_snd_recordOffsets (start : UInt64) (documents : List Bytes) :
    (recordOffsets start documents).map Prod.snd = (List.range documents.length).map fun i =>
      start + UInt64.ofNat (recordPlace documents i) := by
  apply List.ext_getElem?
  intro i
  rw [List.getElem?_map, List.getElem?_map, getElem?_recordOffsets]
  by_cases inside : i < documents.length
  · rw [List.getElem?_range inside, List.getElem?_eq_getElem inside]
    rfl
  · rw [List.getElem?_eq_none (Nat.le_of_not_lt inside),
      List.getElem?_eq_none (by rw [List.length_range]; omega)]
    rfl

theorem toNat_recordOffset (start : UInt64) (documents : List Bytes) (i : Nat) :
    (start + UInt64.ofNat (recordPlace documents i)).toNat =
      (start.toNat + recordPlace documents i) % 2 ^ 64 := by
  rw [UInt64.toNat_add, UInt64.toNat_ofNat', Nat.add_mod_mod]

/-- The offsets go up as long as none of them passes the width of the counter. -/
theorem recordOffsets_pairwise_iff (start : UInt64)
    (small : (documents.flatMap record).length ≤ maxFileSize) :
    ((recordOffsets start documents).map Prod.snd).Pairwise (· < ·) ↔
      ∀ i < documents.length, start.toNat + recordPlace documents i < 2 ^ 64 := by
  have width := start.toNat_lt
  rw [map_snd_recordOffsets, List.pairwise_map, List.pairwise_iff_getElem]
  simp only [List.length_range, List.getElem_range, UInt64.lt_iff_toNat_lt, toNat_recordOffset]
  constructor
  · intro increasing i inside
    have place := (recordPlace_le documents i).trans small
    unfold maxFileSize at place
    by_contra beyond
    -- the first offset is the start, and this one has come round to below it
    have first : recordPlace documents 0 = 0 := rfl
    have positive : 0 < i := Nat.pos_of_ne_zero fun same => by
      rw [same, first] at beyond
      omega
    have above := increasing 0 i (by omega) inside positive
    rw [first] at above
    omega
  · intro below i j first second before
    have further := recordPlace_lt before second.le
    rw [Nat.mod_eq_of_lt (below i first), Nat.mod_eq_of_lt (below j second)]
    omega

/-! ### A batch -/

theorem decodes_documents (noNul : ∀ document ∈ documents, ∀ ch ∈ document, ch ≠ 0)
    (small : (documents.flatMap record).length ≤ maxFileSize) :
    Decodes (documents.flatMap record) documents := by
  have texts : documents.map cString = documents := by
    rw [List.map_congr_left fun document member => cString_of_noNul
      (noNul document member), List.map_id']
  have whole := decodes_records small
  rwa [texts] at whole

theorem recordPlace_last_iff (start : Nat) (documents : List Bytes) :
    (∀ i < documents.length, start + recordPlace documents i < 2 ^ 64) ↔
      ∀ before last, documents = before ++ [last] →
      start + (before.flatMap record).length < 2 ^ 64 := by
  constructor
  · intro below before last same
    have here := below before.length
      (by rw [same, List.length_append, List.length_singleton]; omega)
    rwa [recordPlace, same, List.take_left] at here
  · intro below i inside
    rcases List.eq_nil_or_concat documents with rfl | ⟨before, last, same⟩
    · cases inside
    · rw [List.concat_eq_append] at same
      have here := below before last same
      have place : recordPlace documents i ≤ (before.flatMap record).length := by
        rw [same, List.length_append, List.length_singleton] at inside
        rw [recordPlace, same, List.take_append_of_le_length (by omega)]
        exact recordPlace_le before i
      omega

/-- The file decodes to the documents and to nothing else. Offsets are places in it that are counted
on from `documents_size`, and go up unless that counter wraps. -/
theorem irsStorageWriteDocuments_decodes {outcomes : Nat → WriteOutcome} {storage : IrsStorage}
    {world : World} {writer : DocumentsWriter}
    (noNul : ∀ document ∈ documents, ∀ ch ∈ document, ch ≠ 0)
    (run : irsStorageWriteDocuments outcomes storage world documents = (.ok, writer)) :
    ∃ file, writer.world.files storage.documentsPath = some file ∧
      (∀ texts, Decodes file texts ↔ texts = documents) ∧
      writer.documentOffsetMap.map Prod.fst = documents ∧
      (∀ i (inside : i < writer.documentOffsetMap.length), ∃ before after, file = before ++ after ∧
        Decodes before (documents.take i) ∧ Decodes after (documents.drop i) ∧
        writer.documentOffsetMap[i].2.toNat =
          (storage.documentsSize.toNat + before.length) % 2 ^ 64) ∧
      ((writer.documentOffsetMap.map Prod.snd).Pairwise (· < ·) ↔
        ∀ before last, documents = before ++ [last] →
        storage.documentsSize.toNat + (before.flatMap record).length < 2 ^ 64) ∧
      writer.storage.documentsSize.toNat =
        (storage.documentsSize.toNat + file.length) % 2 ^ 64 := by
  obtain ⟨storage', contents, small, map, -⟩ := irsStorageWriteDocuments_ok run
  have whole := decodes_documents noNul small
  refine ⟨documents.flatMap record, contents,
    fun others => ⟨fun other => other.unique whole, fun same => same ▸ whole⟩, ?_, ?_, ?_, ?_⟩
  · rw [map, map_fst_recordOffsets]
  · intro i inside
    have split := flatMap_split documents i
    have lengths := congrArg List.length split
    rw [List.length_append] at lengths
    refine ⟨_, _, split, ?_, ?_, ?_⟩
    · exact decodes_documents (fun document member => noNul document (List.mem_of_mem_take member))
        (by omega)
    · exact decodes_documents (fun document member => noNul document (List.mem_of_mem_drop member))
        (by omega)
    · have inside' : i < documents.length := by
        have firsts := congrArg List.length (map_fst_recordOffsets storage.documentsSize documents)
        rw [List.length_map, ← map] at firsts
        omega
      have entry := getElem?_recordOffsets storage.documentsSize documents i
      rw [← map, List.getElem?_eq_getElem inside, List.getElem?_eq_getElem inside', Option.map_some,
        Option.some.injEq] at entry
      rw [entry, toNat_recordOffset]
      rfl
  · rw [map, recordOffsets_pairwise_iff _ small, recordPlace_last_iff]
  · rw [storage', IrsStorage.grow, UInt64.toNat_add, UInt64.toNat_ofNat', Nat.add_mod_mod]

theorem irsStorageWriteDocuments_decodes_two :
    ∃ writer, irsStorageWriteDocuments allWritten (irsStorageInitialize (irsChars "d")) .empty
      [irsChars "a", irsChars "b"] = (.ok, writer) ∧
      ∃ file, writer.world.files (irsInitDbPath (irsChars "d") (irsChars "documents.irsdb")) =
        some file ∧
        ∀ texts, Decodes file texts ↔ texts = [irsChars "a", irsChars "b"] := by
  obtain ⟨writer, run⟩ : ∃ writer,
    irsStorageWriteDocuments allWritten (irsStorageInitialize (irsChars "d")) .empty
      [irsChars "a", irsChars "b"] = (.ok, writer) := ⟨_, rfl⟩
  obtain ⟨file, contents, decodes, -⟩ := irsStorageWriteDocuments_decodes (by decide +kernel) run
  exact ⟨writer, run, file, contents, decodes⟩

/-- The counter wraps between two documents. -/
theorem decodes_fails_wrap :
    ∃ writer, irsStorageWriteDocuments allWritten
      { irsStorageInitialize (irsChars "d") with documentsSize := UInt64.ofNat (2 ^ 64 - 8) } .empty
        [[], []] =
        (.ok, writer) ∧ writer.documentOffsetMap.map Prod.snd = [UInt64.ofNat (2 ^ 64 - 8), 0] ∧
      ¬(writer.documentOffsetMap.map Prod.snd).Pairwise (· < ·) := by
  refine ⟨_, rfl, by decide, by decide⟩

end IrsMachine
