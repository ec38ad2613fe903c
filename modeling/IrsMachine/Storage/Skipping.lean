import IrsMachine.Library.Runs
import IrsMachine.Storage.Reading

/-!
# Documents that are too long

The reader skips a document that is too long before it has read the rest of its entry, so the
entries behind it are read from the wrong place. An entry that is the last one does no harm.
-/

namespace IrsMachine

variable {world : World} {termsPath documentsPath : Path} {entries : List StoredEntry}

instance (world : World) (path : Path) (offset : Nat) (chars : Bytes) :
    Decidable (HoldsAt world path offset chars) :=
  inferInstanceAs (Decidable (chars <+: ((world.files path).getD []).drop offset))

theorem HoldsAt.inFile {path : Path} {file : Bytes} {offset : Nat} {chars : Bytes}
    (holds : HoldsAt world path offset chars) (contents : world.files path = some file)
    (goesOn : chars ≠ []) : offset + chars.length ≤ file.length := by
  have fits := holds.fits goesOn
  rwa [contents, Option.getD_some] at fits

theorem StoredEntry.length_bytes (entry : StoredEntry) :
    entry.bytes.length = 16 + entry.significancy.length := by
  rw [bytes, List.length_append, length_sized, length_uint64Chars]
  omega

theorem length_entries (entries : List StoredEntry) :
    entries.length ≤ (entries.flatMap StoredEntry.bytes).length ∧
      ∀ entry ∈ entries,
        entry.significancy.length ≤ (entries.flatMap StoredEntry.bytes).length := by
  induction entries with
  | nil => exact ⟨Nat.le_refl 0, nofun⟩
  | cons entry entries ih =>
    obtain ⟨count, each⟩ := ih
    rw [List.flatMap_cons, List.length_append, List.length_cons, entry.length_bytes,
      List.forall_mem_cons]
    refine ⟨by omega, by omega, fun other member => ?_⟩
    have := each other member
    omega

/-- Entries with documents that are not too long are read to their end. -/
theorem readDocumentsLoop_front {position : Nat} (left position' : Nat) (documents : List Triple)
    (stored : ∀ entry ∈ entries, entry.Holds world documentsPath)
    (offsets : ∀ entry ∈ entries, entry.docOffset.toNat < 2 ^ 63)
    (fits : ∀ entry ∈ entries, entry.significancy.length < 2 ^ 64)
    (small : ∀ entry ∈ entries, entry.docSize.toNat ≤ intMax)
    (holds : HoldsAt world termsPath position (entries.flatMap StoredEntry.bytes)) :
    ∃ position'', readDocumentsLoop world (entries.length + left)
      (some { path := termsPath, position })
        (some { path := documentsPath, position := position' }) documents =
      readDocumentsLoop world left
        (some { path := termsPath, position := position + (entries.flatMap StoredEntry.bytes).length
          })
        (some { path := documentsPath, position := position'' })
        (documents ++ entries.map StoredEntry.triple) := by
  induction entries generalizing position position' documents with
  | nil => exact ⟨position', by simp⟩
  | cons entry entries ih =>
    obtain ⟨here, later⟩ := List.forall_mem_cons.mp stored
    obtain ⟨offset, offsets'⟩ := List.forall_mem_cons.mp offsets
    obtain ⟨fit, fits'⟩ := List.forall_mem_cons.mp fits
    obtain ⟨short, small'⟩ := List.forall_mem_cons.mp small
    rw [List.flatMap_cons] at holds
    obtain ⟨position'', rest⟩ :=
      ih (entry.docOffset.toNat + 8 + entry.document.length)
        (documents ++ [entry.triple]) later offsets' fits' small' holds.right
    refine ⟨position'', ?_⟩
    rw [List.length_cons, Nat.succ_add,
      readDocumentsLoop_small _ _ _ here offset fit short holds.left, rest, List.flatMap_cons,
      List.length_append, Nat.add_assoc, List.map_cons, List.append_assoc, List.singleton_append]

/-- A record with these entries, and all that they refer to. -/
structure RecordAt (world : World) (storage : IrsStorage) (termOffset : UInt64) (term : Bytes)
    (entries : List StoredEntry) : Prop where
  terms : ∃ file, world.files storage.termsPath = some file ∧ file.length ≤ maxFileSize
  documents : ∃ file, world.files storage.documentsPath = some file ∧ file.length ≤ maxFileSize
  holds : HoldsAt world storage.termsPath termOffset.toNat
    (sized term ++ (uint64Chars (UInt64.ofNat entries.length) ++ entries.flatMap StoredEntry.bytes))
  stored : ∀ entry ∈ entries, entry.Holds world storage.documentsPath

theorem uint64Chars_ne_nil (number : UInt64) : uint64Chars number ≠ [] := by
  apply List.ne_nil_of_length_pos
  rw [length_uint64Chars]
  decide

theorem RecordAt.bounds {storage : IrsStorage} {termOffset : UInt64} {term : Bytes}
    (present : RecordAt world storage termOffset term entries) :
    termOffset.toNat < 2 ^ 63 ∧ term.length < 2 ^ 64 ∧ entries.length < 2 ^ 64 ∧
    (∀ entry ∈ entries, entry.docOffset.toNat < 2 ^ 63) ∧
      ∀ entry ∈ entries, entry.significancy.length < 2 ^ 64 := by
  obtain ⟨terms, termsFile, termsSmall⟩ := present.terms
  obtain ⟨documents, documentsFile, documentsSmall⟩ := present.documents
  have whole := present.holds.inFile termsFile (by simp [sized, uint64Chars_ne_nil])
  rw [List.length_append, List.length_append, length_sized, length_uint64Chars] at whole
  obtain ⟨count, each⟩ := length_entries entries
  have bound : maxFileSize < 2 ^ 63 := by decide
  refine ⟨by omega, by omega, by omega, fun entry member => ?_, fun entry member => ?_⟩
  · have inside := (present.stored entry member).size.inFile documentsFile (uint64Chars_ne_nil _)
    omega
  · have short := each entry member
    omega

/-- The loop of the reader begins with the entries. -/
theorem RecordAt.start {storage : IrsStorage} {termOffset : UInt64} {term : Bytes}
    (present : RecordAt world storage termOffset term entries) :
    ∃ position, HoldsAt world storage.termsPath position (entries.flatMap StoredEntry.bytes) ∧
      irsStorageReadDocumentsByTerm storage world termOffset =
        readDocumentsLoop world entries.length (some { path := storage.termsPath, position })
          (some { path := storage.documentsPath, position := 0 }) [] := by
  obtain ⟨offset, short, count, -⟩ := present.bounds
  obtain ⟨documents, documentsFile, -⟩ := present.documents
  have number : (UInt64.ofNat entries.length).toNat = entries.length :=
    UInt64.toNat_ofNat_of_lt' count
  have opened : irsIoNewChannelRead world storage.documentsPath =
      some { path := storage.documentsPath, position := 0 } := by
    rw [irsIoNewChannelRead, documentsFile, Option.map_some]
  have behind := present.holds.right.right
  rw [length_uint64Chars, length_sized, show termOffset.toNat + (8 + term.length) + 8 =
    termOffset.toNat + 8 + term.length + 8 by omega] at behind
  exact ⟨_, behind,
    by rw [irsStorageReadDocumentsByTerm_start short offset present.holds, opened, number]⟩

/-- What the reader should give for a record. -/
def keptTriples (entries : List StoredEntry) : List Triple :=
  (entries.filter fun entry => decide (entry.docSize.toNat ≤ intMax)).map StoredEntry.triple

theorem RecordAt.reads {storage : IrsStorage} {termOffset : UInt64} {term : Bytes}
    (present : RecordAt world storage termOffset term entries)
    (small : ∀ entry ∈ entries.dropLast, entry.docSize.toNat ≤ intMax) :
    irsStorageReadDocumentsByTerm storage world termOffset = some (keptTriples entries) := by
  obtain ⟨-, -, -, offsets, fits⟩ := present.bounds
  obtain ⟨position, holds, start⟩ := present.start
  have stored := present.stored
  rw [start]
  rcases List.eq_nil_or_concat entries with rfl | ⟨front, last, rfl⟩
  · rfl
  rw [List.concat_eq_append] at *
  rw [List.dropLast_concat] at small
  obtain ⟨here, stored'⟩ := List.forall_mem_append.mp stored
  obtain ⟨offsets', offset⟩ := List.forall_mem_append.mp offsets
  obtain ⟨fits', fit⟩ := List.forall_mem_append.mp fits
  rw [List.flatMap_append] at holds
  obtain ⟨position', run⟩ := readDocumentsLoop_front 1 0 [] here offsets' fits' small holds.left
  have kept : front.filter (fun entry => decide (entry.docSize.toNat ≤ intMax)) = front := by
    rw [List.filter_eq_self]
    exact fun entry member => decide_eq_true (small entry member)
  have rest := holds.right
  rw [List.flatMap_singleton] at rest
  have lastMember : last ∈ [last] := List.mem_singleton_self last
  rw [List.length_append, List.length_singleton, run, List.nil_append, keptTriples,
    List.filter_append, kept, List.filter_singleton]
  by_cases short : last.docSize.toNat ≤ intMax
  · rw [readDocumentsLoop_small 0 _ _ (stored' last lastMember) (offset last lastMember)
      (fit last lastMember) short rest, decide_eq_true short]
    simp [readDocumentsLoop]
  · rw [readDocumentsLoop_large 0 _ _ (stored' last lastMember) (offset last lastMember)
      (Nat.lt_of_not_le short) rest, decide_eq_false short]
    simp [readDocumentsLoop]

/-! ### A long document that is not the last one -/

def recordWorld (entries : List StoredEntry) (documents : Bytes) : World where
  files path := if path = irsInitDbPath (irsChars "d") (irsChars "terms.irsdb") then
      some (sized (irsChars "t") ++
        (uint64Chars (UInt64.ofNat entries.length) ++ entries.flatMap StoredEntry.bytes))
    else some documents
  writes := 0

def lengthsFile (sizes : List UInt64) : Bytes :=
  sizes.flatMap uint64Chars ++ List.replicate (2 ^ 31) 0

def lengthEntry (sizes : List UInt64) (significancy : Bytes) (k : Nat) (size : UInt64) :
    StoredEntry where
  docOffset := UInt64.ofNat (8 * k)
  docSize := size
  document := ((lengthsFile sizes).drop (8 * k + 8)).take size.toNat
  significancy := significancy

theorem length_flatMap_uint64Chars (sizes : List UInt64) :
    (sizes.flatMap uint64Chars).length = 8 * sizes.length := by
  induction sizes with
  | nil => rfl
  | cons size sizes ih =>
    rw [List.flatMap_cons, List.length_append, length_uint64Chars, ih, List.length_cons]
    omega

theorem length_lengthsFile (sizes : List UInt64) :
    (lengthsFile sizes).length = 8 * sizes.length + 2 ^ 31 := by
  rw [lengthsFile, List.length_append, length_flatMap_uint64Chars, List.length_replicate]

theorem lengthEntry_holds {sizes before after : List UInt64} {size : UInt64} (significancy : Bytes)
    (split : sizes = before ++ size :: after) (few : sizes.length < 2 ^ 32)
    (contents : world.files documentsPath = some (lengthsFile sizes)) :
    (lengthEntry sizes significancy before.length size).Holds world documentsPath := by
  have length := congrArg List.length split
  rw [List.length_append, List.length_cons] at length
  have offset : (UInt64.ofNat (8 * before.length)).toNat = 8 * before.length :=
    UInt64.toNat_ofNat_of_lt' (show 8 * before.length < 2 ^ 64 by omega)
  constructor
  · rw [HoldsAt, contents, Option.getD_some]
    show uint64Chars size <+: (lengthsFile sizes).drop (UInt64.ofNat (8 * before.length)).toNat
    rw [offset, lengthsFile, split, List.flatMap_append, List.append_assoc,
      ← length_flatMap_uint64Chars, List.drop_left, List.flatMap_cons, List.append_assoc]
    exact List.prefix_append _ _
  · intro small
    have room : (((lengthsFile sizes).drop (8 * before.length + 8)).take size.toNat).length =
        size.toNat := by
      rw [List.length_take, List.length_drop, length_lengthsFile]
      have bound : size.toNat ≤ intMax := small
      unfold intMax at bound
      omega
    refine ⟨room, ?_⟩
    rw [HoldsAt, contents, Option.getD_some]
    show _ <+: (lengthsFile sizes).drop ((UInt64.ofNat (8 * before.length)).toNat + 8)
    rw [offset]
    exact List.take_prefix _ _

def lengthEntries (sizes : List UInt64) : Nat → List UInt64 → List StoredEntry
  | _, [] => []
  | k, size :: rest => lengthEntry sizes [] k size :: lengthEntries sizes (k + 1) rest

theorem lengthEntries_spec {sizes : List UInt64} (before some' after : List UInt64)
    (split : sizes = before ++ (some' ++ after)) (few : sizes.length < 2 ^ 32)
    (contents : world.files documentsPath = some (lengthsFile sizes)) :
    (∀ entry ∈ lengthEntries sizes before.length some', entry.Holds world documentsPath) ∧
      (lengthEntries sizes before.length some').map StoredEntry.docSize = some' ∧
      ((lengthEntries sizes before.length some').flatMap StoredEntry.bytes).length =
        16 * some'.length := by
  induction some' generalizing before with
  | nil => exact ⟨nofun, rfl, rfl⟩
  | cons size rest ih =>
    rw [List.cons_append] at split
    have further : sizes = (before ++ [size]) ++ (rest ++ after) := by
      rw [split, List.append_assoc, List.singleton_append]
    obtain ⟨holds, same, length⟩ := ih _ further
    rw [List.length_append, List.length_singleton] at holds same length
    rw [lengthEntries]
    refine ⟨List.forall_mem_cons.mpr ⟨lengthEntry_holds [] split few contents, holds⟩,
      by rw [List.map_cons, same]; rfl, ?_⟩
    rw [List.flatMap_cons, List.length_append, StoredEntry.length_bytes, length, List.length_cons]
    show 16 + ([] : Bytes).length + _ = _
    rw [List.length_nil]
    omega

/-- The significancy of the long document is as long as the documents file. Its length is taken for
an offset then. -/
def failingEntries (sizes front rest : List UInt64) (long : UInt64) : List StoredEntry :=
  lengthEntries sizes 0 front ++
    lengthEntry sizes (List.replicate (lengthsFile sizes).length 0) front.length long ::
    lengthEntries sizes (front.length + 1) rest

theorem failingEntries_present {sizes front rest : List UInt64} {long : UInt64}
    (split : sizes = front ++ long :: rest) (few : sizes.length < 2 ^ 32) :
    (failingEntries sizes front rest long).map StoredEntry.docSize = sizes ∧
      RecordAt (recordWorld (failingEntries sizes front rest long) (lengthsFile sizes))
        (irsStorageInitialize (irsChars "d")) 0 (irsChars "t")
        (failingEntries sizes front rest long) := by
  have contents : (recordWorld (failingEntries sizes front rest long) (lengthsFile sizes)).files
      (irsStorageInitialize (irsChars "d")).documentsPath =
      some (lengthsFile sizes) := rfl
  obtain ⟨holds, same, length⟩ := lengthEntries_spec [] front (long :: rest) split few contents
  have further : sizes = (front ++ [long]) ++ (rest ++ []) := by
    rw [split, List.append_nil, List.append_assoc, List.singleton_append]
  obtain ⟨holds', same', length'⟩ :=
    lengthEntries_spec (front ++ [long]) rest [] further few contents
  rw [List.length_append, List.length_singleton] at holds' same' length'
  have here := lengthEntry_holds (List.replicate (lengthsFile sizes).length 0) split few contents
  have total := congrArg List.length split
  rw [List.length_append, List.length_cons] at total
  refine ⟨?_, ⟨_, rfl, ?_⟩, ⟨_, contents, ?_⟩, List.prefix_refl _, ?_⟩
  · rw [failingEntries, List.map_append, List.map_cons, same', show lengthEntries sizes 0 front =
      lengthEntries sizes ([] : List UInt64).length front from rfl, same]
    exact split.symm
  · rw [List.length_append, length_sized, List.length_append, length_uint64Chars, failingEntries,
      List.flatMap_append, List.length_append, List.flatMap_cons, List.length_append,
      StoredEntry.length_bytes, length', show lengthEntries sizes 0 front =
        lengthEntries sizes ([] : List UInt64).length front from rfl, length]
    show 8 + 1 + (8 + (16
      * front.length + (16 + (List.replicate (lengthsFile sizes).length (0 : UInt8)).length + 16
        * rest.length))) ≤ maxFileSize
    rw [List.length_replicate, length_lengthsFile]
    unfold maxFileSize
    omega
  · rw [length_lengthsFile]
    unfold maxFileSize
    omega
  · rw [failingEntries, List.forall_mem_append, List.forall_mem_cons]
    exact ⟨holds, here, holds'⟩

/-- An offset behind the end of the documents file. -/
theorem readDocumentsLoop_beyond {offset : UInt64} {position : Nat} {file : Bytes}
    (left position' : Nat) (documents : List Triple)
    (holds : HoldsAt world termsPath position (uint64Chars offset))
    (contents : world.files documentsPath = some file) (beyond : file.length ≤ offset.toNat)
    (seekable : offset.toNat < 2 ^ 63) :
    readDocumentsLoop world (left + 1) (some { path := termsPath, position })
      (some { path := documentsPath, position := position' }) documents = none := by
  have offsetRead := read_holds holds
  rw [length_uint64Chars] at offsetRead
  have nothing : file.drop offset.toNat = [] := List.drop_eq_nil_iff.mpr beyond
  have sizeRead :
      (irsIoChannelReadChars world (some { path := documentsPath, position := offset.toNat })
        8).complete 8 = false := by
    simp [irsIoChannelReadChars, contents, nothing, ReadChars.complete]
  simp only [readDocumentsLoop, offsetRead, complete_eight, length_uint64Chars,
    uint64OfChars_uint64Chars, irsIoChannelSeek, Option.map_some, if_pos seekable, sizeRead,
    Bool.not_true, Bool.not_false, Bool.false_eq_true, if_false, if_true]

theorem failingEntries_none {sizes front rest : List UInt64} {long : UInt64}
    (split : sizes = front ++ long :: rest) (few : sizes.length < 2 ^ 32)
    (small : ∀ size ∈ front, size.toNat ≤ intMax) (large : intMax < long.toNat)
    (goesOn : rest ≠ []) :
    irsStorageReadDocumentsByTerm (irsStorageInitialize (irsChars "d"))
      (recordWorld (failingEntries sizes front rest long) (lengthsFile sizes)) 0 = none := by
  obtain ⟨-, present⟩ := failingEntries_present split few
  have contents : (recordWorld (failingEntries sizes front rest long) (lengthsFile sizes)).files
      (irsStorageInitialize (irsChars "d")).documentsPath =
      some (lengthsFile sizes) := rfl
  generalize recordWorld (failingEntries sizes front rest long) (lengthsFile sizes) =
    world at present contents ⊢
  generalize irsStorageInitialize (irsChars "d") = storage at present contents ⊢
  obtain ⟨position, holds, start⟩ := present.start
  obtain ⟨-, -, -, offsets, fits⟩ := present.bounds
  have stored := present.stored
  obtain ⟨-, same, -⟩ := lengthEntries_spec [] front (long :: rest) split few contents
  have small' : ∀ entry ∈ lengthEntries sizes 0 front, entry.docSize.toNat ≤ intMax := by
    intro entry member
    exact small _ (same ▸ List.mem_map_of_mem (f := StoredEntry.docSize) member)
  obtain ⟨next, rest, rfl⟩ := List.exists_cons_of_ne_nil goesOn
  rw [start, failingEntries]
  rw [failingEntries] at holds stored offsets fits
  obtain ⟨stored, stored'⟩ := List.forall_mem_append.mp stored
  obtain ⟨offsets, offsets'⟩ := List.forall_mem_append.mp offsets
  obtain ⟨fits, -⟩ := List.forall_mem_append.mp fits
  obtain ⟨here, -⟩ := List.forall_mem_cons.mp stored'
  obtain ⟨offset, -⟩ := List.forall_mem_cons.mp offsets'
  rw [List.flatMap_append] at holds
  have rest' := holds.right
  rw [List.flatMap_cons] at rest'
  -- behind the offset of the long document there is the length of its significancy
  have misread := rest'.left
  rw [StoredEntry.bytes, sized] at misread
  have wrong := misread.right.left
  rw [length_uint64Chars] at wrong
  obtain ⟨position', run⟩ := readDocumentsLoop_front _ 0 [] stored offsets fits small' holds.left
  rw [List.length_append, List.length_cons, run,
    readDocumentsLoop_large _ _ _ here offset large rest'.left]
  have length : (UInt64.ofNat
    (List.replicate (lengthsFile sizes).length (0 : UInt8)).length).toNat =
      (lengthsFile sizes).length := by
    rw [List.length_replicate]
    apply UInt64.toNat_ofNat_of_lt'
    rw [length_lengthsFile]
    show _ < 2 ^ 64
    omega
  apply readDocumentsLoop_beyond _ _ _ wrong contents
  · show (lengthsFile sizes).length ≤
        (UInt64.ofNat (List.replicate (lengthsFile sizes).length (0 : UInt8)).length).toNat
    exact length.ge
  · show (UInt64.ofNat (List.replicate (lengthsFile sizes).length (0 : UInt8)).length).toNat <
        2 ^ 63
    rw [length, length_lengthsFile]
    omega

/-! ### The lengths for which records are read -/

/-- Every record with documents of these lengths is read as it should be. -/
def ReadsRecords (sizes : List UInt64) : Prop :=
  ∀ (world : World) (storage : IrsStorage) (termOffset : UInt64) (term : Bytes)
    (entries : List StoredEntry),
    RecordAt world storage termOffset term entries → entries.map StoredEntry.docSize = sizes →
    irsStorageReadDocumentsByTerm storage world termOffset = some (keptTriples entries)

/-- Records are read, and their long documents left out, where only the last document may be too
long. For any other lengths there is a record that is not read. -/
theorem readsRecords_iff (sizes : List UInt64) :
    ((∀ size ∈ sizes.dropLast, size.toNat ≤ intMax) → ReadsRecords sizes) ∧
      (sizes.length < 2 ^ 32 → ReadsRecords sizes →
        ∀ size ∈ sizes.dropLast, size.toNat ≤ intMax) := by
  constructor
  · intro small world storage termOffset term entries present same
    apply present.reads
    intro entry member
    apply small
    rw [← same, ← List.map_dropLast]
    exact List.mem_map_of_mem member
  · intro few reads
    rcases Runs.clean_or_split (fun size : UInt64 => decide (intMax < size.toNat))
      sizes.dropLast with clean | ⟨front, long, after, split, clean, large⟩
    · intro size member
      exact Nat.le_of_not_lt (of_decide_eq_false (clean size member))
    -- the first long document that is not the last one
    · rcases List.eq_nil_or_concat sizes with rfl | ⟨init, last, same⟩
      · simp at split
      · rw [List.concat_eq_append] at same
        rw [same, List.dropLast_concat] at split
        rw [split, List.append_assoc, List.cons_append] at same
        obtain ⟨sizes', present⟩ := failingEntries_present same few
        have read := reads _ _ _ _ _ present sizes'
        rw [failingEntries_none same few
          (fun size member => Nat.le_of_not_lt (of_decide_eq_false (clean size member)))
          (of_decide_eq_true large) (by simp)] at read
        cases read

def longFirst : List StoredEntry :=
  [⟨0, 2147483648, [], irsChars "1"⟩, ⟨8, 1, irsChars "a", irsChars "2"⟩]

/-- The entry behind a document that is too long is not found. -/
theorem readsRecords_fails :
    RecordAt (recordWorld longFirst (uint64Chars 2147483648 ++ sized (irsChars "a")))
      (irsStorageInitialize (irsChars "d")) 0 (irsChars "t") longFirst ∧
    irsStorageReadDocumentsByTerm (irsStorageInitialize (irsChars "d"))
        (recordWorld longFirst (uint64Chars 2147483648 ++ sized (irsChars "a"))) 0 = some [] ∧
    keptTriples longFirst =
      [{ docOffset := 8, document := irsChars "a", significancy := irsChars "2" }] := by
  refine ⟨⟨⟨_, rfl, by decide⟩, ⟨_, rfl, by decide⟩, List.prefix_refl _, fun entry member => ?_⟩,
    by decide, by decide⟩
  rcases List.mem_cons.mp member with rfl | last
  · exact ⟨by decide, fun small => absurd small (by decide)⟩
  · rw [List.mem_singleton.mp last]
    exact ⟨by decide, fun _ => ⟨rfl, by decide⟩⟩

end IrsMachine
