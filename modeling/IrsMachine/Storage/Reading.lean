import IrsMachine.Storage.Records

/-!
# Reading the documents of a term

A record of a term that is whole is read to its end, and each of its entries gives the document
at its offset.
-/

namespace IrsMachine

variable {world : World} {termsPath documentsPath : Path}

def sized (text : Bytes) : Bytes := uint64Chars (UInt64.ofNat text.length) ++ text

theorem length_sized (text : Bytes) : (sized text).length = 8 + text.length := by
  rw [sized, List.length_append, length_uint64Chars]

structure StoredEntry where
  docOffset : UInt64
  docSize : UInt64
  document : Bytes
  significancy : Bytes

namespace StoredEntry

def bytes (entry : StoredEntry) : Bytes := uint64Chars entry.docOffset ++ sized entry.significancy

def triple (entry : StoredEntry) : Triple :=
  { docOffset := entry.docOffset, document := entry.document, significancy := entry.significancy }

/-- At the offset there is a length, and as many bytes if the document is not too long. -/
structure Holds (world : World) (documentsPath : Path) (entry : StoredEntry) : Prop where
  size : HoldsAt world documentsPath entry.docOffset.toNat (uint64Chars entry.docSize)
  document : entry.docSize.toNat ≤ intMax → entry.document.length = entry.docSize.toNat ∧
    HoldsAt world documentsPath (entry.docOffset.toNat + 8) entry.document

end StoredEntry

/-! ### Reading a record -/

/-- The entry is read, and the terms file is left behind it. -/
theorem readDocumentsLoop_small {entry : StoredEntry} {position : Nat} (left position' : Nat)
    (documents : List Triple) (stored : entry.Holds world documentsPath)
    (offset : entry.docOffset.toNat < 2 ^ 63) (fits : entry.significancy.length < 2 ^ 64)
    (small : entry.docSize.toNat ≤ intMax) (holds : HoldsAt world termsPath position entry.bytes) :
    readDocumentsLoop world (left + 1) (some { path := termsPath, position })
      (some { path := documentsPath, position := position' }) documents =
      readDocumentsLoop world left
        (some { path := termsPath, position := position + entry.bytes.length })
        (some { path := documentsPath, position := entry.docOffset.toNat + 8 + entry.document.length
          }) (documents ++ [entry.triple]) := by
  obtain ⟨length, document⟩ := stored.document small
  rw [StoredEntry.bytes, sized] at holds
  have offsetRead := read_holds holds.left
  have sizeRead := read_holds stored.size
  have documentRead := read_holds document
  have significancySizeRead := read_holds holds.right.left
  have significancyRead := read_holds holds.right.right
  have significancySize : (UInt64.ofNat entry.significancy.length).toNat =
      entry.significancy.length := UInt64.toNat_ofNat_of_lt' fits
  have behind : position + 8 + 8 + entry.significancy.length = position + entry.bytes.length := by
    rw [StoredEntry.bytes, List.length_append, length_sized, length_uint64Chars]
    omega
  rw [length_uint64Chars] at offsetRead sizeRead significancySizeRead significancyRead
  rw [length_uint64Chars] at significancySizeRead significancyRead
  rw [length] at documentRead
  have complete : ∀ channel,
      ReadChars.complete { status := .normal, chars := entry.document, channel }
      entry.docSize.toNat = true :=
    fun channel => length ▸ ReadChars.complete_normal _ channel
  simp only [readDocumentsLoop, offsetRead, complete_eight, length_uint64Chars,
    uint64OfChars_uint64Chars, irsIoChannelSeek, Option.map_some, if_pos offset, sizeRead,
    Nat.not_lt.mpr small, documentRead, complete, ReadChars.complete_normal, significancySizeRead,
    significancySize, significancyRead, Bool.not_true, Bool.false_eq_true, if_false, behind, length,
    StoredEntry.triple]

/-- The document is too long: no more of the entry is read. -/
theorem readDocumentsLoop_large {entry : StoredEntry} {position : Nat} (left position' : Nat)
    (documents : List Triple) (stored : entry.Holds world documentsPath)
    (offset : entry.docOffset.toNat < 2 ^ 63) (large : intMax < entry.docSize.toNat)
    (holds : HoldsAt world termsPath position entry.bytes) :
    readDocumentsLoop world (left + 1) (some { path := termsPath, position })
      (some { path := documentsPath, position := position' }) documents =
      readDocumentsLoop world left (some { path := termsPath, position := position + 8 })
        (some { path := documentsPath, position := entry.docOffset.toNat + 8 }) documents := by
  rw [StoredEntry.bytes] at holds
  have offsetRead := read_holds holds.left
  have sizeRead := read_holds stored.size
  rw [length_uint64Chars] at offsetRead sizeRead
  simp only [readDocumentsLoop, offsetRead, complete_eight, length_uint64Chars,
    uint64OfChars_uint64Chars, irsIoChannelSeek, Option.map_some, if_pos offset, sizeRead,
    gt_iff_lt, if_pos large, Bool.not_true, Bool.false_eq_true, if_false]

/-- The head of a record is read, and the loop begins behind it. -/
theorem irsStorageReadDocumentsByTerm_start {storage : IrsStorage} {termOffset number : UInt64}
    {term entries : Bytes} (short : term.length < 2 ^ 64) (offset : termOffset.toNat < 2 ^ 63)
    (holds : HoldsAt world storage.termsPath termOffset.toNat
      (sized term ++ (uint64Chars number ++ entries))) :
    irsStorageReadDocumentsByTerm storage world termOffset =
      readDocumentsLoop world number.toNat
        (some { path := storage.termsPath, position := termOffset.toNat + 8 + term.length + 8 })
        (irsIoNewChannelRead world storage.documentsPath) [] := by
  obtain ⟨terms, contents⟩ : ∃ terms, world.files storage.termsPath = some terms := by
    cases contents : world.files storage.termsPath with
    | none =>
      have fits := holds.fits (by simp [sized, uint64Chars, LittleEndian.encode])
      rw [contents, List.length_append, length_sized] at fits
      simp at fits
    | some terms => exact ⟨terms, rfl⟩
  rw [sized, List.append_assoc] at holds
  have sizeRead := read_holds holds.left
  have termRead := read_holds holds.right.left
  have docsRead := read_holds holds.right.right.left
  have termSize : (UInt64.ofNat term.length).toNat = term.length := UInt64.toNat_ofNat_of_lt' short
  rw [length_uint64Chars] at sizeRead termRead docsRead
  rw [length_uint64Chars] at docsRead
  have opened : irsIoNewChannelRead world storage.termsPath =
      some { path := storage.termsPath, position := 0 } := by
    rw [irsIoNewChannelRead, contents, Option.map_some]
  simp only [irsStorageReadDocumentsByTerm, opened, Option.map_some, irsIoChannelSeek,
    if_pos offset, sizeRead, complete_eight, length_uint64Chars, uint64OfChars_uint64Chars,
    termSize, termRead, ReadChars.complete_normal, docsRead, Bool.not_true,
    Bool.false_eq_true, if_false]

/-! ### Records with documents that are not skipped -/

/-- The document of an entry is in the documents file, and it is not skipped. -/
structure Readable (world : World) (documentsPath : Path) (text : UInt64 → Bytes)
    (entry : UInt64 × Bytes) : Prop where
  holds : HoldsAt world documentsPath entry.1.toNat (record (text entry.1))
  offset : entry.1.toNat < 2 ^ 63
  document : irsStrLen (text entry.1) ≤ intMax
  significancy : irsStrLen entry.2 < 2 ^ 64

def entryRecord (entry : UInt64 × Bytes) : Bytes := uint64Chars entry.1 ++ record entry.2

theorem length_entryRecord (entry : UInt64 × Bytes) :
    (entryRecord entry).length = 16 + irsStrLen entry.2 := by
  rw [entryRecord, List.length_append, length_record, length_uint64Chars]
  omega

def tripleOf (text : UInt64 → Bytes) (entry : UInt64 × Bytes) : Triple :=
  { docOffset := entry.1, document := cString (text entry.1), significancy := cString entry.2 }

theorem readDocumentsLoop_entry {text : UInt64 → Bytes} {entry : UInt64 × Bytes} {position : Nat}
    (left position' : Nat) (documents : List Triple)
    (readable : Readable world documentsPath text entry)
    (holds : HoldsAt world termsPath position (entryRecord entry)) :
    ∃ position'', readDocumentsLoop world (left + 1) (some { path := termsPath, position })
        (some { path := documentsPath, position := position' }) documents =
      readDocumentsLoop world left
        (some { path := termsPath, position := position + (entryRecord entry).length })
        (some { path := documentsPath, position := position'' })
        (documents ++ [tripleOf text entry]) := by
  have short : irsStrLen (text entry.1) < 2 ^ 64 := Nat.lt_of_le_of_lt readable.document (by decide)
  have document := readable.holds
  unfold record at document
  have right := document.right
  rw [length_uint64Chars] at right
  have stored : StoredEntry.Holds world documentsPath
      { docOffset := entry.1, docSize := UInt64.ofNat (irsStrLen (text entry.1)),
        document := cString (text entry.1), significancy := cString entry.2 } :=
    ⟨document.left, fun _ => ⟨(toNat_record_size short).symm, right⟩⟩
  have step := readDocumentsLoop_small left position' documents stored readable.offset
    readable.significancy
    (by rw [toNat_record_size short]; exact readable.document) holds
  exact ⟨_, step⟩

theorem readDocumentsLoop_holds {text : UInt64 → Bytes} {entries : List (UInt64 × Bytes)}
    {position : Nat} (position' : Nat) (documents : List Triple)
    (readable : ∀ entry ∈ entries, Readable world documentsPath text entry)
    (holds : HoldsAt world termsPath position (entries.flatMap entryRecord)) :
    readDocumentsLoop world entries.length (some { path := termsPath, position })
      (some { path := documentsPath, position := position' }) documents =
        some (documents ++ entries.map (tripleOf text)) := by
  induction entries generalizing position position' documents with
  | nil => simp [readDocumentsLoop]
  | cons entry entries ih =>
    rw [List.flatMap_cons] at holds
    obtain ⟨position'', step⟩ := readDocumentsLoop_entry entries.length position' documents
      (readable entry List.mem_cons_self) holds.left
    rw [List.length_cons, step,
      ih _ _ (fun other member => readable other (List.mem_cons_of_mem _ member)) holds.right,
      List.append_assoc, List.map_cons, List.singleton_append]

/-- A whole record. -/
theorem irsStorageReadDocumentsByTerm_holds {storage : IrsStorage} {termOffset number : UInt64}
    {term file : Bytes} {text : UInt64 → Bytes} {entries : List (UInt64 × Bytes)}
    (short : irsStrLen term < 2 ^ 64) (offset : termOffset.toNat < 2 ^ 63)
    (holds : HoldsAt world storage.termsPath termOffset.toNat
      (record term ++ uint64Chars number ++ entries.flatMap entryRecord)) (documents :
      world.files storage.documentsPath = some file)
    (readable : ∀ entry ∈ entries, Readable world storage.documentsPath text entry)
    (all : number.toNat = entries.length) :
    irsStorageReadDocumentsByTerm storage world termOffset =
      some (entries.map (tripleOf text)) := by
  rw [List.append_assoc] at holds
  have behind := holds.right.right
  rw [length_uint64Chars, length_record] at behind
  have opened : irsIoNewChannelRead world storage.documentsPath =
      some { path := storage.documentsPath, position := 0 } := by
    rw [irsIoNewChannelRead, documents, Option.map_some]
  have start := irsStorageReadDocumentsByTerm_start short offset holds
  rw [start, opened, all]
  rw [show termOffset.toNat + (8 + irsStrLen term) + 8 =
    termOffset.toNat + 8 + (cString term).length + 8 by
    rw [irsStrLen]
    omega] at behind
  rw [readDocumentsLoop_holds 0 [] readable behind, List.nil_append]

end IrsMachine
