import IrsMachine.Storage.Complete

/-!
# Buffers of the reader

The reader of a record gets a buffer of `size + 1` characters for the term, for each document and
for each significancy before it reads them. Here `allocates` says which requests are granted: where
one is not, the program ends. A reader that returns gives what the reader without buffers gives.
-/

namespace IrsMachine.Allocating
open Except

variable {allocates : UInt64 → Bool} {world : World} {path termsPath documentsPath : Path}

/-- A read of `size` characters into a new buffer, where `none` is a read that is not complete. For
`size + 1 = 0` there is no buffer, which the read reports as an error. -/
def readSized (allocates : UInt64 → Bool) (world : World) (channel : Option IrsIoChannel)
    (size : UInt64) :
    Except Fault (Option ReadChars) :=
  if size + 1 = 0 then .ok none
  else if !allocates (size + 1) then .error .aborted
  else
    let read := irsIoChannelReadChars world channel size.toNat
    .ok (if read.complete size.toNat then some read else none)

def readDocumentsLoop (allocates : UInt64 → Bool) (world : World) :
    Nat → Option IrsIoChannel → Option IrsIoChannel → List Triple →
    Except Fault (Option (List Triple))
  | 0, _, _, documents => .ok (some documents)
  | left + 1, termsChannel, documentsChannel, documents =>
    let offsetRead := irsIoChannelReadChars world termsChannel 8
    if !offsetRead.complete 8 then .ok none
    else
      let docOffset := uint64OfChars offsetRead.chars
      let sizeRead := irsIoChannelReadChars world (irsIoChannelSeek documentsChannel docOffset) 8
      if !sizeRead.complete 8 then .ok none
      else
        let docSize := uint64OfChars sizeRead.chars
        if docSize.toNat > intMax then
          readDocumentsLoop allocates world left offsetRead.channel sizeRead.channel documents
        else do
          match ← readSized allocates world sizeRead.channel docSize with
          | none => .ok none
          | some documentRead =>
            let significancySizeRead := irsIoChannelReadChars world offsetRead.channel 8
            if !significancySizeRead.complete 8 then .ok none
            else
              let significancySize := uint64OfChars significancySizeRead.chars
              match ← readSized allocates world significancySizeRead.channel significancySize with
              | none => .ok none
              | some significancyRead =>
                readDocumentsLoop allocates world left significancyRead.channel documentRead.channel
                  (documents ++ [{ docOffset, document := documentRead.chars,
                                   significancy := significancyRead.chars }])

def irsStorageReadDocumentsByTerm (allocates : UInt64 → Bool) (storage : IrsStorage) (world : World)
    (termOffset : UInt64) :
    Except Fault (Option (List Triple)) :=
  let termsChannel := irsIoChannelSeek (irsIoNewChannelRead world storage.termsPath) termOffset
  let termSizeRead := irsIoChannelReadChars world termsChannel 8
  if !termSizeRead.complete 8 then .ok none
  else do
    match ← readSized allocates world termSizeRead.channel (uint64OfChars termSizeRead.chars) with
    | none => .ok none
    | some termRead =>
      let docsRead := irsIoChannelReadChars world termRead.channel 8
      if !docsRead.complete 8 then .ok none
      else
        readDocumentsLoop allocates world (uint64OfChars docsRead.chars).toNat docsRead.channel
          (irsIoNewChannelRead world storage.documentsPath) []

def getDocumentsLoop (allocates : UInt64 → Bool) (system : System) : List Bytes → Answer →
    Except Fault Answer
  | [], answer => .ok answer
  | term :: terms, answer => do
    match ← firstOffset (← irsDictionaryGet system.storage.termOffsetDictionary term) with
    | none =>
      getDocumentsLoop allocates system terms
        { answer with documentsList := answer.documentsList ++ [none] }
    | some termOffset =>
      let consulted := answer.consulted ++ [termOffset]
      match ← irsStorageReadDocumentsByTerm allocates system.storage system.world termOffset with
      | none => .ok { answer with status := .readError, consulted }
      | some documents =>
        getDocumentsLoop allocates system terms
          { answer with documentsList := answer.documentsList ++ [some documents], consulted }

def irsStorageGetDocuments (allocates : UInt64 → Bool) (system : System) (terms : List Bytes) :
    Except Fault Answer :=
  getDocumentsLoop allocates system terms { status := .ok, documentsList := [], consulted := [] }

/-! ### Fields with their lengths -/

def Refused (allocates : UInt64 → Bool) (size : UInt64) : Prop :=
  size + 1 ≠ 0 ∧ allocates (size + 1) = false

def HasSized (allocates : UInt64 → Bool) (world : World) (path : Path) (position : Nat)
    (size : UInt64) : Prop :=
  size + 1 ≠ 0 ∧ allocates (size + 1) = true ∧ HasBytes world path position size.toNat

/-- So many entries are whole, with their documents, and there is a buffer for each text. -/
def EntriesTaken (allocates : UInt64 → Bool) (world : World) (termsPath documentsPath : Path) :
    Nat → Nat → Nat → Prop
  | 0, _, _ => True
  | left + 1, position, documentsPosition =>
    let document := seekPosition documentsPosition (uint64At world termsPath position)
    let docSize := uint64At world documentsPath document
    let significancySize := uint64At world termsPath (position + 8)
    HasBytes world termsPath position 8 ∧ HasBytes world documentsPath document 8 ∧
      if docSize.toNat > intMax then
        EntriesTaken allocates world termsPath documentsPath left (position + 8) (document + 8)
      else
        HasSized allocates world documentsPath (document + 8) docSize ∧
          HasBytes world termsPath (position + 8) 8 ∧
          HasSized allocates world termsPath (position + 16) significancySize ∧
          EntriesTaken allocates world termsPath documentsPath left
            (position + 16 + significancySize.toNat)
            (document + 8 + docSize.toNat)

/-- Behind entries that are whole, a length stands for which no buffer is granted. -/
def EntriesRefused (allocates : UInt64 → Bool) (world : World) (termsPath documentsPath : Path) :
    Nat → Nat → Nat → Prop
  | 0, _, _ => False
  | left + 1, position, documentsPosition =>
    let document := seekPosition documentsPosition (uint64At world termsPath position)
    let docSize := uint64At world documentsPath document
    let significancySize := uint64At world termsPath (position + 8)
    HasBytes world termsPath position 8 ∧ HasBytes world documentsPath document 8 ∧
      if docSize.toNat > intMax then
        EntriesRefused allocates world termsPath documentsPath left (position + 8) (document + 8)
      else
        Refused allocates docSize ∨
          HasSized allocates world documentsPath (document + 8) docSize ∧
          HasBytes world termsPath (position + 8) 8 ∧
            (Refused allocates significancySize ∨
              HasSized allocates world termsPath (position + 16) significancySize ∧
                EntriesRefused allocates world termsPath documentsPath left
                  (position + 16 + significancySize.toNat)
                  (document + 8 + docSize.toNat))

def RecordTaken (allocates : UInt64 → Bool) (world : World) (termsPath documentsPath : Path)
    (termOffset : UInt64) : Prop :=
  let position := seekPosition 0 termOffset
  let termSize := uint64At world termsPath position
  let docsWithTerm := (uint64At world termsPath (position + 8 + termSize.toNat)).toNat
  HasBytes world termsPath position 8 ∧ HasSized allocates world termsPath (position + 8) termSize ∧
    HasBytes world termsPath (position + 8 + termSize.toNat) 8 ∧
    EntriesTaken allocates world termsPath documentsPath docsWithTerm
      (position + 16 + termSize.toNat) 0

def RecordRefused (allocates : UInt64 → Bool) (world : World) (termsPath documentsPath : Path)
    (termOffset : UInt64) : Prop :=
  let position := seekPosition 0 termOffset
  let termSize := uint64At world termsPath position
  let docsWithTerm := (uint64At world termsPath (position + 8 + termSize.toNat)).toNat
  HasBytes world termsPath position 8 ∧ (Refused allocates termSize ∨
    HasSized allocates world termsPath (position + 8) termSize ∧
      HasBytes world termsPath (position + 8 + termSize.toNat) 8 ∧
      EntriesRefused allocates world termsPath documentsPath docsWithTerm
        (position + 16 + termSize.toNat) 0)

/-! ### How the reader ends -/

/-- A read gives its result where the fields are whole, ends the program where a length is refused,
and reports an error otherwise. -/
inductive Ends (taken refused : Prop) : Except Fault (Option (List Triple)) → Prop where
  | whole (fields : taken) (granted : ¬refused) (documents : List Triple) :
    Ends taken refused (.ok (some documents))
  | aborts (short : ¬taken) (length : refused) : Ends taken refused (.error .aborted)
  | fails (short : ¬taken) (granted : ¬refused) : Ends taken refused (.ok none)

theorem readSized_cases (allocates : UInt64 → Bool) (present : (world.files path).isSome)
    (position : Nat) (size : UInt64) :
    (HasSized allocates world path position size ∧ ¬Refused allocates size ∧ ∃ read,
        readSized allocates world (openAt world path position) size = .ok (some read) ∧
        read.channel = openAt world path (position + size.toNat)) ∨
    (¬HasSized allocates world path position size ∧ Refused allocates size ∧
        readSized allocates world (openAt world path position) size = .error .aborted) ∨
    (¬HasSized allocates world path position size ∧ ¬Refused allocates size ∧
        readSized allocates world (openAt world path position) size = .ok none) := by
  unfold readSized HasSized Refused
  by_cases wraps : size + 1 = 0
  · exact .inr (.inr ⟨fun has => has.1 wraps, fun refused => refused.1 wraps, if_pos wraps⟩)
  cases granted : allocates (size + 1) with
  | false => exact .inr (.inl ⟨fun has => by simp at has, ⟨wraps, rfl⟩, by simp [wraps]⟩)
  | true =>
    rcases read_cases present position size.toNat with ⟨has, reads⟩ | ⟨short, incomplete⟩
    · exact .inl ⟨⟨wraps, rfl, has⟩, by simp, _, by simp [wraps, reads.complete], reads.channel⟩
    · exact .inr (.inr ⟨fun has => short has.2.2, by simp, by simp [wraps, incomplete]⟩)

/-- A read into a buffer, and what the reader goes on with. -/
theorem Ends.sized {position : Nat} {size : UInt64} {taken refused : Prop}
    {next : Option ReadChars → Except Fault (Option (List Triple))}
    (present : (world.files path).isSome) (failed : next none = .ok none)
    (goesOn : ∀ read, read.channel = openAt world path (position + size.toNat) →
      Ends taken refused (next (some read))) :
    Ends (HasSized allocates world path position size ∧ taken)
      (Refused allocates size ∨ HasSized allocates world path position size ∧ refused)
      (readSized allocates world (openAt world path position) size >>= next) := by
  rcases readSized_cases allocates present position size with
    ⟨has, granted, read, reads, channel⟩ | ⟨short, refused, reads⟩ | ⟨short, granted, reads⟩
  · rw [reads, ok_bind]
    simpa only [has, granted, false_or, true_and] using goesOn read channel
  · rw [reads]
    exact .aborts (fun taken => short taken.1) (.inl refused)
  · rw [reads, ok_bind, failed]
    refine .fails (fun taken => short taken.1) ?_
    rintro (refused | ⟨has, -⟩)
    · exact granted refused
    · exact short has

theorem readDocumentsLoop_ends (allocates : UInt64 → Bool)
    (present : (world.files termsPath).isSome) (left position position' : Nat)
    (documents : List Triple) :
    Ends (EntriesTaken allocates world termsPath documentsPath left position position')
      (EntriesRefused allocates world termsPath documentsPath left position position')
      (readDocumentsLoop allocates world left (openAt world termsPath position)
        (openAt world documentsPath position') documents) := by
  induction left generalizing position position' documents with
  | zero => exact .whole trivial id documents
  | succ left ih =>
    unfold readDocumentsLoop EntriesTaken EntriesRefused
    dsimp only
    rcases read_cases present position 8 with ⟨has, offset⟩ | ⟨short, offset⟩
    case inr =>
      simp only [offset, short, false_and, Bool.not_false, if_true]
      exact .fails id id
    simp only [offset.complete, offset.chars, offset.channel, uint64OfChars_at, seek_openAt, has,
      Bool.not_true, Bool.false_eq_true, if_false, true_and]
    generalize seekPosition position' (uint64At world termsPath position) = document
    rcases read_eight_cases world documentsPath
      document with ⟨⟨has, size⟩, documentsPresent⟩ | ⟨short, size⟩
    case inr =>
      simp only [size, short, false_and, Bool.not_false, if_true]
      exact .fails id id
    simp only [size.complete, size.chars, size.channel, uint64OfChars_at, has, Bool.not_true,
      Bool.false_eq_true, if_false, true_and]
    generalize uint64At world documentsPath document = docSize
    by_cases tooLong : docSize.toNat > intMax
    · simp only [if_pos tooLong]
      exact ih ..
    simp only [if_neg tooLong]
    refine .sized documentsPresent rfl fun text channel => ?_
    simp only [channel]
    rcases read_cases present (position + 8) 8 with ⟨has, length⟩ | ⟨short, length⟩
    case inr =>
      simp only [length, short, false_and, Bool.not_false, if_true]
      exact .fails id id
    simp only [length.complete, length.chars, length.channel, uint64OfChars_at, has, Bool.not_true,
      Bool.false_eq_true, if_false, true_and]
    generalize uint64At world termsPath (position + 8) = significancySize
    refine .sized present rfl fun significancy channel => ?_
    simp only [channel]
    exact ih ..

/-- What a query of a record does is said by the two files and the lengths in them. -/
theorem irsStorageReadDocumentsByTerm_ends (allocates : UInt64 → Bool) (storage : IrsStorage)
    (world : World) (termOffset : UInt64) :
    Ends (RecordTaken allocates world storage.termsPath storage.documentsPath termOffset)
      (RecordRefused allocates world storage.termsPath storage.documentsPath termOffset)
      (irsStorageReadDocumentsByTerm allocates storage world termOffset) := by
  unfold irsStorageReadDocumentsByTerm RecordTaken RecordRefused
  dsimp only
  simp only [openAt_zero, seek_openAt]
  generalize seekPosition 0 termOffset = position
  rcases read_eight_cases world storage.termsPath
    position with ⟨⟨has, size⟩, present⟩ | ⟨short, size⟩
  case inr =>
    simp only [size, short, false_and, Bool.not_false, if_true]
    exact .fails id id
  simp only [size.complete, size.chars, size.channel, uint64OfChars_at, has, Bool.not_true,
    Bool.false_eq_true, if_false, true_and]
  generalize uint64At world storage.termsPath position = termSize
  refine .sized present rfl fun term channel => ?_
  simp only [channel]
  rcases read_cases present (position + 8 + termSize.toNat) 8 with ⟨has, docs⟩ | ⟨short, docs⟩
  case inr =>
    simp only [docs, short, false_and, Bool.not_false, if_true]
    exact .fails id id
  simp only [docs.complete, docs.chars, docs.channel, uint64OfChars_at, has, Bool.not_true,
    Bool.false_eq_true, if_false, true_and]
  have next : position + 8 + termSize.toNat + 8 = position + 16 + termSize.toNat := by omega
  rw [next]
  exact readDocumentsLoop_ends allocates present ..

/-! ### The reader without buffers -/

/-- No file is as long as the longest buffer. -/
def Short (world : World) : Prop := ∀ path, (fileBytes world path).length < 2 ^ 64 - 1

theorem readSized_returned {channel : Option IrsIoChannel} {size : UInt64}
    {result : Option ReadChars} (short : Short world)
    (run : readSized allocates world channel size = .ok result) :
    result = if (irsIoChannelReadChars world channel size.toNat).complete size.toNat
      then some (irsIoChannelReadChars world channel size.toNat) else none := by
  unfold readSized at run
  split at run
  · rename_i wraps
    cases run
    -- the length is that of the longest buffer
    have longest : size.toNat = 2 ^ 64 - 1 := by
      have := congrArg UInt64.toNat wraps
      rw [UInt64.toNat_add] at this
      have := size.toNat_lt
      simp at *
      omega
    rw [if_neg]
    intro complete
    cases channel with
    | none => simp [irsIoChannelReadChars, ReadChars.complete] at complete
    | some open' =>
      have inside := short open'.path
      simp only [irsIoChannelReadChars, longest, ReadChars.complete,
        if_neg (show 2 ^ 64 - 1 ≠ 0 by decide), decide_eq_true_eq, List.length_take,
        List.length_drop] at complete
      unfold fileBytes at inside
      omega
  · split at run
    · cases run
    · cases run
      rfl

theorem readSized_bind {channel : Option IrsIoChannel} {size : UInt64}
    {next : Option ReadChars → Except Fault (Option (List Triple))}
    {plain result : Option (List Triple)} (short : Short world) (failed : next none = .ok none)
    (run : readSized allocates world channel size >>= next = .ok result)
    (goesOn : next (some (irsIoChannelReadChars world channel size.toNat)) = .ok result →
      plain = result) :
    (if !(irsIoChannelReadChars world channel size.toNat).complete size.toNat then none
      else plain) = result := by
  obtain ⟨read, reads, run⟩ := bind_ok.mp run
  have same := readSized_returned short reads
  split at same
  case isTrue complete =>
    rw [if_neg (by simpa using complete)]
    exact goesOn (same ▸ run)
  case isFalse incomplete =>
    rw [same, failed] at run
    cases run
    rw [if_pos (by simpa using incomplete)]

theorem readDocumentsLoop_returned (short : Short world) {left : Nat}
    {termsChannel documentsChannel : Option IrsIoChannel} {documents : List Triple}
    {result : Option (List Triple)}
    (run : readDocumentsLoop allocates world left termsChannel documentsChannel documents =
      .ok result) :
    IrsMachine.readDocumentsLoop world left termsChannel documentsChannel documents = result := by
  induction left generalizing termsChannel documentsChannel documents with
  | zero =>
    cases run
    rfl
  | succ left ih =>
    unfold readDocumentsLoop at run
    unfold IrsMachine.readDocumentsLoop
    dsimp only at run ⊢
    split at run
    · cases run
      rw [if_pos ‹_›]
    rw [if_neg ‹_›]
    split at run
    · cases run
      rw [if_pos ‹_›]
    rw [if_neg ‹_›]
    split at run
    · rw [if_pos ‹_›]
      exact ih run
    rw [if_neg ‹_›]
    refine readSized_bind short rfl run fun run => ?_
    dsimp only at run
    split at run
    · cases run
      rw [if_pos ‹_›]
    rw [if_neg ‹_›]
    exact readSized_bind short rfl run ih

theorem irsStorageReadDocumentsByTerm_returned (short : Short world) {storage : IrsStorage}
    {termOffset : UInt64} {result : Option (List Triple)}
    (run : irsStorageReadDocumentsByTerm allocates storage world termOffset = .ok result) :
    IrsMachine.irsStorageReadDocumentsByTerm storage world termOffset = result := by
  unfold irsStorageReadDocumentsByTerm at run
  unfold IrsMachine.irsStorageReadDocumentsByTerm
  dsimp only at run ⊢
  split at run
  · cases run
    rw [if_pos ‹_›]
  rw [if_neg ‹_›]
  refine readSized_bind short rfl run fun run => ?_
  dsimp only at run
  split at run
  · cases run
    rw [if_pos ‹_›]
  rw [if_neg ‹_›]
  exact readDocumentsLoop_returned short run

/-- A query that returns gives the same answer as one that needs no buffers. -/
theorem irsStorageGetDocuments_returned {system : System} (short : Short system.world)
    {terms : List Bytes} {answer : Answer}
    (run : irsStorageGetDocuments allocates system terms = .ok answer) :
    IrsMachine.irsStorageGetDocuments system terms = .ok answer := by
  unfold irsStorageGetDocuments at run
  unfold IrsMachine.irsStorageGetDocuments
  generalize ({ status := .ok, documentsList := [], consulted := [] } : Answer) = start at run ⊢
  induction terms generalizing start with
  | nil => exact run
  | cons term terms ih =>
    unfold getDocumentsLoop at run
    unfold IrsMachine.getDocumentsLoop
    obtain ⟨list, get, run⟩ := bind_ok.mp run
    obtain ⟨offset, head, run⟩ := bind_ok.mp run
    rw [get, ok_bind, head, ok_bind]
    cases offset with
    | none => exact ih _ run
    | some offset =>
      obtain ⟨documents, read, run⟩ := bind_ok.mp run
      dsimp only
      rw [irsStorageReadDocumentsByTerm_returned short read]
      cases documents with
      | none => exact run
      | some documents => exact ih _ run

end IrsMachine.Allocating
