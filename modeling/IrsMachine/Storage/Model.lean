import IrsMachine.Dictionary.Run
import IrsMachine.Storage.Io

/-!
# The storage

`irs_storage`: documents are written one after another to one file, and for every term a
record with the documents that hold it to another. The dictionary of term offsets says where
the records are.
-/

namespace IrsMachine
open Except

inductive IrsStorageStatus where
  | ok | no | wrongPath | writeError | readError
  deriving DecidableEq, Repr

/-- What the data lists of `term_offset_dictionary` hold: an offset, then its term. -/
inductive TermOffsetValue where
  | offset (offset : UInt64)
  | term (term : Bytes)
  deriving DecidableEq, Repr

structure IrsStorage where
  termOffsetDictionary : IrsDictionary TermOffsetValue
  termOffsetsPath : Path
  termsPath : Path
  termsSize : UInt64
  documentsPath : Path
  documentsSize : UInt64

def irsChars (text : String) : Bytes := text.toList.map fun ch => UInt8.ofNat ch.toNat

/-- The size given to `snprintf` is exactly enough. -/
def irsInitDbPath (path postfix' : Bytes) : Path := path ++ irsChars "/" ++ postfix'

/-- `irs_storage_initialize` on a path that is a directory. -/
def irsStorageInitialize (path : Bytes) : IrsStorage where
  termOffsetDictionary := irsDictionaryInitialize irsDictionaryChildrenSize irsCharToIrsInt
  termsPath := irsInitDbPath path (irsChars "terms.irsdb")
  termsSize := 0
  documentsPath := irsInitDbPath path (irsChars "documents.irsdb")
  documentsSize := 0
  termOffsetsPath := irsInitDbPath path (irsChars "term_offsets.irsdb")

/-! ### Writing the documents -/

structure DocumentsWriter where
  storage : IrsStorage
  channel : IrsIoChannel
  world : World
  documentOffsetMap : List (Bytes × UInt64)

/-- One field of the documents file: a complete write is added to `documents_size`. -/
def writeDocumentsField (outcomes : Nat → WriteOutcome) (writer : DocumentsWriter) (chars : Bytes) :
    Bool × DocumentsWriter :=
  let write := irsIoChannelWriteChars outcomes writer.world writer.channel chars
  let writer := { writer with channel := write.channel, world := write.world }
  if write.complete chars.length then
    (true, { writer with
      storage := { writer.storage with documentsSize :=
        writer.storage.documentsSize + UInt64.ofNat write.writtenBytes } })
  else (false, writer)

def irsStorageWriteDocument (outcomes : Nat → WriteOutcome) (writer : DocumentsWriter)
    (document : Bytes) :
    Bool × DocumentsWriter :=
  let size := irsStrLen document
  let docOffset := writer.storage.documentsSize
  let writer := { writer with documentOffsetMap := writer.documentOffsetMap ++
    [(document, docOffset)] }
  match writeDocumentsField outcomes writer (uint64Chars (UInt64.ofNat size)) with
  | (false, writer) => (false, writer)
  | (true, writer) => writeDocumentsField outcomes writer (document.take size)

def writeDocumentsLoop (outcomes : Nat → WriteOutcome) : DocumentsWriter → List Bytes →
    Bool × DocumentsWriter
  | writer, [] => (true, writer)
  | writer, document :: documents =>
    match irsStorageWriteDocument outcomes writer document with
    | (false, writer) => (false, writer)
    | (true, writer) => writeDocumentsLoop outcomes writer documents

def irsStorageWriteDocuments (outcomes : Nat → WriteOutcome) (storage : IrsStorage) (world : World)
    (documents : List Bytes) :
    IrsStorageStatus × DocumentsWriter :=
  let (channel, world) := irsIoNewChannelWrite world storage.documentsPath
  match writeDocumentsLoop outcomes { storage, channel, world, documentOffsetMap := [] }
    documents with
  | (true, writer) => (.ok, writer)
  | (false, writer) => (.writeError, writer)

/-! ### The terms of a document -/

/-- `strtok` called until it finds no more tokens. -/
def strtok (string delim : Bytes) : List Bytes :=
  ((cString string).splitOnP fun ch => decide (ch ∈ cString delim)).filter fun token =>
    decide (token ≠ [])

def irsStorageGetDocumentTerms (document : Bytes) : List Bytes :=
  strtok document (irsChars " ,.-\x00()[]_")

def irsStrFind (str substring : Bytes) : Bool := decide (cString substring <:+: cString str)

def irsStorageGetDocumentsWithTerm (term : Bytes) (documentOffsetMap : List (Bytes × UInt64)) :
    List UInt64 :=
  (documentOffsetMap.filter fun pair => irsStrFind pair.1 term).map Prod.snd

/-! ### Significancy -/

/-- The floating-point numbers of the C library, and the texts made with `gcvt`. -/
class IrsFloat (F : Type) where
  ofUInt64 : UInt64 → F
  ofUInt32 : UInt32 → F
  div : F → F → F
  mul : F → F → F
  logf : F → F
  le : F → F → Bool
  zero : F
  toStrFloat : F → Bytes
  toStrInt : UInt64 → Bytes

section
variable {F : Type} [IrsFloat F]

/-- The size of a list is kept in 32 bits. -/
def listSize {β : Type} (list : List β) : UInt32 := UInt32.ofNat list.length

def irsStorageCalculateTermReverseFrequency (documentsSize docWithTermOffsetsSize : UInt64) : F :=
  IrsFloat.logf (IrsFloat.div (IrsFloat.ofUInt64 documentsSize)
    (IrsFloat.ofUInt64 docWithTermOffsetsSize))

def irsStorageCalculateTermFrequency (term : Bytes) (documentTerms : List Bytes) : F :=
  let countInDocument :=
    UInt64.ofNat (documentTerms.countP fun otherTerm => irsStrCmp term otherTerm)
  IrsFloat.div (IrsFloat.ofUInt64 countInDocument) (IrsFloat.ofUInt32 (listSize documentTerms))

def irsStorageCalculateTermSignificancy (frequency reverseFrequency : F) : F :=
  IrsFloat.mul frequency reverseFrequency

end

/-! ### Assigning the terms -/

inductive DocValue where
  | offset (docOffset : UInt64)
  | significancy (text : Bytes)
  deriving DecidableEq, Repr

/-- What the data lists of `terms_doc_significancy_dictionary` hold: the dictionary of the
documents with the term, by its place in `docDictionaries`, the term and their number. -/
inductive TermDocValue where
  | docOffsetDictionary (index : Nat)
  | term (term : Bytes)
  | docsWithTerm (number : UInt64)
  deriving DecidableEq, Repr

/-- `terms_reverse_frequency_dictionary` holds the address of the variable
`reverse_frequency`, whose place on the stack is the same in every iteration. -/
structure AssignState (F : Type) where
  termsReverseFrequency : IrsDictionary Unit
  termsDocSignificancy : IrsDictionary TermDocValue
  docDictionaries : List (IrsDictionary DocValue)
  reverseFrequency : Option F

section
variable {F : Type} [IrsFloat F]

def firstDictionary (list : List TermDocValue) : Except Fault Nat :=
  match list with
  | .docOffsetDictionary index :: _ => .ok index
  | _ => .error .badPointer

def docDictionaryAt (docDictionaries : List (IrsDictionary DocValue)) (index : Nat) :
    Except Fault (IrsDictionary DocValue) :=
  match docDictionaries[index]? with
  | some dictionary => .ok dictionary
  | none => .error .badPointer

def isAssigned (state : AssignState F) (docOffsetStr term : Bytes) : Except Fault Bool := do
  match ← irsDictionaryGet state.termsDocSignificancy term with
  | none => .ok false
  | some list =>
    let docOffsetDict ← docDictionaryAt state.docDictionaries (← firstDictionary list)
    .ok (← irsDictionaryGet docOffsetDict docOffsetStr).isSome

/-- The reverse frequency is calculated, or what the stored address points to is read. The
number of documents with the term is assigned only when it is calculated. -/
def assignReverseFrequency (documentOffsetMap : List (Bytes × UInt64)) (state : AssignState F)
    (term : Bytes) :
    Except Fault (AssignState F × Option UInt64) := do
  match ← irsDictionaryGet state.termsReverseFrequency term with
  | none =>
    let docWithTermOffsetsSize :=
      (listSize (irsStorageGetDocumentsWithTerm term documentOffsetMap)).toUInt64
    let reverseFrequency :=
      irsStorageCalculateTermReverseFrequency
        (listSize documentOffsetMap).toUInt64 docWithTermOffsetsSize
    let termsReverseFrequency ← appendKey state.termsReverseFrequency term ()
    .ok ({ state with termsReverseFrequency, reverseFrequency := some reverseFrequency },
      some docWithTermOffsetsSize)
  | some _ => .ok (state, none)

def assignDocDictionary (state : AssignState F) (term : Bytes)
    (docWithTermOffsetsSize : Option UInt64) :
    Except Fault (AssignState F × Nat) := do
  match ← irsDictionaryGet state.termsDocSignificancy term with
  | none =>
    let index := state.docDictionaries.length
    let dictionary := irsDictionaryInitialize irsDictionaryChildrenSize irsCharToIrsInt
    let significancies ← appendKey state.termsDocSignificancy term (.docOffsetDictionary index)
    let significancies ← appendKey significancies term (.term term)
    match docWithTermOffsetsSize with
    | none => .error .unassigned
    | some number =>
      let significancies ← appendKey significancies term (.docsWithTerm number)
      .ok ({ state with
        termsDocSignificancy := significancies
        docDictionaries := state.docDictionaries ++ [dictionary] }, index)
  | some list => do
    let index ← firstDictionary list
    .ok (state, index)

/-- The significancy is stored under the offset of the document if it is positive. -/
def assignSignificancy (state : AssignState F) (docOffset : UInt64) (docOffsetStr : Bytes)
    (documentTerms : List Bytes) (term : Bytes) (index : Nat) : Except Fault (AssignState F) := do
  match state.reverseFrequency with
  | none => .error .unassigned
  | some reverseFrequency =>
    let frequency := irsStorageCalculateTermFrequency term documentTerms
    let significancy := irsStorageCalculateTermSignificancy frequency reverseFrequency
    if IrsFloat.le significancy IrsFloat.zero then .ok state
    else
      let dictionary ← docDictionaryAt state.docDictionaries index
      let dictionary ← appendKey dictionary docOffsetStr (.offset docOffset)
      let dictionary ← appendKey dictionary docOffsetStr
        (.significancy (IrsFloat.toStrFloat significancy))
      .ok { state with docDictionaries := state.docDictionaries.set index dictionary }

def irsStorageAssignTerm (documentOffsetMap : List (Bytes × UInt64)) (docOffset : UInt64)
    (docOffsetStr : Bytes) (documentTerms : List Bytes) (state : AssignState F) (term : Bytes) :
    Except Fault (AssignState F) := do
  if ← isAssigned state docOffsetStr term then .ok state
  else
    let (state, docWithTermOffsetsSize) ← assignReverseFrequency documentOffsetMap state term
    let (state, index) ← assignDocDictionary state term docWithTermOffsetsSize
    assignSignificancy state docOffset docOffsetStr documentTerms term index

def irsStorageAssignDocument (documentOffsetMap : List (Bytes × UInt64)) (state : AssignState F)
    (pair : Bytes × UInt64) :
    Except Fault (AssignState F) :=
  let documentTerms := irsStorageGetDocumentTerms pair.1
  documentTerms.foldlM
  (irsStorageAssignTerm documentOffsetMap pair.2 (IrsFloat.toStrInt (F := F) pair.2) documentTerms)
    state

def assignInitialize : AssignState F where
  termsReverseFrequency := irsDictionaryInitialize irsDictionaryChildrenSize irsCharToIrsInt
  termsDocSignificancy := irsDictionaryInitialize irsDictionaryChildrenSize irsCharToIrsInt
  docDictionaries := []
  reverseFrequency := none

def irsStorageAssignTermsInDocuments (documentOffsetMap : List (Bytes × UInt64)) :
    Except Fault (AssignState F) :=
  documentOffsetMap.foldlM (irsStorageAssignDocument documentOffsetMap) assignInitialize

end

/-! ### Writing the terms -/

structure TermsWriter where
  storage : IrsStorage
  channel : IrsIoChannel
  world : World

/-- One field of the terms file: a complete write is added to `terms_size`, any other ends
the program. -/
def writeTermsField (outcomes : Nat → WriteOutcome) (writer : TermsWriter) (chars : Bytes) :
    Except Fault TermsWriter :=
  let write := irsIoChannelWriteChars outcomes writer.world writer.channel chars
  if write.complete chars.length then
    .ok {
      storage := { writer.storage with
        termsSize := writer.storage.termsSize + UInt64.ofNat write.writtenBytes }
      channel := write.channel
      world := write.world }
  else .error .aborted

def irsStoragePassTermsDocOffsetDictionary (outcomes : Nat → WriteOutcome) (writer : TermsWriter)
    (node : IrsDictionaryNode DocValue) : Except Fault TermsWriter :=
  match node.dataList with
  | none => .ok writer
  | some list =>
    match list with
    | .offset docOffset :: .significancy significancy :: _ => do
      let significancySize := irsStrLen significancy
      let writer ← writeTermsField outcomes writer (uint64Chars docOffset)
      let writer ← writeTermsField outcomes writer (uint64Chars (UInt64.ofNat significancySize))
      writeTermsField outcomes writer (significancy.take significancySize)
    | _ => .error .badPointer

def irsStoragePassTermsDocSignificancyDictionary (outcomes : Nat → WriteOutcome)
    (docDictionaries : List (IrsDictionary DocValue)) (writer : TermsWriter)
    (node : IrsDictionaryNode TermDocValue) : Except Fault TermsWriter :=
  match node.dataList with
  | none => .ok writer
  | some list =>
    match list with
    | .docOffsetDictionary index :: .term term :: .docsWithTerm docsWithTerm :: _ => do
      let termSize := irsStrLen term
      let termsOffset := writer.storage.termsSize
      let dictionary ← appendKey writer.storage.termOffsetDictionary term (.offset termsOffset)
      let dictionary ← appendKey dictionary term (.term term)
      let writer := { writer with storage :=
        { writer.storage with termOffsetDictionary := dictionary } }
      let writer ← writeTermsField outcomes writer (uint64Chars (UInt64.ofNat termSize))
      let writer ← writeTermsField outcomes writer (term.take termSize)
      let writer ← writeTermsField outcomes writer (uint64Chars docsWithTerm)
      let docOffsetDictionary ← docDictionaryAt docDictionaries index
      (irsDictionaryVisitDownNodes docOffsetDictionary).foldlM
        (fun writer visit => irsStoragePassTermsDocOffsetDictionary outcomes writer visit.2) writer
    | _ => .error .badPointer

def irsStorageWriteInfixTermsSignificanciesInDocuments {F : Type} (outcomes : Nat → WriteOutcome)
    (storage : IrsStorage) (world : World) (assigned : AssignState F) : Except Fault TermsWriter :=
  let (channel, world) := irsIoNewChannelWrite world storage.termsPath
  (irsDictionaryVisitDownNodes assigned.termsDocSignificancy).foldlM
    (fun writer visit => irsStoragePassTermsDocSignificancyDictionary outcomes
      assigned.docDictionaries writer visit.2)
    { storage, channel, world }

structure System where
  storage : IrsStorage
  world : World

def irsStorageAddDocuments (F : Type) [IrsFloat F] (outcomes : Nat → WriteOutcome) (system : System)
    (documents : List Bytes) :
    Except Fault (IrsStorageStatus × System) :=
  match irsStorageWriteDocuments outcomes system.storage system.world documents with
  | (.ok, written) => do
    let assigned : AssignState F ← irsStorageAssignTermsInDocuments written.documentOffsetMap
    let writer ← irsStorageWriteInfixTermsSignificanciesInDocuments outcomes written.storage
      written.world assigned
    .ok (.ok, { storage := writer.storage, world := writer.world })
  | (_, written) => .ok (.writeError, { storage := written.storage, world := written.world })

/-! ### Reading -/

structure Triple where
  docOffset : UInt64
  document : Bytes
  significancy : Bytes
  deriving DecidableEq, Repr

def intMax : Nat := 2 ^ 31 - 1

/-- The loop of `_irs_storage_read_documents_by_term` with the two channels; `none` is
`IRS_STORAGE_READ_ERROR`. A document that is too long is skipped. The buffers are granted here;
`Storage.Allocations` has the reader that asks for them. -/
def readDocumentsLoop (world : World) : Nat → Option IrsIoChannel → Option IrsIoChannel →
    List Triple → Option (List Triple)
  | 0, _, _, documents => some documents
  | left + 1, termsChannel, documentsChannel, documents =>
    let offsetRead := irsIoChannelReadChars world termsChannel 8
    if !offsetRead.complete 8 then none
    else
      let docOffset := uint64OfChars offsetRead.chars
      let sizeRead := irsIoChannelReadChars world (irsIoChannelSeek documentsChannel docOffset) 8
      if !sizeRead.complete 8 then none
      else
        let docSize := (uint64OfChars sizeRead.chars).toNat
        if docSize > intMax then readDocumentsLoop world left offsetRead.channel
          sizeRead.channel documents
        else
          let documentRead := irsIoChannelReadChars world sizeRead.channel docSize
          if !documentRead.complete docSize then none
          else
            let significancySizeRead := irsIoChannelReadChars world offsetRead.channel 8
            if !significancySizeRead.complete 8 then none
            else
              let significancySize := (uint64OfChars significancySizeRead.chars).toNat
              let significancyRead :=
                irsIoChannelReadChars world significancySizeRead.channel significancySize
              if !significancyRead.complete significancySize then none
              else
                readDocumentsLoop world left significancyRead.channel documentRead.channel
                  (documents ++ [{ docOffset, document := documentRead.chars,
                                   significancy := significancyRead.chars }])

def irsStorageReadDocumentsByTerm (storage : IrsStorage) (world : World) (termOffset : UInt64) :
    Option (List Triple) :=
  let termsChannel := irsIoChannelSeek (irsIoNewChannelRead world storage.termsPath) termOffset
  let termSizeRead := irsIoChannelReadChars world termsChannel 8
  if !termSizeRead.complete 8 then none
  else
    let termSize := (uint64OfChars termSizeRead.chars).toNat
    let termRead := irsIoChannelReadChars world termSizeRead.channel termSize
    if !termRead.complete termSize then none
    else
      let docsRead := irsIoChannelReadChars world termRead.channel 8
      if !docsRead.complete 8 then none
      else
        readDocumentsLoop world (uint64OfChars docsRead.chars).toNat docsRead.channel
          (irsIoNewChannelRead world storage.documentsPath) []

/-- The offset at the head of a data list; a null list has none. -/
def firstOffset (list : Option (List TermOffsetValue)) : Except Fault (Option UInt64) :=
  match list with
  | none | some [] => .ok none
  | some (.offset offset :: _) => .ok (some offset)
  | some (.term _ :: _) => .error .badPointer

/-- What a query gives. `consulted` records the offsets at which it read term records. -/
structure Answer where
  status : IrsStorageStatus
  documentsList : List (Option (List Triple))
  consulted : List UInt64

def getDocumentsLoop (system : System) : List Bytes → Answer → Except Fault Answer
  | [], answer => .ok answer
  | term :: terms, answer => do
    match ← firstOffset (← irsDictionaryGet system.storage.termOffsetDictionary term) with
    | none =>
      getDocumentsLoop system terms { answer with documentsList := answer.documentsList ++ [none] }
    | some termOffset =>
      let consulted := answer.consulted ++ [termOffset]
      match irsStorageReadDocumentsByTerm system.storage system.world termOffset with
      | none => .ok { answer with status := .readError, consulted }
      | some documents =>
        getDocumentsLoop system terms
          { answer with documentsList := answer.documentsList ++ [some documents], consulted }

def irsStorageGetDocuments (system : System) (terms : List Bytes) : Except Fault Answer :=
  getDocumentsLoop system terms { status := .ok, documentsList := [], consulted := [] }

/-! ### Saving and loading -/

/-- A failed write of a term ends the program. -/
def writeTermOffsetsField (outcomes : Nat → WriteOutcome) (channel : IrsIoChannel) (world : World)
    (chars : Bytes) :
    Except Fault (IrsIoChannel × World) :=
  let write := irsIoChannelWriteChars outcomes world channel chars
  if write.complete chars.length then .ok (write.channel, write.world) else .error .aborted

def irsStorageWriteTermOffsets (outcomes : Nat → WriteOutcome) (output : IrsIoChannel × World)
    (node : IrsDictionaryNode TermOffsetValue) : Except Fault (IrsIoChannel × World) :=
  match node.dataList with
  | none => .ok output
  | some list =>
    match list with
    | .offset termOffset :: .term term :: _ => do
      let termSize := irsStrLen term
      let (channel, world) ← writeTermOffsetsField outcomes output.1 output.2
        (uint64Chars (UInt64.ofNat termSize))
      let (channel, world) ← writeTermOffsetsField outcomes channel world (term.take termSize)
      writeTermOffsetsField outcomes channel world (uint64Chars termOffset)
    | _ => .error .badPointer

def irsStorageSave (outcomes : Nat → WriteOutcome) (system : System) :
    Except Fault (IrsStorageStatus × World) :=
  let (channel, world) := irsIoNewChannelWrite system.world system.storage.termOffsetsPath
  let termsSize :=
    irsIoChannelWriteChars outcomes world channel (uint64Chars system.storage.termsSize)
  if !termsSize.complete 8 then .ok (.writeError, termsSize.world)
  else
    let documentsSize :=
      irsIoChannelWriteChars outcomes termsSize.world termsSize.channel
        (uint64Chars system.storage.documentsSize)
    if !documentsSize.complete 8 then .ok (.writeError, documentsSize.world)
    else do
      let (_, world) ← (irsDictionaryVisitDownNodes system.storage.termOffsetDictionary).foldlM
        (fun output visit => irsStorageWriteTermOffsets outcomes output visit.2)
        (documentsSize.channel, documentsSize.world)
      .ok (.ok, world)

/-- The loop of `_irs_storage_read_term_offsets`, with a buffer that is large enough for
every term. -/
def readTermOffsetsLoop (world : World) : Nat → IrsDictionary TermOffsetValue →
    Option IrsIoChannel →
    Except Fault (IrsDictionary TermOffsetValue)
  | 0, _, _ => .error .endless
  | fuel + 1, dictionary, channel => do
    let sizeRead := irsIoChannelReadChars world channel 8
    if !sizeRead.complete 8 then .ok dictionary
    else
      let termSize := uint64OfChars sizeRead.chars
      let termRead := irsIoChannelReadChars world sizeRead.channel termSize.toNat
      if !termRead.complete termSize.toNat then .ok dictionary
      else
        let offsetRead := irsIoChannelReadChars world termRead.channel 8
        if !offsetRead.complete 8 then .ok dictionary
        else
          let term := termRead.chars
          let (dictionary, _) ← irsDictionaryAppend dictionary term termSize.toUInt32
            (.offset (uint64OfChars offsetRead.chars))
          let (dictionary, _) ← irsDictionaryAppend dictionary term termSize.toUInt32
            (.term (cString term))
          readTermOffsetsLoop world fuel dictionary offsetRead.channel

def irsStorageLoad (storage : IrsStorage) (world : World) :
    Except Fault (IrsStorageStatus × IrsStorage) :=
  match irsIoNewChannelRead world storage.termOffsetsPath with
  | none => .ok (.ok, storage)
  | some channel => do
    let termsSizeRead := irsIoChannelReadChars world (some channel) 8
    let storage := { storage with termsSize := uint64Overwrite storage.termsSize termsSizeRead.chars
      }
    if !termsSizeRead.complete 8 then .ok (.readError, storage)
    else
      let documentsSizeRead := irsIoChannelReadChars world termsSizeRead.channel 8
      let storage :=
        { storage with
          documentsSize := uint64Overwrite storage.documentsSize documentsSizeRead.chars }
      if !documentsSizeRead.complete 8 then .ok (.readError, storage)
      else
        let fileSize := ((world.files storage.termOffsetsPath).getD []).length
        let dictionary ← readTermOffsetsLoop world
          (fileSize + 1) storage.termOffsetDictionary documentsSizeRead.channel
        .ok (.ok, { storage with termOffsetDictionary := dictionary })

end IrsMachine
