import IrsMachine.Library.Except
import IrsMachine.Storage.Documents
import Mathlib.Data.List.Forall2

/-!
# Which calls succeed

A query reads a record of the terms file field by field, and for each entry a document. It
succeeds exactly if the two files go on for as long as the length fields in them say. A batch
is written exactly if the system takes every field of it in full.
-/

namespace IrsMachine
open Except

variable {world : World} {path termsPath documentsPath : Path}

def fileBytes (world : World) (path : Path) : Bytes := (world.files path).getD []

def HasBytes (world : World) (path : Path) (position count : Nat) : Prop :=
  count = 0 ∨ position + count ≤ (fileBytes world path).length

def uint64At (world : World) (path : Path) (position : Nat) : UInt64 :=
  uint64OfChars (((fileBytes world path).drop position).take 8)

def seekPosition (position : Nat) (offset : UInt64) : Nat :=
  if offset.toNat < 2 ^ 63 then offset.toNat else position

/-- So many entries stand at this position, and the documents at their offsets are whole. An
entry of a document that is too long ends after its offset. -/
def EntriesComplete (world : World) (termsPath documentsPath : Path) : Nat → Nat → Nat → Prop
  | 0, _, _ => True
  | left + 1, position, documentsPosition =>
    let document := seekPosition documentsPosition (uint64At world termsPath position)
    let docSize := (uint64At world documentsPath document).toNat
    let significancySize := (uint64At world termsPath (position + 8)).toNat
    HasBytes world termsPath position 8 ∧ HasBytes world documentsPath document 8 ∧
      if docSize > intMax then EntriesComplete world termsPath documentsPath left (position + 8)
        (document + 8)
      else
        HasBytes world documentsPath (document + 8) docSize ∧
          HasBytes world termsPath (position + 8) 8 ∧
          HasBytes world termsPath (position + 16) significancySize ∧
          EntriesComplete world termsPath documentsPath left (position + 16 + significancySize)
            (document + 8 + docSize)

def RecordComplete (world : World) (termsPath documentsPath : Path) (termOffset : UInt64) : Prop :=
  let position := seekPosition 0 termOffset
  let termSize := (uint64At world termsPath position).toNat
  let docsWithTerm := (uint64At world termsPath (position + 8 + termSize)).toNat
  HasBytes world termsPath position 8 ∧ HasBytes world termsPath (position + 8) termSize ∧
    HasBytes world termsPath (position + 8 + termSize) 8 ∧
    EntriesComplete world termsPath documentsPath docsWithTerm (position + 16 + termSize) 0

/-! ### Reads -/

def openAt (world : World) (path : Path) (position : Nat) : Option IrsIoChannel :=
  (world.files path).map fun _ => { path, position }

theorem openAt_zero (world : World) (path : Path) :
    irsIoNewChannelRead world path = openAt world path 0 := rfl

theorem seek_openAt (position : Nat) (offset : UInt64) :
    irsIoChannelSeek (openAt world path position) offset =
      openAt world path (seekPosition position offset) := by
  unfold irsIoChannelSeek openAt seekPosition
  cases world.files path with
  | none => rfl
  | some file =>
    simp only [Option.map_some]
    split <;> rfl

structure Reads (world : World) (path : Path) (position count : Nat) : Prop where
  complete : (irsIoChannelReadChars world (openAt world path position) count).complete count = true
  chars : (irsIoChannelReadChars world (openAt world path position) count).chars =
    ((fileBytes world path).drop position).take count
  channel : (irsIoChannelReadChars world (openAt world path position) count).channel =
    openAt world path (position + count)

theorem reads_of_has {position count : Nat} (present : (world.files path).isSome)
    (has : HasBytes world path position count) :
    Reads world path position count := by
  obtain ⟨file, contents⟩ := Option.isSome_iff_exists.mp present
  have opened : ∀ position, openAt world path position = some { path, position } :=
    fun position => by rw [openAt, contents]; rfl
  simp only [HasBytes, fileBytes, contents, Option.getD_some] at has
  by_cases nothing : count = 0
  · subst nothing
    constructor <;> simp [opened, irsIoChannelReadChars, ReadChars.complete]
  · have length : ((file.drop position).take count).length = count := by
      rw [List.length_take, List.length_drop]
      omega
    have goesOn : (file.drop position).take count ≠ [] := by
      intro empty
      rw [empty] at length
      exact nothing length.symm
    constructor
    · simp only [opened, irsIoChannelReadChars, ReadChars.complete, contents, Option.getD_some,
        if_neg nothing, if_neg goesOn, length, decide_eq_true_eq, true_and]
    · simp only [opened, irsIoChannelReadChars, fileBytes, contents, Option.getD_some,
        if_neg nothing]
    · simp only [opened, irsIoChannelReadChars, contents, Option.getD_some, if_neg nothing, length]

theorem has_of_complete {position count : Nat}
    (complete : (irsIoChannelReadChars world (openAt world path position) count).complete count =
      true) :
    HasBytes world path position count := by
  cases contents : world.files path with
  | none => simp [openAt, contents, ReadChars.complete, irsIoChannelReadChars] at complete
  | some file =>
    by_cases nothing : count = 0
    · exact .inl nothing
    · simp only [openAt, contents, Option.map_some, ReadChars.complete, irsIoChannelReadChars,
        if_neg nothing, Option.getD_some, decide_eq_true_eq, List.length_take,
        List.length_drop] at complete
      refine .inr ?_
      rw [fileBytes, contents, Option.getD_some]
      omega

theorem read_cases (present : (world.files path).isSome) (position count : Nat) :
    HasBytes world path position count ∧ Reads world path position count ∨
      ¬ HasBytes world path position count ∧
        (irsIoChannelReadChars world (openAt world path position) count).complete count =
          false := by
  by_cases has : HasBytes world path position count
  · exact .inl ⟨has, reads_of_has present has⟩
  · refine .inr ⟨has, ?_⟩
    by_contra complete
    exact has (has_of_complete (by simpa using complete))

/-- A length field is only there if the file is. -/
theorem read_eight_cases (world : World) (path : Path) (position : Nat) :
    (HasBytes world path position 8 ∧ Reads world path position 8) ∧ (world.files path).isSome ∨
      ¬ HasBytes world path position 8 ∧
        (irsIoChannelReadChars world (openAt world path position) 8).complete 8 = false := by
  cases contents : world.files path with
  | some file =>
    have present : (world.files path).isSome := by
      rw [contents]
      rfl
    rcases read_cases present position 8 with found | missing
    · exact .inl ⟨found, rfl⟩
    · exact .inr missing
  | none =>
    refine .inr ⟨?_, by rw [openAt, contents]; rfl⟩
    rintro (zero | inside)
    · cases zero
    · rw [fileBytes, contents, Option.getD_none, List.length_nil] at inside
      omega

/-! ### The record -/

theorem uint64OfChars_at (position : Nat) :
    uint64OfChars (((fileBytes world path).drop position).take 8) = uint64At world path position :=
  rfl

theorem readDocumentsLoop_isSome (present : (world.files termsPath).isSome)
    (left position position' : Nat) (documents : List Triple) :
    (readDocumentsLoop world left (openAt world termsPath position)
      (openAt world documentsPath position') documents).isSome ↔
      EntriesComplete world termsPath documentsPath left position position' := by
  induction left generalizing position position' documents with
  | zero => simp [readDocumentsLoop, EntriesComplete]
  | succ left ih =>
    unfold readDocumentsLoop EntriesComplete
    dsimp only
    rcases read_cases present position 8 with ⟨has, offset⟩ | ⟨short, offset⟩
    case inr => simp [offset, short]
    simp only [offset.complete, offset.chars, offset.channel, uint64OfChars_at, seek_openAt, has,
      Bool.not_true, Bool.false_eq_true, if_false, true_and]
    generalize seekPosition position' (uint64At world termsPath position) = document
    rcases read_eight_cases world documentsPath
      document with ⟨⟨has, size⟩, documentsPresent⟩ | ⟨short, size⟩
    case inr => simp [size, short]
    simp only [size.complete, size.chars, size.channel, uint64OfChars_at, has, Bool.not_true,
      Bool.false_eq_true, if_false, true_and]
    generalize (uint64At world documentsPath document).toNat = docSize
    by_cases tooLong : docSize > intMax
    · rw [if_pos tooLong, if_pos tooLong]
      exact ih ..
    rw [if_neg tooLong, if_neg tooLong]
    rcases read_cases documentsPresent (document + 8) docSize with ⟨has, text⟩ | ⟨short, text⟩
    case inr => simp [text, short]
    simp only [text.complete, text.channel, has, Bool.not_true, Bool.false_eq_true,
      if_false, true_and]
    rcases read_cases present (position + 8) 8 with ⟨has, length⟩ | ⟨short, length⟩
    case inr => simp [length, short]
    simp only [length.complete, length.chars, length.channel, uint64OfChars_at, has, Bool.not_true,
      Bool.false_eq_true, if_false, true_and]
    generalize (uint64At world termsPath (position + 8)).toNat = significancySize
    rcases read_cases present (position + 8 + 8)
      significancySize with ⟨has, significancy⟩ | ⟨short, significancy⟩
    case inr => simp [significancy, short]
    simp only [significancy.complete, significancy.channel, has, Bool.not_true, Bool.false_eq_true,
      if_false, true_and]
    exact ih ..

/-- A query of a record succeeds exactly if the record is complete. -/
theorem irsStorageReadDocumentsByTerm_isSome (storage : IrsStorage) (world : World)
    (termOffset : UInt64) :
    (irsStorageReadDocumentsByTerm storage world termOffset).isSome ↔
      RecordComplete world storage.termsPath storage.documentsPath termOffset := by
  unfold irsStorageReadDocumentsByTerm RecordComplete
  dsimp only
  simp only [openAt_zero, seek_openAt]
  generalize seekPosition 0 termOffset = position
  rcases read_eight_cases world storage.termsPath
    position with ⟨⟨has, size⟩, present⟩ | ⟨short, size⟩
  case inr => simp [size, short]
  simp only [size.complete, size.chars, size.channel, uint64OfChars_at, has, Bool.not_true,
    Bool.false_eq_true, if_false, true_and]
  generalize (uint64At world storage.termsPath position).toNat = termSize
  rcases read_cases present (position + 8) termSize with ⟨has, term⟩ | ⟨short, term⟩
  case inr => simp [term, short]
  simp only [term.complete, term.channel, has, Bool.not_true, Bool.false_eq_true,
    if_false, true_and]
  rcases read_cases present (position + 8 + termSize) 8 with ⟨has, docs⟩ | ⟨short, docs⟩
  case inr => simp [docs, short]
  simp only [docs.complete, docs.chars, docs.channel, uint64OfChars_at, has, Bool.not_true,
    Bool.false_eq_true, if_false, true_and]
  rw [readDocumentsLoop_isSome present]
  have next : position + 8 + termSize + 8 = position + 16 + termSize := by omega
  rw [next]

/-! ### Queries -/

/-- Where the record of a term is, if it has one. -/
def termOffset (system : System) (term : Bytes) : Except Fault (Option UInt64) :=
  irsDictionaryGet system.storage.termOffsetDictionary term >>= firstOffset

/-- The term has no record, or one that is complete. -/
def TermReadable (system : System) (term : Bytes) : Prop :=
  ∀ offset, termOffset system term = .ok (some offset) →
    RecordComplete system.world system.storage.termsPath system.storage.documentsPath offset

def Served (system : System) (term : Bytes) (item : Option (List Triple)) : Prop :=
  (termOffset system term = .ok none ∧ item = none) ∨
    ∃ offset triples, termOffset system term = .ok (some offset) ∧
      irsStorageReadDocumentsByTerm system.storage system.world offset = some triples ∧
      item = some triples

theorem Served.readable {system : System} {term : Bytes} {item : Option (List Triple)}
    (served : Served system term item) :
    TermReadable system term := by
  intro offset found
  rcases served with ⟨absent, -⟩ | ⟨offset', triples, found', read, -⟩
  · rw [absent] at found
    cases found
  · rw [found'] at found
    cases found
    rw [← irsStorageReadDocumentsByTerm_isSome, read]
    rfl

/-- All terms were served, or those before one whose record is not complete. -/
def QueryEnds (system : System) (terms : List Bytes) (answer answer' : Answer) : Prop :=
  (answer'.status = answer.status ∧ ∃ list, answer'.documentsList = answer.documentsList ++ list ∧
    List.Forall₂ (Served system) terms list) ∨
  (answer'.status = .readError ∧ ∃ before term after list, terms = before ++ term :: after ∧
    answer'.documentsList = answer.documentsList ++ list ∧
    List.Forall₂ (Served system) before list ∧
    ¬ TermReadable system term)

theorem QueryEnds.cons {system : System} {term : Bytes} {terms : List Bytes}
    {answer middle answer' : Answer} {item : Option (List Triple)}
    (ends : QueryEnds system terms middle answer') (served : Served system term item)
    (status : middle.status = answer.status)
    (list : middle.documentsList = answer.documentsList ++ [item]) :
    QueryEnds system (term :: terms) answer answer' := by
  rcases ends with ⟨same, rest, all, each⟩ | ⟨error, before, failing, after, rest, split,
    all, each, fails⟩
  · refine .inl ⟨same.trans status, item :: rest, ?_, .cons served each⟩
    rw [all, list, List.append_assoc, List.singleton_append]
  · refine .inr ⟨error, term :: before, failing, after, item :: rest, ?_, ?_,
      .cons served each, fails⟩
    · rw [split, List.cons_append]
    · rw [all, list, List.append_assoc, List.singleton_append]

theorem getDocumentsLoop_ends {system : System} {terms : List Bytes} {answer answer' : Answer}
    (run : getDocumentsLoop system terms answer = .ok answer') :
    QueryEnds system terms answer answer' := by
  induction terms generalizing answer with
  | nil =>
    cases run
    exact .inl ⟨rfl, [], (List.append_nil _).symm, .nil⟩
  | cons term terms ih =>
    unfold getDocumentsLoop at run
    obtain ⟨list, get, run⟩ := bind_ok.mp run
    obtain ⟨first, head, run⟩ := bind_ok.mp run
    have found : termOffset system term = .ok first := bind_ok.mpr ⟨list, get, head⟩
    split at run
    · exact (ih run).cons (.inl ⟨found, rfl⟩) rfl rfl
    · rename_i offset
      dsimp only at run
      split at run
      · rename_i failed
        cases run
        refine .inr ⟨rfl, [], term, terms, [], rfl, (List.append_nil _).symm, .nil,
          fun readable => ?_⟩
        have complete := readable offset found
        rw [← irsStorageReadDocumentsByTerm_isSome, failed] at complete
        cases complete
      · rename_i triples read
        exact (ih run).cons (.inr ⟨offset, triples, found, read, rfl⟩) rfl rfl

/-! ### Writing the documents -/

/-- The system takes these fields, the first of them with its answer to the write with this
number. A write of nothing is not counted. -/
def WritesComplete (outcomes : Nat → WriteOutcome) : Nat → Nat → List Bytes → Prop
  | _, _, [] => True
  | writes, position, field :: fields =>
    if field = [] then WritesComplete outcomes writes position fields
    else
      (outcomes writes).status = .normal ∧ field.length ≤ (outcomes writes).written ∧
        position + field.length ≤ maxFileSize ∧
        WritesComplete outcomes (writes + 1) (position + field.length) fields

theorem writeDocumentsField_cases (outcomes : Nat → WriteOutcome) (writer : DocumentsWriter)
    (chars : Bytes) :
    (∃ writer', writeDocumentsField outcomes writer chars = (true, writer') ∧
      ∀ fields, WritesComplete outcomes writer.world.writes writer.channel.position
        (chars :: fields) ↔
        WritesComplete outcomes writer'.world.writes writer'.channel.position fields) ∨
    (∃ writer', writeDocumentsField outcomes writer chars = (false, writer')) ∧
      ∀ fields, ¬ WritesComplete outcomes writer.world.writes writer.channel.position
        (chars :: fields) := by
  unfold writeDocumentsField
  dsimp only
  by_cases nothing : chars = []
  · refine .inl ⟨_, if_pos ?_, fun fields => ?_⟩
    · simp [irsIoChannelWriteChars, Written.complete, nothing]
    · simp [WritesComplete, irsIoChannelWriteChars, nothing]
  · have goesOn := List.length_pos_iff.mpr nothing
    by_cases complete : (irsIoChannelWriteChars outcomes writer.world writer.channel chars).complete
      chars.length = true
    · refine .inl ⟨_, if_pos complete, fun fields => ?_⟩
      simp only [Written.complete, irsIoChannelWriteChars, if_neg nothing,
        decide_eq_true_eq] at complete
      obtain ⟨normal, all⟩ := complete
      simp only [WritesComplete, irsIoChannelWriteChars, if_neg nothing, normal, all, true_and]
      constructor
      · exact fun enough => enough.2.2
      · exact fun rest => ⟨by omega, by omega, rest⟩
    · refine .inr ⟨⟨_, if_neg complete⟩, fun fields enough => complete ?_⟩
      simp only [WritesComplete, if_neg nothing] at enough
      obtain ⟨normal, taken, small, -⟩ := enough
      simp only [Written.complete, irsIoChannelWriteChars, if_neg nothing, decide_eq_true_eq]
      exact ⟨normal, by omega⟩

theorem writeDocumentsLoop_iff (outcomes : Nat → WriteOutcome) (writer : DocumentsWriter)
    (documents : List Bytes) :
    (writeDocumentsLoop outcomes writer documents).1 = true ↔
      WritesComplete outcomes writer.world.writes writer.channel.position
        (documents.flatMap documentFields) := by
  induction documents generalizing writer with
  | nil => simp [writeDocumentsLoop, WritesComplete]
  | cons document documents ih =>
    rw [List.flatMap_cons, documentFields, List.cons_append, List.cons_append, List.nil_append]
    unfold writeDocumentsLoop irsStorageWriteDocument
    dsimp only
    rw [take_irsStrLen]
    rcases writeDocumentsField_cases outcomes
        { writer with documentOffsetMap := writer.documentOffsetMap ++
          [(document, writer.storage.documentsSize)] }
        (uint64Chars (UInt64.ofNat (irsStrLen document))) with ⟨middle, size,
          goesOn⟩ | ⟨⟨middle, size⟩, stops⟩
    case inr =>
      rw [size]
      simpa using stops _
    rw [size, goesOn]
    dsimp only
    rcases writeDocumentsField_cases outcomes middle
      (cString document) with ⟨next, text, goesOn'⟩ | ⟨⟨next, text⟩, stops⟩
    case inr =>
      rw [text]
      simpa using stops _
    rw [text, goesOn']
    exact ih next

/-- A batch is written exactly if the system takes every field. -/
theorem irsStorageWriteDocuments_iff (outcomes : Nat → WriteOutcome) (storage : IrsStorage)
    (world : World) (documents : List Bytes) :
    (irsStorageWriteDocuments outcomes storage world documents).1 = .ok ↔
      WritesComplete outcomes world.writes 0 (documents.flatMap documentFields) := by
  have loop := writeDocumentsLoop_iff outcomes
    { storage, channel := (irsIoNewChannelWrite world storage.documentsPath).1,
      world := (irsIoNewChannelWrite world storage.documentsPath).2,
      documentOffsetMap := [] } documents
  unfold irsStorageWriteDocuments
  dsimp only
  rw [show WritesComplete outcomes world.writes 0 _ ↔ _ from loop.symm]
  split
  · rename_i written
    simp [written]
  · rename_i written
    simp [written]

end IrsMachine
