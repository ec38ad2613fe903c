import IrsMachine.Storage.Records

/-!
# The file of term offsets

What `irs_storage_save` writes, and what `irs_storage_load` makes of a file that is cut in its
header.
-/

namespace IrsMachine
open IrsDictionaryNode Except Multimap

/-! ### Saving -/

def savedPair (node : IrsDictionaryNode TermOffsetValue) : Option (UInt64 × Bytes) :=
  match node.dataList with
  | some (.offset termOffset :: .term term :: _) => some (termOffset, term)
  | _ => none

def pairRecord (pair : UInt64 × Bytes) : Bytes := record pair.2 ++ uint64Chars pair.1

def savedRecord (node : IrsDictionaryNode TermOffsetValue) : Bytes :=
  ((savedPair node).map pairRecord).getD []

def savedPairs (dictionary : IrsDictionary TermOffsetValue) : List (UInt64 × Bytes) :=
  (irsDictionaryVisitDownNodes dictionary).filterMap fun visit => savedPair visit.2

def savedHeader (storage : IrsStorage) : Bytes :=
  uint64Chars storage.termsSize ++ uint64Chars storage.documentsSize

def savedFile (storage : IrsStorage) : Bytes :=
  savedHeader storage ++ (savedPairs storage.termOffsetDictionary).flatMap pairRecord

theorem flatMap_savedRecord (visits : List (Address × IrsDictionaryNode TermOffsetValue)) :
    visits.flatMap (fun visit => savedRecord visit.2) =
      (visits.filterMap fun visit => savedPair visit.2).flatMap pairRecord := by
  induction visits with
  | nil => rfl
  | cons visit visits ih =>
    rw [List.flatMap_cons, List.filterMap_cons, ih, savedRecord]
    cases savedPair visit.2 with
    | none => rfl
    | some pair => rw [Option.map_some, Option.getD_some, List.flatMap_cons]

@[simp] theorem length_savedHeader (storage : IrsStorage) : (savedHeader storage).length = 16 := by
  simp [savedHeader]

def Output (path : Path) (output : IrsIoChannel × World) (written : Bytes) : Prop :=
  output.1.path = path ∧ AtEnd output.1 output.2 written

theorem Output.write {outcomes : Nat → WriteOutcome} {path : Path} {channel : IrsIoChannel}
    {world : World} {written chars : Bytes} (before : Output path (channel, world) written)
    (complete : (irsIoChannelWriteChars outcomes world channel chars).complete chars.length =
      true) :
    Output path ((irsIoChannelWriteChars outcomes world channel chars).channel,
      (irsIoChannelWriteChars outcomes world channel chars).world) (written ++ chars) :=
  ⟨(write_path ..).trans before.1, (write_complete before.2 complete).2⟩

theorem writeTermOffsetsField_ok {outcomes : Nat → WriteOutcome} {path : Path}
    {channel : IrsIoChannel} {world : World} {output : IrsIoChannel × World} {written chars : Bytes}
    (before : Output path (channel, world) written)
    (run : writeTermOffsetsField outcomes channel world chars = .ok output) :
    Output path output (written ++ chars) := by
  simp only [writeTermOffsetsField] at run
  split at run
  · rename_i complete
    cases run
    exact before.write complete
  · cases run

theorem irsStorageWriteTermOffsets_ok {outcomes : Nat → WriteOutcome} {path : Path}
    {output output' : IrsIoChannel × World} {node : IrsDictionaryNode TermOffsetValue}
    {written : Bytes} (before : Output path output written)
    (run : irsStorageWriteTermOffsets outcomes output node = .ok output') :
    Output path output' (written ++ savedRecord node) := by
  unfold irsStorageWriteTermOffsets at run
  split at run
  · rename_i none
    cases run
    simpa [savedRecord, savedPair, none] using before
  · rename_i list data
    split at run
    · rename_i termOffset term rest
      obtain ⟨⟨channel₁, world₁⟩, one, run⟩ := bind_ok.mp run
      obtain ⟨⟨channel₂, world₂⟩, two, three⟩ := bind_ok.mp run
      have one := writeTermOffsetsField_ok before one
      rw [take_irsStrLen] at two
      have two := writeTermOffsetsField_ok one two
      have three := writeTermOffsetsField_ok two three
      simp only [savedRecord, savedPair, data, Option.map_some, Option.getD_some, pairRecord,
        record, ← List.append_assoc]
      exact three
    · cases run

theorem writeAllTermOffsets_ok {outcomes : Nat → WriteOutcome} {path : Path}
    {visits : List (Address × IrsDictionaryNode TermOffsetValue)}
    {output output' : IrsIoChannel × World} {written : Bytes} (before : Output path output written)
    (run : visits.foldlM (fun output visit => irsStorageWriteTermOffsets outcomes output visit.2)
      output = .ok output') :
    Output path output' (written ++ visits.flatMap fun visit => savedRecord visit.2) := by
  induction visits generalizing output written with
  | nil =>
    cases run
    simpa using before
  | cons visit visits ih =>
    obtain ⟨middle, step, rest⟩ := foldlM_cons_ok.mp run
    rw [List.flatMap_cons, ← List.append_assoc]
    exact ih (irsStorageWriteTermOffsets_ok before step) rest

theorem irsStorageSave_ok {outcomes : Nat → WriteOutcome} {system : System} {world : World}
    (run : irsStorageSave outcomes system = .ok (.ok, world)) :
    world.files system.storage.termOffsetsPath = some (savedFile system.storage) ∧
      (savedFile system.storage).length ≤ maxFileSize := by
  simp only [irsStorageSave] at run
  have opened : Output system.storage.termOffsetsPath
      (irsIoNewChannelWrite system.world system.storage.termOffsetsPath) [] :=
    ⟨rfl, atEnd_open _ _⟩
  split at run
  · cases run
  · rename_i first
    rw [Bool.not_eq_true', Bool.not_eq_false,
      ← length_uint64Chars system.storage.termsSize] at first
    have one := opened.write first
    split at run
    · cases run
    · rename_i second
      rw [Bool.not_eq_true', Bool.not_eq_false,
        ← length_uint64Chars system.storage.documentsSize] at second
      have two := one.write second
      obtain ⟨⟨channel, world'⟩, records, run⟩ := bind_ok.mp run
      cases run
      obtain ⟨path, atEnd⟩ := writeAllTermOffsets_ok two records
      rw [List.nil_append, flatMap_savedRecord] at atEnd
      have contents := atEnd.contents
      rw [path] at contents
      exact ⟨contents, atEnd.small⟩

/-! ### Loading a header -/

theorem read_eight (world : World) (path : Path) (position : Nat) :
    (irsIoChannelReadChars world (some { path, position }) 8).chars =
      (((world.files path).getD []).drop position).take 8 := by
  simp [irsIoChannelReadChars]

theorem read_eight_complete (world : World) (path : Path) (position : Nat) :
    (irsIoChannelReadChars world (some { path, position }) 8).complete 8 = true ↔
      position + 8 ≤ ((world.files path).getD []).length := by
  have chars := read_eight world path position
  simp only [ReadChars.complete, decide_eq_true_eq, chars, List.length_take, List.length_drop]
  constructor
  · rintro ⟨-, lengths⟩
    omega
  · intro inside
    refine ⟨?_, by omega⟩
    simp only [irsIoChannelReadChars] at chars ⊢
    have goesOn : (((world.files path).getD []).drop position).take 8 ≠ [] := by
      rw [← List.length_pos_iff, List.length_take, List.length_drop]
      omega
    rw [if_neg (by decide), if_neg goesOn]

theorem opened_file {world : World} {path : Path} {file : Bytes}
    (contents : world.files path = some file) :
    irsIoNewChannelRead world path = some { path, position := 0 } := by
  simp [irsIoNewChannelRead, contents]

/-- A file that ends in its header is refused, after the numbers took over its bytes. -/
theorem irsStorageLoad_short {storage : IrsStorage} {world : World} {file : Bytes}
    (contents : world.files storage.termOffsetsPath = some file) (short : file.length < 16) :
    irsStorageLoad storage world = .ok (.readError, { storage with
      termsSize := uint64Overwrite storage.termsSize (file.take 8)
      documentsSize := uint64Overwrite storage.documentsSize (file.drop 8) }) := by
  have opened := opened_file contents
  have first := read_eight world storage.termOffsetsPath 0
  have firstComplete := read_eight_complete world storage.termOffsetsPath 0
  rw [contents, Option.getD_some, List.drop_zero] at first
  rw [contents, Option.getD_some, Nat.zero_add] at firstComplete
  simp only [irsStorageLoad, opened]
  by_cases eight : 8 ≤ file.length
  · have complete := firstComplete.mpr eight
    obtain ⟨path, position, same, -, -, next⟩ := read_complete complete
    obtain ⟨rfl, rfl⟩ : storage.termOffsetsPath = path ∧ 0 = position := by simpa using same
    have second := read_eight world storage.termOffsetsPath 8
    have secondComplete := read_eight_complete world storage.termOffsetsPath 8
    rw [contents, Option.getD_some] at second secondComplete
    have incomplete :
        (irsIoChannelReadChars world (some { path := storage.termOffsetsPath, position := 8 })
          8).complete 8 = false := by
      rw [Bool.eq_false_iff]
      exact fun complete => absurd (secondComplete.mp complete) (by omega)
    rw [List.take_of_length_le (by rw [List.length_drop]; omega)] at second
    simp only [complete, next, Nat.zero_add, incomplete, Bool.not_true, Bool.not_false,
      Bool.false_eq_true, if_false, if_true, first, second]
  · have incomplete :
        (irsIoChannelReadChars world (some { path := storage.termOffsetsPath, position := 0 })
          8).complete 8 = false := by
      rw [Bool.eq_false_iff]
      exact fun complete => absurd (firstComplete.mp complete) eight
    have nothing : file.drop 8 = [] := List.drop_of_length_le (by omega)
    have kept : uint64Overwrite storage.documentsSize [] = storage.documentsSize := by
      simp [uint64Overwrite]
    simp only [incomplete, Bool.not_false, if_true, first, nothing, kept]

/-- The two reads of a whole header. -/
theorem read_header {world : World} {path : Path} {file : Bytes}
    (contents : world.files path = some file) (long : 16 ≤ file.length) :
    (irsIoChannelReadChars world (some { path, position := 0 }) 8).complete 8 = true ∧
    (irsIoChannelReadChars world (some { path, position := 0 }) 8).channel =
      some { path, position := 8 } ∧
    (irsIoChannelReadChars world (some { path, position := 8 }) 8).complete 8 = true ∧
    (irsIoChannelReadChars world (some { path, position := 8 }) 8).channel =
      some { path, position := 16 } := by
  have complete := read_eight_complete world path 0
  have complete' := read_eight_complete world path 8
  rw [contents, Option.getD_some] at complete complete'
  have complete := complete.mpr (by omega)
  have complete' := complete'.mpr (by omega)
  obtain ⟨_, _, same, -, -, next⟩ := read_complete complete
  cases same
  obtain ⟨_, _, same, -, -, next'⟩ := read_complete complete'
  cases same
  exact ⟨complete, next, complete', next'⟩

/-- Behind a whole header come the records. -/
theorem irsStorageLoad_header {storage : IrsStorage} {world : World} {file : Bytes}
    (contents : world.files storage.termOffsetsPath = some file) (long : 16 ≤ file.length) :
    irsStorageLoad storage world =
      (readTermOffsetsLoop world (file.length + 1) storage.termOffsetDictionary
        (some { path := storage.termOffsetsPath, position := 16 }) >>= fun dictionary =>
          .ok (.ok, { storage with
          termOffsetDictionary := dictionary
          termsSize := uint64OfChars (file.take 8)
          documentsSize := uint64OfChars ((file.drop 8).take 8) })) := by
  obtain ⟨complete, next, complete', next'⟩ := read_header contents long
  have first := read_eight world storage.termOffsetsPath 0
  have second := read_eight world storage.termOffsetsPath 8
  rw [contents, Option.getD_some] at first second
  rw [List.drop_zero] at first
  have size : (file.take 8).length = 8 := by rw [List.length_take]; omega
  have size' : ((file.drop 8).take 8).length = 8 := by
    rw [List.length_take, List.length_drop]; omega
  simp only [irsStorageLoad, opened_file contents, complete, complete', next, next', Bool.not_true,
    Bool.false_eq_true, if_false, first, second, uint64Overwrite_complete _ size,
    uint64Overwrite_complete _ size', contents,
    Option.getD_some]

end IrsMachine
