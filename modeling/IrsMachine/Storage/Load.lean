import IrsMachine.Storage.Save

/-!
# Reading the saved file back

A load appends the pairs of a saved file, in the order in which they were saved.
-/

namespace IrsMachine
open IrsDictionaryNode Except Multimap

theorem cString_cString (buffer : Bytes) : cString (cString buffer) = cString buffer :=
  cString_of_noNul (cString_noNul buffer)

@[simp] theorem irsStrLen_cString (buffer : Bytes) :
    irsStrLen (cString buffer) = irsStrLen buffer := by
  rw [irsStrLen, cString_cString, irsStrLen]

theorem length_pairRecord (pair : UInt64 × Bytes) :
    (pairRecord pair).length = 16 + irsStrLen pair.2 := by
  rw [pairRecord, List.length_append, length_record, length_uint64Chars]
  omega

def appendPairs (dictionary : IrsDictionary TermOffsetValue) (pairs : List (UInt64 × Bytes)) :
    Except Fault (IrsDictionary TermOffsetValue) :=
  pairs.foldlM (fun dictionary pair => appendPair dictionary pair.2 pair.1) dictionary

theorem append_read (dictionary : IrsDictionary TermOffsetValue) (term : Bytes) (offset : UInt64)
    (next : IrsDictionary TermOffsetValue → Except Fault (IrsDictionary TermOffsetValue)) :
    (do
      let first ← irsDictionaryAppend dictionary (cString term)
        (UInt64.ofNat (irsStrLen term)).toUInt32 (.offset offset)
      let second ← irsDictionaryAppend first.1 (cString term)
        (UInt64.ofNat (irsStrLen term)).toUInt32
        (.term (cString (cString term)))
      next second.1) = appendPair dictionary (cString term) offset >>= next := by
  have size : (UInt64.ofNat (irsStrLen term)).toUInt32 =
      UInt32.ofNat (irsStrLen (cString term)) := by
    rw [irsStrLen_cString]
    exact UInt32.toNat_inj.mp (by simp)
  simp only [appendPair, appendKey, size, cString_cString, bind_assoc, ok_bind]

/-- Behind the last record nothing is read. -/
theorem read_ended {world : World} {path : Path} {file : Bytes}
    (contents : world.files path = some file) :
    (irsIoChannelReadChars world (some { path, position := file.length }) 8).complete 8 =
      false := by
  rw [Bool.eq_false_iff]
  intro complete
  have inside := (read_eight_complete _ _ _).mp complete
  rw [contents, Option.getD_some] at inside
  omega

/-- The three reads that take a record. -/
theorem read_pairRecord {world : World} {path : Path} {before after : Bytes} {pair : UInt64 × Bytes}
    (contents : world.files path = some (before ++ pairRecord pair ++ after))
    (small : (before ++ pairRecord pair ++ after).length ≤ maxFileSize) :
    irsStrLen pair.2 < 2 ^ 64 ∧
    irsIoChannelReadChars world (some { path, position := before.length }) 8 =
      { status := .normal, chars := uint64Chars (UInt64.ofNat (irsStrLen pair.2)),
        channel := some { path, position := before.length + 8 } } ∧
    irsIoChannelReadChars world (some { path, position := before.length + 8 })
      (cString pair.2).length =
      { status := .normal, chars := cString pair.2,
        channel := some { path, position := before.length + 8 + (cString pair.2).length } } ∧
    irsIoChannelReadChars world
      (some { path, position := before.length + 8 + (cString pair.2).length }) 8 =
      { status := .normal, chars := uint64Chars pair.1,
        channel := some { path, position := (before ++ pairRecord pair).length } } := by
  have here : HoldsAt world path before.length (pairRecord pair) := holdsAt_of_append contents
  rw [pairRecord, record, List.append_assoc] at here
  have sizeRead := read_holds here.left
  have termRead := read_holds here.right.left
  have offsetRead := read_holds here.right.right
  rw [length_uint64Chars] at sizeRead offsetRead
  rw [length_uint64Chars] at termRead offsetRead
  have position : before.length + 8 + (cString pair.2).length + 8 =
      (before ++ pairRecord pair).length := by
    rw [List.length_append, length_pairRecord, irsStrLen]
    omega
  rw [position] at offsetRead
  refine ⟨?_, sizeRead, termRead, offsetRead⟩
  have : maxFileSize < 2 ^ 64 := by decide
  rw [List.length_append, List.length_append, length_pairRecord] at small
  omega

/-- The loop over the records of a file, to its end. -/
theorem readTermOffsetsLoop_records {world : World} {path : Path} {file before : Bytes} {fuel : Nat}
    {dictionary : IrsDictionary TermOffsetValue} {pairs : List (UInt64 × Bytes)}
    (contents : world.files path = some file) (split : file = before ++ pairs.flatMap pairRecord)
    (small : file.length ≤ maxFileSize) (enough : pairs.length < fuel) :
    readTermOffsetsLoop world fuel dictionary (some { path, position := before.length }) =
      appendPairs dictionary (pairs.map fun pair => (pair.1, cString pair.2)) := by
  induction pairs generalizing fuel dictionary before with
  | nil =>
    obtain ⟨fuel, rfl⟩ : ∃ n, fuel = n + 1 := ⟨fuel - 1, by rw [List.length_nil] at enough; omega⟩
    rw [List.flatMap_nil, List.append_nil] at split
    subst split
    simp only [readTermOffsetsLoop, read_ended contents, Bool.not_false, if_true]
    rfl
  | cons pair pairs ih =>
    obtain ⟨fuel, rfl⟩ : ∃ n, fuel = n + 1 := ⟨fuel - 1, by omega⟩
    rw [List.length_cons] at enough
    rw [List.flatMap_cons, ← List.append_assoc] at split
    obtain ⟨fits, sizeRead, termRead, offsetRead⟩ :=
      read_pairRecord (split ▸ contents) (split ▸ small)
    simp only [readTermOffsetsLoop, sizeRead, termRead, offsetRead, complete_eight,
      length_uint64Chars, uint64OfChars_uint64Chars, toNat_record_size fits,
      ReadChars.complete_normal, Bool.not_true, Bool.false_eq_true, if_false]
    refine (append_read dictionary pair.2 pair.1 fun next =>
      readTermOffsetsLoop world fuel next
        (some { path, position := (before ++ pairRecord pair).length })).trans ?_
    rw [List.map_cons, appendPairs, List.foldlM_cons]
    congr 1
    funext next
    exact ih split (by omega)

theorem length_savedFile (storage : IrsStorage) :
    (savedPairs storage.termOffsetDictionary).length + 16 ≤ (savedFile storage).length := by
  rw [savedFile, List.length_append, length_savedHeader]
  generalize savedPairs storage.termOffsetDictionary = pairs
  induction pairs with
  | nil => simp
  | cons pair pairs ih =>
    rw [List.flatMap_cons, List.length_append, length_pairRecord, List.length_cons]
    omega

theorem irsStorageLoad_saved {storage saved : IrsStorage} {world : World}
    (contents : world.files storage.termOffsetsPath = some (savedFile saved))
    (small : (savedFile saved).length ≤ maxFileSize) :
    irsStorageLoad storage world =
      (appendPairs storage.termOffsetDictionary
        ((savedPairs saved.termOffsetDictionary).map fun pair => (pair.1, cString pair.2))
        >>= fun dictionary => .ok (.ok, { storage with
          termOffsetDictionary := dictionary
          termsSize := saved.termsSize
          documentsSize := saved.documentsSize })) := by
  have size := length_savedFile saved
  have loop : readTermOffsetsLoop world ((savedFile saved).length + 1) storage.termOffsetDictionary
      (some { path := storage.termOffsetsPath, position := (savedHeader saved).length }) = _ :=
    readTermOffsetsLoop_records contents rfl small (by omega)
  rw [length_savedHeader] at loop
  have terms : (savedFile saved).take 8 = uint64Chars saved.termsSize := by
    rw [savedFile, savedHeader, List.append_assoc, List.take_left' (length_uint64Chars _)]
  have documents : ((savedFile saved).drop 8).take 8 = uint64Chars saved.documentsSize := by
    rw [savedFile, savedHeader, List.append_assoc, List.drop_left' (length_uint64Chars _),
      List.take_left' (length_uint64Chars _)]
  rw [irsStorageLoad_header contents (by omega), loop, terms, documents, uint64OfChars_uint64Chars,
    uint64OfChars_uint64Chars]

end IrsMachine
