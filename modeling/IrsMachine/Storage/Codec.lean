import IrsMachine.Storage.Load

/-!
# Saving and loading as a codec

A save comes to its end when the system takes what it writes, and a load of the file appends what
the visited nodes hold, in the order of the visit and nothing else.
-/

namespace IrsMachine
open IrsDictionaryNode Except Multimap

def Codable (dictionary : IrsDictionary TermOffsetValue) : Prop :=
  ∀ visit ∈ irsDictionaryVisitDownNodes dictionary, ∀ list, visit.2.dataList = some list →
    ∃ offset term rest, list = .offset offset :: .term term :: rest ∧ ∀ ch ∈ term, ch ≠ 0

/-- The system takes every write in full, as long as the file does not get too long. -/
def TakesAll (outcomes : Nat → WriteOutcome) : Prop :=
  ∀ write, (outcomes write).status = .normal ∧ maxFileSize ≤ (outcomes write).written

section
variable {outcomes : Nat → WriteOutcome}

theorem write_takesAll {world : World} {channel : IrsIoChannel} {written : Bytes} (chars : Bytes)
    (takes : TakesAll outcomes) (atEnd : AtEnd channel world written)
    (small : (written ++ chars).length ≤ maxFileSize) :
    (irsIoChannelWriteChars outcomes world channel chars).complete chars.length = true := by
  obtain ⟨status, most⟩ := takes world.writes
  rw [List.length_append] at small
  unfold irsIoChannelWriteChars
  split
  · rename_i nothing
    simp [Written.complete, nothing]
  · simp only [Written.complete, decide_eq_true_eq, status, atEnd.position, true_and]
    omega

theorem writeTermOffsetsField_takesAll {path : Path} {channel : IrsIoChannel} {world : World}
    {written chars : Bytes} (takes : TakesAll outcomes)
    (before : Output path (channel, world) written)
    (small : (written ++ chars).length ≤ maxFileSize) :
    ∃ output, writeTermOffsetsField outcomes channel world chars = .ok output ∧
      Output path output (written ++ chars) := by
  have run : ∃ output, writeTermOffsetsField outcomes channel world chars = .ok output := by
    unfold writeTermOffsetsField
    exact ⟨_, if_pos (write_takesAll chars takes before.2 small)⟩
  obtain ⟨output, run⟩ := run
  exact ⟨output, run, writeTermOffsetsField_ok before run⟩

theorem irsStorageWriteTermOffsets_takesAll {path : Path} {output : IrsIoChannel × World}
    {node : IrsDictionaryNode TermOffsetValue} {written : Bytes} (takes : TakesAll outcomes)
    (before : Output path output written)
    (codable : ∀ list, node.dataList = some list →
      ∃ offset term rest, list = .offset offset :: .term term :: rest)
    (small : (written ++ savedRecord node).length ≤ maxFileSize) :
    ∃ output', irsStorageWriteTermOffsets outcomes output node = .ok output' := by
  unfold irsStorageWriteTermOffsets
  split
  · exact ⟨output, rfl⟩
  · rename_i list data
    obtain ⟨offset, term, rest, rfl⟩ := codable list data
    simp only [savedRecord, savedPair, data, Option.map_some, Option.getD_some, pairRecord, record,
      List.length_append] at small
    obtain ⟨⟨channel₁, world₁⟩, one, after₁⟩ := writeTermOffsetsField_takesAll takes before
      (show (written ++ uint64Chars (UInt64.ofNat (irsStrLen term))).length ≤
        maxFileSize by rw [List.length_append]; omega)
    obtain ⟨⟨channel₂, world₂⟩, two, after₂⟩ := writeTermOffsetsField_takesAll takes after₁
      (show (written ++ uint64Chars (UInt64.ofNat (irsStrLen term)) ++ term.take
        (irsStrLen term)).length ≤ maxFileSize by
        rw [take_irsStrLen, List.length_append, List.length_append]; omega)
    obtain ⟨output', three, -⟩ := writeTermOffsetsField_takesAll takes after₂
      (show (written ++ uint64Chars (UInt64.ofNat (irsStrLen term)) ++ term.take (irsStrLen term) ++
        uint64Chars offset).length ≤
        maxFileSize by
          rw [take_irsStrLen, List.length_append, List.length_append, List.length_append]
          omega)
    exact ⟨output', by simp only [one, two, three, ok_bind]⟩

theorem writeAllTermOffsets_takesAll {path : Path}
    {visits : List (Address × IrsDictionaryNode TermOffsetValue)} {output : IrsIoChannel × World}
    {written : Bytes} (takes : TakesAll outcomes) (before : Output path output written)
    (codable : ∀ visit ∈ visits, ∀ list, visit.2.dataList = some list →
      ∃ offset term rest, list = .offset offset :: .term term :: rest)
    (small : (written ++ visits.flatMap fun visit => savedRecord visit.2).length ≤ maxFileSize) :
    ∃ output', visits.foldlM
      (fun output visit => irsStorageWriteTermOffsets outcomes output visit.2) output =
        .ok output' := by
  induction visits generalizing output written with
  | nil => exact ⟨output, rfl⟩
  | cons visit visits ih =>
    rw [List.flatMap_cons, ← List.append_assoc] at small
    have first : (written ++ savedRecord visit.2).length ≤ maxFileSize := by
      rw [List.length_append] at small
      omega
    obtain ⟨middle, step⟩ :=
      irsStorageWriteTermOffsets_takesAll takes before (codable visit List.mem_cons_self) first
    obtain ⟨output', rest⟩ := ih (irsStorageWriteTermOffsets_ok before step)
      (fun visit member => codable visit (List.mem_cons_of_mem _ member)) small
    exact ⟨output', foldlM_cons_ok.mpr ⟨middle, step, rest⟩⟩

theorem irsStorageSave_takesAll {system : System} (takes : TakesAll outcomes)
    (codable : Codable system.storage.termOffsetDictionary)
    (small : (savedFile system.storage).length ≤ maxFileSize) :
    ∃ saved, irsStorageSave outcomes system = .ok (.ok, saved) := by
  have opened : Output system.storage.termOffsetsPath
      (irsIoNewChannelWrite system.world system.storage.termOffsetsPath) [] :=
    ⟨rfl, atEnd_open _ _⟩
  have size : 16 ≤ maxFileSize := by decide
  have first := write_takesAll (uint64Chars system.storage.termsSize) takes opened.2
    (by simp; omega)
  have one := opened.write first
  have second := write_takesAll (uint64Chars system.storage.documentsSize) takes one.2
    (by simp; omega)
  have two := one.write second
  rw [length_uint64Chars] at first second
  have records : (([] ++ uint64Chars system.storage.termsSize ++
    uint64Chars system.storage.documentsSize) ++
      (irsDictionaryVisitDownNodes system.storage.termOffsetDictionary).flatMap
        fun visit : Address × IrsDictionaryNode TermOffsetValue =>
        savedRecord visit.2).length ≤ maxFileSize := by
    rw [flatMap_savedRecord]
    exact small
  have starts : ∀ visit ∈ irsDictionaryVisitDownNodes system.storage.termOffsetDictionary,
      ∀ list, visit.2.dataList = some list →
      ∃ offset term rest, list = .offset offset :: .term term :: rest := by
    intro visit member list data
    obtain ⟨offset, term, rest, same, -⟩ := codable visit member list data
    exact ⟨offset, term, rest, same⟩
  obtain ⟨⟨channel, saved⟩, run⟩ := writeAllTermOffsets_takesAll takes two starts records
  refine ⟨saved, ?_⟩
  unfold irsStorageSave
  unfold irsIoNewChannelWrite at first ⊢
  dsimp only at first second run ⊢
  rw [first, Bool.not_true, if_neg Bool.false_ne_true, second, Bool.not_true,
    if_neg Bool.false_ne_true, run, ok_bind]

end

/-- What is saved of a codable dictionary is its terms as they are. -/
theorem savedPairs_cString {dictionary : IrsDictionary TermOffsetValue}
    (codable : Codable dictionary) :
    (savedPairs dictionary).map (fun pair => (pair.1, cString pair.2)) = savedPairs dictionary := by
  rw [List.map_congr_left (g := id), List.map_id]
  intro pair member
  obtain ⟨visit, visited, saved⟩ := List.mem_filterMap.mp member
  unfold savedPair at saved
  split at saved
  · rename_i offset term rest data
    obtain ⟨_, _, _, same, noNul⟩ := codable visit visited _ data
    cases same
    obtain rfl := Option.some.inj saved
    rw [cString_of_noNul noNul]
    rfl
  · cases saved

/-- No node with data is left out. -/
theorem savedPair_isSome_iff {dictionary : IrsDictionary TermOffsetValue}
    (codable : Codable dictionary) {visit : Address × IrsDictionaryNode TermOffsetValue}
    (member : visit ∈ irsDictionaryVisitDownNodes dictionary) :
    (savedPair visit.2).isSome ↔ visit.2.dataList.isSome := by
  constructor
  · intro saved
    unfold savedPair at saved
    split at saved
    · rename_i data
      rw [data]
      rfl
    · cases saved
  · intro data
    obtain ⟨list, same⟩ := Option.isSome_iff_exists.mp data
    obtain ⟨offset, term, rest, rfl, -⟩ := codable visit member list same
    unfold savedPair
    rw [same]
    rfl

/-- Save and load are a codec of the sizes and of the sequence of pairs: one pair for every node
with data that is visited, its first offset and its term. -/
theorem irsStorageSave_codec {outcomes : Nat → WriteOutcome} {system : System} {loader : IrsStorage}
    (codable : Codable system.storage.termOffsetDictionary)
    (samePath : loader.termOffsetsPath = system.storage.termOffsetsPath) :
    (TakesAll outcomes → (savedFile system.storage).length ≤ maxFileSize →
      ∃ saved, irsStorageSave outcomes system = .ok (.ok, saved)) ∧
    (∀ visit ∈ irsDictionaryVisitDownNodes system.storage.termOffsetDictionary,
      (savedPair visit.2).isSome ↔ visit.2.dataList.isSome) ∧
    ∀ saved, irsStorageSave outcomes system = .ok (.ok, saved) →
      saved.files loader.termOffsetsPath = some (savedFile system.storage) ∧
      irsStorageLoad loader saved =
        (appendPairs loader.termOffsetDictionary
          (savedPairs system.storage.termOffsetDictionary) >>= fun dictionary =>
          .ok (.ok, { loader with
            termOffsetDictionary := dictionary
            termsSize := system.storage.termsSize
            documentsSize := system.storage.documentsSize })) := by
  refine ⟨fun takes small => irsStorageSave_takesAll takes codable small,
    fun visit member => savedPair_isSome_iff codable member, ?_⟩
  intro saved save
  obtain ⟨contents, small⟩ := irsStorageSave_ok save
  rw [← samePath] at contents
  refine ⟨contents, ?_⟩
  rw [irsStorageLoad_saved contents small, savedPairs_cString codable]

theorem irsStorageSave_codec_a_b :
    ∃ dictionary saved, appendPairs freshDictionary [(5, [97]), (9, [98, 99])] = .ok dictionary ∧
      irsStorageSave allWritten
        { storage := { irsStorageInitialize [] with termOffsetDictionary := dictionary },
          world := .empty } =
        .ok (.ok, saved) ∧
      irsStorageLoad (irsStorageInitialize []) saved =
        .ok (.ok, { irsStorageInitialize [] with termOffsetDictionary := dictionary }) := by
  have facts : (appendPairs freshDictionary [(5, [97]), (9, [98, 99])] >>= fun dictionary =>
      .ok ((irsDictionaryVisitDownNodes dictionary).map (fun visit => visit.2.dataList),
        savedPairs dictionary,
        (savedFile { irsStorageInitialize [] with termOffsetDictionary := dictionary }).length)) =
      .ok ([some [TermOffsetValue.offset 5, .term [97]], some [.offset 9, .term [98, 99]]],
        [(5, [97]), (9, [98, 99])], 51) := by
    decide +kernel
  obtain ⟨dictionary, appends, facts⟩ := bind_ok.mp facts
  obtain ⟨lists, pairs, size⟩ : _ ∧ _ ∧ _ := by
    simpa only [Except.ok.injEq, Prod.mk.injEq] using facts
  have codable : Codable dictionary := by
    intro visit member list data
    have inside : visit.2.dataList ∈ (irsDictionaryVisitDownNodes dictionary).map fun visit =>
      visit.2.dataList :=
      List.mem_map_of_mem member
    rw [lists, data] at inside
    simp only [List.mem_cons, Option.some.injEq, List.not_mem_nil, or_false] at inside
    rcases inside with rfl | rfl
    · exact ⟨5, [97], [], rfl, by simp⟩
    · exact ⟨9, [98, 99], [], rfl, by simp⟩
  have takes : TakesAll allWritten := fun _ => ⟨rfl, show maxFileSize ≤ 2 ^ 63 by decide⟩
  have small : 51 ≤ maxFileSize := by decide
  obtain ⟨saves, -, loads⟩ := @irsStorageSave_codec allWritten
    { storage := { irsStorageInitialize [] with termOffsetDictionary := dictionary },
      world := .empty } (irsStorageInitialize []) codable rfl
  obtain ⟨saved, save⟩ := saves takes (size ▸ small)
  refine ⟨dictionary, saved, appends, save, ?_⟩
  have load := (loads saved save).2
  dsimp only at load
  rw [pairs, show (irsStorageInitialize []).termOffsetDictionary = freshDictionary from rfl,
    appends, ok_bind] at load
  exact load

end IrsMachine
