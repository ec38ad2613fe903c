import IrsMachine.Storage.Batches
import IrsMachine.Storage.Ratio
import IrsMachine.Storage.Save

/-!
# Failures

What a failed call leaves behind. A load that fails has overwritten the two sizes, as far as
the header reaches, and nothing else. An add that fails has counted the fields that it wrote in
full.
-/

namespace IrsMachine
open Except

/-! ### Loading -/

theorem irsStorageLoad_error {storage storage' : IrsStorage} {world : World}
    {status : IrsStorageStatus} (run : irsStorageLoad storage world = .ok (status, storage'))
    (failed : status ≠ .ok) :
    ∃ file, world.files storage.termOffsetsPath = some file ∧ file.length < 16 ∧
      status = .readError ∧
      storage' = { storage with
        termsSize := uint64Overwrite storage.termsSize (file.take 8)
        documentsSize := uint64Overwrite storage.documentsSize (file.drop 8) } := by
  cases contents : world.files storage.termOffsetsPath with
  | none =>
    simp only [irsStorageLoad, irsIoNewChannelRead, contents, Option.map_none] at run
    cases run
    exact absurd rfl failed
  | some file =>
    by_cases short : file.length < 16
    · rw [irsStorageLoad_short contents short] at run
      cases run
      exact ⟨file, rfl, short, rfl, rfl⟩
    · rw [irsStorageLoad_header contents (by omega)] at run
      obtain ⟨dictionary, -, run⟩ := bind_ok.mp run
      cases run
      exact absurd rfl failed

/-- The file of a save, cut in the header, is refused. A load that fails leaves the dictionary
alone, and overwrites of the two sizes the bytes that the file has for them. -/
theorem irsStorageLoad_cut {outcomes : Nat → WriteOutcome} {saver : System} {saved : World}
    {file : Bytes} (save : irsStorageSave outcomes saver = .ok (.ok, saved))
    (written : saved.files saver.storage.termOffsetsPath = some file) (storage : IrsStorage)
    (world : World) :
    (∀ n < 16, world.files storage.termOffsetsPath = some (file.take n) →
      irsStorageLoad storage world = .ok (.readError, { storage with
        termsSize := uint64Overwrite storage.termsSize
          ((uint64Chars saver.storage.termsSize).take n)
        documentsSize :=
          uint64Overwrite storage.documentsSize
            ((uint64Chars saver.storage.documentsSize).take (n - 8)) })) ∧
    ∀ status storage', irsStorageLoad storage world = .ok (status, storage') → status ≠ .ok →
      storage'.termOffsetDictionary = storage.termOffsetDictionary ∧
      ∃ held, world.files storage.termOffsetsPath = some held ∧
        storage'.termsSize = uint64Overwrite storage.termsSize (held.take 8) ∧
        storage'.documentsSize = uint64Overwrite storage.documentsSize (held.drop 8) := by
  constructor
  · intro n inside cut
    have same : file = savedFile saver.storage :=
      Option.some.inj (written.symm.trans (irsStorageSave_ok save).1)
    have header : file.take n = (savedHeader saver.storage).take n := by
      rw [same, savedFile, List.take_append_of_le_length (by rw [length_savedHeader]; omega)]
    have terms : (file.take n).take 8 = (uint64Chars saver.storage.termsSize).take n := by
      rw [header, savedHeader, List.take_take, Nat.min_comm, ← List.take_take,
        List.take_left' (length_uint64Chars _)]
    have documents : (file.take n).drop 8 =
        (uint64Chars saver.storage.documentsSize).take (n - 8) := by
      rw [header, savedHeader, List.drop_take, List.drop_left' (length_uint64Chars _)]
    rw [irsStorageLoad_short cut (by rw [List.length_take]; omega), terms, documents]
  · intro status storage' run failed
    obtain ⟨held, contents, -, -, rfl⟩ := irsStorageLoad_error run failed
    exact ⟨rfl, held, contents, rfl, rfl⟩

/-- The file after a crash that kept `n` bytes of it. -/
def World.cut (world : World) (path : Path) (n : Nat) : World :=
  { world with files := Function.update world.files path ((world.files path).map fun file =>
    file.take n) }

theorem World.cut_files {world : World} {path : Path} {file : Bytes}
    (contents : world.files path = some file) (n : Nat) :
    (world.cut path n).files path = some (file.take n) := by
  rw [cut, contents]
  exact Function.update_self ..

/-- `a` is stored and saved, and the first nine bytes are loaded over the sizes 5000 and 300: of the
second one they overwrite the lowest byte. -/
theorem irsStorageLoad_cut_nine :
    ∃ run saved, addBatches Ratio allWritten (freshSystem [] .empty) [[[97]]] = .ok run ∧
      irsStorageSave allWritten run.system = .ok (.ok, saved) ∧
      irsStorageLoad { irsStorageInitialize [] with termsSize := 5000, documentsSize := 300 }
          (saved.cut (irsStorageInitialize []).termOffsetsPath 9) =
        .ok (.readError,
          { irsStorageInitialize [] with termsSize := 17, documentsSize := 265 }) := by
  have facts : (addBatches Ratio allWritten (freshSystem [] .empty) [[[97]]] >>= fun run =>
      irsStorageSave allWritten run.system >>= fun save =>
        .ok (save.1, run.system.storage.termOffsetsPath, run.system.storage.termsSize,
          run.system.storage.documentsSize)) =
      .ok (.ok, (irsStorageInitialize []).termOffsetsPath, 17, 9) := by decide +kernel
  obtain ⟨run, ran, facts⟩ := bind_ok.mp facts
  obtain ⟨⟨status, saved⟩, save, facts⟩ := bind_ok.mp facts
  simp only [Except.ok.injEq, Prod.mk.injEq] at facts
  obtain ⟨rfl, path, terms, documents⟩ := facts
  have written := (irsStorageSave_ok save).1
  have cut := World.cut_files (path ▸ written) 9
  have load := (irsStorageLoad_cut save written
    { irsStorageInitialize [] with termsSize := 5000, documentsSize := 300 } _).1 9 (by decide) cut
  have overwritten : uint64Overwrite 5000 ((uint64Chars 17).take 9) = 17 := by decide +kernel
  have lowest : uint64Overwrite 300 ((uint64Chars 9).take (9 - 8)) = 265 := by decide +kernel
  simp only [terms, documents, overwritten, lowest] at load
  exact ⟨run, saved, ran, save, load⟩

/-- With `a` stored and saved, a load of the first half of the header fails and leaves 17 for
`terms_size`, which was 0. -/
theorem load_fails_a :
    ∃ run saved storage', addBatches Ratio allWritten (freshSystem [] .empty) [[[97]]] = .ok run ∧
      irsStorageSave allWritten run.system = .ok (.ok, saved) ∧
      irsStorageLoad (irsStorageInitialize [])
        (saved.cut (irsStorageInitialize []).termOffsetsPath 8) =
        .ok (.readError, storage') ∧
      storage'.termsSize ≠ (irsStorageInitialize []).termsSize := by
  have facts : (addBatches Ratio allWritten (freshSystem [] .empty) [[[97]]] >>= fun run =>
      irsStorageSave allWritten run.system >>= fun save =>
      irsStorageLoad (irsStorageInitialize [])
        (save.2.cut (irsStorageInitialize []).termOffsetsPath 8) >>= fun load =>
        .ok (save.1, load.1, load.2.termsSize)) = .ok (.ok, .readError, 17) := by decide +kernel
  obtain ⟨run, ran, facts⟩ := bind_ok.mp facts
  obtain ⟨⟨status, saved⟩, save, facts⟩ := bind_ok.mp facts
  obtain ⟨⟨status', storage'⟩, load, facts⟩ := bind_ok.mp facts
  simp only [Except.ok.injEq, Prod.mk.injEq] at facts
  obtain ⟨rfl, rfl, size⟩ := facts
  exact ⟨run, saved, storage', ran, save, load, by rw [size]; decide⟩

/-! ### Adding -/

/-- A system that takes the first writes and fails the next. -/
def failsAt (n : Nat) : Nat → WriteOutcome :=
  fun i => if i = n then { status := .error, written := 0 } else allWritten i

end IrsMachine
