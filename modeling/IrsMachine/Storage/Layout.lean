import IrsMachine.Storage.Batches
import IrsMachine.Storage.Ratio

/-!
# Offsets and the files

Every call empties both files, while the counters go on. So the recorded offsets say where the
records are only as long as nothing was stored before the last batch
(`addBatches_layout_iff`).
-/

namespace IrsMachine
open IrsDictionaryNode Except Multimap

variable {F : Type} [IrsFloat F]

structure Layout (run : Run) : Prop where
  documents : ∀ pair ∈ run.documentOffsets,
    HoldsAt run.system.world run.system.storage.documentsPath pair.2.toNat (record pair.1)
  terms : ∀ address node list,
    run.system.storage.termOffsetDictionary.root.nodeAt address = some node →
    node.dataList = some list → ∀ pair ∈ pairsOf list,
    HoldsAt run.system.world run.system.storage.termsPath pair.1.toNat (record pair.2)

theorem irsInitDbPath_injective (path : Bytes) : Function.Injective (irsInitDbPath path) :=
  fun _ _ same => List.append_cancel_left same

theorem documentsPath_ne_termsPath (path : Bytes) :
    (irsStorageInitialize path).documentsPath ≠ (irsStorageInitialize path).termsPath := by
  intro same
  have := irsInitDbPath_injective path same
  exact absurd this (by decide)

/-! ### What a run recorded -/

/-- After calls that all went well: where the documents are counted, and what is in the file. -/
structure Counted (path : Bytes) (batches : List (List Bytes)) (run : Run) : Prop where
  documentsPath : run.system.storage.documentsPath = (irsStorageInitialize path).documentsPath
  termsPath : run.system.storage.termsPath = (irsStorageInitialize path).termsPath
  documentsSize : run.system.storage.documentsSize =
    UInt64.ofNat (batches.flatten.flatMap record).length
  documentOffsets : run.documentOffsets = recordOffsets 0 batches.flatten
  file : ∀ last, batches.getLast? = some last →
    run.system.world.files run.system.storage.documentsPath = some (last.flatMap record) ∧
    (last.flatMap record).length ≤ maxFileSize

theorem recordOffsets_append (start : UInt64) (first second : List Bytes) :
    recordOffsets start (first ++ second) =
      recordOffsets start first ++ recordOffsets
        (start + UInt64.ofNat (first.flatMap record).length) second := by
  induction first generalizing start with
  | nil => simp [recordOffsets]
  | cons document first ih =>
    rw [List.cons_append, recordOffsets, ih, recordOffsets, List.cons_append, List.flatMap_cons,
      List.length_append, UInt64.ofNat_add, UInt64.add_assoc]

theorem addBatches_concat {outcomes : Nat → WriteOutcome} {system : System}
    {batches : List (List Bytes)} {batch : List Bytes} {run : Run}
    (ran : addBatches F outcomes system (batches ++ [batch]) = .ok run) :
    ∃ before status system', addBatches F outcomes system batches = .ok before ∧
      irsStorageAddDocuments F outcomes before.system batch = .ok (status, system') ∧
      run.statuses = before.statuses ++ [status] ∧ run.system = system' ∧
      run.documentOffsets = before.documentOffsets ++
        (irsStorageWriteDocuments outcomes before.system.storage before.system.world
          batch).2.documentOffsetMap ∧
      run.termOffsets = before.termOffsets ++ [(heldPairs system'.storage.termOffsetDictionary).diff
        (heldPairs before.system.storage.termOffsetDictionary)] := by
  obtain ⟨before, first, step⟩ := foldlM_concat_ok.mp ran
  obtain ⟨⟨status, system'⟩, call, step⟩ := bind_ok.mp step
  cases step
  exact ⟨before, status, system', first, call, rfl, rfl, rfl, rfl⟩

theorem addBatches_counted {outcomes : Nat → WriteOutcome} {path : Bytes} {world : World}
    {batches : List (List Bytes)} {run : Run}
    (ran : addBatches F outcomes (freshSystem path world) batches = .ok run)
    (statuses : ∀ status ∈ run.statuses, status = .ok) : Counted path batches run := by
  induction batches using List.reverseRecOn generalizing run with
  | nil =>
    cases ran
    exact ⟨rfl, rfl, rfl, rfl, fun _ none => by cases none⟩
  | append_singleton batches batch ih =>
    obtain ⟨before, status, system', first, call, hStatuses, hSystem, hOffsets, -⟩ :=
      addBatches_concat ran
    simp only [hStatuses, List.mem_append, List.mem_singleton, or_imp, forall_and,
      forall_eq] at statuses
    obtain ⟨earlier, rfl⟩ := statuses
    have counted := ih first earlier
    obtain ⟨written, assigned, writer, documentsRun, -, terms, rfl⟩ :=
      irsStorageAddDocuments_ok call
    obtain ⟨storage, contents, small, map, -⟩ := irsStorageWriteDocuments_ok documentsRun
    have opened := atEnd_open written.world written.storage.termsPath
    obtain ⟨-, frame⟩ := passRecords_frame opened terms
    have storage' := frame.storage
    simp only [storage, IrsStorage.grow] at storage'
    have different : before.system.storage.documentsPath ≠ written.storage.termsPath := by
      rw [storage, counted.documentsPath]
      exact counted.termsPath ▸ documentsPath_ne_termsPath path
    rw [documentsRun] at hOffsets
    refine ⟨?_, ?_, ?_, ?_, ?_⟩
    · rw [hSystem, storage']
      exact counted.documentsPath
    · rw [hSystem, storage']
      exact counted.termsPath
    · rw [hSystem, storage', List.flatten_append, List.flatMap_append, List.length_append,
        UInt64.ofNat_add, ← counted.documentsSize, List.flatten_singleton]
    · rw [hOffsets, counted.documentOffsets, map, List.flatten_append, List.flatten_singleton,
        recordOffsets_append, counted.documentsSize, UInt64.zero_add]
    · intro last isLast
      rw [List.getLast?_concat] at isLast
      cases isLast
      rw [hSystem, storage']
      refine ⟨?_, small⟩
      rw [← contents]
      exact (frame.others _ different).trans (open_other _ different)

/-! ### Offsets in one file -/

theorem recordOffsets_located {documents : List Bytes} {before : Bytes} {pair : Bytes × UInt64}
    (small : (before ++ documents.flatMap record).length ≤ maxFileSize)
    (member : pair ∈ recordOffsets (UInt64.ofNat before.length) documents) :
    record pair.1 <+: (before ++ documents.flatMap record).drop pair.2.toNat := by
  induction documents generalizing before with
  | nil => cases member
  | cons document documents ih =>
    rw [List.flatMap_cons] at small ⊢
    rcases List.mem_cons.mp member with rfl | member
    · have inside : before.length ≤ maxFileSize := by
        rw [List.length_append] at small
        omega
      rw [toNat_size inside, List.drop_left]
      exact List.prefix_append _ _
    · rw [← UInt64.ofNat_add, ← List.length_append] at member
      rw [← List.append_assoc] at small ⊢
      exact ih small member

/-- Offsets that were counted on from a file before reach beyond the end of this one. -/
theorem recordOffsets_beyond {documents : List Bytes} {start size : Nat} (inside : start ≤ size)
    (small : size ≤ maxFileSize) (beyond : size < start + (documents.flatMap record).length) :
    ∃ pair ∈ recordOffsets (UInt64.ofNat start) documents,
      size < pair.2.toNat + (record pair.1).length := by
  induction documents generalizing start with
  | nil =>
    rw [List.flatMap_nil, List.length_nil] at beyond
    omega
  | cons document documents ih =>
    rw [List.flatMap_cons, List.length_append] at beyond
    by_cases here : size < start + (record document).length
    · refine ⟨(document, UInt64.ofNat start), List.mem_cons_self, ?_⟩
      have fits : start < 2 ^ 64 := Nat.lt_of_le_of_lt (inside.trans small) (by decide)
      rwa [UInt64.toNat_ofNat_of_lt' fits]
    · have next : start + (record document).length ≤ size := by omega
      obtain ⟨pair, member, outside⟩ := ih next (by omega)
      rw [UInt64.ofNat_add] at member
      exact ⟨pair, List.mem_cons_of_mem _ member, outside⟩

theorem flatMap_record_pos {documents : List Bytes} (goesOn : documents ≠ []) :
    0 < (documents.flatMap record).length := by
  cases documents with
  | nil => exact absurd rfl goesOn
  | cons document documents =>
    rw [List.flatMap_cons, List.length_append, length_record]
    omega

/-! ### Batches before the last -/

theorem addBatches_empty {outcomes : Nat → WriteOutcome} {path : Bytes} {world : World}
    {batches : List (List Bytes)} {run : Run}
    (ran : addBatches F outcomes (freshSystem path world) batches = .ok run)
    (statuses : ∀ status ∈ run.statuses, status = .ok) (empty : ∀ batch ∈ batches, batch = []) :
    run.system.storage = irsStorageInitialize path := by
  induction batches using List.reverseRecOn generalizing run with
  | nil =>
    cases ran
    rfl
  | append_singleton batches batch ih =>
    obtain ⟨before, status, system', first, call, hStatuses, hSystem, -⟩ := addBatches_concat ran
    simp only [hStatuses, List.mem_append, List.mem_singleton, or_imp, forall_and,
      forall_eq] at statuses empty
    obtain ⟨earlier, rfl⟩ := statuses
    obtain ⟨empty, rfl⟩ := empty
    have same := ih first earlier empty
    obtain ⟨written, assigned, writer, documentsRun, assign, terms, rfl⟩ :=
      irsStorageAddDocuments_ok call
    cases documentsRun
    cases assign
    cases terms
    rw [hSystem]
    exact same

theorem addBatches_layout {outcomes : Nat → WriteOutcome} {path : Bytes} {world : World}
    {front : List (List Bytes)} {last : List Bytes} {run : Run}
    (ran : addBatches F outcomes (freshSystem path world) (front ++ [last]) = .ok run)
    (statuses : ∀ status ∈ run.statuses, status = .ok) (empty : ∀ batch ∈ front, batch = []) :
    Layout run := by
  have counted := addBatches_counted ran statuses
  obtain ⟨inFile, small⟩ := counted.file last (by simp)
  have nothing : front.flatten = [] := List.flatten_eq_nil_iff.mpr empty
  refine ⟨fun pair member => ?_, ?_⟩
  · rw [counted.documentOffsets, List.flatten_append, nothing, List.nil_append,
      List.flatten_singleton] at member
    rw [HoldsAt, inFile]
    exact @recordOffsets_located last [] pair small member
  · obtain ⟨before, status, system', first, call, hStatuses, hSystem, -⟩ := addBatches_concat ran
    simp only [hStatuses, List.mem_append, List.mem_singleton, or_imp, forall_and,
      forall_eq] at statuses
    obtain ⟨earlier, rfl⟩ := statuses
    have same := addBatches_empty first earlier empty
    obtain ⟨written, assigned, writer, documentsRun, -, terms, rfl⟩ :=
      irsStorageAddDocuments_ok call
    obtain ⟨storage, -, -, -, -⟩ := irsStorageWriteDocuments_ok documentsRun
    have opened := atEnd_open written.world written.storage.termsPath
    have start : InStep
        ⟨written.storage, (irsIoNewChannelWrite written.world written.storage.termsPath).1,
        (irsIoNewChannelWrite written.world written.storage.termsPath).2⟩ [] := by
      refine ⟨opened, by rw [storage, same]; rfl,
        by rw [storage, same]; exact indexed_freshDictionary, fun word pair member => ?_⟩
      rw [storage, same] at member
      simp only [IrsStorage.grow, irsStorageInitialize] at member
      rw [show contents irsCharToIrsInt
        (irsDictionaryInitialize irsDictionaryChildrenSize irsCharToIrsInt).root word = [] from
        contents_freshDictionary word] at member
      cases member
    obtain ⟨written', inStep⟩ := start.visits terms
    obtain ⟨-, frame⟩ := passRecords_frame opened terms
    have paths : writer.storage.termsPath = writer.channel.path := by
      rw [frame.path, frame.storage]
    intro address node list located data pair member
    rw [hSystem] at located ⊢
    simp only at located ⊢
    have held := contents_nodeAt inStep.indexed.tidy located
    rw [data, Option.getD_some] at held
    rw [HoldsAt, paths, inStep.atEnd.contents, Option.getD_some]
    exact inStep.located _ pair (held ▸ member)

/-- After calls that all went well, the recorded offsets are right exactly when only the last
batch stored anything. -/
theorem addBatches_layout_iff {outcomes : Nat → WriteOutcome} {path : Bytes} {world : World}
    {batches : List (List Bytes)} {run : Run}
    (ran : addBatches F outcomes (freshSystem path world) batches = .ok run)
    (statuses : ∀ status ∈ run.statuses, status = .ok) : Layout run ↔
      ∀ batch ∈ batches.dropLast, batch = [] := by
  induction batches using List.reverseRecOn with
  | nil =>
    cases ran
    refine iff_of_true ⟨fun pair member => (List.not_mem_nil member).elim, ?_⟩ (by simp)
    intro address node list located data pair member
    have fresh : Kept (fun _ => True) (freshDictionary : IrsDictionary TermOffsetValue) :=
      kept_freshDictionary
    have held := contents_nodeAt fresh.tidy located
    rw [data, contents_freshDictionary] at held
    rw [Option.getD_some] at held
    rw [← held] at member
    cases member
  | append_singleton front last _ =>
    rw [List.dropLast_concat]
    refine ⟨fun layout => ?_, addBatches_layout ran statuses⟩
    by_contra stored
    have counted := addBatches_counted ran statuses
    obtain ⟨contents, small⟩ := counted.file last (by simp)
    have goesOn : front.flatten ≠ [] := fun none => stored (List.flatten_eq_nil_iff.mp none)
    have positive := flatMap_record_pos goesOn
    obtain ⟨pair, member, outside⟩ :=
      @recordOffsets_beyond (front ++ [last]).flatten 0 (last.flatMap record).length
      (Nat.zero_le _) small (by
        rw [List.flatten_append, List.flatMap_append, List.length_append, List.flatten_singleton]
        omega)
    have holds := layout.documents pair (by rw [counted.documentOffsets]; exact member)
    have fits := holds.fits (by rw [← List.length_pos_iff, length_record]; omega)
    rw [contents, Option.getD_some] at fits
    omega

theorem addBatches_layout_iff_a :
    ∃ run, addBatches Ratio allWritten (freshSystem [] .empty) [[], [[97]]] = .ok run ∧
      Layout run := by
  have states : (addBatches Ratio allWritten (freshSystem [] .empty) [[], [[97]]]).map
      Run.statuses = .ok [.ok, .ok] := by
    decide +kernel
  cases ran : addBatches Ratio allWritten (freshSystem [] .empty) [[], [[97]]] with
  | error fault => rw [ran] at states; cases states
  | ok run =>
    rw [ran] at states
    have statuses : run.statuses = [.ok, .ok] := Except.ok.inj states
    exact ⟨run, rfl, (addBatches_layout_iff ran (by simp [statuses])).mpr (by decide)⟩

/-- After `a` and then `b`, the offset 9 of `b` is beyond the end of the file. -/
theorem layout_fails_a_b :
    ∃ run, addBatches Ratio allWritten (freshSystem [] .empty) [[[97]], [[98]]] = .ok run ∧
      run.statuses = [.ok, .ok] ∧ ¬Layout run := by
  have facts : (addBatches Ratio allWritten (freshSystem [] .empty) [[[97]], [[98]]]).map
      (fun run =>
      (run.statuses, run.documentOffsets,
        run.system.world.files run.system.storage.documentsPath)) =
      .ok ([.ok, .ok], [([97], 0), ([98], 9)], some [1, 0, 0, 0, 0, 0, 0, 0, 98]) := by
    decide +kernel
  cases ran : addBatches Ratio allWritten (freshSystem [] .empty) [[[97]], [[98]]] with
  | error fault => rw [ran] at facts; cases facts
  | ok run =>
    rw [ran] at facts
    simp only [Except.map, Except.ok.injEq, Prod.mk.injEq] at facts
    obtain ⟨statuses, offsets, file⟩ := facts
    refine ⟨run, rfl, statuses, fun layout => ?_⟩
    have holds := layout.documents ([98], 9) (by rw [offsets]; decide)
    rw [HoldsAt, file] at holds
    exact absurd holds (by decide)

end IrsMachine
