import IrsMachine.Dictionary.Canonical
import IrsMachine.Storage.Mirrors
import Mathlib.Algebra.Order.BigOperators.Group.List
import Mathlib.Data.List.Perm.Subperm

/-!
# Reopening

A storage that is saved and loaded again mirrors what it was, and queries cannot tell mirrored
systems apart. The saved file is no longer than the terms allow, so a save that has room for them
goes through. As in `readTermOffsetsLoop`, the buffers that load reads the terms into are large
enough.
-/

namespace IrsMachine
open IrsDictionaryNode Except Multimap Words

/-! ### Reading -/

section
variable {path : Path} {world world' : World}
  {channel termsChannel documentsChannel : Option IrsIoChannel} {count : Nat}

def Elsewhere (path : Path) (channel : Option IrsIoChannel) : Prop :=
  ∀ open', channel = some open' → open'.path ≠ path

theorem Elsewhere.read (elsewhere : Elsewhere path channel) (world : World) (count : Nat) :
    Elsewhere path (irsIoChannelReadChars world channel count).channel := by
  intro after same
  cases channel with
  | none => cases same
  | some open' =>
    have here := elsewhere open' rfl
    unfold irsIoChannelReadChars at same
    dsimp only at same
    split at same <;> cases same <;> exact here

theorem Elsewhere.seek (elsewhere : Elsewhere path channel) (offset : UInt64) :
    Elsewhere path (irsIoChannelSeek channel offset) := by
  intro after same
  obtain ⟨open', rfl, rfl⟩ := Option.map_eq_some_iff.mp same
  split
  · exact elsewhere open' rfl
  · exact elsewhere open' rfl

theorem read_agree (agree : AgreeBut path world world') (elsewhere : Elsewhere path channel)
    (count : Nat) :
    irsIoChannelReadChars world' channel count = irsIoChannelReadChars world channel count := by
  cases channel with
  | none => rfl
  | some open' => rw [irsIoChannelReadChars, irsIoChannelReadChars, agree _ (elsewhere open' rfl)]

theorem readDocumentsLoop_agree (agree : AgreeBut path world world') (left : Nat)
    (terms : Elsewhere path termsChannel) (documents : Elsewhere path documentsChannel)
    (list : List Triple) :
    readDocumentsLoop world' left termsChannel documentsChannel list =
      readDocumentsLoop world left termsChannel documentsChannel list := by
  induction left generalizing termsChannel documentsChannel list with
  | zero => rfl
  | succ left ih =>
    have offsetRead := terms.read world 8
    have sought := fun offset => documents.seek offset
    simp only [readDocumentsLoop, read_agree agree terms]
    rw [read_agree agree (sought _)]
    have sizeRead :=
      (sought (uint64OfChars (irsIoChannelReadChars world termsChannel 8).chars)).read world 8
    rw [read_agree agree sizeRead, read_agree agree offsetRead,
      read_agree agree (offsetRead.read world 8), ih offsetRead sizeRead,
      ih ((offsetRead.read world 8).read world _) (sizeRead.read world _)]

theorem irsStorageReadDocumentsByTerm_agree {storage : IrsStorage}
    (agree : AgreeBut path world world') (terms : storage.termsPath ≠ path)
    (documents : storage.documentsPath ≠ path) (termOffset : UInt64) :
    irsStorageReadDocumentsByTerm storage world' termOffset =
      irsStorageReadDocumentsByTerm storage world termOffset := by
  have opens : ∀ other, other ≠ path →
      irsIoNewChannelRead world' other = irsIoNewChannelRead world other ∧
      Elsewhere path (irsIoNewChannelRead world other) := by
    intro other different
    refine ⟨by rw [irsIoNewChannelRead, irsIoNewChannelRead, agree other different],
      fun open' same => ?_⟩
    obtain ⟨_, -, rfl⟩ := Option.map_eq_some_iff.mp same
    exact different
  obtain ⟨sameTerms, onTerms⟩ := opens _ terms
  obtain ⟨sameDocuments, onDocuments⟩ := opens _ documents
  have sought := onTerms.seek termOffset
  have sizeRead := sought.read world 8
  have termRead := fun size => sizeRead.read world size
  simp only [irsStorageReadDocumentsByTerm, sameTerms, sameDocuments, read_agree agree sought,
    read_agree agree sizeRead]
  rw [read_agree agree (termRead _),
    readDocumentsLoop_agree agree _ ((termRead _).read world 8) onDocuments]

end

/-! ### Queries -/

variable {path : Bytes} {terms : List Bytes} {storage storage' : IrsStorage}
  {system system' : System}

theorem firstOffset_head {list list' : Option (List TermOffsetValue)}
    (same : list'.map List.head? = list.map List.head?) :
    firstOffset list' = firstOffset list := by
  rcases list with _ | _ | ⟨_ | _, _⟩ <;> rcases list' with _ | _ | ⟨_ | _, _⟩ <;>
    cases same <;> rfl

theorem Mirrors.termOffset (mirrors : Mirrors terms storage storage') (term : Bytes) :
    (irsDictionaryGet storage'.termOffsetDictionary term >>= firstOffset) =
      (irsDictionaryGet storage.termOffsetDictionary term >>= firstOffset) := by
  have same := mirrors.get term
  cases get : irsDictionaryGet storage.termOffsetDictionary term with
  | error fault =>
    cases get' : irsDictionaryGet storage'.termOffsetDictionary term with
    | error fault' =>
      rw [get, get'] at same
      exact congrArg _ (Except.error.inj same)
    | ok list' =>
      rw [get, get'] at same
      cases same
  | ok list =>
    cases get' : irsDictionaryGet storage'.termOffsetDictionary term with
    | error fault' =>
      rw [get, get'] at same
      cases same
    | ok list' =>
      rw [get, get'] at same
      exact firstOffset_head (Except.ok.inj same)

/-- A query gets the same answer of mirrored systems. -/
theorem MirrorSystems.query (mirror : MirrorSystems path terms system system')
    (queried : List Bytes) :
    irsStorageGetDocuments system' queried = irsStorageGetDocuments system queried := by
  have read : ∀ offset, irsStorageReadDocumentsByTerm system'.storage system'.world offset =
      irsStorageReadDocumentsByTerm system.storage system.world offset := by
    intro offset
    rw [← irsStorageReadDocumentsByTerm_agree mirror.world mirror.located.termsFile_ne
      mirror.located.documents_ne, mirror.storage.others]
    rfl
  unfold irsStorageGetDocuments
  generalize ({ status := .ok, documentsList := [], consulted := [] } : Answer) = answer
  induction queried generalizing answer with
  | nil => rfl
  | cons term queried ih =>
    rw [getDocumentsLoop, getDocumentsLoop, ← bind_assoc, ← bind_assoc, mirror.storage.termOffset]
    congr 1
    funext offset
    cases offset with
    | none => exact ih _
    | some offset =>
      dsimp only
      rw [read]
      cases irsStorageReadDocumentsByTerm system.storage system.world offset with
      | none => rfl
      | some documents => exact ih _

/-! ### Saving -/

/-- The node has no data, or a pair at the head of its list. -/
def Saves (node : IrsDictionaryNode TermOffsetValue) : Prop :=
  node.dataList = none ∨ ∃ offset term rest,
    node.dataList = some (.offset offset :: .term term :: rest)

theorem OwnTerms.saves {dictionary : IrsDictionary TermOffsetValue}
    (own : OwnTerms terms dictionary) :
    ∀ visit ∈ irsDictionaryVisitDownNodes dictionary, Saves visit.2 := by
  intro visit member
  rcases own.toKept.visit visit member with none | ⟨data, present⟩
  · exact .inl none
  · obtain ⟨pair, rest, pairs, -⟩ := own.first present
    have paired := own.paired (spell dictionary.root visit.1)
    rw [Paired, pairs, unpaired, List.flatMap_cons] at paired
    rw [← paired] at data
    exact .inr ⟨pair.1, pair.2, _, data⟩

theorem write_room {outcomes : Nat → WriteOutcome} {world : World} {channel : IrsIoChannel}
    {written : Bytes} (reliable : Reliable outcomes) (atEnd : AtEnd channel world written)
    (chars : Bytes) (room : written.length + chars.length ≤ maxFileSize) :
    (irsIoChannelWriteChars outcomes world channel chars).complete chars.length = true := by
  have takes : min chars.length (maxFileSize - channel.position) = chars.length := by
    rw [atEnd.position]
    omega
  rw [write_reliable reliable world channel takes, Written.complete]
  split
  · rename_i nothing
    simp [nothing]
  · simp

theorem writeTermOffsetsField_room {outcomes : Nat → WriteOutcome} {path : Path}
    {channel : IrsIoChannel} {world : World} {written : Bytes} (reliable : Reliable outcomes)
    (before : Output path (channel, world) written) (chars : Bytes)
    (room : written.length + chars.length ≤ maxFileSize) :
    ∃ output, writeTermOffsetsField outcomes channel world chars = .ok output ∧
      Output path output (written ++ chars) := by
  have run : writeTermOffsetsField outcomes channel world chars = .ok _ :=
    if_pos (write_room reliable before.2 chars room)
  exact ⟨_, run, writeTermOffsetsField_ok before run⟩

theorem irsStorageWriteTermOffsets_room {outcomes : Nat → WriteOutcome} {path : Path}
    {output : IrsIoChannel × World} {node : IrsDictionaryNode TermOffsetValue} {written : Bytes}
    (reliable : Reliable outcomes) (before : Output path output written) (saves : Saves node)
    (room : written.length + (savedRecord node).length ≤ maxFileSize) :
    ∃ output', irsStorageWriteTermOffsets outcomes output node = .ok output' ∧
      Output path output' (written ++ savedRecord node) := by
  suffices runs : ∃ output', irsStorageWriteTermOffsets outcomes output node = .ok output' by
    obtain ⟨output', run⟩ := runs
    exact ⟨output', run, irsStorageWriteTermOffsets_ok before run⟩
  obtain none | ⟨offset, term, rest, data⟩ := saves
  · exact ⟨output, by rw [irsStorageWriteTermOffsets, none]⟩
  · have record' : savedRecord node =
        (uint64Chars (UInt64.ofNat (irsStrLen term)) ++ cString term) ++ uint64Chars offset := by
      simp only [savedRecord, savedPair, data, Option.map_some, Option.getD_some,
        pairRecord, record]
    rw [record', List.length_append, List.length_append] at room
    obtain ⟨⟨channel₁, world₁⟩, one, first⟩ :=
      writeTermOffsetsField_room reliable before
        (uint64Chars (UInt64.ofNat (irsStrLen term))) (by omega)
    obtain ⟨⟨channel₂, world₂⟩, two, second⟩ :=
      writeTermOffsetsField_room reliable first (cString term) (by rw [List.length_append]; omega)
    obtain ⟨output', three, -⟩ :=
      writeTermOffsetsField_room reliable second (uint64Chars offset)
        (by rw [List.length_append, List.length_append]; omega)
    refine ⟨output', ?_⟩
    simp only [irsStorageWriteTermOffsets, data, take_irsStrLen, one, two, ok_bind]
    exact three

theorem writeAllTermOffsets_room {outcomes : Nat → WriteOutcome} {path : Path}
    {visits : List (Address × IrsDictionaryNode TermOffsetValue)} {output : IrsIoChannel × World}
    {written : Bytes} (reliable : Reliable outcomes) (before : Output path output written)
    (saves : ∀ visit ∈ visits, Saves visit.2)
    (room : written.length + (visits.flatMap fun visit => savedRecord visit.2).length ≤
      maxFileSize) :
    ∃ output', visits.foldlM
      (fun output visit => irsStorageWriteTermOffsets outcomes output visit.2) output =
        .ok output' := by
  induction visits generalizing output written with
  | nil => exact ⟨output, rfl⟩
  | cons visit visits ih =>
    rw [List.flatMap_cons, List.length_append] at room
    obtain ⟨here, later⟩ := List.forall_mem_cons.mp saves
    obtain ⟨middle, step, after⟩ := irsStorageWriteTermOffsets_room reliable before here (by omega)
    obtain ⟨output', rest⟩ := ih after later (by rw [List.length_append]; omega)
    exact ⟨output', foldlM_cons_ok.mpr ⟨middle, step, rest⟩⟩

/-- A save that has room for its file goes through. -/
theorem irsStorageSave_room {outcomes : Nat → WriteOutcome} (reliable : Reliable outcomes)
    (system : System) (own : OwnTerms terms system.storage.termOffsetDictionary)
    (room : (savedFile system.storage).length ≤ maxFileSize) :
    ∃ saved, irsStorageSave outcomes system = .ok (.ok, saved) := by
  rw [savedFile, List.length_append, length_savedHeader, savedPairs, ← flatMap_savedRecord] at room
  have opened : Output system.storage.termOffsetsPath
      (irsIoNewChannelWrite system.world system.storage.termOffsetsPath) [] :=
    ⟨rfl, atEnd_open _ _⟩
  have first := write_room reliable opened.2 (uint64Chars system.storage.termsSize)
    (by rw [length_uint64Chars]; decide)
  have one := opened.write first
  have second := write_room reliable one.2 (uint64Chars system.storage.documentsSize)
    (by rw [List.length_append, length_uint64Chars, length_uint64Chars]; decide)
  have two := one.write second
  obtain ⟨⟨channel, saved⟩, records⟩ := writeAllTermOffsets_room reliable two own.saves
    (by
      rw [List.length_append, List.length_append, length_uint64Chars, length_uint64Chars,
        List.length_nil]
      omega)
  rw [length_uint64Chars] at first second
  dsimp only [irsIoNewChannelWrite] at first second records
  refine ⟨saved, ?_⟩
  simp only [irsStorageSave, irsIoNewChannelWrite, first, second, Bool.not_true, Bool.false_eq_true,
    if_false, records, ok_bind]

/-! ### The length of the saved file -/

/-- What the header and the records of these terms take. -/
def savedRoom (terms : List Bytes) : Nat := 16 + (terms.map fun term => 16 + term.length).sum

theorem OwnTerms.restorable {dictionary : IrsDictionary TermOffsetValue}
    (own : OwnTerms terms dictionary) (oneCase : OneCase terms) :
    Restorable dictionary := by
  have known : ∀ word ∈ (entries dictionary.root).map Prod.fst, word ∈ terms := by
    intro word member
    obtain ⟨_, _, -, -, known⟩ := own.first ((mem_map_entries own.tidy).mp member)
    exact known
  refine ⟨fun entry member => ?_, unmixed_of_apart fun w hw a ha v hv => oneCase w
    (known w hw) a ha v (known v hv)⟩
  obtain ⟨word, values⟩ := entry
  obtain ⟨pair, rest, pairs, same, -⟩ :=
    own.first ((mem_map_entries own.tidy).mp (List.mem_map_of_mem member))
  rw [(((lists_entries own.tidy).mem word values).mp member).1] at pairs
  rw [pairs, List.head?_cons, Option.map_some, same]

theorem OwnTerms.root_none {dictionary : IrsDictionary TermOffsetValue}
    (own : OwnTerms terms dictionary) (nonempty : ∀ term ∈ terms, term ≠ []) :
    dictionary.root.dataList = none := by
  refine (getD_eq_nil own.tidy).mp (Classical.byContradiction fun present => ?_)
  obtain ⟨_, _, -, -, known⟩ := own.first present
  exact nonempty [] known rfl

theorem sum_map_le_of_subset {β : Type} {first second : List β} (size : β → Nat)
    (nodup : first.Nodup) (subset : first ⊆ second) :
    (first.map size).sum ≤ (second.map size).sum := by
  obtain ⟨middle, perm, sublist⟩ := nodup.subperm subset
  rw [← (perm.map size).sum_eq]
  exact (sublist.map size).sum_le_sum fun _ _ => Nat.zero_le _

theorem length_flatMap_pairRecord (pairs : List (UInt64 × Bytes)) :
    (pairs.flatMap pairRecord).length =
      ((pairs.map Prod.snd).map fun term => 16 + irsStrLen term).sum := by
  rw [List.length_flatMap, List.map_map]
  congr 1
  exact List.map_congr_left fun pair _ => length_pairRecord pair

theorem OwnTerms.length_savedFile {storage : IrsStorage}
    (own : OwnTerms terms storage.termOffsetDictionary) (oneCase : OneCase terms)
    (nonempty : ∀ term ∈ terms, term ≠ []) : (savedFile storage).length ≤ savedRoom terms := by
  have root := own.root_none nonempty
  obtain ⟨words, -⟩ := (own.restorable oneCase).saved own.toIndexed root
  rw [savedFile, List.length_append, length_savedHeader, savedRoom,
    length_flatMap_pairRecord, words]
  have among : (entries storage.termOffsetDictionary.root).map Prod.fst ⊆ terms := by
    intro word member
    obtain ⟨_, _, -, -, known⟩ := own.first ((mem_map_entries own.tidy).mp member)
    exact known
  have shorter :=
    sum_map_le_of_subset (fun term => 16 + irsStrLen term) (lists_entries own.tidy).nodup among
  have whole : (terms.map fun term => 16 + irsStrLen term).sum ≤
      (terms.map fun term => 16 + term.length).sum :=
    List.sum_le_sum fun term _ => Nat.add_le_add_left (List.takeWhile_prefix _).length_le 16
  omega

/-! ### Loading what was saved -/

theorem OwnTerms.restored {dictionary : IrsDictionary TermOffsetValue}
    (own : OwnTerms terms dictionary) (oneCase : OneCase terms)
    (bytes : ∀ term ∈ terms, term ≠ [] ∧ ∀ ch ∈ term, Admitted ch) :
    ∃ dictionary', appendPairs freshDictionary
      ((savedPairs dictionary).map fun pair => (pair.1, cString pair.2)) = .ok dictionary' ∧
      OwnTerms terms dictionary' ∧
      ∀ word, (contents irsCharToIrsInt dictionary'.root word).head? =
        (contents irsCharToIrsInt dictionary.root word).head? := by
  have root := own.root_none fun term member => (bytes term member).1
  have restorable := own.restorable oneCase
  obtain ⟨words, saved⟩ := restorable.saved own.toIndexed root
  have known : ∀ pair ∈ savedPairs dictionary, pair.2 ∈ terms := by
    intro pair member
    have inside : pair.2 ∈ (entries dictionary.root).map Prod.fst :=
      words ▸ List.mem_map_of_mem member
    obtain ⟨_, _, -, -, known⟩ := own.first ((mem_map_entries own.tidy).mp inside)
    exact known
  have admitted : ∀ pair ∈ savedPairs dictionary, ∀ ch ∈ pair.2, Admitted ch :=
    fun pair member => (bytes _ (known pair member)).2
  have strings : (savedPairs dictionary).map (fun pair => (pair.1, cString pair.2)) =
      savedPairs dictionary := by
    rw [List.map_congr_left (g := id) fun pair member => by
      rw [cString_of_noNul fun ch inside => (admitted pair member ch inside).1]; rfl, List.map_id]
  obtain ⟨dictionary', run, indexed', stored⟩ :=
    appendPairs_contents admitted (fun pair member => (saved pair member).2)
    (words ▸ restorable.apart)
  rw [strings]
  refine ⟨dictionary', run, ⟨indexed', fun word pair member => ?_⟩, fun word => ?_⟩
  · rw [stored, pairsOf_unpaired] at member
    obtain ⟨inside, here⟩ := List.mem_filter.mp member
    obtain rfl := of_decide_eq_true here
    exact ⟨rfl, known pair inside⟩
  · rw [stored]
    cases list : (savedPairs dictionary).filter fun pair => decide (pair.2 = word) with
    | nil =>
      have absent : word ∉ keys irsCharToIrsInt dictionary.root := by
        rw [← mem_map_entries own.tidy, ← words, ← unpaired_filter_ne_nil, list]
        exact fun present => present rfl
      rw [mem_keys, not_not] at absent
      rw [absent]
      rfl
    | cons pair rest =>
      obtain ⟨inside, here⟩ :=
        List.mem_filter.mp (list ▸ List.mem_cons_self (a := pair) (l := rest))
      rw [← of_decide_eq_true here, (saved pair inside).1]
      rfl

def OnlyFile (path : Path) (world : World) (output : IrsIoChannel × World) : Prop :=
  output.1.path = path ∧ AgreeBut path world output.2

theorem OnlyFile.write {file : Path} {world : World} {channel : IrsIoChannel} {current : World}
    (only : OnlyFile file world (channel, current)) (outcomes : Nat → WriteOutcome)
    (chars : Bytes) :
    OnlyFile file world ((irsIoChannelWriteChars outcomes current channel chars).channel,
      (irsIoChannelWriteChars outcomes current channel chars).world) := by
  obtain ⟨path, agree⟩ := only
  refine ⟨(write_path ..).trans path, fun other different => ?_⟩
  rw [write_other _ _ _ _ (by rw [show channel.path = file from path]; exact different)]
  exact agree other different

theorem OnlyFile.field {outcomes : Nat → WriteOutcome} {file : Path} {world : World}
    {channel : IrsIoChannel} {current : World} {output : IrsIoChannel × World} {chars : Bytes}
    (only : OnlyFile file world (channel, current))
    (run : writeTermOffsetsField outcomes channel current chars = .ok output) :
    OnlyFile file world output := by
  simp only [writeTermOffsetsField] at run
  split at run
  · cases run
    exact only.write outcomes chars
  · cases run

theorem OnlyFile.node {outcomes : Nat → WriteOutcome} {file : Path} {world : World}
    {output output' : IrsIoChannel × World} {node : IrsDictionaryNode TermOffsetValue}
    (only : OnlyFile file world output)
    (run : irsStorageWriteTermOffsets outcomes output node = .ok output') :
    OnlyFile file world output' := by
  unfold irsStorageWriteTermOffsets at run
  split at run
  · cases run
    exact only
  · split at run
    · obtain ⟨first, one, run⟩ := bind_ok.mp run
      obtain ⟨second, two, three⟩ := bind_ok.mp run
      exact ((only.field one).field two).field three
    · cases run

/-- A save writes the file of the term offsets only. -/
theorem irsStorageSave_frame {outcomes : Nat → WriteOutcome} {status : IrsStorageStatus}
    {saved : World} (run : irsStorageSave outcomes system = .ok (status, saved)) :
    AgreeBut system.storage.termOffsetsPath system.world saved := by
  have opened : OnlyFile system.storage.termOffsetsPath system.world
      (irsIoNewChannelWrite system.world system.storage.termOffsetsPath) :=
    ⟨rfl, fun other different => open_other _ different⟩
  simp only [irsStorageSave] at run
  have one := opened.write outcomes (uint64Chars system.storage.termsSize)
  have two := one.write outcomes (uint64Chars system.storage.documentsSize)
  split at run
  · cases run
    exact one.2
  · split at run
    · cases run
      exact two.2
    · obtain ⟨output, records, run⟩ := bind_ok.mp run
      cases run
      exact (foldlM_invariant (OnlyFile system.storage.termOffsetsPath system.world) two
        (fun _ _ _ _ only step => only.node step) records).2

/-- A system saved and loaded again still mirrors the other one. -/
theorem MirrorSystems.reopen {outcomes : Nat → WriteOutcome}
    (mirror : MirrorSystems path terms system system') (reliable : Reliable outcomes)
    (oneCase : OneCase terms) (bytes : ∀ term ∈ terms, term ≠ [] ∧ ∀ ch ∈ term, Admitted ch)
    (room : savedRoom terms ≤ maxFileSize) :
    ∃ saved loaded, irsStorageSave outcomes system = .ok (.ok, saved) ∧
      irsStorageLoad (irsStorageInitialize path) saved = .ok (.ok, loaded) ∧
      MirrorSystems path terms ⟨loaded, saved⟩ system' := by
  obtain ⟨storage, located, world⟩ := mirror
  have small := storage.first.length_savedFile oneCase fun term member => (bytes term member).1
  obtain ⟨saved, save⟩ := irsStorageSave_room reliable _ storage.first (Nat.le_trans small room)
  obtain ⟨contents, fits⟩ := irsStorageSave_ok save
  obtain ⟨dictionary, appends, own, heads⟩ := storage.first.restored oneCase bytes
  rw [located.termOffsets] at contents
  have load := irsStorageLoad_saved contents fits
  rw [show (irsStorageInitialize path).termOffsetDictionary = freshDictionary from rfl, appends,
    ok_bind] at load
  refine ⟨saved, _, save, load,
    ⟨own, storage.second, fun word => (storage.heads word).trans (heads word).symm, ?_⟩,
    ⟨rfl, rfl, rfl⟩, fun other different => ?_⟩
  · rw [storage.others, located.termOffsets, located.termsFile, located.documents]
  · rw [show other ≠ _ ↔
      other ≠ system.storage.termOffsetsPath by rw [located.termOffsets]] at different
    exact (world other different).trans (irsStorageSave_frame save other different).symm

/-! ### The same file -/

def wordPair (dictionary : IrsDictionary TermOffsetValue) (word : Bytes) :
    Option (UInt64 × Bytes) :=
  (pairsOf (contents irsCharToIrsInt dictionary.root word)).head?

theorem OwnTerms.savedPairs_eq {dictionary : IrsDictionary TermOffsetValue}
    (own : OwnTerms terms dictionary) (nonempty : ∀ term ∈ terms, term ≠ []) :
    savedPairs dictionary = ((entries dictionary.root).map Prod.fst).filterMap
      (wordPair dictionary) := by
  rw [IrsMachine.savedPairs_eq (own.root_none nonempty), List.filterMap_map]
  refine List.filterMap_congr fun entry member => ?_
  rw [Function.comp_apply, wordPair, (((lists_entries own.tidy).mem entry.1 entry.2).mp member).1]

theorem Mirrors.savedFile (mirrors : Mirrors terms storage storage')
    (nonempty : ∀ term ∈ terms, term ≠ []) :
    savedFile storage' = savedFile storage := by
  have header : savedHeader storage' = savedHeader storage := by
    rw [savedHeader, savedHeader, mirrors.termsSize, mirrors.documentsSize]
  have words : (entries storage'.termOffsetDictionary.root).map Prod.fst =
      (entries storage.termOffsetDictionary.root).map Prod.fst := by
    refine eq_of_strictly_sorted (entries_sorted mirrors.second.tidy)
      (entries_sorted mirrors.first.tidy) fun word => ?_
    rw [mem_map_entries mirrors.second.tidy, mem_map_entries mirrors.first.tidy, mirrors.keys]
  have pairs : savedPairs storage'.termOffsetDictionary =
      savedPairs storage.termOffsetDictionary := by
    rw [mirrors.second.savedPairs_eq nonempty, mirrors.first.savedPairs_eq nonempty, words]
    refine List.filterMap_congr fun word member => ?_
    have present := (mem_map_entries mirrors.first.tidy).mp member
    obtain ⟨pair, rest, pairs, here, -⟩ := mirrors.first.first present
    obtain ⟨pair', rest', pairs', here', -⟩ := mirrors.second.first (mirrors.keys.symm ▸ present)
    have heads := mirrors.heads word
    rw [← mirrors.first.paired word, ← mirrors.second.paired word, pairs, pairs'] at heads
    have offset : pair'.1 = pair.1 := by
      injection heads with heads
      injection heads
    rw [wordPair, wordPair, pairs, pairs', List.head?_cons, List.head?_cons,
      Prod.ext offset (here'.trans here.symm)]
  rw [IrsMachine.savedFile, IrsMachine.savedFile, header, pairs]

/-- Saves of mirrored systems leave the same files. -/
theorem MirrorSystems.save {outcomes : Nat → WriteOutcome}
    (mirror : MirrorSystems path terms system system') (reliable : Reliable outcomes)
    (oneCase : OneCase terms) (nonempty : ∀ term ∈ terms, term ≠ [])
    (room : savedRoom terms ≤ maxFileSize) :
    ∃ saved saved', irsStorageSave outcomes system = .ok (.ok, saved) ∧
      irsStorageSave outcomes system' = .ok (.ok, saved') ∧
      saved'.files = saved.files := by
  have small := mirror.storage.first.length_savedFile oneCase nonempty
  have small' := mirror.storage.second.length_savedFile oneCase nonempty
  obtain ⟨saved, save⟩ :=
    irsStorageSave_room reliable system mirror.storage.first (Nat.le_trans small room)
  obtain ⟨saved', save'⟩ :=
    irsStorageSave_room reliable system' mirror.storage.second (Nat.le_trans small' room)
  refine ⟨saved, saved', save, save', funext fun other => ?_⟩
  have path' := mirror.storage.termOffsetsPath
  by_cases here : other = system.storage.termOffsetsPath
  · rw [here, (irsStorageSave_ok save).1, ← path', (irsStorageSave_ok save').1,
      mirror.storage.savedFile nonempty]
  · rw [irsStorageSave_frame save other here, irsStorageSave_frame save' other (path'.symm ▸ here),
      mirror.world other here]

end IrsMachine
