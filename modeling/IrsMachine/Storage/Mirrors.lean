import IrsMachine.Library.Lockstep
import IrsMachine.Storage.Complete
import IrsMachine.Storage.Restart

/-!
# Storages that cannot be told apart

Two storages with the same first offsets, over files that agree except for those of the term
offsets. Where the system takes every write, an add does the same to both, and a query gets the same
answer of both.
-/

namespace IrsMachine
open IrsDictionaryNode Except Multimap

/-- The system takes every write, up to the largest size of a file. -/
def Reliable (outcomes : Nat → WriteOutcome) : Prop :=
  ∀ n, (outcomes n).status = .normal ∧ maxFileSize ≤ (outcomes n).written

theorem reliable_allWritten : Reliable allWritten := fun _ => ⟨rfl, Nat.sub_le _ _⟩

def AgreeBut (path : Path) (world world' : World) : Prop :=
  ∀ other, other ≠ path → world'.files other = world.files other

section
variable {outcomes : Nat → WriteOutcome} {path : Path} {world world' : World}
  {channel : IrsIoChannel}

theorem AgreeBut.open (agree : AgreeBut path world world') (opened : Path) :
    AgreeBut path (irsIoNewChannelWrite world opened).2 (irsIoNewChannelWrite world' opened).2 := by
  intro other different
  by_cases here : other = opened
  · rw [here]
    exact (atEnd_open world' opened).contents.trans (atEnd_open world opened).contents.symm
  · rw [open_other _ here, open_other _ here]
    exact agree other different

theorem write_reliable (reliable : Reliable outcomes) (world : World) (channel : IrsIoChannel)
    {chars : Bytes} {written : Nat}
    (takes : min chars.length (maxFileSize - channel.position) = written) :
    irsIoChannelWriteChars outcomes world channel chars =
      if chars = [] then { status := .normal, writtenBytes := 0, channel, world }
      else
        { status := .normal, writtenBytes := written,
          channel := { channel with position := channel.position + written },
          world :=
            { files := Function.update world.files channel.path
                (some (overwrite ((world.files channel.path).getD []) channel.position
                  (chars.take written))),
              writes := world.writes + 1 } } := by
  obtain ⟨status, enough⟩ := reliable world.writes
  have least : min (outcomes world.writes).written
      (min chars.length (maxFileSize - channel.position)) = written := by omega
  simp only [irsIoChannelWriteChars, least, status]

/-- What a write does depends on the file alone. -/
theorem write_agree (reliable : Reliable outcomes) (agree : AgreeBut path world world')
    (elsewhere : channel.path ≠ path) (chars : Bytes) :
    (irsIoChannelWriteChars outcomes world' channel chars).status =
      (irsIoChannelWriteChars outcomes world channel chars).status ∧
    (irsIoChannelWriteChars outcomes world' channel chars).writtenBytes =
      (irsIoChannelWriteChars outcomes world channel chars).writtenBytes ∧
    (irsIoChannelWriteChars outcomes world' channel chars).channel =
      (irsIoChannelWriteChars outcomes world channel chars).channel ∧
    AgreeBut path (irsIoChannelWriteChars outcomes world channel chars).world
      (irsIoChannelWriteChars outcomes world' channel chars).world := by
  rw [write_reliable reliable world channel rfl, write_reliable reliable world' channel rfl]
  split
  · exact ⟨rfl, rfl, rfl, agree⟩
  · refine ⟨rfl, rfl, rfl, fun other different => ?_⟩
    rw [agree _ elsewhere]
    dsimp only
    by_cases here : other = channel.path
    · rw [here, Function.update_self, Function.update_self]
    · rw [Function.update_of_ne here, Function.update_of_ne here, agree other different]

theorem complete_agree (reliable : Reliable outcomes) (agree : AgreeBut path world world')
    (elsewhere : channel.path ≠ path) (chars : Bytes) :
    (irsIoChannelWriteChars outcomes world' channel chars).complete chars.length =
      (irsIoChannelWriteChars outcomes world channel chars).complete chars.length := by
  obtain ⟨status, writtenBytes, -, -⟩ := write_agree reliable agree elsewhere chars
  rw [Written.complete, Written.complete, status, writtenBytes]

end

/-! ### Mirrored storages -/

/-- The same first offsets, and the same fields otherwise. -/
structure Mirrors (terms : List Bytes) (storage storage' : IrsStorage) : Prop where
  first : OwnTerms terms storage.termOffsetDictionary
  second : OwnTerms terms storage'.termOffsetDictionary
  heads : ∀ word, (contents irsCharToIrsInt storage'.termOffsetDictionary.root word).head? =
    (contents irsCharToIrsInt storage.termOffsetDictionary.root word).head?
  others : storage' = { storage with termOffsetDictionary := storage'.termOffsetDictionary }

variable {terms : List Bytes} {storage storage' : IrsStorage}

theorem Mirrors.refl (own : OwnTerms terms storage.termOffsetDictionary) :
    Mirrors terms storage storage := ⟨own, own, fun _ => rfl, rfl⟩

theorem Mirrors.termsPath (mirrors : Mirrors terms storage storage') :
    storage'.termsPath = storage.termsPath := by rw [mirrors.others]

theorem Mirrors.termsSize (mirrors : Mirrors terms storage storage') :
    storage'.termsSize = storage.termsSize := by rw [mirrors.others]

theorem Mirrors.documentsPath (mirrors : Mirrors terms storage storage') :
    storage'.documentsPath = storage.documentsPath := by
  rw [mirrors.others]

theorem Mirrors.documentsSize (mirrors : Mirrors terms storage storage') :
    storage'.documentsSize = storage.documentsSize := by
  rw [mirrors.others]

theorem Mirrors.termOffsetsPath (mirrors : Mirrors terms storage storage') :
    storage'.termOffsetsPath = storage.termOffsetsPath := by
  rw [mirrors.others]

theorem Mirrors.grow (mirrors : Mirrors terms storage storage') (bytes : Nat) :
    Mirrors terms (storage.grow bytes) (storage'.grow bytes) where
  first := mirrors.first
  second := mirrors.second
  heads := mirrors.heads
  others := by
    rw [mirrors.others]
    rfl

theorem Mirrors.growTerms (mirrors : Mirrors terms storage storage') (bytes : Nat) :
    Mirrors terms (storage.growTerms bytes) (storage'.growTerms bytes) where
  first := mirrors.first
  second := mirrors.second
  heads := mirrors.heads
  others := by
    rw [mirrors.others]
    rfl

theorem Mirrors.keys (mirrors : Mirrors terms storage storage') :
    keys irsCharToIrsInt storage'.termOffsetDictionary.root =
      keys irsCharToIrsInt storage.termOffsetDictionary.root := by
  ext word
  have none : ∀ values : List TermOffsetValue, values = [] ↔ values.head? = none :=
    fun _ => List.head?_eq_none_iff.symm
  rw [mem_keys, mem_keys, ne_eq, ne_eq, none, none, mirrors.heads]

/-- Every word gives the same first offset. -/
theorem Mirrors.get (mirrors : Mirrors terms storage storage') (query : Bytes) :
    (irsDictionaryGet storage'.termOffsetDictionary query).map (Option.map List.head?) =
      (irsDictionaryGet storage.termOffsetDictionary query).map (Option.map List.head?) := by
  have same := mirrors.keys
  obtain ⟨first, second, heads, -⟩ := mirrors
  refine get_alike query (by rw [second.toInt, first.toInt]) ?_
  exact alike_of_keys second.tidy second.bushy first.tidy first.bushy
    (by rw [second.rootLabel, first.rootLabel])
    (by rw [second.rootSize, first.rootSize]) same heads

theorem OwnTerms.append_contents {dictionary dictionary' : IrsDictionary TermOffsetValue}
    {term : Bytes} {offset : UInt64} (before : OwnTerms terms dictionary)
    (after : OwnTerms terms dictionary') (bytes : ∀ ch ∈ term, Admitted ch)
    (run : appendPair dictionary term offset = .ok dictionary') (other : Bytes) :
    contents irsCharToIrsInt dictionary'.root other =
      if other = term then contents irsCharToIrsInt dictionary.root term ++
        [.offset offset, .term term]
      else contents irsCharToIrsInt dictionary.root other := by
  obtain ⟨-, word, -, -, pushed⟩ := appendPair_ok before.toIndexed bytes run
  have own := (after.own word (offset, term) (by
    rw [pushed, if_pos rfl, ((before.paired word).concat offset term).2]
    exact List.mem_append_right _ (List.mem_singleton_self _))).1
  rw [pushed, show word = term from own.symm]

theorem Mirrors.appendPair (mirrors : Mirrors terms storage storage') (oneCase : OneCase terms)
    {term : Bytes} (member : term ∈ terms) (bytes : ∀ ch ∈ term, Admitted ch)
    (short : term.length < 2 ^ 32) (offset : UInt64) :
    ∃ dictionary dictionary', appendPair storage.termOffsetDictionary term offset = .ok dictionary ∧
      appendPair storage'.termOffsetDictionary term offset = .ok dictionary' ∧
      Mirrors terms { storage with termOffsetDictionary := dictionary }
        { storage' with termOffsetDictionary := dictionary' } := by
  obtain ⟨dictionary, run⟩ := appendPair_total offset mirrors.first.toKept bytes
  obtain ⟨dictionary', run'⟩ := appendPair_total offset mirrors.second.toKept bytes
  have first := mirrors.first.append oneCase member bytes short run
  have second := mirrors.second.append oneCase member bytes short run'
  refine ⟨dictionary, dictionary', run, run', first, second, fun word => ?_, ?_⟩
  · rw [mirrors.first.append_contents first bytes run,
      mirrors.second.append_contents second bytes run']
    split
    · rw [List.head?_append, List.head?_append, mirrors.heads]
    · exact mirrors.heads word
  · rw [mirrors.others]

/-! ### Mirrored systems -/

/-- The storage has the files of this path. -/
structure LocatedAt (path : Bytes) (storage : IrsStorage) : Prop where
  termOffsets : storage.termOffsetsPath = (irsStorageInitialize path).termOffsetsPath
  termsFile : storage.termsPath = (irsStorageInitialize path).termsPath
  documents : storage.documentsPath = (irsStorageInitialize path).documentsPath

structure MirrorSystems (path : Bytes) (terms : List Bytes) (system system' : System) : Prop where
  storage : Mirrors terms system.storage system'.storage
  located : LocatedAt path system.storage
  world : AgreeBut system.storage.termOffsetsPath system.world system'.world

/-- The names of the three files end differently. -/
theorem irsInitDbPath_inj {path postfix' postfix'' : Bytes}
    (same : irsInitDbPath path postfix' = irsInitDbPath path postfix'') :
    postfix' = postfix'' := List.append_cancel_left same

variable {path : Bytes}

theorem LocatedAt.documents_ne (located : LocatedAt path storage) :
    storage.documentsPath ≠ storage.termOffsetsPath := by
  rw [located.documents, located.termOffsets]
  exact fun same => absurd (irsInitDbPath_inj same) (by decide)

theorem LocatedAt.termsFile_ne (located : LocatedAt path storage) :
    storage.termsPath ≠ storage.termOffsetsPath := by
  rw [located.termsFile, located.termOffsets]
  exact fun same => absurd (irsInitDbPath_inj same) (by decide)

theorem mirrorSystems_refl {system : System}
    (own : OwnTerms terms system.storage.termOffsetDictionary)
    (located : LocatedAt path system.storage) : MirrorSystems path terms system system :=
  ⟨.refl own, located, fun _ _ => rfl⟩

section
variable {outcomes : Nat → WriteOutcome} {system system' : System} {channel : IrsIoChannel}

theorem MirrorSystems.open (mirror : MirrorSystems path terms system system') (opened : Path) :
    MirrorSystems path terms { system with world := (irsIoNewChannelWrite system.world opened).2 }
      { system' with world := (irsIoNewChannelWrite system'.world opened).2 } :=
  ⟨mirror.storage, mirror.located, mirror.world.open opened⟩

theorem MirrorSystems.write (mirror : MirrorSystems path terms system system')
    (reliable : Reliable outcomes) (elsewhere : channel.path ≠ system.storage.termOffsetsPath)
    (chars : Bytes) :
    MirrorSystems path terms
      { system with world := (irsIoChannelWriteChars outcomes system.world channel chars).world }
      { system' with world := (irsIoChannelWriteChars outcomes system'.world channel chars).world
        } :=
  ⟨mirror.storage, mirror.located, (write_agree reliable mirror.world elsewhere chars).2.2.2⟩

theorem LocatedAt.grow (located : LocatedAt path storage) (bytes : Nat) :
    LocatedAt path (storage.grow bytes) :=
  ⟨located.termOffsets, located.termsFile, located.documents⟩

theorem LocatedAt.growTerms (located : LocatedAt path storage) (bytes : Nat) :
    LocatedAt path (storage.growTerms bytes) :=
  ⟨located.termOffsets, located.termsFile, located.documents⟩

end

/-! ### The documents -/

/-- Writers of documents on mirrored systems, at the same place of the same file. -/
structure MirrorDocuments (path : Bytes) (terms : List Bytes) (writer writer' : DocumentsWriter) :
    Prop where
  system : MirrorSystems path terms ⟨writer.storage, writer.world⟩ ⟨writer'.storage, writer'.world⟩
  channel : writer'.channel = writer.channel
  elsewhere : writer.channel.path ≠ writer.storage.termOffsetsPath
  map : writer'.documentOffsetMap = writer.documentOffsetMap

def MirrorWritten (path : Bytes) (terms : List Bytes) {β : Type}
    (written written' : β × DocumentsWriter) : Prop :=
  written'.1 = written.1 ∧ MirrorDocuments path terms written.2 written'.2

section
variable {outcomes : Nat → WriteOutcome} {writer writer' : DocumentsWriter}

theorem MirrorDocuments.field (mirror : MirrorDocuments path terms writer writer')
    (reliable : Reliable outcomes) (chars : Bytes) :
    MirrorWritten path terms (writeDocumentsField outcomes writer chars)
      (writeDocumentsField outcomes writer' chars) := by
  obtain ⟨system, channel, elsewhere, map⟩ := mirror
  obtain ⟨-, writtenBytes, channel', -⟩ := write_agree reliable system.world elsewhere chars
  have complete := complete_agree reliable system.world elsewhere chars
  have there : (irsIoChannelWriteChars outcomes writer.world writer.channel chars).channel.path ≠
      writer.storage.termOffsetsPath := by
    rwa [write_path]
  have after := system.write reliable elsewhere chars
  simp only [writeDocumentsField, channel, complete]
  split
  · rw [writtenBytes]
    exact ⟨rfl, ⟨after.storage.grow _, after.located.grow _, after.world⟩, channel', there, map⟩
  · exact ⟨rfl, after, channel', there, map⟩

theorem MirrorDocuments.document (mirror : MirrorDocuments path terms writer writer')
    (reliable : Reliable outcomes) (document : Bytes) :
    MirrorWritten path terms (irsStorageWriteDocument outcomes writer document)
      (irsStorageWriteDocument outcomes writer' document) := by
  have size : writer'.storage.documentsSize = writer.storage.documentsSize :=
    mirror.system.storage.documentsSize
  have mapped : MirrorDocuments path terms
      { writer with documentOffsetMap := writer.documentOffsetMap ++
        [(document, writer.storage.documentsSize)] }
      { writer' with documentOffsetMap := writer'.documentOffsetMap ++
        [(document, writer'.storage.documentsSize)] } :=
    ⟨mirror.system, mirror.channel, mirror.elsewhere, by rw [mirror.map, size]⟩
  obtain ⟨same, first⟩ := mapped.field reliable (uint64Chars (UInt64.ofNat (irsStrLen document)))
  simp only [irsStorageWriteDocument]
  split <;> split <;> rename_i one _ _ two <;> rw [one, two] at first same
  · exact ⟨rfl, first⟩
  · cases same
  · cases same
  · exact first.field reliable _

theorem MirrorDocuments.documents (mirror : MirrorDocuments path terms writer writer')
    (reliable : Reliable outcomes) (documents : List Bytes) :
    MirrorWritten path terms (writeDocumentsLoop outcomes writer documents)
      (writeDocumentsLoop outcomes writer' documents) := by
  induction documents generalizing writer writer' with
  | nil => exact ⟨rfl, mirror⟩
  | cons document documents ih =>
    obtain ⟨same, first⟩ := mirror.document reliable document
    simp only [writeDocumentsLoop]
    split <;> split <;> rename_i one _ _ two <;> rw [one, two] at first same
    · exact ⟨rfl, first⟩
    · cases same
    · cases same
    · exact ih first

end

variable {outcomes : Nat → WriteOutcome} {system system' : System}

theorem MirrorSystems.writeDocuments (mirror : MirrorSystems path terms system system')
    (reliable : Reliable outcomes) (documents : List Bytes) :
    MirrorWritten path terms
      (irsStorageWriteDocuments outcomes system.storage system.world documents)
      (irsStorageWriteDocuments outcomes system'.storage system'.world documents) := by
  have same : system'.storage.documentsPath = system.storage.documentsPath :=
    mirror.storage.documentsPath
  have start : MirrorDocuments path terms
      { storage := system.storage,
        channel := (irsIoNewChannelWrite system.world system.storage.documentsPath).1,
        world := (irsIoNewChannelWrite system.world system.storage.documentsPath).2,
        documentOffsetMap := [] }
      { storage := system'.storage,
        channel := (irsIoNewChannelWrite system'.world system.storage.documentsPath).1,
        world := (irsIoNewChannelWrite system'.world system.storage.documentsPath).2,
        documentOffsetMap := [] } :=
    ⟨mirror.open system.storage.documentsPath, rfl, mirror.located.documents_ne, rfl⟩
  obtain ⟨result, written⟩ := start.documents reliable documents
  simp only [irsStorageWriteDocuments, same]
  split <;> split <;> rename_i one _ _ two <;> rw [one, two] at written result
  · exact ⟨rfl, written⟩
  · cases result
  · cases result
  · exact ⟨rfl, written⟩

/-! ### The terms -/

structure MirrorTerms (path : Bytes) (terms : List Bytes) (writer writer' : TermsWriter) :
    Prop where
  system : MirrorSystems path terms ⟨writer.storage, writer.world⟩ ⟨writer'.storage, writer'.world⟩
  channel : writer'.channel = writer.channel
  elsewhere : writer.channel.path ≠ writer.storage.termOffsetsPath

section
variable {writer writer' : TermsWriter}

theorem MirrorTerms.field (mirror : MirrorTerms path terms writer writer')
    (reliable : Reliable outcomes) (chars : Bytes) :
    Lockstep (MirrorTerms path terms) (writeTermsField outcomes writer chars)
      (writeTermsField outcomes writer' chars) := by
  obtain ⟨system, channel, elsewhere⟩ := mirror
  obtain ⟨-, writtenBytes, channel', -⟩ := write_agree reliable system.world elsewhere chars
  have complete := complete_agree reliable system.world elsewhere chars
  have there : (irsIoChannelWriteChars outcomes writer.world writer.channel chars).channel.path ≠
      writer.storage.termOffsetsPath := by
    rwa [write_path]
  have after := system.write reliable elsewhere chars
  simp only [writeTermsField, channel, complete]
  split
  · rw [writtenBytes]
    exact ⟨⟨after.storage.growTerms _, after.located.growTerms _, after.world⟩, channel', there⟩
  · exact lockstep_error _

theorem MirrorTerms.entry (mirror : MirrorTerms path terms writer writer')
    (reliable : Reliable outcomes) (node : IrsDictionaryNode DocValue) :
    Lockstep (MirrorTerms path terms) (irsStoragePassTermsDocOffsetDictionary outcomes writer node)
      (irsStoragePassTermsDocOffsetDictionary outcomes writer' node) := by
  unfold irsStoragePassTermsDocOffsetDictionary
  split
  · exact mirror
  · split
    · refine (mirror.field reliable _).bind fun _ _ first => ?_
      refine (first.field reliable _).bind fun _ _ second => ?_
      exact second.field reliable _
    · exact lockstep_error _

theorem MirrorTerms.term (mirror : MirrorTerms path terms writer writer')
    (reliable : Reliable outcomes) (oneCase : OneCase terms)
    (bytes : ∀ term ∈ terms, (∀ ch ∈ term, Admitted ch) ∧ term.length < 2 ^ 32)
    (docDictionaries : List (IrsDictionary DocValue)) (node : IrsDictionaryNode TermDocValue)
    (among : ∀ term, termOf node = some term → term ∈ terms) :
    Lockstep (MirrorTerms path terms)
      (irsStoragePassTermsDocSignificancyDictionary outcomes docDictionaries writer node)
      (irsStoragePassTermsDocSignificancyDictionary outcomes docDictionaries writer' node) := by
  unfold irsStoragePassTermsDocSignificancyDictionary
  split
  · exact mirror
  · rename_i list data
    split
    · rename_i index term docsWithTerm rest
      have member := among term (by rw [termOf, data])
      obtain ⟨admitted, short⟩ := bytes term member
      have size : writer'.storage.termsSize = writer.storage.termsSize :=
        mirror.system.storage.termsSize
      obtain ⟨dictionary, dictionary', run, run', mirrors⟩ :=
        mirror.system.storage.appendPair oneCase member admitted short writer.storage.termsSize
      obtain ⟨middle, one, two⟩ := bind_ok.mp run
      obtain ⟨middle', one', two'⟩ := bind_ok.mp run'
      rw [← size] at one'
      simp only [one, two, one', two', ok_bind]
      have located : LocatedAt path { writer.storage with termOffsetDictionary := dictionary } :=
        ⟨mirror.system.located.termOffsets, mirror.system.located.termsFile,
          mirror.system.located.documents⟩
      have start : MirrorTerms path terms
          { writer with storage := { writer.storage with termOffsetDictionary := dictionary } }
          { writer' with storage :=
            { writer'.storage with termOffsetDictionary := dictionary' } } :=
        ⟨⟨mirrors, located, mirror.system.world⟩, mirror.channel, mirror.elsewhere⟩
      refine (start.field reliable _).bind fun _ _ first => ?_
      refine (first.field reliable _).bind fun _ _ second => ?_
      refine (second.field reliable _).bind fun _ _ third => ?_
      refine Lockstep.bind_same fun docOffsetDictionary _ => ?_
      exact Lockstep.foldlM third fun _ _ visit _ mirror => mirror.entry reliable visit.2
    · exact lockstep_error _

end

/-- An add does the same to mirrored systems. -/
theorem MirrorSystems.add {F : Type} [IrsFloat F] (mirror : MirrorSystems path terms system system')
    (reliable : Reliable outcomes) (oneCase : OneCase terms)
    (bytes : ∀ term ∈ terms, (∀ ch ∈ term, Admitted ch) ∧ term.length < 2 ^ 32)
    {documents : List Bytes} (among : ∀ term ∈ tokensOf documents, term ∈ terms) :
    Lockstep (fun value value' => value.1 = value'.1 ∧ MirrorSystems path terms value.2 value'.2)
      (irsStorageAddDocuments F outcomes system documents)
      (irsStorageAddDocuments F outcomes system' documents) := by
  have both := mirror.writeDocuments reliable documents
  rcases run : irsStorageWriteDocuments outcomes system.storage system.world
    documents with ⟨status, written⟩
  rcases run' : irsStorageWriteDocuments outcomes system'.storage system'.world
    documents with ⟨status', written'⟩
  rw [run, run'] at both
  obtain ⟨same, mirrored⟩ := both
  obtain rfl : status' = status := same
  by_cases failed : status' = .ok
  · subst failed
    have documents' : written.documentOffsetMap.map Prod.fst = documents := by
      obtain ⟨-, -, -, map, -⟩ := irsStorageWriteDocuments_ok run
      rw [map, map_fst_recordOffsets]
    have termsFile : written'.storage.termsPath = written.storage.termsPath :=
      mirrored.system.storage.termsPath
    have map : written'.documentOffsetMap = written.documentOffsetMap := mirrored.map
    simp only [irsStorageAddDocuments, run, run', map]
    refine Lockstep.bind_same fun assigned assign => ?_
    have named := irsStorageAssignTermsInDocuments_among
      (by rw [documents']; exact fun term member => (bytes term (among term member)).1) assign
    rw [documents'] at named
    simp only [irsStorageWriteInfixTermsSignificanciesInDocuments, termsFile]
    refine Lockstep.bind (R := MirrorTerms path terms) (Lockstep.foldlM ?_ ?_) fun _ _ finished =>
      ⟨rfl, finished.system⟩
    · exact ⟨mirrored.system.open _, rfl, mirrored.system.located.termsFile_ne⟩
    · intro current current' visit member mirror
      exact mirror.term reliable oneCase bytes _ visit.2 fun term isTerm =>
        among term (named.visits visit member term isTerm)
  · simp only [irsStorageAddDocuments, run, run']
    exact ⟨rfl, mirrored.system⟩

end IrsMachine
