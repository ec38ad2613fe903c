import IrsMachine.Storage.Complete
import IrsMachine.Storage.Entries

/-!
# Records that tell their own length

A record of the terms file announces how many entries it has. Where the announcements are right,
the file is taken apart without the dictionary of term offsets, and the records are found where
the dictionary has them. They are right exactly if every document that contains a term has it as a
token and an entry was made for it.
-/

namespace IrsMachine
open IrsDictionaryNode Except Multimap Words

/-! ### Parsing by the counts -/

def takeField (count : Nat) (chars : Bytes) : Option (Bytes × Bytes) :=
  if count ≤ chars.length then some (chars.take count, chars.drop count) else none

def takeUint64 (chars : Bytes) : Option (UInt64 × Bytes) :=
  (takeField 8 chars).map fun field => (uint64OfChars field.1, field.2)

def skipSized (chars : Bytes) : Option Bytes :=
  (takeUint64 chars).bind fun size => (takeField size.1.toNat size.2).map Prod.snd

def skipEntries : Nat → Bytes → Option Bytes
  | 0, chars => some chars
  | left + 1, chars =>
    (takeUint64 chars).bind fun docOffset => (skipSized docOffset.2).bind (skipEntries left)

def skipRecord (chars : Bytes) : Option Bytes :=
  (skipSized chars).bind fun rest =>
    (takeUint64 rest).bind fun docsWithTerm => skipEntries docsWithTerm.1.toNat docsWithTerm.2

def recordStarts : Nat → Nat → Bytes → Option (List Nat)
  | 0, _, chars => if chars = [] then some [] else none
  | fuel + 1, start, chars =>
    if chars = [] then some []
    else (skipRecord chars).bind fun rest =>
      (recordStarts fuel (start + (chars.length - rest.length)) rest).map (start :: ·)

/-- Every record takes some bytes, so that their number is enough fuel. -/
def parseTerms (chars : Bytes) : Option (List Nat) := recordStarts chars.length 0 chars

theorem takeField_append {chars : Bytes} {count : Nat} (length : chars.length = count)
    (rest : Bytes) :
    takeField count (chars ++ rest) = some (chars, rest) := by
  subst length
  rw [takeField, if_pos (by simp), List.take_left, List.drop_left]

theorem takeUint64_append (number : UInt64) (rest : Bytes) :
    takeUint64 (uint64Chars number ++ rest) = some (number, rest) := by
  rw [takeUint64, takeField_append (length_uint64Chars number), Option.map_some,
    uint64OfChars_uint64Chars]

theorem skipSized_append {text : Bytes} (short : irsStrLen text < 2 ^ 64) (rest : Bytes) :
    skipSized (record text ++ rest) = some rest := by
  rw [record, List.append_assoc, skipSized, takeUint64_append, Option.bind_some,
    takeField_append (toNat_record_size short).symm, Option.map_some]

theorem skipEntries_append {entries : List (UInt64 × Bytes)}
    (short : ∀ entry ∈ entries, irsStrLen entry.2 < 2 ^ 64) (rest : Bytes) :
    skipEntries entries.length (entries.flatMap entryRecord ++ rest) = some rest := by
  induction entries with
  | nil => rfl
  | cons entry entries ih =>
    rw [List.length_cons, skipEntries, List.flatMap_cons, entryRecord, List.append_assoc,
      List.append_assoc, takeUint64_append, Option.bind_some,
      skipSized_append (short entry List.mem_cons_self), Option.bind_some]
    exact ih fun other member => short other (List.mem_cons_of_mem _ member)

/-! ### Records that are written -/

structure WrittenRecord where
  term : Bytes
  docsWithTerm : UInt64
  entries : List (UInt64 × Bytes)
  deriving DecidableEq

def WrittenRecord.chars (written : WrittenRecord) : Bytes :=
  record written.term ++ uint64Chars written.docsWithTerm ++ written.entries.flatMap entryRecord

def WrittenRecord.Counted (written : WrittenRecord) : Prop :=
  written.docsWithTerm.toNat = written.entries.length

instance (written : WrittenRecord) : Decidable written.Counted :=
  inferInstanceAs (Decidable (_ = _))

def writtenRecord (docDictionaries : List (IrsDictionary DocValue))
    (node : IrsDictionaryNode TermDocValue) : Option WrittenRecord :=
  match node.dataList with
  | some (.docOffsetDictionary index :: .term term :: .docsWithTerm docsWithTerm :: _) =>
    some { term, docsWithTerm, entries := ((docDictionaries[index]?).map docEntries).getD [] }
  | _ => none

def writtenRecords {F : Type} (assigned : AssignState F) : List WrittenRecord :=
  (irsDictionaryVisitDownNodes assigned.termsDocSignificancy).filterMap fun visit =>
    writtenRecord assigned.docDictionaries visit.2

def recordPairs : Nat → List WrittenRecord → List (UInt64 × Bytes)
  | _, [] => []
  | start, written :: records =>
    (UInt64.ofNat start, written.term) :: recordPairs (start + written.chars.length) records

theorem length_chars_pos (written : WrittenRecord) : 16 ≤ written.chars.length := by
  rw [WrittenRecord.chars, List.length_append, List.length_append, length_record,
    length_uint64Chars]
  omega

theorem skipRecord_append {written : WrittenRecord} (counted : written.Counted)
    (small : written.chars.length ≤ maxFileSize) (rest : Bytes) :
    skipRecord (written.chars ++ rest) = some rest := by
  rw [WrittenRecord.chars, List.length_append, List.length_append, length_record] at small
  have term : irsStrLen written.term < 2 ^ 64 := by
    have : maxFileSize < 2 ^ 64 := by decide
    omega
  have entries : ∀ entry ∈ written.entries, irsStrLen entry.2 < 2 ^ 64 :=
    fun entry member => significancy_small member (by omega)
  rw [WrittenRecord.chars, List.append_assoc, List.append_assoc, skipRecord, skipSized_append term,
    Option.bind_some, takeUint64_append, Option.bind_some, counted]
  exact skipEntries_append entries rest

theorem recordStarts_flatMap {records : List WrittenRecord} {fuel start : Nat}
    (counted : ∀ written ∈ records, written.Counted)
    (enough : (records.flatMap WrittenRecord.chars).length ≤ fuel)
    (small : start + (records.flatMap WrittenRecord.chars).length ≤ maxFileSize) :
    recordStarts fuel start (records.flatMap WrittenRecord.chars) =
      some ((recordPairs start records).map fun pair => pair.1.toNat) := by
  induction records generalizing fuel start with
  | nil => cases fuel <;> rfl
  | cons written records ih =>
    have pos := length_chars_pos written
    rw [List.flatMap_cons, List.length_append] at enough small
    obtain ⟨fuel, rfl⟩ := Nat.exists_eq_add_of_le' (show 1 ≤ fuel by omega)
    have goesOn : written.chars ++ records.flatMap WrittenRecord.chars ≠ [] := by
      rw [← List.length_pos_iff, List.length_append]
      omega
    have length : (written.chars ++ records.flatMap WrittenRecord.chars).length
        - (records.flatMap WrittenRecord.chars).length =
        written.chars.length := by
      rw [List.length_append, Nat.add_sub_cancel]
    have fits : start < 2 ^ 64 := by
      have : maxFileSize < 2 ^ 64 := by decide
      omega
    rw [List.flatMap_cons, recordStarts, if_neg goesOn,
      skipRecord_append (counted written List.mem_cons_self) (by omega), Option.bind_some, length,
      ih (fun other member => counted other (List.mem_cons_of_mem _ member)) (by omega) (by omega),
      Option.map_some, recordPairs,
      List.map_cons, UInt64.toNat_ofNat_of_lt' fits]

/-! ### The file of a batch -/

theorem writtenRecord_none {docDictionaries : List (IrsDictionary DocValue)}
    {node : IrsDictionaryNode TermDocValue} (none : node.dataList = none) :
    writtenRecord docDictionaries node = Option.none := by
  rw [writtenRecord, none]

theorem writtenRecord_some {docDictionaries : List (IrsDictionary DocValue)}
    {node : IrsDictionaryNode TermDocValue} {term : Bytes} (isTerm : termOf node = some term) :
    ∃ written, writtenRecord docDictionaries node = some written ∧ written.term = term ∧
      written.chars = termRecord docDictionaries node := by
  unfold termOf at isTerm
  split at isTerm
  · rename_i index _ docsWithTerm _ data
    cases isTerm
    refine ⟨_, by rw [writtenRecord, data], rfl, ?_⟩
    simp only [termRecord, data, WrittenRecord.chars]
    cases docDictionaries[index]? with
    | none => rfl
    | some dictionary => simp only [Option.map_some, Option.getD_some, entriesChars_eq]
  · cases isTerm

/-- The visit of the terms writes their records one after another, and adds the pair of each. -/
theorem passRecords_written {outcomes : Nat → WriteOutcome}
    {docDictionaries : List (IrsDictionary DocValue)}
    {visits : List (Address × IrsDictionaryNode TermDocValue)} {writer writer' : TermsWriter}
    {chars : Bytes} (atEnd : AtEnd writer.channel writer.world chars)
    (size : writer.storage.termsSize = UInt64.ofNat chars.length)
    (indexed : Indexed (fun _ => True) writer.storage.termOffsetDictionary)
    (run : visits.foldlM
      (fun writer visit => irsStoragePassTermsDocSignificancyDictionary outcomes docDictionaries
        writer visit.2)
      writer = .ok writer') :
    AtEnd writer'.channel writer'.world
        (chars ++ (visits.filterMap fun visit => writtenRecord docDictionaries visit.2).flatMap
          WrittenRecord.chars) ∧
      (heldPairs writer'.storage.termOffsetDictionary : Multiset (UInt64 × Bytes)) =
        heldPairs writer.storage.termOffsetDictionary +
          recordPairs chars.length
            (visits.filterMap fun visit => writtenRecord docDictionaries visit.2) := by
  induction visits generalizing writer chars with
  | nil =>
    cases run
    rw [List.filterMap_nil, List.flatMap_nil, List.append_nil, recordPairs,
      Multiset.coe_nil, add_zero]
    exact ⟨atEnd, rfl⟩
  | cons visit visits ih =>
    obtain ⟨middle, step, rest⟩ := foldlM_cons_ok.mp run
    rcases irsStoragePassTermsDocSignificancyDictionary_ok atEnd
      step with ⟨none, rfl⟩ | ⟨term, dictionary, isTerm, append, -, extended⟩
    · simp only [List.filterMap_cons, writtenRecord_none none]
      exact ih atEnd size indexed rest
    · obtain ⟨written, isWritten, rfl, recordChars⟩ :=
        @writtenRecord_some docDictionaries visit.2 term isTerm
      have same : middle.storage.termOffsetDictionary = dictionary := by rw [extended.storage]; rfl
      have more := heldPairs_appendPair indexed (fun _ _ => trivial) append
      obtain ⟨indexed', -⟩ := appendPair_ok indexed (fun _ _ => trivial) append
      have size' : middle.storage.termsSize = UInt64.ofNat (chars ++ written.chars).length := by
        rw [extended.storage, recordChars, List.length_append, UInt64.ofNat_add]
        exact congrArg (· + _) size
      obtain ⟨atEnd', held⟩ := ih (recordChars ▸ extended.atEnd) size' (same ▸ indexed') rest
      simp only [List.filterMap_cons, isWritten, List.flatMap_cons]
      rw [← List.append_assoc]
      refine ⟨atEnd', ?_⟩
      rw [held, same, more, size, recordPairs, List.length_append, add_assoc,
        Multiset.singleton_add, Multiset.cons_coe]

/-- The terms file consists of the records, and the dictionary of term offsets has their places. -/
structure LaidOut {F : Type} (assigned : AssignState F) (system : System) : Prop where
  file : fileBytes system.world system.storage.termsPath =
    (writtenRecords assigned).flatMap WrittenRecord.chars
  small : ((writtenRecords assigned).flatMap WrittenRecord.chars).length ≤ maxFileSize
  pairs : (heldPairs system.storage.termOffsetDictionary).Perm
    (recordPairs 0 (writtenRecords assigned))

/-- Every record announces as many entries as were written after it, and taking the file apart by
these numbers ends at its end and meets the offsets of the dictionary, each as often as it stands
there. -/
structure SelfDelimiting {F : Type} (assigned : AssignState F) (system : System) : Prop where
  file : fileBytes system.world system.storage.termsPath =
    (writtenRecords assigned).flatMap WrittenRecord.chars
  counted : ∀ written ∈ writtenRecords assigned, written.Counted
  parsed : ∃ starts, parseTerms (fileBytes system.world system.storage.termsPath) = some starts ∧
    starts.Perm ((heldPairs system.storage.termOffsetDictionary).map fun pair => pair.1.toNat)

theorem LaidOut.selfDelimiting_iff {F : Type} {assigned : AssignState F} {system : System}
    (laidOut : LaidOut assigned system) :
    SelfDelimiting assigned system ↔ ∀ written ∈ writtenRecords assigned, written.Counted := by
  refine ⟨SelfDelimiting.counted,
    fun counted => ⟨laidOut.file, counted, _, ?_, (laidOut.pairs.map _).symm⟩⟩
  rw [laidOut.file]
  exact recordStarts_flatMap counted (Nat.le_refl _) ((Nat.zero_add _).trans_le laidOut.small)

variable {F : Type} [IrsFloat F]

theorem irsStorageAddDocuments_written {outcomes : Nat → WriteOutcome} {path : Bytes}
    {world : World} {documents : List Bytes} {system : System}
    (run : irsStorageAddDocuments F outcomes (freshSystem path world) documents =
      .ok (.ok, system)) :
    ∃ assigned : AssignState F, irsStorageAssignTermsInDocuments (recordOffsets 0 documents) =
      .ok assigned ∧ LaidOut assigned system := by
  obtain ⟨middle, assigned, writer, documentsRun, assign, terms, rfl⟩ :=
    irsStorageAddDocuments_ok run
  obtain ⟨storage, -, -, map, -⟩ := irsStorageWriteDocuments_ok documentsRun
  have opened := atEnd_open middle.world middle.storage.termsPath
  obtain ⟨atEnd, held⟩ :=
    passRecords_written opened (by rw [storage]; rfl)
      (by rw [storage]; exact indexed_freshDictionary) terms
  obtain ⟨-, frame⟩ := passRecords_frame opened terms
  have fresh : heldPairs middle.storage.termOffsetDictionary = [] := by rw [storage]; rfl
  have termsPath : writer.storage.termsPath = writer.channel.path := by
    rw [frame.path, frame.storage]
  rw [fresh, Multiset.coe_nil, zero_add] at held
  refine ⟨assigned, by rw [← assign, map]; rfl, ?_, atEnd.small, Multiset.coe_eq_coe.mp held⟩
  rw [fileBytes, termsPath, atEnd.contents]
  rfl

/-! ### Announced and written -/

/-- Every document that contains the term has it as a token, and all of them get their entries. -/
structure Delimited (due : Occurrence → List Bytes → Prop)
    (documentOffsetMap : List (Bytes × UInt64)) (term : Bytes) : Prop
    extends Recorded due documentOffsetMap term where
  tokens : ∀ pair ∈ documentOffsetMap, irsStrFind pair.1 term = true →
    term ∈ irsStorageGetDocumentTerms pair.1

variable {ok : UInt8 → Prop} {due : Occurrence → List Bytes → Prop}
  {documentOffsetMap : List (Bytes × UInt64)} {term : Bytes}

theorem EntryMade.mem {docOffset : UInt64}
    (made : EntryMade due (occurrences documentOffsetMap) term docOffset) :
    ∃ pair ∈ documentOffsetMap, term ∈ irsStorageGetDocumentTerms pair.1 ∧ pair.2 = docOffset := by
  obtain ⟨before, pair, after, split, same, -⟩ := made.entryDue
  obtain ⟨inMap, isToken⟩ := split_mem split
  exact ⟨pair, inMap, isToken, same⟩

theorem delimited_iff (nodup : (documentOffsetMap.map Prod.snd).Nodup) :
    (∀ pair ∈ documentOffsetMap, irsStrFind pair.1 term = true →
      EntryMade due (occurrences documentOffsetMap) term pair.2) ↔
      Delimited due documentOffsetMap term := by
  constructor
  · intro all
    have complete : Complete due documentOffsetMap term :=
      fun pair inMap isToken => all pair inMap (irsStrFind_token isToken)
    refine ⟨complete.recorded nodup, fun pair inMap contains => ?_⟩
    obtain ⟨other, inMap', isToken, same⟩ := (all pair inMap contains).mem
    exact List.inj_on_of_nodup_map nodup inMap' inMap same ▸ isToken
  · intro delimited pair inMap contains
    exact delimited.toRecorded.complete nodup pair inMap (delimited.tokens pair inMap contains)

/-- The entries are some of the documents that contain the term, so that their numbers agree only if
they are all of them. -/
theorem counted_iff {entries : List (UInt64 × Bytes)} (few : documentOffsetMap.length < 2 ^ 32)
    (nodup : (documentOffsetMap.map Prod.snd).Nodup) (distinct : (entries.map Prod.fst).Nodup)
    (offsets : ∀ docOffset, docOffset ∈ entries.map Prod.fst ↔
      EntryMade due (occurrences documentOffsetMap) term docOffset) :
    (docsNumber documentOffsetMap term).toNat = entries.length ↔
      Delimited due documentOffsetMap term := by
  have contained : ∀ docOffset, docOffset ∈ irsStorageGetDocumentsWithTerm term documentOffsetMap ↔
      ∃ pair ∈ documentOffsetMap, irsStrFind pair.1 term = true ∧ pair.2 = docOffset := by
    intro docOffset
    rw [irsStorageGetDocumentsWithTerm, List.mem_map]
    simp only [List.mem_filter, and_assoc]
  have some : (entries.map Prod.fst).Subperm
      (irsStorageGetDocumentsWithTerm term documentOffsetMap) := by
    apply List.subperm_of_subset distinct
    intro docOffset member
    obtain ⟨pair, inMap, isToken, same⟩ := ((offsets docOffset).mp member).mem
    exact (contained docOffset).mpr ⟨pair, inMap, irsStrFind_token isToken, same⟩
  have length : (entries.map Prod.fst).length = entries.length := List.length_map _
  rw [← delimited_iff nodup, toNat_docsNumber few, docsWith, ← length]
  constructor
  · intro lengths pair inMap contains
    have all := some.perm_of_length_le lengths.le
    exact (offsets pair.2).mp
      (all.mem_iff.mpr ((contained pair.2).mpr ⟨pair, inMap, contains, rfl⟩))
  · intro all
    have distinct' : (irsStorageGetDocumentsWithTerm term documentOffsetMap).Nodup :=
      nodup.sublist (List.filter_sublist.map _)
    refine le_antisymm (List.subperm_of_subset distinct' fun docOffset member => ?_).length_le
      some.length_le
    obtain ⟨pair, inMap, contains, rfl⟩ := (contained docOffset).mp member
    exact (offsets pair.2).mpr (all pair inMap contains)

theorem AssignedExactly.counted_iff {state : AssignState F}
    (assigned : AssignedExactly ok documentOffsetMap (tokensOf (documentOffsetMap.map Prod.fst))
      (EntryMade due (occurrences documentOffsetMap)) state)
    (few : documentOffsetMap.length < 2 ^ 32) (nodup : (documentOffsetMap.map Prod.snd).Nodup) :
    (∀ written ∈ writtenRecords state, written.Counted) ↔
      ∀ term ∈ tokensOf (documentOffsetMap.map Prod.fst), Delimited due documentOffsetMap term := by
  have visits : ∀ visit ∈ irsDictionaryVisitDownNodes state.termsDocSignificancy,
      visit.2.dataList = none ∨
      ∃ term ∈ tokensOf (documentOffsetMap.map Prod.fst), termOf visit.2 = some term ∧
      ∃ written : WrittenRecord,
        writtenRecord state.docDictionaries visit.2 = some written ∧
        (written.Counted ↔ Delimited due documentOffsetMap term) := by
    intro visit member
    rcases assigned.visit visit member with none | ⟨data, inside⟩
    · exact .inl none
    · obtain ⟨dictionary, located, indexed⟩ := assigned.dictionaries _ inside
      have found := assigned.entries _ inside dictionary located
      obtain ⟨distinct, offsets, -⟩ := indexed.docEntries
      refine .inr ⟨_, inside, by rw [termOf, data], _, by rw [writtenRecord, data], ?_⟩
      rw [WrittenRecord.Counted, located]
      exact IrsMachine.counted_iff few nodup distinct fun docOffset =>
        (offsets docOffset).trans (found docOffset)
  constructor
  · intro counted term member
    have nonempty : [] ∉ tokensOf (documentOffsetMap.map Prod.fst) :=
      fun member => token_nonempty member rfl
    obtain ⟨visit, inside, isTerm⟩ :=
      List.mem_filterMap.mp ((assigned.mem_visitedTerms nonempty).mpr member)
    rcases visits visit inside with none | ⟨other, -, isTerm', written, isWritten, same⟩
    · rw [termOf, none] at isTerm
      cases isTerm
    · cases isTerm.symm.trans isTerm'
      exact same.mp (counted written (List.mem_filterMap.mpr ⟨visit, inside, isWritten⟩))
  · intro delimited written member
    obtain ⟨visit, inside, isWritten⟩ := List.mem_filterMap.mp member
    rcases visits visit inside with none | ⟨term, isToken, -, other, isWritten', same⟩
    · rw [writtenRecord_none none] at isWritten
      cases isWritten
    · cases isWritten.symm.trans isWritten'
      exact same.mpr (delimited term isToken)

theorem irsStorageAddDocuments_selfDelimiting_iff {outcomes : Nat → WriteOutcome} {path : Bytes}
    {world : World} {documents : List Bytes} {system : System}
    (digits : ∀ number : UInt64, number.toNat < 2 ^ 53 →
      IrsFloat.toStrInt (F := F) number = decimal number)
    (few : documents.length < 2 ^ 32) (small : (documents.flatMap record).length < 2 ^ 53)
    (told : TokensTold (tokensOf documents))
    (run : irsStorageAddDocuments F outcomes (freshSystem path world) documents =
      .ok (.ok, system)) :
    (∃ assigned : AssignState F,
      irsStorageAssignTermsInDocuments (recordOffsets 0 documents) = .ok assigned ∧
      SelfDelimiting assigned system) ↔
      ∀ term ∈ tokensOf documents,
        Delimited (Significant F (recordOffsets 0 documents)) (recordOffsets 0 documents) term := by
  have tokens : tokensOf ((recordOffsets 0 documents).map Prod.fst) = tokensOf documents := by
    rw [map_fst_recordOffsets]
  have few' : (recordOffsets 0 documents).length < 2 ^ 32 := by rw [length_recordOffsets]; exact few
  have nodup : ((recordOffsets 0 documents).map Prod.snd).Nodup :=
    @recordOffsets_nodup documents 0 (by omega)
  have offsets : ∀ pair ∈ recordOffsets 0 documents, pair.2.toNat < 2 ^ 53 := by
    intro pair member
    have := recordOffsets_fits (small.le.trans (by decide)) member
    omega
  obtain ⟨assigned, assign, laidOut⟩ := irsStorageAddDocuments_written run
  have exactly :=
    irsStorageAssignTermsInDocuments_returned (fun pair inMap => digits pair.2 (offsets pair inMap))
    (by rw [tokens]; exact told) assign
  rw [← tokens, ← exactly.counted_iff few' nodup, ← laidOut.selfDelimiting_iff]
  constructor
  · rintro ⟨other, assign', delimiting⟩
    cases assign.symm.trans assign'
    exact delimiting
  · exact fun delimiting => ⟨assigned, assign, delimiting⟩

/-- No child is chosen by the byte `0x7F`, so that it does no harm. -/
theorem irsStorageAddDocuments_selfDelimiting_iff_a_b :
    ∃ (system : System) (assigned : AssignState Ratio),
    irsStorageAddDocuments Ratio allWritten (freshSystem [] .empty)
      [[97, 127, 32, 98], [97, 127], [98]] = .ok (.ok, system) ∧
      SelfDelimiting assigned system := by
  have facts : (irsStorageAddDocuments Ratio allWritten (freshSystem [] .empty)
    [[97, 127, 32, 98], [97, 127], [98]] >>= fun result =>
      .ok result.1) = .ok .ok := by decide +kernel
  obtain ⟨⟨status, system⟩, ran, facts⟩ := bind_ok.mp facts
  obtain rfl : status = .ok := Except.ok.inj facts
  have tokens : tokensOf [[97, 127, 32, 98], [97, 127], [98]] =
      [[97, 127], [98], [97, 127], [98]] := by decide +kernel
  have told : TokensTold (tokensOf [[97, 127, 32, 98], [97, 127], [98]]) := by
    rw [tokens]
    exact ⟨by simp, unmixed_of_lower (by simp [tolower]), unconfused_of_head (by simp)⟩
  have offsets : recordOffsets 0 [[97, 127, 32, 98], [97, 127], [98]] =
      [([97, 127, 32, 98], 0), ([97, 127], 12), ([98], 22)] := by decide +kernel
  have fewer : ∀ term ∈ tokensOf ([([97, 127, 32, 98], (0 : UInt64)), ([97, 127], 12),
    ([98], 22)].map Prod.fst),
      docsWith [([97, 127, 32, 98], 0), ([97, 127], 12), ([98], 22)] term <
      [([97, 127, 32, 98], (0 : UInt64)), ([97, 127], 12), ([98], 22)].length := by
    decide +kernel
  have delimited :=
    (irsStorageAddDocuments_selfDelimiting_iff (F := Ratio) (fun _ _ => rfl) (by simp)
      (by decide +kernel)
    told ran).mpr (by
      rw [tokens, offsets]
      intro term member
      have signed : Signed Ratio [([97, 127, 32, 98], 0), ([97, 127], 12), ([98], 22)] term :=
        signed_of_signedIrsFloat (by simp) (by simp) term
      refine ⟨(recorded_congr (by simp) fun before pair after =>
        signed.significant_iff_positive).mpr
        ⟨fun pair inMap isToken => entryDue_of_fewer fewer inMap isToken, unconfused_of_head ?_⟩,
        ?_⟩
      all_goals
        simp only [List.mem_cons, List.not_mem_nil, or_false] at member
        rcases member with rfl | rfl | rfl | rfl <;> decide +kernel)
  obtain ⟨assigned, -, delimiting⟩ := delimited
  exact ⟨system, assigned, ran, delimiting⟩

/-- The record of the only document announces one entry and has none. -/
theorem selfDelimiting_fails_a : ∃ system : System,
    irsStorageAddDocuments Ratio allWritten (freshSystem [] .empty) [[97]] = .ok (.ok, system) ∧
      ¬∃ assigned : AssignState Ratio, irsStorageAssignTermsInDocuments (recordOffsets 0 [[97]]) =
        .ok assigned ∧
        SelfDelimiting assigned system := by
  have facts : (irsStorageAddDocuments Ratio allWritten (freshSystem [] .empty)
    [[97]] >>= fun result =>
      .ok result.1) = .ok .ok := by decide +kernel
  obtain ⟨⟨status, system⟩, ran, facts⟩ := bind_ok.mp facts
  obtain rfl : status = .ok := Except.ok.inj facts
  refine ⟨system, ran, ?_⟩
  rintro ⟨assigned, assign, delimiting⟩
  have records : ((irsStorageAssignTermsInDocuments (recordOffsets 0 [[97]]) :
    Except Fault (AssignState Ratio)) >>= fun state =>
      .ok (writtenRecords state)) = .ok [{ term := [97], docsWithTerm := 1, entries := [] }] := by
        decide +kernel
  rw [assign, ok_bind] at records
  have counted :=
    delimiting.counted { term := [97], docsWithTerm := 1, entries := [] }
      (by rw [Except.ok.inj records]; simp)
  exact absurd counted (by decide)

end IrsMachine
