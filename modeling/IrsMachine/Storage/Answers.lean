import IrsMachine.Storage.TermFile

/-!
# Queries after one batch

A query for a token reads its record. The record announces every document that contains the
term, but it has entries only for those with the term as a token, and only where the reverse
frequency that was current happened to be positive. Where these agree, the answer is the one
that the documents ask for (`irsStorageGetDocuments_answers`).
-/

namespace IrsMachine
open IrsDictionaryNode Except Multimap Words

def withToken (documentOffsetMap : List (Bytes × UInt64)) (term : Bytes) : List (Bytes × UInt64) :=
  documentOffsetMap.filter fun pair => decide (term ∈ irsStorageGetDocumentTerms pair.1)

/-- What the documents ask of the answer to a query for the term: nothing for a string that is
no token. For a token, one triple for each document that has it, or none at all if every
document contains it. -/
structure Answers (F : Type) [IrsFloat F] (documents : List Bytes) (term : Bytes)
    (answer : Answer) : Prop where
  status : answer.status = .ok
  absent : term ∉ tokensOf documents → answer.documentsList = [none]
  present : term ∈ tokensOf documents → ∃ triples, answer.documentsList = [some triples] ∧
    (triples.map fun triple => (triple.document, triple.docOffset)).Perm
      (if docsWith (recordOffsets 0 documents) term < documents.length then withToken
        (recordOffsets 0 documents) term else []) ∧
    ∀ triple ∈ triples,
    ∃ text, SignificancyText F (recordOffsets 0 documents) term triple.docOffset text ∧
      triple.significancy = cString text

/-- The record of the term is whole: every document that contains the term has it as a token,
and an entry is made for each. -/
structure Whole (documentOffsetMap : List (Bytes × UInt64)) (term : Bytes) : Prop where
  tokens : ∀ pair ∈ documentOffsetMap, irsStrFind pair.1 term = true →
    term ∈ irsStorageGetDocumentTerms pair.1
  stored : ∀ pair ∈ documentOffsetMap, term ∈ irsStorageGetDocumentTerms pair.1 →
    Stored documentOffsetMap (occurrences documentOffsetMap) term pair.2
  clear : Clear documentOffsetMap term

structure Batch (documents : List Bytes) : Prop where
  few : documents.length < 2 ^ 32
  small : (documents.flatMap record).length < 2 ^ 53
  apart : TokensApart (tokensOf documents)

/-- The string passes for no token and its lookup chooses no child by the byte `0x7F`, or it is a
token whose record is whole, and some document does not contain it. -/
structure Answerable (documents : List Bytes) (term : Bytes) : Prop extends Batch documents where
  absent : term ∉ tokensOf documents → ¬Probes {k | k ∈ tokensOf documents} (readPart term) 0x7F ∧
    ∀ token ∈ tokensOf documents, ¬Passes {k | k ∈ tokensOf documents} token term
  present : term ∈ tokensOf documents →
    docsWith (recordOffsets 0 documents) term < documents.length ∧
    Whole (recordOffsets 0 documents) term

/-- A query for the term, after the documents were added to a fresh storage, is answered as it
should be. -/
def Answered (F : Type) [IrsFloat F] (outcomes : Nat → WriteOutcome) (path : Bytes) (world : World)
    (documents : List Bytes) (term : Bytes) : Prop :=
  ∃ system answer, irsStorageAddDocuments F outcomes (freshSystem path world) documents =
    .ok (.ok, system) ∧
    irsStorageGetDocuments system [term] = .ok answer ∧ Answers F documents term answer

/-! ### Offsets of a batch -/

theorem length_recordOffsets (start : UInt64) (documents : List Bytes) :
    (recordOffsets start documents).length = documents.length := by
  rw [← List.length_map, map_fst_recordOffsets]

theorem recordOffsets_ge {documents : List Bytes} {start : Nat}
    (small : start + (documents.flatMap record).length < 2 ^ 64) :
    ∀ pair ∈ recordOffsets (UInt64.ofNat start) documents, start ≤ pair.2.toNat := by
  induction documents generalizing start with
  | nil => exact fun pair member => by cases member
  | cons document documents ih =>
    have fits : start < 2 ^ 64 := by omega
    rw [List.flatMap_cons, List.length_append, ← Nat.add_assoc] at small
    rw [recordOffsets, ← UInt64.ofNat_add]
    intro pair member
    rcases List.mem_cons.mp member with rfl | member
    · rw [UInt64.toNat_ofNat_of_lt' fits]
    · exact (Nat.le_add_right _ _).trans (ih small pair member)

theorem recordOffsets_nodup {documents : List Bytes} {start : Nat}
    (small : start + (documents.flatMap record).length < 2 ^ 64) :
    ((recordOffsets (UInt64.ofNat start) documents).map Prod.snd).Nodup := by
  induction documents generalizing start with
  | nil => exact List.nodup_nil
  | cons document documents ih =>
    have fits : start < 2 ^ 64 := by omega
    rw [List.flatMap_cons, List.length_append, ← Nat.add_assoc] at small
    rw [recordOffsets, ← UInt64.ofNat_add, List.map_cons, List.nodup_cons]
    refine ⟨fun member => ?_, ih small⟩
    obtain ⟨pair, inside, same⟩ := List.mem_map.mp member
    have later := recordOffsets_ge small pair inside
    rw [same, UInt64.toNat_ofNat_of_lt' fits, length_record] at later
    omega

theorem exists_text {documentOffsetMap : List (Bytes × UInt64)}
    (nodup : (documentOffsetMap.map Prod.snd).Nodup) :
    ∃ text : UInt64 → Bytes, ∀ pair ∈ documentOffsetMap, text pair.2 = pair.1 := by
  refine ⟨fun docOffset =>
    ((documentOffsetMap.find? fun pair => decide (pair.2 = docOffset)).map Prod.fst).getD [],
    fun pair member => ?_⟩
  cases found : documentOffsetMap.find? fun other => decide (other.2 = pair.2) with
  | none => exact absurd (decide_eq_true rfl) (List.find?_eq_none.mp found pair member)
  | some other =>
    have same : other.2 = pair.2 := by simpa using List.find?_some found
    obtain rfl := List.inj_on_of_nodup_map nodup (List.mem_of_find?_eq_some found) member same
    simp only [found, Option.map_some, Option.getD_some]

/-! ### Entries of a whole record -/

theorem docsWith_withToken {documentOffsetMap : List (Bytes × UInt64)} {term : Bytes}
    (whole : Whole documentOffsetMap term) :
    docsWith documentOffsetMap term = (withToken documentOffsetMap term).length := by
  rw [docsWith, irsStorageGetDocumentsWithTerm, List.length_map, withToken]
  refine congrArg _ (List.filter_congr fun pair member => Bool.eq_iff_iff.mpr ?_)
  rw [decide_eq_true_eq]
  exact ⟨whole.tokens pair member, irsStrFind_token⟩

theorem entries_perm {Text : UInt64 → Bytes → Prop} {dictionary : IrsDictionary DocValue}
    {documentOffsetMap : List (Bytes × UInt64)} {term : Bytes}
    (indexed : DocIndexed Text dictionary) (whole : Whole documentOffsetMap term)
    (nodup : (documentOffsetMap.map Prod.snd).Nodup)
    (exact : ∀ docOffset, decimal docOffset ∈ keys irsCharToIrsInt dictionary.root ↔
      Stored documentOffsetMap (occurrences documentOffsetMap) term docOffset) :
    ((docEntries dictionary).map Prod.fst).Perm
      ((withToken documentOffsetMap term).map Prod.snd) := by
  obtain ⟨distinct, member, -⟩ := indexed.docEntries
  rw [withToken, List.perm_ext_iff_of_nodup distinct (nodup.sublist (List.filter_sublist.map _))]
  intro docOffset
  rw [member, exact, List.mem_map]
  constructor
  · rintro ⟨before, pair, after, split, rfl, -⟩
    obtain ⟨inMap, isToken⟩ := split_mem split
    exact ⟨pair, List.mem_filter.mpr ⟨inMap, decide_eq_true isToken⟩, rfl⟩
  · rintro ⟨pair, inside, rfl⟩
    obtain ⟨inMap, isToken⟩ := List.mem_filter.mp inside
    exact whole.stored pair inMap (of_decide_eq_true isToken)

/-! ### The storage after one batch -/

structure Holds (F : Type) [IrsFloat F] (documents : List Bytes) (system : System) : Prop where
  kept : Kept Admitted system.storage.termOffsetDictionary
  terms : keys irsCharToIrsInt system.storage.termOffsetDictionary.root =
    {term | term ∈ tokensOf documents}
  file : system.world.files system.storage.documentsPath = some (documents.flatMap record)
  small : ((system.world.files system.storage.termsPath).getD []).length ≤ maxFileSize
  records : ∀ term ∈ tokensOf documents, ∃ (offset : UInt64) (dictionary : IrsDictionary DocValue),
    offset.toNat ≤ maxFileSize ∧
    contents irsCharToIrsInt system.storage.termOffsetDictionary.root term =
    [.offset offset, .term term] ∧
    DocIndexed (SignificancyText F (recordOffsets 0 documents) term) dictionary ∧
    (Clear (recordOffsets 0 documents) term →
      ∀ docOffset, decimal docOffset ∈ keys irsCharToIrsInt dictionary.root ↔
      Stored (recordOffsets 0 documents) (occurrences (recordOffsets 0 documents)) term docOffset) ∧
    HoldsAt system.world system.storage.termsPath offset.toNat
      (record term ++ uint64Chars (docsNumber (recordOffsets 0 documents) term) ++
        entriesChars dictionary)

variable {F : Type} [IrsFloat F]

theorem recordOffsets_fits {documents : List Bytes}
    (small : (documents.flatMap record).length ≤ maxFileSize) {pair : Bytes × UInt64}
    (member : pair ∈ recordOffsets 0 documents) :
    pair.2.toNat + (record pair.1).length ≤ (documents.flatMap record).length := by
  have located := (@recordOffsets_located documents [] pair small member).length_le
  rw [List.nil_append, List.length_drop, length_record] at located
  rw [length_record]
  omega

theorem writeTerms_holds [LawfulIrsFloat F] {outcomes : Nat → WriteOutcome} {path : Bytes}
    {world : World} {documents : List Bytes} {middle : DocumentsWriter}
    (bytes : ∀ document ∈ documents, ∀ ch ∈ document, Admitted ch) (batch : Batch documents)
    (documentsRun : irsStorageWriteDocuments outcomes (irsStorageInitialize path) world documents =
      (.ok, middle)) :
    ∃ state : AssignState F, irsStorageAssignTermsInDocuments middle.documentOffsetMap = .ok state ∧
      OnlyFails Fault.aborted
        (irsStorageWriteInfixTermsSignificanciesInDocuments outcomes middle.storage middle.world
          state) ∧
      ∀ writer, irsStorageWriteInfixTermsSignificanciesInDocuments outcomes middle.storage
        middle.world state = .ok writer →
        Holds F documents { storage := writer.storage, world := writer.world } := by
  obtain ⟨storage, file, fits, map, -⟩ := irsStorageWriteDocuments_ok documentsRun
  have map : middle.documentOffsetMap = recordOffsets 0 documents := map
  have admitted := token_admitted bytes
  have tokens : tokensOf ((recordOffsets 0 documents).map Prod.fst) = tokensOf documents := by
    rw [map_fst_recordOffsets]
  have few : (recordOffsets 0 documents).length < 2 ^ 32 := by
    rw [length_recordOffsets]; exact batch.few
  have small : ∀ pair ∈ recordOffsets 0 documents, pair.2.toNat < 2 ^ 53 := by
    intro pair member
    have := recordOffsets_fits fits member
    have := batch.small
    omega
  obtain ⟨state, assign, assigned⟩ := irsStorageAssignTermsInDocuments_ok (F := F) few small
    (by rw [tokens]; exact fun term member => (admitted term member).2)
    (by rw [tokens]; exact batch.apart)
  rw [tokens] at assigned
  have opened := atEnd_open middle.world middle.storage.termsPath
  have start : Filed state.docDictionaries []
      ⟨middle.storage, (irsIoNewChannelWrite middle.world middle.storage.termsPath).1,
      (irsIoNewChannelWrite middle.world middle.storage.termsPath).2⟩ [] :=
    ⟨opened, by rw [storage]; rfl, by rw [storage]; exact indexed_freshDictionary,
      by rw [storage]; exact keys_freshDictionary.trans (by simp [visitedTerms]),
      fun visit member => by cases member⟩
  obtain ⟨only, filing⟩ := passRecords_filed (assigned.fits batch.apart admitted) start
  refine ⟨state, by rw [map, assign], only, fun writer terms => ?_⟩
  obtain ⟨written, filed⟩ := filing writer terms
  obtain ⟨-, frame⟩ := passRecords_frame opened terms
  have nonempty : [] ∉ tokensOf documents := fun member => (admitted [] member).1 rfl
  obtain ⟨keys', records⟩ := assigned.filed nonempty filed
  have frameStorage := frame.storage
  simp only [storage, IrsStorage.grow] at frameStorage
  have documentsPath : writer.storage.documentsPath =
      (irsStorageInitialize path).documentsPath := by rw [frameStorage]
  have termsPath : writer.storage.termsPath = writer.channel.path := by
    rw [frame.path, frame.storage]
  have contents : writer.world.files writer.storage.termsPath = some written := by
    rw [termsPath]; exact filed.atEnd.contents
  refine ⟨filed.indexed.toKept, keys', ?_, ?_, fun term member => ?_⟩
  · have different : (irsStorageInitialize path).documentsPath ≠ middle.storage.termsPath := by
      rw [storage]
      exact documentsPath_ne_termsPath path
    rw [documentsPath, ← file]
    exact (frame.others _ different).trans (open_other _ different)
  · rw [contents]
    exact filed.atEnd.small
  · obtain ⟨offset, dictionary, inside, pair, indexed, exact, located⟩ := records term member
    refine ⟨offset, dictionary, inside, pair, indexed, exact, ?_⟩
    rw [HoldsAt, contents]
    exact located

theorem irsStorageAddDocuments_holds [LawfulIrsFloat F] {outcomes : Nat → WriteOutcome}
    {path : Bytes} {world : World} {documents : List Bytes}
    (bytes : ∀ document ∈ documents, ∀ ch ∈ document, Admitted ch) (batch : Batch documents)
    (written : ∀ system, irsStorageAddDocuments F outcomes (freshSystem path world) documents ≠
      .ok (.writeError, system))
    (finished : irsStorageAddDocuments F outcomes (freshSystem path world) documents ≠
      .error .aborted) :
    ∃ system, irsStorageAddDocuments F outcomes (freshSystem path world) documents =
      .ok (.ok, system) ∧
      Holds F documents system := by
  rcases documentsRun : irsStorageWriteDocuments outcomes
    (irsStorageInitialize path) world documents with ⟨status, middle⟩
  by_cases failed : status = .ok
  · subst failed
    obtain ⟨state, assign, only, holds⟩ := writeTerms_holds (F := F) bytes batch documentsRun
    simp only [irsStorageAddDocuments, freshSystem, documentsRun, assign, ok_bind] at finished ⊢
    obtain ⟨writer, terms⟩ := only.exists_ok fun aborted => finished (by rw [aborted]; rfl)
    exact ⟨_, by rw [terms]; rfl, holds writer terms⟩
  · refine absurd ?_ (written { storage := middle.storage, world := middle.world })
    simp only [irsStorageAddDocuments, freshSystem, documentsRun]

/-! ### Queries -/

theorem irsStorageGetDocuments_none {system : System} {term : Bytes}
    (get : irsDictionaryGet system.storage.termOffsetDictionary term = .ok none) :
    irsStorageGetDocuments system [term] =
      .ok { status := .ok, documentsList := [none], consulted := [] } := by
  simp only [irsStorageGetDocuments, getDocumentsLoop, get, ok_bind, firstOffset, List.nil_append]

theorem irsStorageGetDocuments_some {system : System} {term : Bytes} {offset : UInt64}
    {list : List TermOffsetValue} {triples : List Triple}
    (get : irsDictionaryGet system.storage.termOffsetDictionary term =
      .ok (some (.offset offset :: list)))
    (read : irsStorageReadDocumentsByTerm system.storage system.world offset = some triples) :
    irsStorageGetDocuments system [term] =
      .ok { status := .ok, documentsList := [some triples], consulted := [offset] } := by
  simp only [irsStorageGetDocuments, getDocumentsLoop, get, ok_bind, firstOffset, read,
    List.nil_append]

theorem Holds.readable {documents : List Bytes} {system : System} {text : UInt64 → Bytes}
    {entry : UInt64 × Bytes} {pair : Bytes × UInt64} (holds : Holds F documents system)
    (small : (documents.flatMap record).length ≤ maxFileSize)
    (inMap : pair ∈ recordOffsets 0 documents) (readable : pair.1.length ≤ intMax)
    (spec : text pair.2 = pair.1) (same : entry.1 = pair.2)
    (significancy : irsStrLen entry.2 < 2 ^ 64) :
    Readable system.world system.storage.documentsPath text entry where
  holds := by
    rw [same, spec, HoldsAt, holds.file]
    exact @recordOffsets_located documents [] pair small inMap
  offset := by
    have fit := recordOffsets_fits small inMap
    rw [length_record] at fit
    have : maxFileSize < 2 ^ 63 := by decide
    rw [same]
    omega
  document := by
    rw [same, spec]
    exact (List.takeWhile_prefix _).length_le.trans readable
  significancy := significancy

theorem significancy_small {entries : List (UInt64 × Bytes)} {entry : UInt64 × Bytes}
    (member : entry ∈ entries) (small : (entries.flatMap entryRecord).length ≤ maxFileSize) :
    irsStrLen entry.2 < 2 ^ 64 := by
  have inside := (List.sublist_flatten_of_mem
    (List.mem_map_of_mem (f := entryRecord) member)).length_le
  rw [← List.flatMap_def, length_entryRecord] at inside
  have : maxFileSize < 2 ^ 64 := by decide
  omega

theorem irsStorageGetDocuments_found {system : System} {term : Bytes} {offset : UInt64}
    {list : List TermOffsetValue} {answer : Answer}
    (get : irsDictionaryGet system.storage.termOffsetDictionary term =
      .ok (some (.offset offset :: list)))
    (query : irsStorageGetDocuments system [term] = .ok answer) :
    answer.documentsList ≠ [none] := by
  simp only [irsStorageGetDocuments, getDocumentsLoop, get, ok_bind, firstOffset,
    List.nil_append] at query
  split at query <;> cases query <;> simp

theorem irsStorageGetDocuments_looksUp {system : System} {term : Bytes} {answer : Answer}
    (query : irsStorageGetDocuments system [term] = .ok answer) :
    ∃ list, irsDictionaryGet system.storage.termOffsetDictionary term = .ok list := by
  simp only [irsStorageGetDocuments, getDocumentsLoop] at query
  obtain ⟨list, get, -⟩ := bind_ok.mp query
  exact ⟨list, get⟩

theorem Holds.read {documents : List Bytes} {system : System} {term : Bytes}
    (holds : Holds F documents system)
    (bytes : ∀ document ∈ documents, ∀ ch ∈ document, Admitted ch) (batch : Batch documents)
    (member : term ∈ tokensOf documents) (whole : Whole (recordOffsets 0 documents) term) :
    ∃ answer triples, irsStorageGetDocuments system [term] = .ok answer ∧ answer.status = .ok ∧
      answer.documentsList = [some triples] ∧
      (triples.map fun triple => (triple.document, triple.docOffset)).Perm
        (withToken (recordOffsets 0 documents) term) ∧
      ∀ triple ∈ triples,
        ∃ text, SignificancyText F (recordOffsets 0 documents) term triple.docOffset text ∧
        triple.significancy = cString text := by
  obtain ⟨few, small, apart⟩ := batch
  have short := apart.short term member
  obtain ⟨offset, dictionary, inside, pair, indexed, exact, located⟩ := holds.records term member
  have fits : (documents.flatMap record).length ≤ maxFileSize := small.le.trans (by decide)
  have nodup : ((recordOffsets 0 documents).map Prod.snd).Nodup :=
    @recordOffsets_nodup documents 0 (by omega)
  obtain ⟨text, spec⟩ := exists_text nodup
  have perm := entries_perm indexed whole nodup (exact whole.clear)
  rw [entriesChars_eq] at located
  have entriesSmall : ((docEntries dictionary).flatMap entryRecord).length ≤ maxFileSize := by
    have length := located.length_le
    have := holds.small
    rw [List.length_append, List.length_drop] at length
    omega
  have readable : ∀ entry ∈ docEntries dictionary,
      Readable system.world system.storage.documentsPath text entry := by
    intro entry isEntry
    obtain ⟨found, inToken, same⟩ := List.mem_map.mp (perm.mem_iff.mp (List.mem_map_of_mem isEntry))
    obtain ⟨inMap, isToken⟩ := List.mem_filter.mp inToken
    exact holds.readable fits inMap (whole.clear.readable found inMap (of_decide_eq_true isToken))
      (spec found inMap) same.symm
      (significancy_small isEntry entriesSmall)
  have count : (docsNumber (recordOffsets 0 documents) term).toNat =
      (docEntries dictionary).length := by
    have lengths := perm.length_eq
    rw [List.length_map, List.length_map] at lengths
    rw [toNat_docsNumber (by rw [length_recordOffsets]; exact few),
      docsWith_withToken whole, lengths]
  have termSmall : irsStrLen term < 2 ^ 64 :=
    Nat.lt_of_le_of_lt (List.takeWhile_prefix _).length_le (short.trans (by decide))
  have read := irsStorageReadDocumentsByTerm_holds termSmall
    (Nat.lt_of_le_of_lt inside (by decide)) located holds.file
    readable count
  have get := (get_stored holds.kept (fun ch => And.left)
    (fun ch inside => ((token_admitted bytes term member).2 ch inside).1) short
    (by rw [pair]; exact List.cons_ne_nil _ _)).1
  rw [pair] at get
  refine ⟨_, _, irsStorageGetDocuments_some get read, rfl, rfl, ?_, fun triple isTriple => ?_⟩
  · have triples : ((docEntries dictionary).map (tripleOf text)).map
        (fun triple => (triple.document, triple.docOffset)) =
        ((docEntries dictionary).map Prod.fst).map fun docOffset =>
        (cString (text docOffset), docOffset) := by
      rw [List.map_map, List.map_map]
      rfl
    have back : ((withToken (recordOffsets 0 documents) term).map Prod.snd).map
        (fun docOffset => (cString (text docOffset), docOffset)) =
        withToken (recordOffsets 0 documents) term := by
      rw [List.map_map]
      refine (List.map_congr_left fun found inToken => ?_).trans (List.map_id _)
      obtain ⟨inMap, -⟩ := List.mem_filter.mp inToken
      have inBatch : found.1 ∈ documents := by
        rw [← map_fst_recordOffsets 0 documents]
        exact List.mem_map_of_mem inMap
      rw [Function.comp_apply, spec found inMap, cString_of_noNul fun ch here =>
        (bytes found.1 inBatch ch here).1, id_eq]
    rw [triples, ← back]
    exact perm.map _
  · obtain ⟨entry, isEntry, rfl⟩ := List.mem_map.mp isTriple
    exact ⟨entry.2, indexed.docEntries.2.2 entry isEntry, rfl⟩

/-! ### Answers -/

theorem withToken_ne_nil {documents : List Bytes} {term : Bytes}
    (member : term ∈ tokensOf documents) :
    withToken (recordOffsets 0 documents) term ≠ [] := by
  rw [← map_fst_recordOffsets 0 documents] at member
  obtain ⟨_, inBatch, isToken⟩ := List.mem_flatMap.mp member
  obtain ⟨pair, inMap, rfl⟩ := List.mem_map.mp inBatch
  exact List.ne_nil_of_mem (List.mem_filter.mpr ⟨inMap, decide_eq_true isToken⟩)

/-- A query after a batch. It is answered as it should be where the condition holds; the other
way round, as far as the query does not read beyond the record of its term. -/
theorem irsStorageGetDocuments_answers [LawfulIrsFloat F] {outcomes : Nat → WriteOutcome}
    {path : Bytes} {world : World} {documents : List Bytes} {term : Bytes}
    (bytes : ∀ document ∈ documents, ∀ ch ∈ document, Admitted ch) (noNul : ∀ ch ∈ term, ch ≠ 0)
    (written : ∀ system, irsStorageAddDocuments F outcomes (freshSystem path world) documents ≠
      .ok (.writeError, system))
    (finished : irsStorageAddDocuments F outcomes (freshSystem path world) documents ≠
      .error .aborted) :
    (Answerable documents term → Answered F outcomes path world documents term) ∧
    (Batch documents → (term ∈ tokensOf documents → Whole (recordOffsets 0 documents) term) →
      Answered F outcomes path world documents term → Answerable documents term) := by
  constructor
  · rintro ⟨batch, absent, present⟩
    obtain ⟨system, run, holds⟩ := irsStorageAddDocuments_holds bytes batch written finished
    by_cases member : term ∈ tokensOf documents
    · obtain ⟨fewer, whole⟩ := present member
      obtain ⟨answer, triples, query, status, list, perm, texts⟩ :=
        holds.read bytes batch member whole
      refine ⟨system, answer, run, query, status, fun out => absurd member out,
        fun _ => ⟨triples, list, ?_, texts⟩⟩
      rw [if_pos fewer]
      exact perm
    · obtain ⟨chooses, avoids⟩ := absent member
      obtain ⟨list, get⟩ := (get_ok_iff holds.kept).mpr (by rw [holds.terms]; exact chooses)
      obtain rfl := get_absent_returned holds.kept (fun _ => And.left) noNul
        (by rw [holds.terms]; exact avoids) get
      exact ⟨system, _, run, irsStorageGetDocuments_none get, rfl, fun _ => rfl,
        fun inside => absurd inside member⟩
  · rintro batch whole ⟨system, answer, run, query, answers⟩
    obtain ⟨_, run', holds⟩ := irsStorageAddDocuments_holds bytes batch written finished
    cases run.symm.trans run'
    obtain ⟨list, get⟩ := irsStorageGetDocuments_looksUp query
    refine ⟨batch, fun out => ⟨?_, fun token member passes => ?_⟩, fun member => ⟨?_, whole member⟩⟩
    · rw [← holds.terms]
      exact (get_ok_iff holds.kept).mp ⟨list, get⟩
    · obtain ⟨offset, _, -, pair, -⟩ := holds.records token member
      have short : term.length < 2 ^ 32 := passes.1 ▸ batch.apart.short token member
      obtain ⟨-, spec⟩ := get_returned holds.kept (fun _ => And.left) noNul get
      have found := (spec _).mpr ⟨short, token, ⟨pair, List.cons_ne_nil _ _⟩,
        by rw [holds.terms]; exact passes⟩
      rw [found] at get
      exact irsStorageGetDocuments_found get query (answers.absent out)
    · obtain ⟨answer', triples, query', -, list, perm, -⟩ :=
        holds.read bytes batch member (whole member)
      cases query.symm.trans query'
      obtain ⟨triples', list', perm', -⟩ := answers.present member
      obtain rfl : triples = triples' := by simpa using list.symm.trans list'
      by_contra all
      rw [if_neg all] at perm'
      exact withToken_ne_nil member (List.perm_nil.mp (perm.symm.trans perm'))

theorem clear_of_nodup {documentOffsetMap : List (Bytes × UInt64)} {term : Bytes}
    (once : (tokensOf (documentOffsetMap.map Prod.fst)).Nodup)
    (readable : ∀ pair ∈ documentOffsetMap, term ∈ irsStorageGetDocumentTerms pair.1 →
      pair.1.length ≤ intMax) :
    Clear documentOffsetMap term where
  readable := readable
  unconfused := by
    intro before pair after split _ other made
    rw [← map_snd_occurrences, split, List.map_append, List.map_cons] at once
    exact absurd rfl
      ((List.nodup_append.mp once).2.2 term (mem_terms_of_stored made) term List.mem_cons_self)

theorem tokensApart_of_lower {terms : List Bytes} (short : ∀ term ∈ terms, term.length < 2 ^ 32)
    (lower : ∀ term ∈ terms, ∀ ch ∈ term, tolower ch = ch) (unconfused : Unconfused terms) :
    TokensApart terms where
  short := short
  unmixed := unmixed_of_lower lower
  unconfused := unconfused
  ordered := fun term member => not_clash_of_apart fun a inside k earlier b inside' same => by
    rw [← lower term member a inside, same, lower k earlier.1 b inside']

theorem irsStorageGetDocuments_answers_a :
    Answered Ratio allWritten [] .empty [[97, 32, 98], [99]] [97] := by
  have facts : (irsStorageAddDocuments Ratio allWritten (freshSystem [] .empty)
    [[97, 32, 98], [99]] >>= fun result =>
      .ok result.1) = .ok .ok := by decide +kernel
  obtain ⟨⟨status, system⟩, ran, facts⟩ := bind_ok.mp facts
  obtain rfl : status = .ok := Except.ok.inj facts
  have tokens : tokensOf [[97, 32, 98], [99]] = [[97], [98], [99]] := by decide +kernel
  have offsets : recordOffsets 0 [[97, 32, 98], [99]] = [([97, 32, 98], 0), ([99], 11)] := by
    decide +kernel
  have first : irsStorageGetDocumentTerms [97, 32, 98] = [[97], [98]] := by decide +kernel
  have second : irsStorageGetDocumentTerms [99] = [[99]] := by decide +kernel
  have batch : Batch [[97, 32, 98], [99]] := by
    refine ⟨by simp, by decide +kernel, ?_⟩
    rw [tokens]
    exact tokensApart_of_lower (by simp) (by simp [tolower]) (unconfused_of_head (by simp))
  refine (irsStorageGetDocuments_answers (by simp [Admitted]) (by simp) (by simp [ran])
    (by simp [ran])).1
    ⟨batch, fun absent => absurd (by rw [tokens]; simp) absent,
      fun _ => ⟨by rw [offsets]; decide +kernel, ?_⟩⟩
  rw [offsets]
  refine ⟨by simp [first, second, irsStrFind, cString], ?_,
    clear_of_nodup (by simp [tokensOf, first, second]) (by simp [intMax])⟩
  simp only [List.mem_cons, List.not_mem_nil, or_false, forall_eq_or_imp, forall_eq, first, second]
  refine ⟨fun _ => ⟨[], ([97, 32, 98], 0), _, rfl, rfl, [97], by decide +kernel, by decide +kernel⟩,
    by simp⟩

/-- The lookup of `z` and the byte `0x7F` after it ends at the root, where no token begins with
`z`. -/
example : Answerable [[97], [98]] [122, 127] := by
  have tokens : tokensOf [[97], [98]] = [[97], [98]] := by decide +kernel
  have other : [122, 127] ∉ tokensOf [[97], [98]] := by simp [tokens]
  have read : readPart [122, 127] = [122, 127] := readPart_short (by simp) (by simp)
  refine ⟨⟨by simp, by decide +kernel, ?_⟩, fun _ => ?_, fun member => absurd member other⟩
  · rw [tokens]
    exact tokensApart_of_lower (by simp) (by simp [tolower]) (unconfused_of_head (by simp))
  · rw [tokens, read]
    refine ⟨fun probes => ?_, fun token member passes => ?_⟩
    · exact absurd (probes.eq_head (by simp)) (by decide)
    · have head := passes.head
      simp only [List.mem_cons, List.not_mem_nil, or_false] at member
      rcases member with rfl | rfl <;> simp at head

/-- The record of the only document `a` announces an entry that was not made. -/
theorem answered_fails_a :
    ∃ system answer, irsStorageAddDocuments Ratio allWritten (freshSystem [] .empty) [[97]] =
      .ok (.ok, system) ∧
      irsStorageGetDocuments system [[97]] = .ok answer ∧ answer.status = .readError ∧
      ¬Answers Ratio [[97]] [97] answer := by
  have facts : (irsStorageAddDocuments Ratio allWritten (freshSystem [] .empty)
    [[97]] >>= fun result =>
      irsStorageGetDocuments result.2 [[97]] >>= fun answer => .ok (result.1, answer.status)) =
        .ok (.ok, .readError) := by
    decide +kernel
  obtain ⟨⟨status, system⟩, ran, facts⟩ := bind_ok.mp facts
  obtain ⟨answer, query, facts⟩ := bind_ok.mp facts
  simp only [Except.ok.injEq, Prod.mk.injEq] at facts
  obtain ⟨rfl, failed⟩ := facts
  refine ⟨system, answer, ran, query, failed, fun answers => ?_⟩
  rw [answers.status] at failed
  cases failed

end IrsMachine
