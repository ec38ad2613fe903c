import IrsMachine.Server.Memory
import IrsMachine.Server.Requests
import IrsMachine.Storage.Batches
import IrsMachine.Storage.Complete

/-!
# What a true status says

The commands report success without having seen the status of the storage. It is the right
answer exactly if the storage succeeds, or the damage it read makes `std::stof` throw.
-/

namespace IrsMachine
open Except

variable {D : Type}

/-! ### Copying the answer of the storage -/

theorem readTriples_isSome {stof : Bytes → Option D} (documents : DocumentMap D)
    (triples : List Triple) :
    (readTriples stof documents triples).isSome ↔
      ∀ triple ∈ triples, (stof (cString triple.significancy)).isSome := by
  induction triples generalizing documents with
  | nil => simp [readTriples]
  | cons triple triples ih =>
    unfold readTriples
    cases significancy : stof (cString triple.significancy) with
    | none => simp [significancy]
    | some termSignificancy => simp [significancy, ih]

/-- No text of this item makes `std::stof` throw. -/
def Copied (stof : Bytes → Option D) (item : Option (List Triple)) : Prop :=
  ∀ triples, item = some triples → ∀ triple ∈ triples, (stof (cString triple.significancy)).isSome

theorem readTermsDocuments_cases (stof : Bytes → Option D) (result : List (DocumentMap D))
    (list : List (Option (List Triple))) :
    ((∀ item ∈ list, Copied stof item) ∧
      ∃ termsDocuments, readTermsDocuments stof result list = some termsDocuments ∧
        termsDocuments.length = result.length + list.length) ∨
    (¬ (∀ item ∈ list, Copied stof item) ∧ readTermsDocuments stof result list = none) := by
  induction list generalizing result with
  | nil => exact .inl ⟨by simp, result, rfl, by simp⟩
  | cons item list ih =>
    have all : (∀ other ∈ item :: list, Copied stof other) ↔
        Copied stof item ∧ ∀ other ∈ list, Copied stof other := by simp
    rw [all]
    cases item with
    | none =>
      have nothing : Copied stof none := fun triples same => by cases same
      unfold readTermsDocuments
      rcases ih (result ++ [[]]) with ⟨rest, termsDocuments, read, length⟩ | ⟨throws, read⟩
      · refine .inl ⟨⟨nothing, rest⟩, termsDocuments, read, ?_⟩
        simp only [length, List.length_append, List.length_cons, List.length_nil]
        omega
      · exact .inr ⟨fun both => throws both.2, read⟩
    | some triples =>
      have copied : Copied stof (some triples) ↔ (readTriples stof [] triples).isSome := by
        rw [readTriples_isSome]
        constructor
        · exact fun copied => copied triples rfl
        · rintro each _ ⟨rfl⟩
          exact each
      rw [copied]
      unfold readTermsDocuments
      cases read : readTriples stof [] triples with
      | none => exact .inr ⟨by simp, rfl⟩
      | some documents =>
        rcases ih (result ++ [documents]) with ⟨rest, termsDocuments, read, length⟩ | ⟨throws, read⟩
        · refine .inl ⟨⟨rfl, rest⟩, termsDocuments, read, ?_⟩
          simp only [length, List.length_append, List.length_cons, List.length_nil]
          omega
        · exact .inr ⟨fun both => throws both.2, read⟩

/-! ### The payload of `get_documents` -/

theorem getDocumentsPayloadLoop_eq {terms : List Bytes} {count : Nat}
    (termAttributes : List (IrsMemoryJsonPayload D)) (documents : List (Bytes × Bytes))
    {termsDocuments : List (DocumentMap D)}
    (enough : count + termsDocuments.length ≤ terms.length) :
    getDocumentsPayloadLoop terms count termAttributes documents termsDocuments =
      some (termAttributes ++ List.zipWith termAttribute (terms.drop count) termsDocuments,
        termsDocuments.foldl insertTexts documents) := by
  induction termsDocuments generalizing count termAttributes documents with
  | nil => simp [getDocumentsPayloadLoop]
  | cons termDocuments termsDocuments ih =>
    rw [List.length_cons] at enough
    have inside : count < terms.length := by omega
    unfold getDocumentsPayloadLoop
    rw [List.getElem?_eq_getElem inside]
    dsimp only
    rw [ih _ _ (by omega), List.drop_eq_getElem_cons inside, List.zipWith_cons_cons,
      List.foldl_cons, List.append_assoc, List.singleton_append]

theorem index_ofMap {members : List (Bytes × IrsMemoryJsonPayload D)}
    (different : (Associations.keys members).Nodup) {key : Bytes}
    {member : IrsMemoryJsonPayload D} :
    (IrsMemoryJsonPayload.ofMap members).index key = .ok member ↔
      members.lookup key = some member := by
  unfold IrsMemoryJsonPayload.ofMap
  rw [index_object, Associations.lookup_perm different (List.mergeSort_perm _ _).symm]

theorem index_ofMap_pair {first second : Bytes} (different : first ≠ second)
    (a b : IrsMemoryJsonPayload D) :
    (IrsMemoryJsonPayload.ofMap [(first, a), (second, b)]).index first = .ok a ∧
      (IrsMemoryJsonPayload.ofMap [(first, a), (second, b)]).index second = .ok b := by
  have keys : (Associations.keys [(first, a), (second, b)]).Nodup := by simp [different]
  rw [index_ofMap keys, index_ofMap keys]
  exact ⟨Associations.lookup_of_mem keys (by simp), Associations.lookup_of_mem keys (by simp)⟩

theorem term_ne_documents : irsChars "term" ≠ irsChars "documents" := by decide

theorem attributes_ne_documents : irsChars "attributes" ≠ irsChars "documents" := by decide

/-- An attribute names its term, and offsets that are listed with their documents. -/
def NamesTerm (documents : List (Bytes × IrsMemoryJsonPayload D)) (term : Bytes)
    (item : IrsMemoryJsonPayload D) : Prop :=
  item.index (irsChars "term") = .ok (.string term) ∧
    ∃ offsets, item.index (irsChars "documents") = .ok (.object offsets) ∧
      ∀ offset ∈ Associations.keys offsets, offset ∈ Associations.keys documents

def NamesTerms (terms : List Bytes) (payload : IrsMemoryJsonPayload D) : Prop :=
  ∃ attributes documents, payload.index (irsChars "attributes") = .ok (.array attributes) ∧
    payload.index (irsChars "documents") = .ok (.object documents) ∧
    List.Forall₂ (NamesTerm documents) terms attributes

theorem namesTerm_termAttribute {documents : List (Bytes × IrsMemoryJsonPayload D)} (term : Bytes)
    {termDocuments : DocumentMap D}
    (listed : ∀ document ∈ termDocuments, decimal document.1 ∈ Associations.keys documents) :
    NamesTerm documents term (termAttribute term termDocuments) := by
  obtain ⟨named, offsets⟩ := index_ofMap_pair term_ne_documents (.string term)
    (.ofMap ((attributesOf termDocuments).map fun entry =>
      (entry.1, IrsMemoryJsonPayload.numberFloat entry.2)))
  refine ⟨named, _, offsets, fun offset member => ?_⟩
  have sorted := ((List.mergeSort_perm _ _).map Prod.fst).mem_iff.mp member
  rw [List.map_map, attributesOf] at sorted
  have inserted :=
    (Associations.mem_keys_foldl_insert (fun document : UInt64 × (Bytes × D) => decimal document.1)
    (fun document => document.2.2) termDocuments [] offset).mp sorted
  obtain ⟨document, inside, rfl⟩ := List.mem_map.mp (inserted.resolve_left (by simp))
  exact listed document inside

theorem mem_keys_insertTexts (termsDocuments : List (DocumentMap D))
    (documents : List (Bytes × Bytes)) (offset : Bytes) :
    offset ∈ Associations.keys (termsDocuments.foldl insertTexts documents) ↔
      offset ∈ Associations.keys documents ∨
        ∃ termDocuments ∈ termsDocuments,
          ∃ document ∈ termDocuments, offset = decimal document.1 := by
  induction termsDocuments generalizing documents with
  | nil => simp
  | cons termDocuments termsDocuments ih =>
    have named : offset ∈ termDocuments.map (fun document => decimal document.1) ↔
        ∃ document ∈ termDocuments, offset = decimal document.1 := by
      simp only [List.mem_map, eq_comm]
    rw [List.foldl_cons, ih, insertTexts, Associations.mem_keys_foldl_insert, named,
      List.exists_mem_cons_iff, or_assoc]

/-- With an answer for each term, the payload names the terms in their order. -/
theorem getDocumentsPayload_names {terms : List Bytes} {termsDocuments : List (DocumentMap D)}
    (enough : termsDocuments.length ≤ terms.length) :
    ∃ payload, getDocumentsPayload terms termsDocuments = some payload ∧
      (termsDocuments.length = terms.length → NamesTerms terms payload) := by
  unfold getDocumentsPayload
  rw [getDocumentsPayloadLoop_eq [] [] (by omega)]
  refine ⟨_, rfl, fun all => ?_⟩
  obtain ⟨attributes, documents⟩ := index_ofMap_pair attributes_ne_documents
    (.array ([] ++ List.zipWith termAttribute (terms.drop 0) termsDocuments))
    (.ofMap ((termsDocuments.foldl insertTexts []).map fun document =>
      (document.1, (IrsMemoryJsonPayload.string document.2 : IrsMemoryJsonPayload D))))
  refine ⟨_, _, attributes, documents, ?_⟩
  rw [List.nil_append, List.drop_zero, List.forall₂_iff_get]
  refine ⟨by rw [List.length_zipWith, all, Nat.min_self], fun i inside inside' => ?_⟩
  rw [List.get_eq_getElem, List.get_eq_getElem, List.getElem_zipWith]
  apply namesTerm_termAttribute _
  intro document member
  apply ((List.mergeSort_perm _ _).map Prod.fst).mem_iff.mpr
  rw [List.map_map]
  apply (mem_keys_insertTexts termsDocuments [] _).mpr
  exact .inr ⟨_, List.getElem_mem _, document, member, rfl⟩

/-! ### Requests -/

def memoryHandler (F : Type) [IrsFloat F] (outcomes : Nat → WriteOutcome) (stof : Bytes → Option D)
    (getLangs getSummars : IrsMemoryJsonCommand System D) : IrsMemoryJsonHandler System D where
  addDocuments := IrsMemoryAddDocumentsCommand F outcomes
  getDocuments := IrsMemoryGetDocumentsCommand stof
  getLangs := getLangs
  getSummars := getSummars

inductive MemoryRequest where
  | addDocuments (documents : List Bytes)
  | getDocuments (terms : List Bytes)

namespace MemoryRequest

def type : MemoryRequest → Bytes
  | addDocuments _ => irsChars "add_documents"
  | getDocuments _ => irsChars "get_documents"

def strings : MemoryRequest → List Bytes
  | addDocuments documents => documents
  | getDocuments terms => terms

def storageStatus (F : Type) [IrsFloat F] (outcomes : Nat → WriteOutcome) (system : System) :
    MemoryRequest → Except Fault IrsStorageStatus
  | addDocuments documents => (irsStorageAddDocuments F outcomes system documents).map Prod.fst
  | getDocuments terms => (irsStorageGetDocuments system terms).map Answer.status

/-- A true status stands for a success of the storage, and for an answer to every term. -/
def Tells (F : Type) [IrsFloat F] (outcomes : Nat → WriteOutcome) (system : System)
    (request : MemoryRequest) (response : Response System D) : Prop :=
  response.status ≠ irsFalse → request.storageStatus F outcomes system = .ok .ok ∧
    ∀ terms, request = getDocuments terms → NamesTerms terms response.payload

/-- A significancy that is no number comes before the first record that is not complete. -/
def Rejects (stof : Bytes → Option D) (system : System) (terms : List Bytes) : Prop :=
  ∃ before term after offset triples triple, terms = before ++ term :: after ∧
    (∀ earlier ∈ before, TermReadable system earlier) ∧
    termOffset system term = .ok (some offset) ∧
    irsStorageReadDocumentsByTerm system.storage system.world offset = some triples ∧
    triple ∈ triples ∧
    stof (cString triple.significancy) = none

/-- All documents can be written; all records can be read, or the damage is noticed. -/
def Warranted (outcomes : Nat → WriteOutcome) (stof : Bytes → Option D) (system : System) :
    MemoryRequest → Prop
  | addDocuments documents =>
    WritesComplete outcomes system.world.writes 0 (documents.flatMap documentFields)
  | getDocuments terms => (∀ term ∈ terms, TermReadable system term) ∨ Rejects stof system terms

end MemoryRequest

section
variable {F : Type} [IrsFloat F] {outcomes : Nat → WriteOutcome} {stof : Bytes → Option D}
  {getLangs getSummars : IrsMemoryJsonCommand System D} {system : System}
  {payload : IrsMemoryJsonPayload D}

theorem responseRequestMessage_add {response : Response System D}
    (answered : responseRequestMessage (memoryHandler F outcomes stof getLangs getSummars) system
      (irsChars "add_documents") payload =
      .ok response) :
    ∃ completion, IrsMemoryAddDocumentsCommand F outcomes system payload irsFalse = .ok completion ∧
      response = completion.response := by
  unfold responseRequestMessage handleRequestPayload at answered
  obtain ⟨completion, runs, answered⟩ := bind_ok.mp answered
  rw [IrsMemoryJsonHandler.commands, List.lookup_cons_self] at runs
  dsimp only at runs
  split at runs
  · rename_i completion' runs'
    cases runs
    cases answered
    exact ⟨completion, runs', rfl⟩
  · cases runs

theorem responseRequestMessage_get {response : Response System D}
    (answered : responseRequestMessage (memoryHandler F outcomes stof getLangs getSummars) system
      (irsChars "get_documents") payload =
      .ok response) :
    ∃ completion, IrsMemoryGetDocumentsCommand stof system payload irsFalse = .ok completion ∧
      response = completion.response := by
  unfold responseRequestMessage handleRequestPayload at answered
  obtain ⟨completion, runs, answered⟩ := bind_ok.mp answered
  have other : (irsChars "get_documents" == irsChars "add_documents") = false := by decide
  rw [IrsMemoryJsonHandler.commands, List.lookup_cons, other] at runs
  dsimp only at runs
  rw [List.lookup_cons_self] at runs
  dsimp only at runs
  split at runs
  · rename_i completion' runs'
    cases runs
    cases answered
    exact ⟨completion, runs', rfl⟩
  · cases runs

theorem addDocumentsCommand_ok {documents : List Bytes} {completion : Completion System D}
    (typed : payload.getStrings = .ok documents)
    (runs : IrsMemoryAddDocumentsCommand F outcomes system payload irsFalse = .ok completion) :
    completion.response.status = irsTrue ∧
      ∃ result, irsStorageAddDocuments F outcomes system documents = .ok result := by
  unfold IrsMemoryAddDocumentsCommand at runs
  rw [typed] at runs
  obtain ⟨system', added, runs⟩ := bind_ok.mp runs
  cases runs
  obtain ⟨⟨stored, after⟩, memory, -⟩ := bind_ok.mp added
  obtain ⟨result, storage, -⟩ := bind_ok.mp memory
  exact ⟨rfl, result, storage⟩

theorem getDocumentsCommand_ok {terms : List Bytes} {completion : Completion System D}
    (typed : payload.getStrings = .ok terms)
    (runs : IrsMemoryGetDocumentsCommand stof system payload irsFalse = .ok completion) :
    ∃ answer, irsStorageGetDocuments system terms = .ok answer ∧
      (answer.documentsList.length ≤ terms.length →
        ((∀ item ∈ answer.documentsList, Copied stof item) ∧ completion.response.status = irsTrue ∧
          (answer.documentsList.length = terms.length →
            NamesTerms terms completion.response.payload)) ∨
        (¬ (∀ item ∈ answer.documentsList, Copied stof item) ∧
          completion.response.status = irsFalse)) := by
  unfold IrsMemoryGetDocumentsCommand at runs
  rw [typed] at runs
  obtain ⟨termsDocuments, get, runs⟩ := bind_ok.mp runs
  obtain ⟨⟨stored, list⟩, memory, get⟩ := bind_ok.mp get
  obtain ⟨answer, storage, memory⟩ := bind_ok.mp memory
  cases memory
  refine ⟨answer, storage, fun few => ?_⟩
  rcases readTermsDocuments_cases stof
    [] answer.documentsList with ⟨copied, documents, read, length⟩ | ⟨throws, read⟩
  · rw [List.length_nil, Nat.zero_add] at length
    obtain ⟨payload', made, names⟩ :=
      getDocumentsPayload_names (show documents.length ≤ terms.length by omega)
    cases get
    rw [read] at runs
    dsimp only at runs
    rw [made] at runs
    cases runs
    exact .inl ⟨copied, rfl, fun all => names (length.trans all)⟩
  · cases get
    rw [read] at runs
    cases runs
    exact .inr ⟨throws, rfl⟩

theorem irsStorageAddDocuments_status_iff {documents : List Bytes}
    {result : IrsStorageStatus × System}
    (run : irsStorageAddDocuments F outcomes system documents = .ok result) :
    result.1 = .ok ↔
      WritesComplete outcomes system.world.writes 0 (documents.flatMap documentFields) := by
  rw [← irsStorageWriteDocuments_iff outcomes system.storage]
  unfold irsStorageAddDocuments at run
  split at run
  · rename_i written documentsRun
    obtain ⟨assigned, -, run⟩ := bind_ok.mp run
    obtain ⟨writer, -, run⟩ := bind_ok.mp run
    cases run
    simp only [documentsRun]
  · rename_i status written failed documentsRun
    cases run
    rw [documentsRun]
    constructor
    · intro wrong
      cases wrong
    · intro ok
      exact absurd ok (failed · )

theorem served_readable {terms : List Bytes} {list : List (Option (List Triple))}
    (served : List.Forall₂ (Served system) terms list) :
    ∀ term ∈ terms, TermReadable system term := by
  intro term member
  obtain ⟨before, after, rfl⟩ := List.append_of_mem member
  have rest := List.forall₂_drop_append _ _ _ served.flip
  obtain ⟨item, items, here, -, -⟩ := List.forall₂_cons_right_iff.mp rest
  exact Served.readable here

/-- Of a query that served the terms of `before` and stopped at the next, or served all. -/
theorem rejects_iff {terms before after : List Bytes} {list : List (Option (List Triple))}
    (split : terms = before ++ after) (served : List.Forall₂ (Served system) before list)
    (stopped : ∀ term rest, after = term :: rest → ¬ TermReadable system term) :
    MemoryRequest.Rejects stof system terms ↔ ¬ ∀ item ∈ list, Copied stof item := by
  constructor
  · rintro ⟨earlier, term, rest, offset, triples, triple, split', readable, found, read, inside,
      throws⟩ copied
    have here : TermReadable system term := by
      intro offset' found'
      rw [found] at found'
      cases found'
      rw [← irsStorageReadDocumentsByTerm_isSome, read]
      rfl
    rcases List.append_eq_append_iff.mp
      (split.symm.trans split') with ⟨more, same, tail⟩ | ⟨more, same, tail⟩
    · cases more with
      | nil => exact stopped term rest tail here
      | cons failing more => exact stopped failing _ tail (readable failing (by rw [same]; simp))
    · cases more with
      | nil => exact stopped term rest tail.symm here
      | cons first more =>
        injection tail with head tail
        subst head
        rw [same] at served
        obtain ⟨item, items, answer, -, drop⟩ :=
          List.forall₂_cons_right_iff.mp (List.forall₂_drop_append _ _ _ served.flip)
        have member : item ∈ list := List.mem_of_mem_drop (by rw [drop]; exact List.mem_cons_self)
        rcases answer with ⟨absent, -⟩ | ⟨offset', triples', found', read', rfl⟩
        · rw [found] at absent
          cases absent
        · rw [found] at found'
          cases found'
          rw [read] at read'
          cases read'
          have number := copied _ member triples rfl triple inside
          rw [throws] at number
          cases number
  · intro throws
    simp only [Copied, not_forall] at throws
    obtain ⟨item, member, triples, rfl, triple, inside, throws⟩ := throws
    obtain ⟨first, second, rfl⟩ := List.append_of_mem member
    obtain ⟨term, rest, answer, -, drop⟩ :=
      List.forall₂_cons_right_iff.mp (List.forall₂_drop_append _ _ _ served)
    have whole := List.take_append_drop first.length before
    rw [drop] at whole
    rcases answer with ⟨-, null⟩ | ⟨offset, triples', found, read, same⟩
    · cases null
    · cases same
      refine ⟨before.take first.length, term, rest ++ after, offset, triples, triple, ?_,
        fun earlier inside => ?_, found, read, inside, by simpa using throws⟩
      · rw [split, ← List.cons_append, ← List.append_assoc, whole]
      · exact served_readable served earlier (List.mem_of_mem_take inside)

theorem warranted_of_ok {terms : List Bytes} {answer : Answer}
    (query : irsStorageGetDocuments system terms = .ok answer) (ok : answer.status = .ok) :
    (MemoryRequest.getDocuments terms).Warranted outcomes stof system := by
  rcases getDocumentsLoop_ends query with ⟨-, list, -, served⟩ | ⟨error, -⟩
  · exact .inl (served_readable served)
  · rw [ok] at error
    cases error

/-- When a true status stands for a success. -/
theorem response_tells_iff {request : MemoryRequest} {response : Response System D}
    (typed : payload.getStrings = .ok request.strings)
    (answered : responseRequestMessage (memoryHandler F outcomes stof getLangs getSummars) system
      request.type payload = .ok response) :
    request.Tells F outcomes system response ↔ request.Warranted outcomes stof system := by
  cases request with
  | addDocuments documents =>
    obtain ⟨completion, runs, rfl⟩ := responseRequestMessage_add answered
    have isList : payload.getStrings = .ok documents := typed
    obtain ⟨status, result, storage⟩ := addDocumentsCommand_ok isList runs
    have isTrue : completion.response.status ≠ irsFalse := by
      rw [status]
      decide
    rw [MemoryRequest.Warranted, ← irsStorageAddDocuments_status_iff storage, MemoryRequest.Tells,
      MemoryRequest.storageStatus, storage]
    constructor
    · intro tells
      exact Except.ok.inj (tells isTrue).1
    · intro ok _
      exact ⟨congrArg _ ok, fun terms other => by cases other⟩
  | getDocuments terms =>
    obtain ⟨completion, runs, rfl⟩ := responseRequestMessage_get answered
    have isList : payload.getStrings = .ok terms := typed
    obtain ⟨answer, storage, outcome⟩ := getDocumentsCommand_ok isList runs
    rw [MemoryRequest.Warranted, MemoryRequest.Tells, MemoryRequest.storageStatus, storage]
    rcases getDocumentsLoop_ends storage with ⟨ok, list, all, served⟩ | ⟨error, before, term, after,
      list, split, all, served, fails⟩
    · rw [List.nil_append] at all
      constructor
      · exact fun _ => .inl (served_readable served)
      · intro _ isTrue
        rcases outcome (by rw [all, served.length_eq]) with ⟨-, -, names⟩ | ⟨-, isFalse⟩
        · refine ⟨congrArg _ ok, fun terms' same => ?_⟩
          cases same
          exact names (by rw [all, served.length_eq])
        · exact absurd isFalse isTrue
    · rw [List.nil_append] at all
      have stopped : ∀ failing rest, term :: after = failing :: rest →
          ¬ TermReadable system failing := by
        rintro _ _ ⟨rfl, rfl⟩
        exact fails
      have unread : ¬ ∀ term ∈ terms, TermReadable system term :=
        fun readable => fails (readable term (by rw [split]; simp))
      rw [rejects_iff split served stopped, ← all]
      constructor
      · intro tells
        refine .inr fun copied => ?_
        rcases outcome (by rw [all, ← served.length_eq, split, List.length_append]; omega) with ⟨-,
          isTrue, -⟩ | ⟨throws, -⟩
        · have ok := (tells (by rw [isTrue]; decide)).1
          injection ok with ok
          rw [error] at ok
          cases ok
        · exact throws copied
      · rintro (readable | throws) isTrue
        · exact absurd readable unread
        · rcases outcome (by rw [all, ← served.length_eq, split, List.length_append]; omega)
            with ⟨copied, -, -⟩ | ⟨-, isFalse⟩
          · exact absurd copied throws
          · exact absurd isFalse isTrue

end

/-! ### Two requests -/

/-- The commands of the storage alone, where every text is a number. -/
def storageHandler : IrsMemoryJsonHandler System Unit :=
  memoryHandler Ratio allWritten (fun _ => some ())
    (fun system _ status => .ok { memory := system, status, payload := none })
    fun system _ status => .ok { memory := system, status, payload := none }

/-- After `a b` and `c` were added: a request for one more document, and one for `b`, the unknown
`z` and `c`. -/
theorem response_tells_b_z_c :
    ∃ run added got, addBatches Ratio allWritten (freshSystem [] .empty) [[[97, 32, 98], [99]]] =
      .ok run ∧
      responseRequestMessage storageHandler run.system (irsChars "add_documents")
        (.ofStrings [[98]]) = .ok added ∧
      (MemoryRequest.addDocuments [[98]]).Tells Ratio allWritten run.system added ∧
      responseRequestMessage storageHandler run.system (irsChars "get_documents")
        (.ofStrings [[98], [122], [99]]) = .ok got ∧
      (MemoryRequest.getDocuments [[98], [122], [99]]).Tells Ratio allWritten run.system got := by
  have facts : (addBatches Ratio allWritten (freshSystem [] .empty) [[[97, 32, 98], [99]]] >>=
    fun run =>
      irsStorageAddDocuments Ratio allWritten run.system [[98]] >>= fun stored =>
      irsStorageGetDocuments run.system [[98], [122], [99]] >>= fun answer =>
        .ok (stored.1, answer.status,
          (responseRequestMessage storageHandler run.system (irsChars "add_documents")
            (.ofStrings [[98]])).toBool,
          (responseRequestMessage storageHandler run.system (irsChars "get_documents")
            (.ofStrings [[98], [122], [99]])).toBool)) =
              .ok (.ok, .ok, true, true) := by decide +kernel
  obtain ⟨run, ran, facts⟩ := bind_ok.mp facts
  obtain ⟨stored, storing, facts⟩ := bind_ok.mp facts
  obtain ⟨answer, query, facts⟩ := bind_ok.mp facts
  simp only [Except.ok.injEq, Prod.mk.injEq] at facts
  obtain ⟨wrote, served, addAnswers, getAnswers⟩ := facts
  obtain ⟨added, adding⟩ := toBool_iff.mp addAnswers
  obtain ⟨got, getting⟩ := toBool_iff.mp getAnswers
  have addTyped : (IrsMemoryJsonPayload.ofStrings [[98]] : IrsMemoryJsonPayload Unit).getStrings =
      .ok (MemoryRequest.addDocuments [[98]]).strings := rfl
  have getTyped : (IrsMemoryJsonPayload.ofStrings [[98], [122], [99]] :
    IrsMemoryJsonPayload Unit).getStrings =
      .ok (MemoryRequest.getDocuments [[98], [122], [99]]).strings := rfl
  refine ⟨run, added, got, ran, adding, (response_tells_iff addTyped adding).mpr ?_, getting,
    (response_tells_iff getTyped getting).mpr ?_⟩
  · exact (irsStorageAddDocuments_status_iff storing).mp wrote
  · exact warranted_of_ok query served

/-- The record of `a` announces a document and lists none. -/
theorem tells_fails_a :
    ∃ run response, addBatches Ratio allWritten (freshSystem [] .empty) [[[97]]] = .ok run ∧
      responseRequestMessage storageHandler run.system (irsChars "get_documents")
        (.ofStrings [[97]]) = .ok response ∧
      ¬ (MemoryRequest.getDocuments [[97]]).Tells Ratio allWritten run.system response := by
  have facts : (addBatches Ratio allWritten (freshSystem [] .empty) [[[97]]] >>= fun run =>
      irsStorageGetDocuments run.system [[97]] >>= fun answer =>
        .ok (answer.status,
          (responseRequestMessage storageHandler run.system (irsChars "get_documents")
            (.ofStrings [[97]])).toOption.map
          Response.status)) = .ok (.readError, some irsTrue) := by decide +kernel
  obtain ⟨run, ran, facts⟩ := bind_ok.mp facts
  obtain ⟨answer, query, facts⟩ := bind_ok.mp facts
  simp only [Except.ok.injEq, Prod.mk.injEq] at facts
  obtain ⟨failed, status⟩ := facts
  cases answered : responseRequestMessage storageHandler run.system (irsChars "get_documents")
    (.ofStrings [[97]]) with
  | error escape =>
    rw [answered] at status
    cases status
  | ok response =>
    rw [answered] at status
    refine ⟨run, response, ran, answered, fun tells => ?_⟩
    have isTrue : response.status = irsTrue := Option.some.inj status
    have ok := (tells (by rw [isTrue]; decide)).1
    rw [MemoryRequest.storageStatus, query] at ok
    injection ok with ok
    rw [failed] at ok
    cases ok

end IrsMachine
