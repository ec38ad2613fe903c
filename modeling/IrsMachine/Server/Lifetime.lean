import IrsMachine.Engine.Parts
import IrsMachine.Server.Commands
import IrsMachine.Storage.Reopening
import Mathlib.Data.List.ReduceOption

/-!
# Lifetimes

`IrsMemory` saves its storage when it is destroyed, and loads it when it is constructed again. As
long as no letter comes in both cases, nobody can tell from its answers when this happened. The
buffers of load are large enough here, and those of the readers are granted.
-/

namespace IrsMachine
open Except

/-! ### `irs_memory` -/

def irsMemoryLoad (system : System) : Except Fault (Bool × System) := do
  let (status, storage) ← irsStorageLoad system.storage system.world
  .ok (decide (status = .ok), { system with storage })

def irsMemorySave (outcomes : Nat → WriteOutcome) (system : System) :
    Except Fault (Bool × World) := do
  let (status, world) ← irsStorageSave outcomes system
  .ok (decide (status = .ok), world)

/-! ### `IrsMemory` -/

/-- The constructor, on a path that is a directory. It ignores whether the load succeeds. -/
def IrsMemory.construct (path : Bytes) (world : World) : Except Fault System := do
  let (_, system) ← irsMemoryLoad (freshSystem path world)
  .ok system

/-- The destructor, of which the files remain. It ignores whether the save succeeds. -/
def IrsMemory.destruct (outcomes : Nat → WriteOutcome) (system : System) : Except Fault World := do
  let (_, world) ← irsMemorySave outcomes system
  .ok world

def IrsMemory.restart (outcomes : Nat → WriteOutcome) (path : Bytes) (system : System) :
    Except Fault System := do
  let world ← IrsMemory.destruct outcomes system
  IrsMemory.construct path world

variable {F : Type} [IrsFloat F] {outcomes : Nat → WriteOutcome} {path : Bytes} {world : World}
  {terms : List Bytes} {system system' : System}

/-- The terms with which a storage can be restored: no letter in both cases, and a file that has
room for them. -/
structure Restores (terms : List Bytes) : Prop where
  oneCase : OneCase terms
  bytes : ∀ term ∈ terms, term ≠ [] ∧ (∀ ch ∈ term, Admitted ch) ∧ term.length < 2 ^ 32
  room : savedRoom terms ≤ maxFileSize

theorem construct_new (new : world.files (irsStorageInitialize path).termOffsetsPath = none) :
    IrsMemory.construct path world = .ok (freshSystem path world) := by
  have load : irsStorageLoad (freshSystem path world).storage (freshSystem path world).world =
      .ok (.ok, (freshSystem path world).storage) := by
    unfold irsStorageLoad irsIoNewChannelRead
    rw [show (freshSystem path world).world.files (freshSystem path world).storage.termOffsetsPath =
      none from new]
    rfl
  rw [IrsMemory.construct, irsMemoryLoad, load]
  rfl

theorem MirrorSystems.restart (mirror : MirrorSystems path terms system system')
    (reliable : Reliable outcomes) (restores : Restores terms) :
    ∃ later, IrsMemory.restart outcomes path system = .ok later ∧
      MirrorSystems path terms later system' := by
  obtain ⟨saved, loaded, save, load, mirrored⟩ := mirror.reopen reliable restores.oneCase
    (fun term member => ⟨(restores.bytes term member).1, (restores.bytes term member).2.1⟩)
    restores.room
  refine ⟨_, ?_, mirrored⟩
  simp only [IrsMemory.restart, IrsMemory.destruct, IrsMemory.construct, irsMemorySave,
    irsMemoryLoad, freshSystem, save, load, ok_bind]

theorem mirrorSystems_fresh (path : Bytes) (world : World) (terms : List Bytes) :
    MirrorSystems path terms (freshSystem path world) (freshSystem path world) := by
  refine mirrorSystems_refl ⟨indexed_freshDictionary, fun word pair member => ?_⟩ ⟨rfl, rfl, rfl⟩
  rw [show contents irsCharToIrsInt (freshSystem path world).storage.termOffsetDictionary.root
    word = [] from
    contents_freshDictionary word] at member
  cases member

/-! ### Requests -/

def memoryStep (F : Type) [IrsFloat F] (outcomes : Nat → WriteOutcome) (system : System) :
    MemoryRequest → Except Fault ((Bool × List (Option (List Triple))) × System)
  | .addDocuments documents => do
    let (added, system) ← irsMemoryAddDocuments F outcomes system documents
    .ok ((added, []), system)
  | .getDocuments terms => do
    let answer ← irsMemoryGetDocuments system terms
    .ok (answer, system)

def MemoryRequest.added : MemoryRequest → List Bytes
  | .addDocuments documents => documents
  | .getDocuments _ => []

theorem MirrorSystems.request (mirror : MirrorSystems path terms system system')
    (reliable : Reliable outcomes) (restores : Restores terms) {request : MemoryRequest}
    (among : ∀ term ∈ tokensOf request.added, term ∈ terms) :
    Lockstep (fun value value' => value.1 = value'.1 ∧ MirrorSystems path terms value.2 value'.2)
      (memoryStep F outcomes system request) (memoryStep F outcomes system' request) := by
  cases request with
  | addDocuments documents =>
    have added := mirror.add (F := F) reliable restores.oneCase
      (fun term member => (restores.bytes term member).2) among
    unfold memoryStep irsMemoryAddDocuments
    refine Lockstep.bind (R := fun value value' => value.1 = value'.1 ∧
      MirrorSystems path terms value.2 value'.2)
      (added.bind fun value value' both => ?_) fun value value' both => ?_
    · obtain ⟨same, later⟩ := both
      exact ⟨by rw [same], later⟩
    · obtain ⟨same, later⟩ := both
      exact ⟨by rw [same], later⟩
  | getDocuments queried =>
    unfold memoryStep irsMemoryGetDocuments
    dsimp only
    rw [mirror.query queried]
    refine Lockstep.bind_same fun answer _ => ⟨rfl, mirror⟩

/-- The requests' tokens: no letter in both cases, no delete character, and a saved file that has
room for them. -/
structure Plain (tokens : List Bytes) : Prop where
  oneCase : OneCase tokens
  noDelete : ∀ token ∈ tokens, ∀ ch ∈ token, ch ≠ 0x7F
  short : ∀ token ∈ tokens, token.length < 2 ^ 32
  room : savedRoom tokens ≤ maxFileSize

theorem Plain.restores {documents : List Bytes} (plain : Plain (tokensOf documents)) :
    Restores (tokensOf documents) where
  oneCase := plain.oneCase
  bytes token member :=
    ⟨token_nonempty member, fun ch inside =>
      ⟨token_noNul member ch inside, plain.noDelete token member ch inside⟩,
    plain.short token member⟩
  room := plain.room

theorem tokensOf_subset {documents : List Bytes} {added : List Bytes} (subset : added ⊆ documents)
    {term : Bytes} (member : term ∈ tokensOf added) : term ∈ tokensOf documents := by
  obtain ⟨document, inAdded, inDocument⟩ := List.mem_flatMap.mp member
  exact List.mem_flatMap.mpr ⟨document, subset inAdded, inDocument⟩

def requestedDocuments (requests : List (Option MemoryRequest)) : List Bytes :=
  requests.reduceOption.flatMap MemoryRequest.added

/-- A session: what `irs_memory` returns for the requests, and the files at the end. Where there is
no request, the program ends and another one begins. -/
def session (F : Type) [IrsFloat F] (outcomes : Nat → WriteOutcome) (path : Bytes) (world : World)
    (requests : List (Option MemoryRequest)) :
    Except Fault (List (Bool × List (Option (List Triple))) × (Path → Option Bytes)) := do
  let system ← IrsMemory.construct path world
  let (results, system) ← interrupted (memoryStep F outcomes)
    (IrsMemory.restart outcomes path) system requests
  let world ← IrsMemory.destruct outcomes system
  .ok (results, world.files)

/-- A session on a new storage gives the same results and leaves the same files, whenever between
the requests the storage is saved and loaded again. -/
theorem session_restarts (reliable : Reliable outcomes)
    (new : world.files (irsStorageInitialize path).termOffsetsPath = none)
    {requests : List (Option MemoryRequest)}
    (plain : Plain (tokensOf (requestedDocuments requests))) :
    session F outcomes path world requests = session F outcomes path world
      (requests.filter Option.isSome) := by
  have restores := plain.restores
  have stepped : ∀ request, some request ∈ requests → ∀ first second,
      MirrorSystems path (tokensOf (requestedDocuments requests)) first second →
        Lockstep (fun value value' => value.1 = value'.1 ∧
          MirrorSystems path (tokensOf (requestedDocuments requests)) value.2 value'.2)
          (memoryStep F outcomes first request) (memoryStep F outcomes second request) := by
    intro request member first second mirror
    refine mirror.request reliable restores fun term inside =>
      tokensOf_subset (fun document added => ?_) inside
    exact List.mem_flatMap.mpr ⟨request, List.reduceOption_mem_iff.mpr member, added⟩
  have steps := interrupted_lockstep
    (mirrorSystems_fresh path world (tokensOf (requestedDocuments requests))) stepped
    fun first second mirror => mirror.restart reliable restores
  apply Lockstep.eq
  rw [session, session, construct_new new, ok_bind, ok_bind]
  refine steps.bind fun value value' both => ?_
  obtain ⟨same, mirror⟩ := both
  obtain ⟨saved, saved', save, save', files⟩ :=
    mirror.save reliable restores.oneCase
      (fun term member => (restores.bytes term member).1) restores.room
  simp only [IrsMemory.destruct, irsMemorySave, save, save', ok_bind, same, files]
  rfl

theorem session_restarts_a_b :
    session Ratio allWritten [] .empty
      [some (.addDocuments [[97, 32, 98]]), none, some (.getDocuments [[97]])] =
      session Ratio allWritten [] .empty
        ([some (.addDocuments [[97, 32, 98]]), none, some (.getDocuments [[97]])].filter
          Option.isSome) := by
  have tokens : tokensOf
      (requestedDocuments [some (.addDocuments [[97, 32, 98]]), none,
        some (.getDocuments [[97]])]) = [[97], [98]] := by
    decide
  refine session_restarts reliable_allWritten rfl ?_
  rw [tokens]
  refine ⟨?_, by simp, by simp, by decide⟩
  simp [OneCase, SameFold, tolower]

/-! ### Messages -/

section
variable {M D : Type} {S : Type} [ScoreFloat S] {stof : Bytes → Option D} {toByte : D → UInt8}
  {engine : IrsEngine} {library : Nlohmann D}

def messageDocuments (library : Nlohmann D) (message : Bytes) : List Bytes :=
  match parseRequestMessage library message with
  | .ok [.string type, payload, _] =>
    if type = irsChars "add_documents" then
      match payload.getStrings with
      | .ok documents => documents
      | .error _ => []
    else []
  | _ => []

def SameCompletion (R : M → M → Prop) (completion completion' : Completion M D) : Prop :=
  R completion.memory completion'.memory ∧ completion'.status = completion.status ∧
    completion'.payload = completion.payload

theorem MirrorSystems.addCommand (mirror : MirrorSystems path terms system system')
    (reliable : Reliable outcomes) (restores : Restores terms) {payload : IrsMemoryJsonPayload D}
    {status : IrsBool} (among : ∀ documents, payload.getStrings = .ok documents →
      ∀ term ∈ tokensOf documents, term ∈ terms) :
    Lockstep (SameCompletion (MirrorSystems path terms))
      (IrsMemoryAddDocumentsCommand (D := D) F outcomes system payload status)
      (IrsMemoryAddDocumentsCommand F outcomes system' payload status) := by
  unfold IrsMemoryAddDocumentsCommand
  cases strings : payload.getStrings with
  | error escape => exact ⟨mirror, rfl, rfl⟩
  | ok documents =>
    have added := mirror.add (F := F) reliable restores.oneCase
      (fun term member => (restores.bytes term member).2) (among documents strings)
    have stored : Lockstep (MirrorSystems path terms) (IrsMemory.add F outcomes system documents)
        (IrsMemory.add F outcomes system' documents) := by
      refine Lockstep.bind (R := fun value value' => MirrorSystems path terms value.2 value'.2)
        (added.bind ?_) ?_
      · intro value value' both
        exact both.2
      · intro value value' later
        exact later
    exact stored.bind fun _ _ later => ⟨later, rfl, rfl⟩

theorem MirrorSystems.getCommand (mirror : MirrorSystems path terms system system')
    (payload : IrsMemoryJsonPayload D) (status : IrsBool) :
    Lockstep (SameCompletion (MirrorSystems path terms))
      (IrsMemoryGetDocumentsCommand stof system payload status)
      (IrsMemoryGetDocumentsCommand stof system' payload status) := by
  unfold IrsMemoryGetDocumentsCommand
  cases payload.getStrings with
  | error escape => exact ⟨mirror, rfl, rfl⟩
  | ok queried =>
    unfold IrsMemory.get irsMemoryGetDocuments
    dsimp only
    rw [mirror.query queried]
    refine Lockstep.bind_same fun answer _ => ?_
    cases answer with
    | none => exact ⟨mirror, rfl, rfl⟩
    | some termsDocuments =>
      dsimp only
      cases getDocumentsPayload queried termsDocuments with
      | none => exact ⟨mirror, rfl, rfl⟩
      | some reply => exact ⟨mirror, rfl, rfl⟩

/-- The commands on the engine do not look at the memory. -/
theorem langsCommand_same {R : M → M → Prop} {memory memory' : M} (related : R memory memory')
    (engine : IrsEngine) (toByte : D → UInt8) (payload : IrsMemoryJsonPayload D)
    (status : IrsBool) :
    Lockstep (SameCompletion R)
      (IrsMemoryGetDocumentsLangsCommand engine toByte memory payload status)
      (IrsMemoryGetDocumentsLangsCommand engine toByte memory' payload status) := by
  unfold IrsMemoryGetDocumentsLangsCommand
  cases langsRequest toByte payload with
  | error escape => exact ⟨related, rfl, rfl⟩
  | ok request => exact Lockstep.bind_same fun langs _ => ⟨related, rfl, rfl⟩

theorem summarizationsCommand_same {R : M → M → Prop} {memory memory' : M}
    (related : R memory memory') (payload : IrsMemoryJsonPayload D) (status : IrsBool) :
    Lockstep (SameCompletion R) (IrsMemoryGetDocumentsSummarizationsCommand S memory payload status)
      (IrsMemoryGetDocumentsSummarizationsCommand S memory' payload status) := by
  unfold IrsMemoryGetDocumentsSummarizationsCommand
  cases payload.getStrings with
  | error escape => exact ⟨related, rfl, rfl⟩
  | ok documents => exact Lockstep.bind_same fun summarizations _ => ⟨related, rfl, rfl⟩

theorem lookup_commands {handler : IrsMemoryJsonHandler M D} {name : Bytes}
    {command : IrsMemoryJsonCommand M D} (found : handler.commands.lookup name = some command) :
    (name = irsChars "add_documents" ∧ command = handler.addDocuments) ∨
      command = handler.getDocuments ∨
      command = handler.getLangs ∨ command = handler.getSummars := by
  simp only [IrsMemoryJsonHandler.commands, List.lookup_cons] at found
  split at found
  · rename_i same
    cases found
    exact .inl ⟨eq_of_beq same, rfl⟩
  · right
    split at found
    · exact .inl (Option.some.inj found).symm
    · split at found
      · exact .inr (.inl (Option.some.inj found).symm)
      · split at found
        · exact .inr (.inr (Option.some.inj found).symm)
        · cases found

theorem parseRequestMessage_three {message : Bytes} {data : List (IrsMemoryJsonPayload D)}
    (parsed : parseRequestMessage library message = .ok data) (nonempty : data ≠ []) :
    ∃ type payload id, data = [type, payload, id] := by
  rcases parseRequestMessage_ok parsed with null | ⟨type, payload, id, request⟩
  · unfold parseRequestMessage at parsed
    rw [null] at parsed
    exact absurd (Except.ok.inj parsed).symm nonempty
  · have data' := parseRequestMessage_members request
    rw [parsed] at data'
    have same := Except.ok.inj data'
    unfold requestData at same
    split at same
    · exact absurd same nonempty
    · exact ⟨type, payload, id, same⟩

theorem MirrorSystems.message (mirror : MirrorSystems path terms system system')
    (reliable : Reliable outcomes) (restores : Restores terms) {message : Bytes}
    (among : ∀ term ∈ tokensOf (messageDocuments library message), term ∈ terms) :
    Lockstep (fun value value' => value.1 = value'.1 ∧ MirrorSystems path terms value.2 value'.2)
      (handle library (engineHandler F S outcomes stof toByte engine) system message)
      (handle library (engineHandler F S outcomes stof toByte engine) system' message) := by
  unfold handle
  refine Lockstep.bind_same fun data parsed => ?_
  by_cases nothing : data = []
  · rw [nothing]
    exact ⟨rfl, mirror⟩
  · obtain ⟨type, payload, id, rfl⟩ := parseRequestMessage_three parsed nothing
    rw [if_neg (by simp), if_neg (by simp)]
    refine Lockstep.bind_same fun type' typed => Lockstep.bind_same fun name named => ?_
    obtain rfl : type = type' := Except.ok.inj typed
    refine Lockstep.bind_same fun payload' here => Lockstep.bind_same fun _ _ =>
      Lockstep.bind_same fun size _ => ?_
    obtain rfl : payload = payload' := Except.ok.inj here
    have completes : Lockstep (SameCompletion (MirrorSystems path terms))
        (handleRequestPayload (engineHandler F S outcomes stof toByte engine) system name payload)
        (handleRequestPayload (engineHandler F S outcomes stof toByte engine) system' name
          payload) := by
      unfold handleRequestPayload
      cases found : (engineHandler F S outcomes stof toByte engine).commands.lookup name with
      | none => exact lockstep_error _
      | some command =>
        have runs : Lockstep (SameCompletion (MirrorSystems path terms))
            (command system payload irsFalse) (command system' payload irsFalse) := by
          rcases lookup_commands found with ⟨rfl, rfl⟩ | rfl | rfl | rfl
          · refine mirror.addCommand reliable restores fun documents strings => ?_
            have added : messageDocuments library message = documents := by
              rw [messageDocuments, parsed, getString_ok.mp named]
              dsimp only
              rw [if_pos rfl, strings]
            exact added ▸ among
          · exact mirror.getCommand payload irsFalse
          · exact langsCommand_same mirror engine toByte payload irsFalse
          · exact summarizationsCommand_same mirror payload irsFalse
        obtain ⟨fault, failed, failed'⟩ | ⟨completion, completion', done, done', same⟩ := runs.cases
        · dsimp only
          rw [failed, failed']
          exact lockstep_error _
        · dsimp only
          rw [done, done']
          exact same
    unfold responseRequestMessage
    rw [bind_assoc, bind_assoc]
    refine completes.bind fun completion completion' same => ?_
    obtain ⟨later, status, replies⟩ := same
    rw [ok_bind, ok_bind]
    have response : completion'.response.status = completion.response.status ∧
        completion'.response.payload = completion.response.payload ∧
        MirrorSystems path terms completion.response.memory completion'.response.memory := by
      unfold Completion.response
      rw [replies, status]
      cases completion.payload with
      | none => exact ⟨rfl, rfl, later⟩
      | some reply => exact ⟨rfl, rfl, later⟩
    rw [response.1, response.2.1]
    cases library.dump
      (formResponseMessage size completion.response.status completion.response.payload) with
    | none => exact lockstep_error _
    | some reply => exact ⟨rfl, response.2.2⟩

/-- A fault of the memory is a fault of the server. -/
def serverRestart (outcomes : Nat → WriteOutcome) (path : Bytes) (system : System) :
    Except Escape System :=
  match IrsMemory.restart outcomes path system with
  | .ok system => .ok system
  | .error fault => .error (.fault fault)

def messagesDocuments (library : Nlohmann D) (messages : List (Option Bytes)) : List Bytes :=
  messages.reduceOption.flatMap (messageDocuments library)

/-- The replies of a server that is started on this path. Where there is no message, it is stopped
and started again. -/
def serverSession (library : Nlohmann D) (handler : IrsMemoryJsonHandler System D)
    (outcomes : Nat → WriteOutcome) (path : Bytes) (system : System)
    (messages : List (Option Bytes)) : Except Escape (List Bytes) := do
  let (replies, _) ← interrupted (handle library handler)
    (serverRestart outcomes path) system messages
  .ok replies

def requestOfB : Bytes := irsChars "\x7b\"type\":\"add_documents\",\"payload\":[\"b\"],\"id\":1\x7d"

def objectOfB : IrsMemoryJsonPayload Unit :=
  .object [(irsChars "id", .numberUnsigned 1), (irsChars "payload", .ofStrings [irsChars "b"]),
    (irsChars "type", .string (irsChars "add_documents"))]

def libraryOfB : Nlohmann Unit where
  parse text := if text = requestOfB then some objectOfB else none
  dump _ := some (irsChars "\x7b\"id\":1,\"payload\":[],\"status\":1\x7d")
  toSize _ := none

theorem messagesDocuments_b :
    messagesDocuments libraryOfB [some requestOfB, none, some requestOfB] =
      [irsChars "b", irsChars "b"] := by
  have parsed : libraryOfB.parse requestOfB = some objectOfB := by simp only [libraryOfB, if_true]
  have one : messageDocuments libraryOfB requestOfB = [irsChars "b"] := by
    unfold messageDocuments parseRequestMessage
    rw [parsed]
    decide +kernel
  rw [messagesDocuments]
  simp only [List.reduceOption_cons_of_some, List.reduceOption_cons_of_none, List.reduceOption_nil,
    List.flatMap_cons, List.flatMap_nil, one]
  rfl

end

end IrsMachine
