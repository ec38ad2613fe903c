import IrsMachine.Server.Handler

/-!
# Which requests are answered

A text is answered if it can be read as a request, names a command that there is, and its reply
can be printed.
-/

namespace IrsMachine
open Except

variable {M D : Type}

/-! ### Reading a request -/

theorem index_ok {json member : IrsMemoryJsonPayload D} {key : Bytes} :
    json.index key = .ok member ↔
      ∃ members, json = .object members ∧ members.lookup key = some member := by
  cases json with
  | object members =>
    cases found : members.lookup key <;> simp [IrsMemoryJsonPayload.index, found]
  | _ => simp [IrsMemoryJsonPayload.index]

theorem index_object {members : List (Bytes × IrsMemoryJsonPayload D)}
    {member : IrsMemoryJsonPayload D} {key : Bytes} :
    (IrsMemoryJsonPayload.object members).index key = .ok member ↔
      members.lookup key = some member := by
  rw [index_ok]
  constructor
  · rintro ⟨_, same, found⟩
    injection same with same
    rw [same]
    exact found
  · intro found
    exact ⟨members, rfl, found⟩

theorem getString_ok {json : IrsMemoryJsonPayload D} {value : Bytes} : json.getString = .ok value ↔
    json = .string value := by
  cases json <;> simp [IrsMemoryJsonPayload.getString]

theorem isNull_iff {json : IrsMemoryJsonPayload D} : json.isNull = true ↔ json = .null := by
  cases json <;> simp [IrsMemoryJsonPayload.isNull]

def HasMembers (library : Nlohmann D) (message : Bytes) (type payload id : IrsMemoryJsonPayload D) :
    Prop :=
  ∃ members, library.parse message = some (.object members) ∧
    members.lookup (irsChars "type") = some type ∧
    members.lookup (irsChars "payload") = some payload ∧ members.lookup (irsChars "id") = some id

def requestData (type payload id : IrsMemoryJsonPayload D) : List (IrsMemoryJsonPayload D) :=
  if [type, payload, id].any IrsMemoryJsonPayload.isNull then [] else [type, payload, id]

theorem parseRequestMessage_null {library : Nlohmann D} {message : Bytes}
    (parsed : library.parse message = some .null) :
    parseRequestMessage library message = .ok [] := by
  simp [parseRequestMessage, parsed, IrsMemoryJsonPayload.isNull]

theorem parseRequestMessage_members {library : Nlohmann D} {message : Bytes}
    {type payload id : IrsMemoryJsonPayload D}
    (request : HasMembers library message type payload id) :
    parseRequestMessage library message = .ok (requestData type payload id) := by
  obtain ⟨members, parsed, typeAt, payloadAt, idAt⟩ := request
  unfold parseRequestMessage requestData
  rw [parsed]
  simp only [index_object.mpr typeAt, index_object.mpr payloadAt, index_object.mpr idAt,
    IrsMemoryJsonPayload.isNull, Bool.false_eq_true, if_false, ok_bind]
  split <;> rfl

theorem parseRequestMessage_ok {library : Nlohmann D} {message : Bytes}
    {data : List (IrsMemoryJsonPayload D)} (run : parseRequestMessage library message = .ok data) :
    library.parse message = some .null ∨
      ∃ type payload id, HasMembers library message type payload id := by
  unfold parseRequestMessage at run
  cases parsed : library.parse message with
  | none =>
    rw [parsed] at run
    cases run
  | some json =>
    rw [parsed] at run
    dsimp only at run
    split at run
    · rename_i null
      exact .inl (by rw [isNull_iff.mp null])
    · obtain ⟨type, typeAt, run⟩ := bind_ok.mp run
      obtain ⟨payload, payloadAt, run⟩ := bind_ok.mp run
      obtain ⟨id, idAt, run⟩ := bind_ok.mp run
      obtain ⟨members, rfl, typed⟩ := index_ok.mp typeAt
      exact .inr ⟨type, payload, id, members, parsed, typed, index_object.mp payloadAt,
        index_object.mp idAt⟩

/-! ### Answering it -/

/-- The type names a command, the id is a size, the command comes to an end, and its reply can
be printed. -/
structure Completes (library : Nlohmann D) (handler : IrsMemoryJsonHandler M D) (memory : M)
    (type payload id : IrsMemoryJsonPayload D) : Prop where
  runs : ∃ name command size completion, type = .string name ∧
    handler.commands.lookup name = some command ∧
    id.getSize library = .ok size ∧ command memory payload irsFalse = .ok completion ∧
    (library.dump (formResponseMessage size completion.response.status
      completion.response.payload)).isSome

/-- The texts that the handler answers: `null`, requests with a member that is null, and
requests that complete. -/
def Accepted (library : Nlohmann D) (handler : IrsMemoryJsonHandler M D) (memory : M)
    (message : Bytes) : Prop :=
  library.parse message = some .null ∨
    ∃ type payload id, HasMembers library message type payload id ∧
      (type.isNull ∨ payload.isNull ∨ id.isNull ∨ Completes library handler memory type payload id)

theorem handle_null {library : Nlohmann D} {handler : IrsMemoryJsonHandler M D} {memory : M}
    {message : Bytes} (parsed : parseRequestMessage library message = .ok []) :
    handle library handler memory message = .ok (irsChars "Invalid request message", memory) := by
  unfold handle
  rw [parsed]
  rfl

theorem handle_request {library : Nlohmann D} {handler : IrsMemoryJsonHandler M D} {memory : M}
    {message : Bytes} {type payload id : IrsMemoryJsonPayload D}
    (parsed : parseRequestMessage library message = .ok [type, payload, id]) {reply : Bytes}
    {memory' : M} :
    handle library handler memory message = .ok (reply, memory') ↔
      ∃ name command size completion, type = .string name ∧
        handler.commands.lookup name = some command ∧
        id.getSize library = .ok size ∧ command memory payload irsFalse = .ok completion ∧
        library.dump (formResponseMessage size completion.response.status
          completion.response.payload) = some reply ∧
        memory' = completion.response.memory := by
  unfold handle
  rw [parsed]
  simp only [ok_bind, vectorAt, List.isEmpty_cons, Bool.false_eq_true, if_false,
    List.getElem?_cons_zero, List.getElem?_cons_succ]
  constructor
  · intro run
    obtain ⟨name, isString, run⟩ := bind_ok.mp run
    obtain ⟨size, isSize, run⟩ := bind_ok.mp run
    obtain ⟨response, responds, run⟩ := bind_ok.mp run
    unfold responseRequestMessage handleRequestPayload at responds
    obtain ⟨completion, completes, responds⟩ := bind_ok.mp responds
    split at completes
    · cases completes
    · rename_i command registered
      split at completes
      · rename_i completion' runs
        cases completes
        cases responds
        split at run
        · rename_i printed
          cases run
          exact ⟨name, command, size, completion, getString_ok.mp isString, registered, isSize,
            runs, printed, rfl⟩
        · cases run
      · cases completes
  · rintro ⟨name, command, size, completion, rfl, registered, isSize, runs, printed, rfl⟩
    have responds : responseRequestMessage handler memory name payload =
        .ok completion.response := by
      simp only [responseRequestMessage, handleRequestPayload, registered, runs, ok_bind]
    simp only [IrsMemoryJsonPayload.getString, ok_bind, isSize, responds, printed]

theorem requestData_null {type payload id : IrsMemoryJsonPayload D}
    (null : type.isNull ∨ payload.isNull ∨ id.isNull) :
    requestData type payload id = [] := by
  rw [requestData, if_pos]
  simpa [or_assoc] using null

theorem requestData_eq {type payload id : IrsMemoryJsonPayload D}
    (notNull : ¬ (type.isNull ∨ payload.isNull ∨ id.isNull)) :
    requestData type payload id = [type, payload, id] := by
  rw [requestData, if_neg]
  simpa [or_assoc] using notNull

theorem handle_returns_iff {library : Nlohmann D} {handler : IrsMemoryJsonHandler M D} {memory : M}
    {message : Bytes} :
    (∃ result, handle library handler memory message = .ok result) ↔
      Accepted library handler memory message := by
  constructor
  · rintro ⟨⟨reply, memory'⟩, run⟩
    obtain ⟨data, parsed, -⟩ := bind_ok.mp run
    rcases parseRequestMessage_ok parsed with null | ⟨type, payload, id, request⟩
    · exact .inl null
    · refine .inr ⟨type, payload, id, request, ?_⟩
      by_cases null : type.isNull ∨ payload.isNull ∨ id.isNull
      · tauto
      · have read := parseRequestMessage_members request
        rw [requestData_eq null] at read
        obtain ⟨name, command, size, completion, isString, registered, isSize, runs, printed, -⟩ :=
          (handle_request read).mp run
        exact .inr (.inr
          (.inr ⟨name, command, size, completion, isString, registered, isSize, runs,
            by rw [printed]; rfl⟩))
  · rintro (null | ⟨type, payload, id, request, shape⟩)
    · exact ⟨_, handle_null (parseRequestMessage_null null)⟩
    · have read := parseRequestMessage_members request
      by_cases null : type.isNull ∨ payload.isNull ∨ id.isNull
      · rw [requestData_null null] at read
        exact ⟨_, handle_null read⟩
      · rw [requestData_eq null] at read
        have completes : Completes library handler memory type payload id := by tauto
        obtain ⟨name, command, size, completion, isString, registered, isSize, runs, printed⟩ :=
          completes
        obtain ⟨reply, printed⟩ := Option.isSome_iff_exists.mp printed
        exact ⟨(reply, _), (handle_request read).mpr
          ⟨name, command, size, completion, isString, registered, isSize, runs, printed, rfl⟩⟩

/-- The handler returns. A request of the right types gets a reply with its own id, and where
there is no such command, or the command throws, with a false status and nothing done besides. -/
def Replies (library : Nlohmann D) (handler : IrsMemoryJsonHandler M D) (memory : M)
    (message : Bytes) : Prop :=
  ∃ reply memory', emit library handler memory message = .ok (reply, memory') ∧
    ∀ name payload id, HasMembers library message (.string name) payload (.numberUnsigned id) →
    payload.isNull = false →
      ∃ status responsePayload,
      library.dump (formResponseMessage id status responsePayload) = some reply ∧
        (handler.commands.lookup name = none → status = irsFalse ∧ memory' = memory) ∧
        ∀ command completion, handler.commands.lookup name = some command →
          command memory payload irsFalse = .ok completion → completion.payload = none →
          status = irsFalse ∧ memory' = completion.memory

theorem emit_replies_iff {library : Nlohmann D} {handler : IrsMemoryJsonHandler M D} {memory : M}
    {message : Bytes} :
    Replies library handler memory message ↔ Accepted library handler memory message := by
  rw [← handle_returns_iff]
  constructor
  · rintro ⟨reply, memory', run, -⟩
    exact ⟨(reply, memory'), run⟩
  · rintro ⟨⟨reply, memory'⟩, run⟩
    refine ⟨reply, memory', run, fun name payload id request notNull => ?_⟩
    have read := parseRequestMessage_members request
    rw [requestData_eq (by simp [isNull_iff, notNull])] at read
    obtain ⟨name', command, size, completion, isString, registered, isSize, runs, printed, left⟩ :=
      (handle_request read).mp run
    injection isString with same
    subst same
    obtain rfl : id = size := Except.ok.inj isSize
    refine ⟨_, _, printed, fun unknown => ?_,
      fun command' completion' registered' runs' thrown => ?_⟩
    · rw [registered] at unknown
      cases unknown
    · rw [registered] at registered'
      obtain rfl := Option.some.inj registered'
      rw [runs] at runs'
      obtain rfl := Except.ok.inj runs'
      rw [left, Completion.response, thrown]
      exact ⟨rfl, rfl⟩

/-! ### A request without a command -/

def requestOfX : Bytes := irsChars "\x7b\"type\":\"x\",\"payload\":[],\"id\":1\x7d"

def objectOfX : IrsMemoryJsonPayload Unit :=
  .object [(irsChars "id", .numberUnsigned 1), (irsChars "payload", .array []),
    (irsChars "type", .string (irsChars "x"))]

def libraryOfX : Nlohmann Unit where
  parse text := if text = requestOfX then some objectOfX else none
  dump _ := some []
  toSize _ := none

def handlerOfNothing : IrsMemoryJsonHandler Unit Unit where
  addDocuments memory _ status := .ok { memory, status, payload := none }
  getDocuments memory _ status := .ok { memory, status, payload := none }
  getLangs memory _ status := .ok { memory, status, payload := none }
  getSummars memory _ status := .ok { memory, status, payload := none }

/-- There is no command `x`: the end iterator is used. -/
theorem replies_fails_x : ¬ Replies libraryOfX handlerOfNothing () requestOfX := by
  rintro ⟨reply, memory', run, -⟩
  have stops : emit libraryOfX handlerOfNothing () requestOfX = .error .endIterator := by
    have parsed : libraryOfX.parse requestOfX = some objectOfX := by
      simp only [libraryOfX, if_true]
    unfold emit handle parseRequestMessage
    rw [parsed]
    rfl
  rw [stops] at run
  cases run

end IrsMachine
