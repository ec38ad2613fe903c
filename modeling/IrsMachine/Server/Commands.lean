import IrsMachine.Engine.Languages
import IrsMachine.Server.Statuses

/-!
# The commands on the engine

`get_langs` and `get_summars`: what the engine makes of the documents becomes a list of strings, and
the length of the list becomes the status.
-/

namespace IrsMachine
open Except

/-! ### `irs_memory` -/

def fwmType : UInt8 := 1

def amType : UInt8 := 2

/-- For any other type the list stays unassigned, and its size is read all the same. -/
def irsMemoryGetDocumentsLangs (engine : IrsEngine) (type : UInt8) (documents : List Bytes) :
    Except Fault (IrsBool × List Bytes) := do
  let langs ←
    if type = fwmType then irsEngineDefineDocumentsLanguages engine documents
    else if type = amType then .ok (irsEngineDefineDocumentsLanguagesByAlphabets engine documents)
    else .error .unassigned
  .ok ((listSize langs).toUInt16, langs)

def irsMemoryGetDocumentsSummarizations (S : Type) [ScoreFloat S] (documents : List Bytes) :
    Except Fault (IrsBool × List (List Bytes)) := do
  let summarizations ← irsEngineGetDocumentsSummarizations S documents
  .ok ((listSize summarizations).toUInt16, summarizations)

/-! ### `IrsMemory` -/

def IrsMemory.getLangs (engine : IrsEngine) (type : UInt8) (documents : List Bytes) :
    Except Fault (List Bytes) := do
  let (_, langs) ← irsMemoryGetDocumentsLangs engine type documents
  .ok (langs.map cString)

/-- Every sentence gets its full stop back. -/
def joinSentences (sentences : List Bytes) : Bytes :=
  sentences.flatMap fun sent => cString sent ++ irsChars "."

def IrsMemory.getSummarizations (S : Type) [ScoreFloat S] (documents : List Bytes) :
    Except Fault (List Bytes) := do
  let (_, summarizations) ← irsMemoryGetDocumentsSummarizations S documents
  .ok (summarizations.map joinSentences)

/-! ### Commands -/

namespace IrsMemoryJsonPayload
variable {D : Type}

/-- `operator[]` of a value that may change: a missing member is put there, as null. -/
def indexOrNull (json : IrsMemoryJsonPayload D) (key : Bytes) :
    Except Escape (IrsMemoryJsonPayload D) :=
  match json with
  | object members => .ok ((members.lookup key).getD null)
  | null => .ok null
  | _ => .error .exception

/-- `get<irs_uint8>`, which takes a boolean too. The cast of a floating-point number is the
compiler's. -/
def getByte (toByte : D → UInt8) : IrsMemoryJsonPayload D → Except Escape UInt8
  | numberUnsigned value => .ok value.toUInt8
  | numberInteger value => .ok value.toUInt64.toUInt8
  | numberFloat value => .ok (toByte value)
  | boolean value => .ok (if value then 1 else 0)
  | _ => .error .exception

end IrsMemoryJsonPayload

section
variable {M D : Type}

def langsRequest (toByte : D → UInt8) (requestPayload : IrsMemoryJsonPayload D) :
    Except Escape (List Bytes × UInt8) := do
  let documents ← (← requestPayload.indexOrNull (irsChars "documents")).getStrings
  let methodType ← (← requestPayload.indexOrNull (irsChars "method_type")).getByte toByte
  .ok (documents, methodType)

def IrsMemoryGetDocumentsLangsCommand (engine : IrsEngine) (toByte : D → UInt8) :
    IrsMemoryJsonCommand M D :=
  fun memory requestPayload status =>
    match langsRequest toByte requestPayload with
    | .error _ => .ok { memory, status, payload := none }
    | .ok (documents, methodType) => do
      let langs ← IrsMemory.getLangs engine methodType documents
      .ok { memory, status := UInt16.ofNat langs.length, payload := some (.ofStrings langs) }

def IrsMemoryGetDocumentsSummarizationsCommand (S : Type) [ScoreFloat S] :
    IrsMemoryJsonCommand M D :=
  fun memory requestPayload status =>
    match requestPayload.getStrings with
    | .error _ => .ok { memory, status, payload := none }
    | .ok documents => do
      let summarizations ← IrsMemory.getSummarizations S documents
      .ok { memory, status := UInt16.ofNat summarizations.length,
            payload := some (.ofStrings summarizations) }

def engineHandler (F S : Type) [IrsFloat F] [ScoreFloat S] (outcomes : Nat → WriteOutcome)
    (stof : Bytes → Option D) (toByte : D → UInt8) (engine : IrsEngine) :
    IrsMemoryJsonHandler System D :=
  memoryHandler F outcomes stof (IrsMemoryGetDocumentsLangsCommand engine toByte)
    (IrsMemoryGetDocumentsSummarizationsCommand S)

end

end IrsMachine
