import IrsMachine.Library.Except
import IrsMachine.Server.Json

/-!
# Requests

`IrsMemoryJsonHandler`: a text is parsed, a command is looked up by its type and completed, and
what it gives is put into a reply. Only the command stands in the `try` block.
-/

namespace IrsMachine
open Except

abbrev IrsBool := UInt16

def irsTrue : IrsBool := 1

def irsFalse : IrsBool := 0

/-- What a command leaves: the memory, the status, and its payload if it did not throw. -/
structure Completion (M D : Type) where
  memory : M
  status : IrsBool
  payload : Option (IrsMemoryJsonPayload D)

abbrev IrsMemoryJsonCommand (M D : Type) :=
  M → IrsMemoryJsonPayload D → IrsBool → Except Fault (Completion M D)

structure IrsMemoryJsonHandler (M D : Type) where
  addDocuments : IrsMemoryJsonCommand M D
  getDocuments : IrsMemoryJsonCommand M D
  getLangs : IrsMemoryJsonCommand M D
  getSummars : IrsMemoryJsonCommand M D

section
variable {M D : Type}

def IrsMemoryJsonHandler.commands (handler : IrsMemoryJsonHandler M D) :
    List (Bytes × IrsMemoryJsonCommand M D) :=
  [(irsChars "add_documents", handler.addDocuments),
   (irsChars "get_documents", handler.getDocuments),
   (irsChars "get_langs", handler.getLangs),
   (irsChars "get_summars", handler.getSummars)]

def parseRequestMessage (library : Nlohmann D) (requestMessage : Bytes) :
    Except Escape (List (IrsMemoryJsonPayload D)) :=
  match library.parse requestMessage with
  | none => .error .exception
  | some messageJson =>
    if messageJson.isNull then .ok []
    else do
      let type ← messageJson.index (irsChars "type")
      let payload ← messageJson.index (irsChars "payload")
      let id ← messageJson.index (irsChars "id")
      let requestData := [type, payload, id]
      if requestData.any IrsMemoryJsonPayload.isNull then .ok [] else .ok requestData

/-- An unknown type sets the status, and the end iterator is used all the same. -/
def handleRequestPayload (handler : IrsMemoryJsonHandler M D) (memory : M) (requestType : Bytes)
    (requestPayload : IrsMemoryJsonPayload D) : Except Escape (Completion M D) :=
  match handler.commands.lookup requestType with
  | none => .error .endIterator
  | some command =>
    match command memory requestPayload irsFalse with
    | .ok completion => .ok completion
    | .error fault => .error (.fault fault)

def formResponseMessage (requestId : UInt64) (status : IrsBool)
    (responsePayload : IrsMemoryJsonPayload D) :
    IrsMemoryJsonPayload D :=
  .ofMap [(irsChars "id", .numberUnsigned requestId),
    (irsChars "status", .numberUnsigned status.toUInt64),
    (irsChars "payload", responsePayload)]

structure Response (M D : Type) where
  memory : M
  status : IrsBool
  payload : IrsMemoryJsonPayload D

/-- An exception of the command makes the status false and leaves the payload null. -/
def Completion.response (completion : Completion M D) : Response M D :=
  match completion.payload with
  | some payload => { memory := completion.memory, status := completion.status, payload }
  | none => { memory := completion.memory, status := irsFalse, payload := .null }

def responseRequestMessage (handler : IrsMemoryJsonHandler M D) (memory : M) (requestType : Bytes)
    (requestPayload : IrsMemoryJsonPayload D) : Except Escape (Response M D) := do
  let completion ← handleRequestPayload handler memory requestType requestPayload
  .ok completion.response

def vectorAt (requestData : List (IrsMemoryJsonPayload D)) (index : Nat) :
    Except Escape (IrsMemoryJsonPayload D) :=
  match requestData[index]? with
  | some item => .ok item
  | none => .error .exception

def handle (library : Nlohmann D) (handler : IrsMemoryJsonHandler M D) (memory : M)
    (requestMessage : Bytes) :
    Except Escape (Bytes × M) := do
  let requestData ← parseRequestMessage library requestMessage
  if requestData.isEmpty then .ok (irsChars "Invalid request message", memory)
  else
    let requestType ← (← vectorAt requestData 0).getString
    let requestPayload ← vectorAt requestData 1
    let requestId ← (← vectorAt requestData 2).getSize library
    let response ← responseRequestMessage handler memory requestType requestPayload
    match library.dump (formResponseMessage requestId response.status response.payload) with
    | some reply => .ok (reply, response.memory)
    | none => .error .exception

def emit (library : Nlohmann D) (handler : IrsMemoryJsonHandler M D) (memory : M)
    (message : Bytes) :
    Except Escape (Bytes × M) :=
  handle library handler memory message

end

end IrsMachine
