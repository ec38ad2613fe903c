import IrsMachine.Library.Associations
import IrsMachine.Server.Handler
import IrsMachine.Storage.Ratio

/-!
# The commands on the storage

`IrsMemory` hands lists of strings to the storage and copies what it gets back; the commands
`add_documents` and `get_documents` make JSON values of it. Both layers drop the status of the
storage.
-/

namespace IrsMachine
open Except

/-! ### `irs_memory` -/

def irsMemoryAddDocuments (F : Type) [IrsFloat F] (outcomes : Nat → WriteOutcome) (system : System)
    (documents : List Bytes) :
    Except Fault (Bool × System) := do
  let (status, system) ← irsStorageAddDocuments F outcomes system documents
  .ok (decide (status = .ok), system)

def irsMemoryGetDocuments (system : System) (terms : List Bytes) :
    Except Fault (Bool × List (Option (List Triple))) := do
  let answer ← irsStorageGetDocuments system terms
  .ok (decide (answer.status = .ok), answer.documentsList)

/-! ### `IrsMemory` -/

abbrev DocumentMap (D : Type) := List (UInt64 × (Bytes × D))

def IrsMemory.add (F : Type) [IrsFloat F] (outcomes : Nat → WriteOutcome) (system : System)
    (documents : List Bytes) :
    Except Fault System := do
  let (_, system) ← irsMemoryAddDocuments F outcomes system documents
  .ok system

section
variable {D : Type}

/-- The loop over the triples of a term. `std::stof` throws on a text that is no number. -/
def readTriples (stof : Bytes → Option D) : DocumentMap D → List Triple → Option (DocumentMap D)
  | documents, [] => some documents
  | documents, triple :: triples =>
    match stof (cString triple.significancy) with
    | none => none
    | some termSignificancy =>
      readTriples stof
        (Associations.insert documents triple.docOffset (cString triple.document, termSignificancy))
        triples

def readTermsDocuments (stof : Bytes → Option D) : List (DocumentMap D) →
    List (Option (List Triple)) → Option (List (DocumentMap D))
  | result, [] => some result
  | result, none :: termsDocuments => readTermsDocuments stof (result ++ [[]]) termsDocuments
  | result, some triples :: termsDocuments =>
    match readTriples stof [] triples with
    | none => none
    | some documents => readTermsDocuments stof (result ++ [documents]) termsDocuments

/-- `none` is an exception. -/
def IrsMemory.get (stof : Bytes → Option D) (system : System) (terms : List Bytes) :
    Except Fault (Option (List (DocumentMap D))) := do
  let (_, documentsWithSignificancies) ← irsMemoryGetDocuments system terms
  .ok (readTermsDocuments stof [] documentsWithSignificancies)

/-! ### Commands -/

def IrsMemoryAddDocumentsCommand (F : Type) [IrsFloat F] (outcomes : Nat → WriteOutcome) :
    IrsMemoryJsonCommand System D :=
  fun system requestPayload status =>
    match requestPayload.getStrings with
    | .error _ => .ok { memory := system, status, payload := none }
    | .ok documents => do
      let system ← IrsMemory.add F outcomes system documents
      .ok { memory := system, status := irsTrue, payload := some (.ofStrings []) }

def attributesOf (termDocuments : DocumentMap D) : List (Bytes × D) :=
  termDocuments.foldl
    (fun attributes document => Associations.insert attributes (decimal document.1) document.2.2) []

def insertTexts (documents : List (Bytes × Bytes)) (termDocuments : DocumentMap D) :
    List (Bytes × Bytes) :=
  termDocuments.foldl
    (fun documents document => Associations.insert documents (decimal document.1) document.2.1)
    documents

def termAttribute (term : Bytes) (termDocuments : DocumentMap D) : IrsMemoryJsonPayload D :=
  .ofMap [(irsChars "term", .string term),
    (irsChars "documents", .ofMap
      ((attributesOf termDocuments).map fun entry => (entry.1, .numberFloat entry.2)))]

/-- The loop of the command: `terms.at(count)` throws if there are more answers than terms. -/
def getDocumentsPayloadLoop (terms : List Bytes) : Nat → List (IrsMemoryJsonPayload D) →
    List (Bytes × Bytes) →
    List (DocumentMap D) → Option (List (IrsMemoryJsonPayload D) × List (Bytes × Bytes))
  | _, termAttributes, documents, [] => some (termAttributes, documents)
  | count, termAttributes, documents, termDocuments :: termsDocuments =>
    match terms[count]? with
    | none => none
    | some term =>
      getDocumentsPayloadLoop terms (count + 1)
        (termAttributes ++ [termAttribute term termDocuments])
        (insertTexts documents termDocuments) termsDocuments

def getDocumentsPayload (terms : List Bytes) (termsDocuments : List (DocumentMap D)) :
    Option (IrsMemoryJsonPayload D) :=
  match getDocumentsPayloadLoop terms 0 [] [] termsDocuments with
  | none => none
  | some (termAttributes, documents) =>
    some (.ofMap [(irsChars "attributes", .array termAttributes),
      (irsChars "documents", .ofMap
        (documents.map fun document => (document.1, .string document.2)))])

def IrsMemoryGetDocumentsCommand (stof : Bytes → Option D) : IrsMemoryJsonCommand System D :=
  fun system requestPayload status =>
    match requestPayload.getStrings with
    | .error _ => .ok { memory := system, status, payload := none }
    | .ok terms => do
      match ← IrsMemory.get stof system terms with
      | none => .ok { memory := system, status, payload := none }
      | some termsDocuments =>
        match getDocumentsPayload terms termsDocuments with
        | none => .ok { memory := system, status, payload := none }
        | some payload => .ok { memory := system, status := irsTrue, payload := some payload }

end

end IrsMachine
