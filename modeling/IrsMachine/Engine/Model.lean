import IrsMachine.Container.Walk
import IrsMachine.Engine.Sort
import IrsMachine.Storage.Model

/-!
# The engine

`irs_engine`: a document is cut into sentences, each one gets a score by its place in the document
and in its part of it, and those with the greatest scores make up the summary.
-/

namespace IrsMachine
open Except

/-! ### Tokens -/

def irsStorageGetDocumentShortTerms (document : Bytes) : List Bytes :=
  (strtok document (irsChars " ,.-\x00()[]_")).filter fun term => decide (irsStrLen term ≤ 7)

def irsStorageGetDocumentSentences (document : Bytes) : List Bytes :=
  strtok document (irsChars ".!?")

/-! ### Scores -/

/-- The place of what `strstr` points to, which is the first occurrence. -/
def irsStrFindGet (str substring : Bytes) : Option Nat :=
  (List.range ((cString str).length + 1)).find? fun place =>
    (cString substring).isPrefixOf ((cString str).drop place)

def irsStrFindPosition (str substring : Bytes) : Except Fault UInt64 :=
  match irsStrFindGet str substring with
  | none => .error .badPointer
  | some place => .ok (UInt64.ofNat (place + 1))

class ScoreFloat (F : Type) where
  ofUInt64 : UInt64 → F
  one : F
  sub : F → F → F
  div : F → F → F
  mul : F → F → F
  toUInt64 : F → UInt64

section
variable {F : Type} [ScoreFloat F]

def sentencePlace (text sentence : Bytes) : Except Fault F := do
  let textSize := ScoreFloat.ofUInt64 (UInt64.ofNat (irsStrLen text))
  let senPos := ScoreFloat.ofUInt64 (← irsStrFindPosition text sentence)
  .ok (ScoreFloat.sub ScoreFloat.one (ScoreFloat.div senPos textSize))

def irsStorageDefineDocumentSentencePosd (document sentence : Bytes) : Except Fault F :=
  sentencePlace document sentence

def irsStorageDefineDocumentSentencePosp (docPartWithSent sentence : Bytes) : Except Fault F :=
  sentencePlace docPartWithSent sentence

end

def partSign : UInt8 := 10

def partStart (document : Bytes) : Nat → Nat
  | 0 => 0
  | place + 1 =>
    if (document ++ [0])[place + 1]? = some partSign then place + 1 else partStart document place

def partEnd : Nat → Bytes → Nat
  | place, [] => place
  | place, ch :: rest => if ch = partSign then place else partEnd (place + 1) rest

/-- The part is copied with the character at its end, which may be the terminating zero. -/
def irsStorageDefineDocumentPartWithSentence (document sentence : Bytes) : Except Fault Bytes :=
  match irsStrFindGet document sentence with
  | none => .error .badPointer
  | some isent =>
    -- the second loop starts one further, and would miss the end of the document
    if isent = irsStrLen document then .error .outOfBounds
    else
      let docPartWithSentStart := partStart (cString document) isent
      let docPartWithSentEnd := partEnd (isent + 1) ((cString document).drop (isent + 1))
      let sentPartLength := docPartWithSentEnd - docPartWithSentStart + 1
      .ok (((cString document ++ [0]).drop docPartWithSentStart).take sentPartLength)

def irsDefineSentenceScore (F : Type) [ScoreFloat F] (document sentence : Bytes) :
    Except Fault UInt64 := do
  let posd : F ← irsStorageDefineDocumentSentencePosd document sentence
  let docPartWithSent ← irsStorageDefineDocumentPartWithSentence document sentence
  let posp : F ← irsStorageDefineDocumentSentencePosp docPartWithSent sentence
  .ok (ScoreFloat.toUInt64 (ScoreFloat.mul (ScoreFloat.mul posd posp) (ScoreFloat.ofUInt64 10000)))

def sentenceAt (heap : Heap Bytes) (it : IrsIterator) : Except Fault Bytes := do
  match ← irsIteratorGet heap it with
  | none => .error .badPointer
  | some sentence => .ok sentence

def sentencesScoresLoop (score : Bytes → Except Fault UInt64) (sentencesHeap : Heap Bytes) :
    Nat → UInt64 → IrsIterator → Heap IrsPair → IrsList → Except Fault (Heap IrsPair × IrsList)
  | 0, _, _, _, _ => .error .endless
  | fuel + 1, i, sentIt, heap, sentsScores => do
    let (more, sentIt) ← irsIteratorNext sentencesHeap sentIt
    if more then
      let sentScore ← score (← sentenceAt sentencesHeap sentIt)
      let (heap, sentsScores, _) ← irsListPushBack heap sentsScores (some ⟨sentScore, i⟩)
      sentencesScoresLoop score sentencesHeap fuel (i + 1) sentIt heap sentsScores
    else .ok (heap, sentsScores)

/-- A walk over the sentences takes no more steps than there are nodes in memory, and one. -/
def irsGetSentencesScores (F : Type) [ScoreFloat F] (document : Bytes) (sentencesHeap : Heap Bytes)
    (sentences : IrsList) :
    Except Fault (Heap IrsPair × IrsList) :=
  sentencesScoresLoop (irsDefineSentenceScore F document) sentencesHeap (sentencesHeap.fresh + 1) 0
    (irsListIterator sentences)
    .empty irsListInit

/-! ### Summaries -/

/-- The inner loop of `_irs_get_document_summarization`; null is `none`. -/
def copySentenceLoop (sentencesHeap : Heap Bytes) (index : UInt64) :
    Nat → UInt64 → IrsIterator → List (Option Bytes) → Except Fault (List (Option Bytes))
  | 0, _, _, _ => .error .endless
  | fuel + 1, j, sentIt, summar => do
    let (more, sentIt) ← irsIteratorNext sentencesHeap sentIt
    if more then
      if j = index - 1 then
        let sentence ← sentenceAt sentencesHeap sentIt
        if j.toNat < summar.length then .ok (summar.set j.toNat
          (some (sentence.take (irsStrLen sentence))))
        else .error .outOfBounds
      else copySentenceLoop sentencesHeap index fuel (j + 1) sentIt summar
    else .ok summar

def maxSentNumber : Nat := 10

def summarLoop (sentencesHeap : Heap Bytes) (sentences : IrsList) (heap : Heap IrsPair) :
    Nat → IrsIterator → List (Option Bytes) → Except Fault (List (Option Bytes))
  | 0, sortedIt, summar => do
    let _ ← irsIteratorPrev heap sortedIt
    .ok summar
  | left + 1, sortedIt, summar => do
    let (more, sortedIt) ← irsIteratorPrev heap sortedIt
    if more then
      let sentScoreIndex ← pairAt heap sortedIt
      let summar ← copySentenceLoop sentencesHeap sentScoreIndex.second (sentencesHeap.fresh + 1) 0
        (irsListIterator sentences) summar
      summarLoop sentencesHeap sentences heap left sortedIt summar
    else .ok summar

/-- The array has as many places as the sorted list has pairs. -/
def irsGetDocumentSummarization (sentencesHeap : Heap Bytes) (sentences : IrsList)
    (heap : Heap IrsPair) (sortedSentsScores : IrsList) :
    Except Fault (List Bytes) := do
  let summar ← summarLoop sentencesHeap sentences heap maxSentNumber
    (irsListReverseIterator sortedSentsScores)
    (List.replicate sortedSentsScores.size.toNat none)
  .ok (summar.filterMap id)

/-- What `irs_engine_get_documents_summarizations` does with the scores of a document. -/
def summarizeScored (sentencesHeap : Heap Bytes) (sentences : IrsList) (heap : Heap IrsPair)
    (sentsScores : IrsList) :
    Except Fault (List Bytes) := do
  let (heap, sortedSentsScores) ← irsSortDocSentencesByScore heap sentsScores
  irsGetDocumentSummarization sentencesHeap sentences heap sortedSentsScores

section
variable (F : Type) [ScoreFloat F]

def irsEngineGetDocumentSummarization (document : Bytes) : Except Fault (List Bytes) := do
  let (sentencesHeap, sentences) ← pushAll (irsStorageGetDocumentSentences document)
  let (heap, sentsScores) ← irsGetSentencesScores F document sentencesHeap sentences
  summarizeScored sentencesHeap sentences heap sentsScores

def irsEngineGetDocumentsSummarizations (documents : List Bytes) :
    Except Fault (List (List Bytes)) :=
  documents.mapM (irsEngineGetDocumentSummarization F)

end

end IrsMachine
