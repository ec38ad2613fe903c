import IrsMachine.Dictionary.Model
import IrsMachine.Engine.Model
import IrsMachine.Library.FirstMaximum
import Mathlib.Order.Nat

/-!
# The language of a document

`irs_engine` counts the short terms of a document that are key words of a language, or its
characters that are letters of one. The counts of all languages make a list, in which the running
maximum is found by its position, in 32 bits. In both cases the names at this position are taken
from the list of the key words.
-/

namespace IrsMachine
open Except FirstMaximum

/-- The lists of `irs_engine`. Their pairs hold the key words, or the letters, of a language, and
its name. -/
structure IrsEngine where
  langKeyWords : List (IrsDictionary Unit × Bytes)
  langAlphabets : List (List Bytes × Bytes)

/-! ### Counts -/

def termCoincidences (dictionary : IrsDictionary Unit) : List Bytes → UInt32 → Except Fault UInt32
  | [], commonCoincidences => .ok commonCoincidences
  | term :: terms, commonCoincidences => do
    let isIn ← irsDictionaryIsIn dictionary term
    termCoincidences dictionary terms (if isIn then commonCoincidences + 1 else commonCoincidences)

def letterCoincidences (alphabetCh : UInt8) : Bytes → UInt32 → UInt32
  | [], commonCoincidences => commonCoincidences
  | ch :: rest, commonCoincidences =>
    letterCoincidences alphabetCh rest
      (if ch = alphabetCh then commonCoincidences + 1 else commonCoincidences)

def firstCh (letter : Bytes) : UInt8 := letter.headD 0

def alphabetCoincidences (document : Bytes) : List Bytes → UInt32 → UInt32
  | [], commonCoincidences => commonCoincidences
  | letter :: letters, commonCoincidences =>
    alphabetCoincidences document letters
      (letterCoincidences (firstCh letter) document commonCoincidences)

/-! ### Positions -/

def maxCoincidencesLoop : List UInt32 → UInt32 → UInt32 → UInt32 → UInt32
  | [], _, _, maxCommonCoincidencesPos => maxCommonCoincidencesPos
  | commonCoincidences :: rest, position, maxCommonCoincidences, maxCommonCoincidencesPos =>
    if maxCommonCoincidences < commonCoincidences then maxCoincidencesLoop rest
      (position + 1) commonCoincidences position
    else maxCoincidencesLoop rest (position + 1) maxCommonCoincidences maxCommonCoincidencesPos

def pushLangs {α : Type} (maxCommonCoincidencesPos : UInt32) : List (α × Bytes) → UInt32 →
    List Bytes → List Bytes
  | [], _, langs => langs
  | dictionaryLang :: rest, position, langs =>
    pushLangs maxCommonCoincidencesPos rest (position + 1)
      (if position = maxCommonCoincidencesPos then langs ++ [dictionaryLang.2] else langs)

/-- The part that both functions share. -/
def pushDefinedLang (engine : IrsEngine) (documentLangCommonCoincidences : List UInt32)
    (langs : List Bytes) : List Bytes :=
  pushLangs (maxCoincidencesLoop documentLangCommonCoincidences 0 0 0) engine.langKeyWords 0 langs

/-! ### The two functions -/

def irsEngineDefineDocumentsLanguages (engine : IrsEngine) (documents : List Bytes) :
    Except Fault (List Bytes) :=
  documents.foldlM
    (fun langs document => do
      let terms := irsStorageGetDocumentShortTerms document
      let documentLangCommonCoincidences ← engine.langKeyWords.mapM fun dictionaryLang =>
        termCoincidences dictionaryLang.1 terms 0
      .ok (pushDefinedLang engine documentLangCommonCoincidences langs))
    []

/-- The names come from the list of the key words here too. -/
def irsEngineDefineDocumentsLanguagesByAlphabets (engine : IrsEngine) (documents : List Bytes) :
    List Bytes :=
  documents.foldl
    (fun langs document =>
      let docLength := irsStrLen document
      let documentLangCommonCoincidences :=
        engine.langAlphabets.map fun alphabetLang =>
          alphabetCoincidences (document.take docLength) alphabetLang.1 0
      pushDefinedLang engine documentLangCommonCoincidences langs)
    []

/-! ### The running maximum -/

theorem ofNat_succ (n : Nat) : UInt32.ofNat n + 1 = UInt32.ofNat (n + 1) := by
  rw [UInt32.ofNat_add]
  rfl

theorem maxCoincidencesLoop_eq (counts : List UInt32) (position : Nat) (best : UInt32)
    (bestPosition : Nat) :
    maxCoincidencesLoop counts (UInt32.ofNat position) best (UInt32.ofNat bestPosition) =
      UInt32.ofNat (runningPlace (counts.map UInt32.toNat) position best.toNat bestPosition) := by
  induction counts generalizing position best bestPosition with
  | nil => rfl
  | cons count counts ih =>
    rw [maxCoincidencesLoop, List.map_cons, runningPlace, ofNat_succ]
    by_cases greater : best < count
    · rw [if_pos greater, if_pos (UInt32.lt_iff_toNat_lt.mp greater), ih]
    · rw [if_neg greater, if_neg (UInt32.lt_iff_toNat_lt.not.mp greater), ih]

/-- The position is that of the first maximum, in 32 bits. -/
theorem maxCoincidencesLoop_of_first {counts : List UInt32} {place : Nat}
    (first : IsFirstMaximum (counts.map UInt32.toNat) place) :
    maxCoincidencesLoop counts 0 0 0 = UInt32.ofNat place := by
  have nonempty : counts.map UInt32.toNat ≠ [] := by
    intro empty
    rw [empty] at first
    cases first.lt_length
  have same : place = runningPlace (counts.map UInt32.toNat) 0 0 0 :=
    (isFirstMaximum_iff nonempty place).mp first
  rw [same]
  exact maxCoincidencesLoop_eq counts 0 0 0

/-! ### The names at a position -/

section
variable {α : Type} {target : UInt32}

theorem pushLangs_eq_append (pairs : List (α × Bytes)) (position : UInt32) (langs : List Bytes) :
    pushLangs target pairs position langs = langs ++ pushLangs target pairs position [] := by
  induction pairs generalizing position langs with
  | nil => exact (List.append_nil langs).symm
  | cons pair pairs ih =>
    rw [pushLangs, ih, pushLangs, ih (position + 1) (if position = target then _ else _)]
    split_ifs
    · rw [List.append_assoc, List.nil_append]
    · rfl

theorem pushLangs_append (pairs more : List (α × Bytes)) (position : Nat) (target : UInt32) :
    pushLangs target (pairs ++ more) (UInt32.ofNat position) [] =
      pushLangs target pairs (UInt32.ofNat position) [] ++ pushLangs target more
        (UInt32.ofNat (position + pairs.length)) [] := by
  induction pairs generalizing position with
  | nil => rfl
  | cons pair pairs ih =>
    rw [List.cons_append, pushLangs, pushLangs_eq_append, pushLangs, pushLangs_eq_append pairs,
      ofNat_succ, ih, ← List.append_assoc, List.length_cons, Nat.add_right_comm,
      Nat.add_assoc position]

theorem pushLangs_single (pair : α × Bytes) (position : UInt32) :
    pushLangs target [pair] position [] = if position = target then [pair.2] else [] := by
  rw [pushLangs, pushLangs, List.nil_append]

theorem ofNat_eq_iff {position : Nat} : UInt32.ofNat position = target ↔
    position % 2 ^ 32 = target.toNat := by
  rw [← UInt32.toNat_inj, UInt32.toNat_ofNat']

theorem pushLangs_eq_nil {pairs : List (α × Bytes)} {position : Nat} :
    pushLangs target pairs (UInt32.ofNat position) [] = [] ↔
      ∀ i < pairs.length, (position + i) % 2 ^ 32 ≠ target.toNat := by
  induction pairs generalizing position with
  | nil => exact iff_of_true rfl nofun
  | cons pair pairs ih =>
    have here : (if UInt32.ofNat position = target then [] ++ [pair.2] else []) = [] ↔
        (position + 0) % 2 ^ 32 ≠ target.toNat := by
      rw [Nat.add_zero, Ne, ← ofNat_eq_iff]
      split_ifs with same <;> simp [same]
    rw [pushLangs, pushLangs_eq_append, List.append_eq_nil_iff, here, ofNat_succ, ih,
      List.length_cons, Nat.forall_lt_succ_left]
    simp only [Nat.add_assoc, Nat.add_comm 1]

/-- A list that is longer than the position has the name there, and what comes round to the same
position. -/
theorem pushLangs_of_lt {pairs : List (α × Bytes)} (inside : target.toNat < pairs.length) :
    pushLangs target pairs 0 [] =
      pairs[target.toNat].2 :: pushLangs target (pairs.drop (target.toNat + 1))
        (UInt32.ofNat (target.toNat + 1)) [] := by
  have bound := target.toNat_lt
  have before : pushLangs target (pairs.take target.toNat) (UInt32.ofNat 0) [] = [] := by
    rw [pushLangs_eq_nil]
    intro i first
    rw [List.length_take] at first
    omega
  have here : UInt32.ofNat (0 + target.toNat) = target := by rw [Nat.zero_add, UInt32.ofNat_toNat]
  have split : pairs.take target.toNat ++ ([pairs[target.toNat]] ++ pairs.drop (target.toNat + 1)) =
      pairs := by
    rw [List.singleton_append, ← List.drop_eq_getElem_cons inside, List.take_append_drop]
  have whole := pushLangs_append (pairs.take target.toNat)
    ([pairs[target.toNat]] ++ pairs.drop (target.toNat + 1)) 0 target
  rw [split, before, List.length_take_of_le (Nat.le_of_lt inside), pushLangs_append,
    pushLangs_single, if_pos here] at whole
  exact whole.trans
    (by rw [Nat.zero_add, List.length_singleton, List.nil_append, List.singleton_append])

/-- Nothing behind the position comes round to it exactly when the list is not longer than one
turn. -/
theorem pushLangs_drop_eq_nil {pairs : List (α × Bytes)} :
    pushLangs target (pairs.drop (target.toNat + 1)) (UInt32.ofNat (target.toNat + 1)) [] = [] ↔
      pairs.length ≤ target.toNat + 2 ^ 32 := by
  have bound := target.toNat_lt
  rw [pushLangs_eq_nil, List.length_drop]
  constructor
  · intro elsewhere
    by_contra long
    exact elsewhere (2 ^ 32 - 1) (by omega) (by omega)
  · intro short i later
    omega

theorem pushLangs_of_le {pairs : List (α × Bytes)} (outside : pairs.length ≤ target.toNat) :
    pushLangs target pairs 0 [] = [] := by
  have bound := target.toNat_lt
  show pushLangs target pairs (UInt32.ofNat 0) [] = []
  rw [pushLangs_eq_nil]
  intro i before
  omega

theorem length_pushLangs_le {pairs : List (α × Bytes)} (short : pairs.length ≤ 2 ^ 32) :
    (pushLangs target pairs 0 []).length ≤ 1 := by
  by_cases inside : target.toNat < pairs.length
  · rw [pushLangs_of_lt inside, pushLangs_drop_eq_nil.mpr (by omega)]
    exact Nat.le_refl 1
  · rw [pushLangs_of_le (by omega)]
    exact Nat.zero_le 1

theorem one_le_length_pushLangs {pairs : List (α × Bytes)} (long : 2 ^ 32 ≤ pairs.length) :
    1 ≤ (pushLangs target pairs 0 []).length := by
  rw [pushLangs_of_lt (target.toNat_lt.trans_le long), List.length_cons]
  exact Nat.le_add_left 1 _

/-- `lang` is the name at the position `place` in 32 bits, and no position comes round to it. -/
def NamedAt (pairs : List (α × Bytes)) (place : Nat) (lang : Bytes) : Prop :=
  (pairs.map Prod.snd)[place % 2 ^ 32]? = some lang ∧ pairs.length ≤ place % 2 ^ 32 + 2 ^ 32

theorem pushLangs_eq_single {pairs : List (α × Bytes)} {place : Nat} {lang : Bytes} :
    pushLangs (UInt32.ofNat place) pairs 0 [] = [lang] ↔ NamedAt pairs place lang := by
  have number : (UInt32.ofNat place).toNat = place % 2 ^ 32 := UInt32.toNat_ofNat'
  unfold NamedAt
  rw [← number, List.getElem?_map]
  generalize UInt32.ofNat place = target
  by_cases inside : target.toNat < pairs.length
  · rw [pushLangs_of_lt inside, List.cons.injEq, pushLangs_drop_eq_nil,
      List.getElem?_eq_getElem inside, Option.map_some, Option.some.injEq]
  · rw [pushLangs_of_le (by omega), List.getElem?_eq_none (by omega)]
    simp

end

/-! ### The language of one document -/

theorem pushDefinedLang_eq_single {engine : IrsEngine} {counts : List UInt32} {place : Nat}
    {lang : Bytes} (first : IsFirstMaximum (counts.map UInt32.toNat) place) :
    pushDefinedLang engine counts [] = [lang] ↔ NamedAt engine.langKeyWords place lang := by
  rw [pushDefinedLang, maxCoincidencesLoop_of_first first, pushLangs_eq_single]

theorem foldl_pushDefinedLang {ι : Type} (engine : IrsEngine) (counts : ι → List UInt32)
    (items : List ι) (langs : List Bytes) :
    items.foldl (fun langs item => pushDefinedLang engine (counts item) langs) langs =
      langs ++ items.flatMap fun item => pushDefinedLang engine (counts item) [] := by
  induction items generalizing langs with
  | nil => exact (List.append_nil langs).symm
  | cons item items ih =>
    rw [List.foldl_cons, ih, List.flatMap_cons, ← List.append_assoc]
    congr 1
    exact pushLangs_eq_append _ _ _

end IrsMachine
