import IrsMachine.Dictionary.Run
import IrsMachine.Engine.Languages
import Mathlib.Algebra.GroupWithZero.Nat

/-!
# The language by the alphabets

The best alphabet is found by its position in the list of the alphabets, and named by the list of
the key words. The two lists are read from two directories, so the name is the right one only where
they agree.
-/

namespace IrsMachine
open FirstMaximum

def letterMatches (document : Bytes) (letters : List Bytes) : Nat :=
  (letters.map fun letter => document.count (firstCh letter)).sum

theorem letterCoincidences_eq (alphabetCh : UInt8) (document : Bytes) (start : UInt32) :
    letterCoincidences alphabetCh document start =
      start + UInt32.ofNat (document.count alphabetCh) := by
  induction document generalizing start with
  | nil => exact (UInt32.add_zero start).symm
  | cons ch rest ih =>
    rw [letterCoincidences, ih, List.count_cons]
    by_cases same : ch = alphabetCh
    · rw [if_pos same, if_pos (beq_iff_eq.mpr same), ← ofNat_succ, UInt32.add_comm (UInt32.ofNat _),
        UInt32.add_assoc]
    · rw [if_neg same, if_neg (beq_iff_eq.not.mpr same), Nat.add_zero]

theorem alphabetCoincidences_eq (document : Bytes) (letters : List Bytes) (start : UInt32) :
    alphabetCoincidences document letters start =
      start + UInt32.ofNat (letterMatches document letters) := by
  induction letters generalizing start with
  | nil => exact (UInt32.add_zero start).symm
  | cons letter letters ih =>
    have first : letterMatches document (letter :: letters) =
        document.count (firstCh letter) + letterMatches document letters := List.sum_cons
    rw [alphabetCoincidences, ih, letterCoincidences_eq, first, UInt32.ofNat_add, UInt32.add_assoc]

/-- The count is exact modulo `2 ^ 32`. -/
theorem toNat_alphabetCoincidences (document : Bytes) (letters : List Bytes) :
    (alphabetCoincidences document letters 0).toNat = letterMatches document letters % 2 ^ 32 := by
  rw [alphabetCoincidences_eq, UInt32.zero_add, UInt32.toNat_ofNat']

/-! ### The name of the best alphabet -/

def alphabetCounts (engine : IrsEngine) (document : Bytes) : List UInt32 :=
  engine.langAlphabets.map fun alphabetLang =>
    alphabetCoincidences (document.take (irsStrLen document)) alphabetLang.1 0

/-- `lang` is the name of the first alphabet with the largest count. -/
def AlphabetLanguage (engine : IrsEngine) (document lang : Bytes) : Prop :=
  ∃ place, IsFirstMaximum ((alphabetCounts engine document).map UInt32.toNat) place ∧
    (engine.langAlphabets.map Prod.snd)[place]? = some lang

def alphabetMatches (engine : IrsEngine) (document : Bytes) : List Nat :=
  engine.langAlphabets.map fun alphabetLang =>
    letterMatches (cString document) alphabetLang.1 % 2 ^ 32

theorem map_alphabetCounts (engine : IrsEngine) (document : Bytes) :
    (alphabetCounts engine document).map UInt32.toNat = alphabetMatches engine document := by
  rw [alphabetCounts, alphabetMatches, List.map_map, take_irsStrLen]
  exact List.map_congr_left fun alphabetLang _ => toNat_alphabetCoincidences _ _

theorem documentsLanguagesByAlphabets_eq (engine : IrsEngine) (documents : List Bytes) :
    irsEngineDefineDocumentsLanguagesByAlphabets engine documents =
      documents.flatMap fun document => pushDefinedLang engine (alphabetCounts engine document)
        [] := by
  have run := foldl_pushDefinedLang engine (alphabetCounts engine) documents []
  rwa [List.nil_append] at run

/-- Where the two lists have the same name for the best alphabet of a document, its language is this
name. -/
def NamesAgree (engine : IrsEngine) (document : Bytes) : Prop :=
  ∃ place lang, IsFirstMaximum (alphabetMatches engine document) place ∧
    (engine.langAlphabets.map Prod.snd)[place]? = some lang ∧
    NamedAt engine.langKeyWords place lang

theorem definedLang_iff (engine : IrsEngine) (document : Bytes) :
    (∃ lang, pushDefinedLang engine (alphabetCounts engine document) [] = [lang] ∧
      AlphabetLanguage engine document lang) ↔
      NamesAgree engine document := by
  unfold AlphabetLanguage NamesAgree
  rw [← map_alphabetCounts]
  constructor
  · intro ⟨lang, single, place, first, name⟩
    exact ⟨place, lang, first, name, (pushDefinedLang_eq_single first).mp single⟩
  · intro ⟨place, lang, first, name, named⟩
    exact ⟨lang, (pushDefinedLang_eq_single first).mpr named, place, first, name⟩

theorem forall₂_alphabetLanguage_iff (engine : IrsEngine) (documents : List Bytes) :
    List.Forall₂ (AlphabetLanguage engine) documents
      (irsEngineDefineDocumentsLanguagesByAlphabets engine documents) ↔
      ∀ document ∈ documents, NamesAgree engine document := by
  rw [documentsLanguagesByAlphabets_eq, forall₂_flatMap_iff]
  · exact forall₂_congr fun document _ => definedLang_iff engine document
  · rcases Nat.le_total engine.langKeyWords.length (2 ^ 32) with short | long
    · exact .inl fun document => length_pushLangs_le short
    · exact .inr fun document => one_le_length_pushLangs long

/-! ### Every content of the alphabets -/

def oneLetter (names : List Bytes) (place : Nat) : List (List Bytes × Bytes) :=
  names.mapIdx fun i name => (if i = place then [[97]] else [], name)

theorem map_snd_oneLetter (names : List Bytes) (place : Nat) :
    (oneLetter names place).map Prod.snd = names := by
  apply List.ext_getElem?
  intro i
  rw [oneLetter, List.getElem?_map, List.getElem?_mapIdx, Option.map_map]
  exact Option.map_id'

/-- A document can make each alphabet the best one. -/
theorem isFirstMaximum_oneLetter {keyWords : List (IrsDictionary Unit × Bytes)} {names : List Bytes}
    {place : Nat} (inside : place < names.length) :
    IsFirstMaximum (alphabetMatches
      { langKeyWords := keyWords, langAlphabets := oneLetter names place } [97]) place := by
  have counts : alphabetMatches
      { langKeyWords := keyWords, langAlphabets := oneLetter names place } [97] =
      names.mapIdx fun i _ => if i = place then 1 else 0 := by
    apply List.ext_getElem?
    intro i
    rw [alphabetMatches, oneLetter, List.getElem?_map, List.getElem?_mapIdx, List.getElem?_mapIdx,
      Option.map_map]
    congr 1
    funext name
    by_cases same : i = place
    · rw [Function.comp_apply, if_pos same, if_pos same]
      rfl
    · rw [Function.comp_apply, if_neg same, if_neg same]
      rfl
  rw [counts]
  refine ⟨1, ?_, ?_, ?_⟩
  · rw [List.getElem?_mapIdx, List.getElem?_eq_getElem inside, Option.map_some, if_pos rfl]
  · intro value member
    obtain ⟨i, _, rfl⟩ := List.mem_mapIdx.mp member
    split_ifs <;> omega
  · intro value member
    obtain ⟨i, before, here⟩ := List.mem_take_iff_getElem.mp member
    rw [List.getElem_mapIdx, if_neg (by omega)] at here
    omega

theorem documentsLanguagesByAlphabets_iff (engine : IrsEngine)
    (nonempty : engine.langAlphabets ≠ []) :
    (∀ documents, List.Forall₂ (AlphabetLanguage engine) documents
      (irsEngineDefineDocumentsLanguagesByAlphabets engine documents) ↔
      ∀ document ∈ documents, NamesAgree engine document) ∧
    ((∀ alphabets, alphabets.map Prod.snd = engine.langAlphabets.map Prod.snd → ∀ documents,
      List.Forall₂ (AlphabetLanguage { engine with langAlphabets := alphabets }) documents
        (irsEngineDefineDocumentsLanguagesByAlphabets
          { engine with langAlphabets := alphabets } documents)) ↔
      ∀ place lang, (engine.langAlphabets.map Prod.snd)[place]? = some lang →
      NamedAt engine.langKeyWords place lang) := by
  refine ⟨forall₂_alphabetLanguage_iff engine, ?_⟩
  simp only [forall₂_alphabetLanguage_iff]
  constructor
  · intro all place lang name
    have inside := (List.getElem?_eq_some_iff.mp name).1
    obtain ⟨place', lang', first, name', named⟩ :=
      all (oneLetter (engine.langAlphabets.map Prod.snd) place) (map_snd_oneLetter _ _) [[97]] [97]
        (List.mem_singleton.mpr rfl)
    cases first.unique (isFirstMaximum_oneLetter inside)
    rw [map_snd_oneLetter] at name'
    cases name.symm.trans name'
    exact named
  · intro agree alphabets names documents document _
    have lengths := congrArg List.length names
    rw [List.length_map, List.length_map] at lengths
    have positive := List.length_pos_iff.mpr nonempty
    have counted : (alphabetMatches { engine with langAlphabets := alphabets } document).length =
      alphabets.length := List.length_map _
    have someCount : alphabetMatches { engine with langAlphabets := alphabets } document ≠ [] :=
      List.ne_nil_of_length_pos (by omega)
    obtain ⟨place, first⟩ : ∃ place,
      IsFirstMaximum (alphabetMatches { engine with langAlphabets := alphabets } document) place :=
      ⟨_, isFirstMaximum_runningPlace someCount⟩
    have inside := first.lt_length
    have within : place < (alphabets.map Prod.snd).length := by rw [List.length_map]; omega
    have name := List.getElem?_eq_getElem within
    exact ⟨place, _, first, name, agree _ _ (by rw [← names, name])⟩

/-- Both lists hold English and Italian, in this order. -/
theorem documentsLanguagesByAlphabets_iff_english_italian :
    List.Forall₂
      (AlphabetLanguage
        ⟨[(freshDictionary, irsChars "English"), (freshDictionary, irsChars "Italian")],
          [([irsChars "a"], irsChars "English"), ([irsChars "o"], irsChars "Italian")]⟩)
      [irsChars "o", irsChars "a"]
      (irsEngineDefineDocumentsLanguagesByAlphabets
        ⟨[(freshDictionary, irsChars "English"), (freshDictionary, irsChars "Italian")],
          [([irsChars "a"], irsChars "English"), ([irsChars "o"], irsChars "Italian")]⟩
        [irsChars "o", irsChars "a"]) := by
  refine ((documentsLanguagesByAlphabets_iff _ (List.cons_ne_nil _ _)).1 _).mpr ?_
  intro document member
  rcases List.mem_pair.mp member with rfl | rfl
  · exact ⟨1, irsChars "Italian", ⟨1, rfl, by decide, by decide⟩, rfl, rfl, by decide⟩
  · exact ⟨0, irsChars "English", ⟨1, rfl, by decide, by decide⟩, rfl, rfl, by decide⟩

/-- Italian has no key words here, so the name of the Italian document is `German`. -/
theorem alphabetLanguage_fails_italian :
    ¬List.Forall₂
      (AlphabetLanguage
        ⟨[(freshDictionary, irsChars "English"), (freshDictionary, irsChars "German"),
          (freshDictionary, irsChars "Italian")],
          [([irsChars "a"], irsChars "English"), ([irsChars "o"], irsChars "Italian")]⟩)
      [irsChars "o"]
      (irsEngineDefineDocumentsLanguagesByAlphabets
        ⟨[(freshDictionary, irsChars "English"), (freshDictionary, irsChars "German"),
          (freshDictionary, irsChars "Italian")],
          [([irsChars "a"], irsChars "English"), ([irsChars "o"], irsChars "Italian")]⟩
        [irsChars "o"]) := by
  rw [forall₂_alphabetLanguage_iff]
  intro all
  obtain ⟨place, lang, first, name, named, -⟩ := all _ (List.mem_singleton.mpr rfl)
  have second : IsFirstMaximum [0, 1] 1 := ⟨1, rfl, by decide, by decide⟩
  cases first.unique second
  cases name
  revert named
  decide

end IrsMachine
