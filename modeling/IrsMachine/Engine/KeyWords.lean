import IrsMachine.Dictionary.Lookup
import IrsMachine.Engine.Languages
import IrsMachine.Storage.Terms

/-!
# The language by the key words

Here the counts and the names come from one list, so the name at the position of the largest count
is the right one, as long as the positions fit into 32 bits.
-/

namespace IrsMachine
open Except FirstMaximum

def accepts (dictionary : IrsDictionary Unit) (term : Bytes) : Bool :=
  match irsDictionaryIsIn dictionary term with
  | .ok isIn => isIn
  | .error _ => false

def LooksUp (dictionary : IrsDictionary Unit) (terms : List Bytes) : Prop :=
  ∀ term ∈ terms, ∃ isIn, irsDictionaryIsIn dictionary term = .ok isIn

theorem termCoincidences_ok {dictionary : IrsDictionary Unit} {terms : List Bytes}
    {start count : UInt32} :
    termCoincidences dictionary terms start = .ok count ↔
      LooksUp dictionary terms ∧ count =
        start + UInt32.ofNat (terms.countP (accepts dictionary)) := by
  unfold LooksUp
  induction terms generalizing start with
  | nil =>
    have unchanged : start + UInt32.ofNat 0 = start := UInt32.add_zero start
    rw [termCoincidences, List.countP_nil, unchanged, Except.ok.injEq, eq_comm]
    exact (and_iff_right nofun).symm
  | cons term terms ih =>
    rw [termCoincidences, List.forall_mem_cons, List.countP_cons]
    cases found : irsDictionaryIsIn dictionary term with
    | error fault =>
      refine iff_of_false nofun ?_
      rintro ⟨⟨⟨_, here⟩, -⟩, -⟩
      cases here
    | ok isIn =>
      have accepted : accepts dictionary term = isIn := by rw [accepts, found]
      rw [ok_bind, ih, accepted]
      cases isIn
      · simp
      · simp only [if_true, ← ofNat_succ, UInt32.add_comm (UInt32.ofNat _), UInt32.add_assoc]
        simp

/-! ### The runs -/

def keyWordCounts (engine : IrsEngine) (document : Bytes) : List UInt32 :=
  engine.langKeyWords.map fun dictionaryLang =>
    UInt32.ofNat ((irsStorageGetDocumentShortTerms document).countP (accepts dictionaryLang.1))

def LooksUpAll (engine : IrsEngine) (document : Bytes) : Prop :=
  ∀ dictionaryLang ∈ engine.langKeyWords,
    LooksUp dictionaryLang.1 (irsStorageGetDocumentShortTerms document)

theorem documentsLanguages_ok {engine : IrsEngine} {documents langs : List Bytes} :
    irsEngineDefineDocumentsLanguages engine documents = .ok langs ↔
      (∀ document ∈ documents, LooksUpAll engine document) ∧
        langs = documents.flatMap fun document =>
          pushDefinedLang engine (keyWordCounts engine document) [] := by
  have fold := foldl_pushDefinedLang engine (keyWordCounts engine) documents []
  rw [List.nil_append] at fold
  rw [← fold]
  apply foldlM_ok_iff
  intro langs document after
  have counts : ∀ results, (engine.langKeyWords.mapM fun dictionaryLang =>
      termCoincidences dictionaryLang.1 (irsStorageGetDocumentShortTerms document) 0) =
        .ok results ↔
        LooksUpAll engine document ∧ results = keyWordCounts engine document := by
    intro results
    apply mapM_ok_iff
    intro dictionaryLang count
    rw [termCoincidences_ok, UInt32.zero_add]
  rw [bind_ok]
  constructor
  · intro ⟨results, run, last⟩
    obtain ⟨looksUp, rfl⟩ := (counts results).mp run
    cases last
    exact ⟨looksUp, rfl⟩
  · rintro ⟨looksUp, rfl⟩
    exact ⟨_, (counts _).mpr ⟨looksUp, rfl⟩, rfl⟩

/-! ### The name of the best dictionary -/

def acceptedTerms (engine : IrsEngine) (document : Bytes) : List Nat :=
  engine.langKeyWords.map fun dictionaryLang => (irsStorageGetDocumentShortTerms document).countP
    (accepts dictionaryLang.1)

/-- `lang` is the name of the first dictionary that accepts the most terms, which is the first one
when none accepts any. -/
def KeyWordLanguage (engine : IrsEngine) (document lang : Bytes) : Prop :=
  (∃ place, IsFirstMaximum (acceptedTerms engine document) place ∧
    (engine.langKeyWords.map Prod.snd)[place]? = some lang) ∧
    ((∀ count ∈ acceptedTerms engine document, count = 0) →
      (engine.langKeyWords.map Prod.snd).head? = some lang)

theorem map_keyWordCounts {engine : IrsEngine} {document : Bytes}
    (few : (irsStorageGetDocumentShortTerms document).length < 2 ^ 32) :
    (keyWordCounts engine document).map UInt32.toNat = acceptedTerms engine document := by
  rw [keyWordCounts, acceptedTerms, List.map_map]
  apply List.map_congr_left
  intro dictionaryLang _
  exact UInt32.toNat_ofNat_of_lt' (List.countP_le_length.trans_lt few)

theorem acceptedTerms_ne_nil {engine : IrsEngine} (nonempty : engine.langKeyWords ≠ [])
    (document : Bytes) : acceptedTerms engine document ≠ [] := by
  intro none
  exact nonempty (List.map_eq_nil_iff.mp none)

theorem documentLanguage {engine : IrsEngine} {document : Bytes}
    (nonempty : engine.langKeyWords ≠ []) (short : engine.langKeyWords.length ≤ 2 ^ 32)
    (few : (irsStorageGetDocumentShortTerms document).length < 2 ^ 32) :
    ∃ lang, pushDefinedLang engine (keyWordCounts engine document) [] = [lang] ∧
      KeyWordLanguage engine document lang := by
  have someCount := acceptedTerms_ne_nil nonempty document
  obtain ⟨place, first⟩ : ∃ place, IsFirstMaximum (acceptedTerms engine document) place :=
    ⟨_, isFirstMaximum_runningPlace someCount⟩
  have inside := first.lt_length
  rw [acceptedTerms, List.length_map] at inside
  have within : place < (engine.langKeyWords.map Prod.snd).length := by
    rw [List.length_map]; exact inside
  have name := List.getElem?_eq_getElem within
  refine ⟨_, ?_, ⟨place, first, name⟩, ?_⟩
  · rw [pushDefinedLang_eq_single (by rw [map_keyWordCounts few]; exact first), NamedAt,
      Nat.mod_eq_of_lt (by omega)]
    exact ⟨name, by omega⟩
  · intro none
    cases first.unique (isFirstMaximum_zero someCount none)
    rw [List.head?_eq_getElem?, name]

theorem documentsLanguages_firstMaximum (engine : IrsEngine) (documents : List Bytes)
    (nonempty : engine.langKeyWords ≠ []) (short : engine.langKeyWords.length ≤ 2 ^ 32)
    (few : ∀ document ∈ documents, (irsStorageGetDocumentShortTerms document).length < 2 ^ 32) :
    ((∃ langs, irsEngineDefineDocumentsLanguages engine documents = .ok langs) ↔
      ∀ document ∈ documents, LooksUpAll engine document) ∧
      ∀ langs, irsEngineDefineDocumentsLanguages engine documents = .ok langs →
        List.Forall₂ (KeyWordLanguage engine) documents langs := by
  simp only [documentsLanguages_ok]
  constructor
  · exact ⟨fun ⟨_, looksUp, _⟩ => looksUp, fun looksUp => ⟨_, looksUp, rfl⟩⟩
  · rintro _ ⟨-, rfl⟩
    exact forall₂_flatMap_of_single fun document member =>
      documentLanguage nonempty short (few document member)

/-- The dictionaries that the engine sets up can look up what has no byte `0x7F`. -/
theorem looksUpAll_of_kept {engine : IrsEngine} {document : Bytes} {ok : UInt8 → Prop}
    (noNul : ∀ ch, ok ch → ch ≠ 0)
    (kept : ∀ dictionaryLang ∈ engine.langKeyWords, Kept ok dictionaryLang.1)
    (bytes : ∀ ch ∈ document, ch ≠ 0x7F) : LooksUpAll engine document := by
  intro dictionaryLang member term inside
  obtain ⟨-, part⟩ := strtok_part (List.mem_filter.mp inside).1
  have admitted : ∀ ch ∈ term, Admitted ch := by
    intro ch here
    have there := part.subset here
    exact ⟨cString_noNul document ch there, bytes ch ((List.takeWhile_prefix _).subset there)⟩
  obtain ⟨list, -, isIn, -⟩ := get_spec (kept dictionaryLang member) noNul admitted
  exact ⟨list.isSome, isIn⟩

/-- Two terms of `le la the` are French, one is English. -/
theorem documentsLanguages_firstMaximum_le :
    ∃ english french, appendAll freshDictionary [(irsChars "the", ())] = .ok english ∧
      appendAll freshDictionary [(irsChars "la", ()), (irsChars "le", ())] = .ok french ∧
      irsEngineDefineDocumentsLanguages
        ⟨[(english, irsChars "English"), (french, irsChars "French")], []⟩
        [irsChars "le la the", irsChars "the"] = .ok [irsChars "French", irsChars "English"] ∧
      List.Forall₂ (KeyWordLanguage
        ⟨[(english, irsChars "English"), (french, irsChars "French")], []⟩)
        [irsChars "le la the", irsChars "the"] [irsChars "French", irsChars "English"] := by
  have facts : (appendAll freshDictionary [(irsChars "the", ())] >>= fun english =>
      appendAll freshDictionary [(irsChars "la", ()), (irsChars "le", ())] >>= fun french =>
        irsEngineDefineDocumentsLanguages
          ⟨[(english, irsChars "English"), (french, irsChars "French")], []⟩
          [irsChars "le la the", irsChars "the"]) =
            .ok [irsChars "French", irsChars "English"] := by decide +kernel
  obtain ⟨english, appended, facts⟩ := bind_ok.mp facts
  obtain ⟨french, appended', run⟩ := bind_ok.mp facts
  have right := (documentsLanguages_firstMaximum
    ⟨[(english, irsChars "English"), (french, irsChars "French")], []⟩
    [irsChars "le la the", irsChars "the"] (List.cons_ne_nil _ _) (by simp) (by decide +kernel)).2
  exact ⟨english, french, appended, appended', run, right _ run⟩

/-- With more languages than there are positions, a document without terms gets more than one
name. -/
theorem no_languages_of_many {engine : IrsEngine} (many : 2 ^ 32 < engine.langKeyWords.length) :
    ¬∃ langs, irsEngineDefineDocumentsLanguages engine [[]] = .ok langs ∧
      List.Forall₂ (KeyWordLanguage engine) [[]] langs := by
  intro ⟨langs, run, related⟩
  obtain ⟨-, same⟩ := documentsLanguages_ok.mp run
  have length := related.length_eq
  rw [same, List.flatMap_cons, List.flatMap_nil, List.append_nil, List.length_singleton, eq_comm,
    List.length_eq_one_iff] at length
  obtain ⟨lang, only⟩ := length
  have counts : (keyWordCounts engine []).map UInt32.toNat = acceptedTerms engine [] :=
    map_keyWordCounts (by decide)
  have nonempty : engine.langKeyWords ≠ [] := List.ne_nil_of_length_pos (by omega)
  have first : IsFirstMaximum (acceptedTerms engine []) 0 := by
    apply isFirstMaximum_zero (acceptedTerms_ne_nil nonempty [])
    intro count member
    obtain ⟨dictionaryLang, -, here⟩ := List.mem_map.mp member
    exact here.symm
  have long := ((pushDefinedLang_eq_single (counts ▸ first)).mp only).2
  omega

/-- One language more than there are positions. -/
theorem keyWordLanguage_fails_wrap :
    ¬∃ langs, irsEngineDefineDocumentsLanguages
      ⟨List.replicate 4294967297 (freshDictionary, irsChars "English"), []⟩ [[]] = .ok langs ∧
      List.Forall₂ (KeyWordLanguage
        ⟨List.replicate 4294967297 (freshDictionary, irsChars "English"), []⟩) [[]] langs := by
  apply no_languages_of_many
  rw [List.length_replicate]
  decide

end IrsMachine
