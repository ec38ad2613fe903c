import IrsMachine.Dictionary.Retrieval
import IrsMachine.Engine.KeyWords
import IrsMachine.Engine.LanguageFiles
import IrsMachine.FileSystem.Creation
import IrsMachine.FileSystem.Removal

/-!
# The engine from its directories

Every file in the first directory of the engine is a language with its key words, every file in the
second one with its letters. The language of a document is a matter of the lines of these files
alone (`irsEngineInitialize_languages`).
-/

namespace IrsMachine
open Except FirstMaximum Multimap NamedTrees Tree Words

inductive IrsEngineStatus where
  | ok | no | wrongPath | writeError | readError
  deriving DecidableEq, Repr

/-- The size given to `g_snprintf` is enough. -/
def irsInitLangFilePath (path postfix' : Bytes) : Bytes := cString path ++ slash :: cString postfix'

/-- The file behind a channel. Without one, no line is ever assigned. -/
def langFile (fs : FsNode) (path : Bytes) : Except Fault Bytes :=
  match fs.find (pathNames path) with
  | some (leaf file) => .ok file
  | _ => .error .unassigned

def readLangDirectory {Entries : Type} (readFile : Bytes → Except Fault (Entries × Bytes))
    (fs : FsNode) (path : Bytes) :
    Except Fault (List (Entries × Bytes)) :=
  (gDirReadNames fs path).mapM fun filename => do
    let file ← langFile fs (irsInitLangFilePath path filename)
    readFile file

def irsEngineReadLangWordDictionaries (fs : FsNode) (path : Bytes) :
    Except Fault (List (IrsDictionary Unit × Bytes)) :=
  readLangDirectory
    (irsEngineReadLangWordsFile (irsDictionaryInitialize irsDictionaryChildrenSize irsCharToIrsInt))
    fs path

def irsEngineReadLangAphabetDictionaries (fs : FsNode) (path : Bytes) :
    Except Fault (List (List Bytes × Bytes)) :=
  readLangDirectory (irsEngineReadLangAlphabetsFile []) fs path

/-- Without `IRS_ENGINE_OK` there is no engine. -/
def irsEngineInitialize (fs : FsNode) (langKeyWordsPath langAlphabetsPath : Bytes) :
    Except Fault ((IrsEngineStatus × Option IrsEngine) × FsNode) :=
  match findOrMakeDirectory fs langKeyWordsPath with
  | (false, fs) => .ok ((.wrongPath, none), fs)
  | (true, fs) =>
    match findOrMakeDirectory fs langAlphabetsPath with
    | (false, fs) => .ok ((.wrongPath, none), fs)
    | (true, fs) => do
      let langKeyWords ← irsEngineReadLangWordDictionaries fs langKeyWordsPath
      let langAlphabets ← irsEngineReadLangAphabetDictionaries fs langAlphabetsPath
      .ok ((.ok, some { langKeyWords, langAlphabets }), fs)

/-! ### One file -/

def langLines (file : Bytes) : List Bytes := (gIoChannelReadLines file).map List.dropLast

def langName (file : Bytes) : Bytes := (langLines file).headD []

/-- A file that a dictionary of its lines can be made of. -/
structure Legible (file : Bytes) : Prop where
  nonempty : file ≠ []
  bytes : ∀ line ∈ langLines file, ∀ ch ∈ line, Admitted ch
  short : ∀ line ∈ langLines file, line.length < 2 ^ 32
  unmixed : Unmixed SameFold (langLines file)

theorem readLangFile_lines {Entries : Type} (append : Entries → Bytes → Nat → Except Fault Entries)
    (entries : Entries) {file : Bytes} (nonempty : file ≠ []) :
    readLangFile append entries (gIoChannelReadLines file) =
      appendLines append entries (langLines file) >>= fun entries =>
        .ok (entries, langName file) := by
  obtain ⟨word, words, split, whole⟩ := readLangFile_eq append entries nonempty
  rw [whole, langName, langLines, split]
  rfl

theorem appendLangWord_eq {dictionary : IrsDictionary Unit} {line : Bytes}
    (noNul : ∀ ch ∈ line, ch ≠ 0) :
    appendLangWord dictionary line line.length = appendKey dictionary line () := by
  rw [appendLangWord, appendKey, irsStrLen_of_noNul noNul]

theorem appendLines_appendAll {dictionary : IrsDictionary Unit} {lines : List Bytes}
    (noNul : ∀ line ∈ lines, ∀ ch ∈ line, ch ≠ 0) :
    appendLines appendLangWord dictionary lines =
      appendAll dictionary (lines.map fun line => (line, ())) := by
  induction lines generalizing dictionary with
  | nil => rfl
  | cons line lines ih =>
    obtain ⟨here, later⟩ := List.forall_mem_cons.mp noNul
    rw [appendLines, List.foldlM_cons, appendLangWord_eq here, List.map_cons, appendAll,
      List.foldlM_cons]
    exact congrArg _ (funext fun dictionary => ih later)

/-- The words of the dictionary are the lines. -/
theorem Legible.words {file : Bytes} (legible : Legible file) :
    ∃ dictionary, irsEngineReadLangWordsFile freshDictionary file =
      .ok (dictionary, langName file) ∧ Kept Admitted dictionary ∧
      keys irsCharToIrsInt dictionary.root = {word | word ∈ langLines file} := by
  have firsts : ((langLines file).map fun line => (line, ())).map Prod.fst = langLines file := by
    rw [List.map_map]
    exact List.map_id _
  have admitted : ∀ pair ∈ (langLines file).map fun line => (line, ()), ∀ ch ∈ pair.1,
      Admitted ch := by
    intro pair member
    obtain ⟨line, inside, rfl⟩ := List.mem_map.mp member
    exact legible.bytes line inside
  have short : ∀ pair ∈ (langLines file).map fun line => (line, ()), pair.1.length < 2 ^ 32 := by
    intro pair member
    obtain ⟨line, inside, rfl⟩ := List.mem_map.mp member
    exact legible.short line inside
  obtain ⟨dictionary, run, kept⟩ := appendAll_total kept_freshDictionary admitted
  have stored := appendAll_contents
    (fun pair member ch inside => (admitted pair member ch inside).1) short
    (by rw [firsts]; exact legible.unmixed) run
  refine ⟨dictionary, ?_, kept, ?_⟩
  · rw [irsEngineReadLangWordsFile, readLangFile_lines _ _ legible.nonempty,
      appendLines_appendAll fun line member ch inside =>
      (legible.bytes line member ch inside).1, run, ok_bind]
  · ext word
    rw [keys, stored, Set.mem_ofPred_eq, ofPairs_ne_nil, firsts, Set.mem_ofPred_eq]

/-- A term that a lookup among these words takes for one of them. -/
def Recognized (words : List Bytes) (term : Bytes) : Prop :=
  ∃ word ∈ words, Passes {k | k ∈ words} word term

open Classical in
noncomputable def recognizedTerms (document file : Bytes) : Nat :=
  (irsStorageGetDocumentShortTerms document).countP fun term =>
    decide (Recognized (langLines file) term)

theorem shortTerm_admitted {document term : Bytes} (noDelete : ∀ ch ∈ document, ch ≠ 0x7F)
    (member : term ∈ irsStorageGetDocumentShortTerms document) :
    (∀ ch ∈ term, Admitted ch) ∧ term.length < 2 ^ 32 := by
  obtain ⟨isTerm, short⟩ := List.mem_filter.mp member
  obtain ⟨-, part⟩ := strtok_part isTerm
  have admitted : ∀ ch ∈ term, Admitted ch := by
    intro ch here
    have there := part.subset here
    exact ⟨cString_noNul document ch there, noDelete ch ((List.takeWhile_prefix _).subset there)⟩
  have length := of_decide_eq_true short
  rw [irsStrLen_of_noNul fun ch here => (admitted ch here).1] at length
  exact ⟨admitted, by omega⟩

open Classical in
theorem accepts_recognized {dictionary : IrsDictionary Unit} {words : List Bytes} {term : Bytes}
    (kept : Kept Admitted dictionary)
    (same : keys irsCharToIrsInt dictionary.root = {word | word ∈ words})
    (admitted : ∀ ch ∈ term, Admitted ch) (short : term.length < 2 ^ 32) :
    accepts dictionary term = decide (Recognized words term) := by
  obtain ⟨list, -, isIn, spec⟩ := get_spec kept (fun ch => And.left) admitted
  rw [accepts, isIn, Bool.eq_iff_iff, decide_eq_true_eq, Option.isSome_iff_exists]
  simp only [spec]
  unfold Recognized
  constructor
  · intro found
    obtain ⟨values, -, word, ⟨rfl, present⟩, passes⟩ := found
    rw [same] at passes
    have member : word ∈ keys irsCharToIrsInt dictionary.root := mem_keys.mpr present
    rw [same] at member
    exact ⟨word, member, passes⟩
  · intro found
    obtain ⟨word, member, passes⟩ := found
    have present : word ∈ keys irsCharToIrsInt dictionary.root := by rw [same]; exact member
    exact ⟨_, short, word, ⟨rfl, mem_keys.mp present⟩, by rw [same]; exact passes⟩

/-! ### The directories -/

structure HasFiles (fs : FsNode) (path : Bytes) (files : List (Bytes × Bytes)) : Prop where
  noNul : 0 ∉ path
  here : fs.find (pathNames path) = some (branch (files.map fun file => (file.1, leaf file.2)))
  names : ∀ file ∈ files, EntryName file.1
  different : (files.map Prod.fst).Nodup

variable {fs : FsNode} {path : Bytes} {files : List (Bytes × Bytes)}

theorem HasFiles.isdir (has : HasFiles fs path files) : irsFsIsdir fs path = true :=
  irsFsIsdir_iff.mpr ⟨_, has.here⟩

theorem HasFiles.file (has : HasFiles fs path files) {file : Bytes × Bytes}
    (member : file ∈ files) :
    langFile fs (irsInitLangFilePath path file.1) = .ok file.2 := by
  have good := has.names file member
  have different :
      ((files.map fun file => (file.1, (leaf file.2 : FsNode))).map Prod.fst).Nodup := by
    rw [List.map_map]
    exact has.different
  have entry := find_entry different (List.mem_map_of_mem member)
  have found : fs.find (pathNames path ++ [file.1]) = some (leaf file.2) := by
    rw [find_append, has.here, Option.bind_some, entry]
  rw [langFile, irsInitLangFilePath, cString_of_zero_notMem has.noNul,
    cString_of_zero_notMem good.2.1, pathNames_slash has.noNul good, found]

theorem HasFiles.read {Entries : Type} {readFile : Bytes → Except Fault (Entries × Bytes)}
    (has : HasFiles fs path files) :
    readLangDirectory readFile fs path = files.mapM fun file => readFile file.2 := by
  rw [readLangDirectory, gDirReadNames, has.here]
  dsimp only
  rw [List.map_map, List.mapM_map]
  apply mapM_congr
  intro file member
  show (langFile fs (irsInitLangFilePath path file.1) >>= readFile) = _
  rw [has.file member, ok_bind]

/-! ### The languages of documents -/

/-- `lang` is the name of the first of the files that has the most short terms of the document. -/
def FileLanguage (files : List (Bytes × Bytes)) (document lang : Bytes) : Prop :=
  ∃ place, IsFirstMaximum (files.map fun file => recognizedTerms document file.2) place ∧
    (files.map fun file => langName file.2)[place]? = some lang

structure MadeFrom (file : Bytes × Bytes) (pair : IrsDictionary Unit × Bytes) : Prop where
  kept : Kept Admitted pair.1
  words : keys irsCharToIrsInt pair.1.root = {word | word ∈ langLines file.2}
  name : pair.2 = langName file.2

theorem read_words (legible : ∀ file ∈ files, Legible file.2) :
    ∃ pairs, (files.mapM fun file => irsEngineReadLangWordsFile freshDictionary file.2) =
      .ok pairs ∧ List.Forall₂ MadeFrom files pairs := by
  apply exists_mapM_forall₂
  intro file member
  obtain ⟨dictionary, run, kept, words⟩ := (legible file member).words
  exact ⟨_, run, kept, words, rfl⟩

theorem read_alphabets (nonempty : ∀ file ∈ files, file.2 ≠ []) :
    ∃ pairs, (files.mapM fun file => irsEngineReadLangAlphabetsFile [] file.2) = .ok pairs := by
  apply exists_mapM.mpr
  intro file member
  obtain ⟨lines, run, -⟩ := irsEngineReadLangAlphabetsFile_lines [] (nonempty file member)
  exact ⟨_, run⟩

theorem map_eq_of_forall₂ {α β γ : Type} {R : α → β → Prop} {f : α → γ} {g : β → γ} {items : List α}
    {others : List β} (related : List.Forall₂ R items others)
    (same : ∀ item other, R item other → f item = g other) : others.map g = items.map f := by
  have mapped := List.rel_map (fun item other => same item other) related
  rw [List.forall₂_eq_eq_eq] at mapped
  exact mapped.symm

theorem accepted_recognized {file : Bytes × Bytes} {pair : IrsDictionary Unit × Bytes}
    {document : Bytes} (made : MadeFrom file pair) (noDelete : ∀ ch ∈ document, ch ≠ 0x7F) :
    (irsStorageGetDocumentShortTerms document).countP (accepts pair.1) =
      recognizedTerms document file.2 := by
  apply List.countP_congr
  intro term member
  obtain ⟨admitted, short⟩ := shortTerm_admitted noDelete member
  rw [accepts_recognized made.kept made.words admitted short]

theorem irsEngineInitialize_ok {keyWordFiles alphabetFiles : List (Bytes × Bytes)}
    {langKeyWordsPath langAlphabetsPath : Bytes}
    (keyWords : HasFiles fs langKeyWordsPath keyWordFiles)
    (alphabets : HasFiles fs langAlphabetsPath alphabetFiles)
    (legible : ∀ file ∈ keyWordFiles, Legible file.2)
    (nonempty : ∀ file ∈ alphabetFiles, file.2 ≠ []) :
    ∃ engine, irsEngineInitialize fs langKeyWordsPath langAlphabetsPath =
      .ok ((.ok, some engine), fs) ∧
      List.Forall₂ MadeFrom keyWordFiles engine.langKeyWords := by
  obtain ⟨langKeyWords, run, made⟩ := read_words legible
  obtain ⟨langAlphabets, run'⟩ := read_alphabets nonempty
  refine ⟨⟨langKeyWords, langAlphabets⟩, ?_, made⟩
  unfold irsEngineInitialize findOrMakeDirectory
  rw [if_pos keyWords.isdir]
  dsimp only
  rw [if_pos alphabets.isdir]
  dsimp only
  unfold irsEngineReadLangWordDictionaries irsEngineReadLangAphabetDictionaries
  rw [keyWords.read, alphabets.read]
  exact bind_ok.mpr ⟨_, run, bind_ok.mpr ⟨_, run', rfl⟩⟩

def keyWordFilesOfTwo : List (Bytes × Bytes) :=
  [(irsChars "e", irsChars "en\nthe\n"), (irsChars "f", irsChars "fr\nles\n")]

def directoriesOfTwo : FsNode :=
  branch [(irsChars "w", branch (keyWordFilesOfTwo.map fun file => (file.1, leaf file.2))),
    (irsChars "l", branch [])]

theorem legible_keyWordFilesOfTwo : ∀ file ∈ keyWordFilesOfTwo, Legible file.2 := by
  have first : langLines (irsChars "en\nthe\n") = [irsChars "en", irsChars "the"] := by decide
  have second : langLines (irsChars "fr\nles\n") = [irsChars "fr", irsChars "les"] := by decide
  unfold keyWordFilesOfTwo
  simp only [List.forall_mem_cons]
  refine ⟨⟨by decide, ?_, ?_, ?_⟩, ⟨by decide, ?_, ?_, ?_⟩, nofun⟩
  all_goals simp only [first, second]
  · unfold Admitted
    decide +kernel
  · decide
  · exact unmixed_of_lower (by decide +kernel)
  · unfold Admitted
    decide +kernel
  · decide
  · exact unmixed_of_lower (by decide +kernel)

end IrsMachine
