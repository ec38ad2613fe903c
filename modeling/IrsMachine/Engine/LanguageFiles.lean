import IrsMachine.Dictionary.Consecutive
import IrsMachine.Dictionary.Traversal
import IrsMachine.Library.Lines
import IrsMachine.Storage.Model

/-!
# Language files

The first line of a language file is the name of the language, the others are its key words or its
letters. Both readers begin their loop with the first line, which is still in their buffer, and cut
off the last character of every line, which the last line may need.
-/

namespace IrsMachine
open Except Lines

/-- What `g_io_channel_read_line` returns up to the end of the file: the lines, each with its
terminator. -/
def gIoChannelReadLines (file : Bytes) : List Bytes := terminatedLines 10 file

/-- `irs_str_cpy` of all characters but the last one. -/
def copyLine (word : Bytes) : Except Fault Bytes :=
  -- the size would wrap
  if word.length = 0 then .error .outOfBounds else .ok (word.take (word.length - 1))

section
variable {Entries : Type} (append : Entries → Bytes → Nat → Except Fault Entries)

def readLangLoop : List Bytes → Entries → Except Fault Entries
  | [], entries => .ok entries
  | word :: words, entries => do
    let copy ← copyLine word
    let entries ← append entries copy (word.length - 1)
    readLangLoop words entries

/-- In an empty file there is no first line. -/
def readLangFile (entries : Entries) (words : List Bytes) : Except Fault (Entries × Bytes) :=
  match words with
  | [] => .error .badPointer
  | word :: words => do
    let copy ← copyLine word
    -- the loop does not read the next line first
    let entries ← readLangLoop append (word :: words) entries
    .ok (entries, copy)

end

def appendLangWord (dictionary : IrsDictionary Unit) (copy : Bytes) (length : Nat) :
    Except Fault (IrsDictionary Unit) := do
  let (dictionary, _) ← irsDictionaryAppend dictionary copy (UInt32.ofNat length) ()
  .ok dictionary

def irsEngineReadLangWordsFile (dictionary : IrsDictionary Unit) (file : Bytes) :
    Except Fault (IrsDictionary Unit × Bytes) :=
  readLangFile appendLangWord dictionary (gIoChannelReadLines file)

def irsEngineReadLangAlphabetsFile (list : List Bytes) (file : Bytes) :
    Except Fault (List Bytes × Bytes) :=
  readLangFile (fun list copy _ => .ok (list ++ [copy])) list (gIoChannelReadLines file)

/-! ### What the readers do -/

section
variable {Entries : Type} {append : Entries → Bytes → Nat → Except Fault Entries}

theorem copyLine_ok {word : Bytes} (nonempty : word ≠ []) : copyLine word = .ok word.dropLast := by
  rw [copyLine, if_neg fun zero => nonempty (List.length_eq_zero_iff.mp zero),
    List.dropLast_eq_take]

def appendLines (append : Entries → Bytes → Nat → Except Fault Entries) (entries : Entries)
    (lines : List Bytes) : Except Fault Entries :=
  lines.foldlM (fun entries line => append entries line line.length) entries

theorem readLangLoop_eq {words : List Bytes} (nonempty : ∀ word ∈ words, word ≠ [])
    (entries : Entries) :
    readLangLoop append words entries = appendLines append entries (words.map List.dropLast) := by
  induction words generalizing entries with
  | nil => rfl
  | cons word words ih =>
    obtain ⟨here, later⟩ := List.forall_mem_cons.mp nonempty
    rw [readLangLoop, copyLine_ok here, ok_bind, appendLines, List.map_cons, List.foldlM_cons,
      List.length_dropLast]
    simp only [ih later]
    rfl

/-- Every line is appended without its last character, the name too. -/
theorem readLangFile_eq (append : Entries → Bytes → Nat → Except Fault Entries) (entries : Entries)
    {file : Bytes} (nonempty : file ≠ []) :
    ∃ word words, gIoChannelReadLines file = word :: words ∧
      readLangFile append entries (gIoChannelReadLines file) =
        appendLines append entries (word.dropLast :: words.map List.dropLast) >>= fun entries =>
          .ok (entries, word.dropLast) := by
  have someLine : gIoChannelReadLines file ≠ [] := terminatedLines_eq_nil.not.mpr nonempty
  obtain ⟨word, words, split⟩ := List.exists_cons_of_ne_nil someLine
  have lines : ∀ line ∈ word :: words, line ≠ [] :=
    fun line member => ne_nil_of_mem_terminatedLines (split ▸ member)
  refine ⟨word, words, split, ?_⟩
  rw [split, readLangFile, copyLine_ok (lines word List.mem_cons_self), ok_bind,
    readLangLoop_eq lines, List.map_cons]

end

theorem appendLines_list (list lines : List Bytes) :
    appendLines (fun list copy _ => .ok (list ++ [copy])) list lines = .ok (list ++ lines) := by
  unfold appendLines
  induction lines generalizing list with
  | nil => rw [List.append_nil]; rfl
  | cons line lines ih =>
    rw [List.foldlM_cons, ok_bind, ih, List.append_assoc, List.singleton_append]

def valuesCount (dictionary : IrsDictionary Unit) : Nat := sumOver List.length dictionary

theorem appendLines_words {dictionary dictionary' : IrsDictionary Unit} {lines : List Bytes}
    (reached : Reached (fun _ => True) dictionary)
    (run : appendLines appendLangWord dictionary lines = .ok dictionary') :
    Reached (fun _ => True) dictionary' ∧
    valuesCount dictionary' = valuesCount dictionary + lines.length := by
  induction lines generalizing dictionary with
  | nil =>
    cases run
    exact ⟨reached, rfl⟩
  | cons line lines ih =>
    obtain ⟨middle, first, rest⟩ := foldlM_cons_ok.mp run
    obtain ⟨⟨_, address⟩, first, done⟩ := bind_ok.mp first
    cases done
    obtain ⟨reached', counted⟩ := ih (.append reached (fun _ _ => trivial) first) rest
    obtain ⟨values, change⟩ :=
      sumOver_irsDictionaryAppend (f := List.length) rfl reached.kept (fun _ _ => trivial) first
    rw [List.length_append, List.length_singleton] at change
    unfold valuesCount at counted ⊢
    rw [List.length_cons]
    exact ⟨reached', by omega⟩

/-! ### The name and the entries -/

/-- The lines of a language file as they are meant, without their terminators. -/
def textLines (file : Bytes) : List Bytes := (gIoChannelReadLines file).map (stripped 10)

/-- The result of a reader that keeps the first line as the name, and appends the further lines. -/
def ReadsLangFile {Entries : Type} (append : Entries → Bytes → Nat → Except Fault Entries)
    (entries : Entries) (file : Bytes) (result : Except Fault (Entries × Bytes)) : Prop :=
  ∃ name further entries', textLines file = name :: further ∧
    appendLines append entries further = .ok entries' ∧ result = .ok (entries', name)

theorem readsLangFile_lines {Entries : Type} {append : Entries → Bytes → Nat → Except Fault Entries}
    {entries : Entries} {file : Bytes} (nonempty : file ≠ [])
    (reads : ReadsLangFile append entries file
      (readLangFile append entries (gIoChannelReadLines file))) :
    ∃ further appended entries', appended.length = further.length + 1 ∧
      appendLines append entries further = .ok entries' ∧
      appendLines append entries appended = .ok entries' := by
  obtain ⟨name, further, entries', split, run, result⟩ := reads
  obtain ⟨word, words, lines, whole⟩ := readLangFile_eq append entries nonempty
  rw [whole] at result
  obtain ⟨entries'', appended, last⟩ := bind_ok.mp result
  cases last
  have lengths := congrArg List.length split
  rw [textLines, List.length_map, lines, List.length_cons, List.length_cons] at lengths
  refine ⟨further, _, entries', ?_, run, appended⟩
  rw [List.length_cons, List.length_map, lengths]

/-- No file is read so: the name is appended with the lines. -/
theorem langFileReaders_fail (file : Bytes) (nonempty : file ≠ []) :
    (∀ dictionary, Reached (fun _ => True) dictionary →
      ¬ReadsLangFile appendLangWord dictionary file (irsEngineReadLangWordsFile dictionary file)) ∧
    ∀ list, ¬ReadsLangFile (fun list copy _ => .ok (list ++ [copy])) list file
      (irsEngineReadLangAlphabetsFile list file) := by
  constructor
  · intro dictionary reached reads
    obtain ⟨further, appended, dictionary', longer, run, run'⟩ := readsLangFile_lines nonempty reads
    have counted := (appendLines_words reached run).2
    have counted' := (appendLines_words reached run').2
    omega
  · intro list reads
    obtain ⟨further, appended, list', longer, run, run'⟩ := readsLangFile_lines nonempty reads
    rw [appendLines_list] at run run'
    cases run
    have same := congrArg List.length (Except.ok.inj run')
    rw [List.length_append, List.length_append] at same
    omega

/-- A file of one letter. -/
theorem langFileReaders_fail_a :
    ¬ReadsLangFile (fun list copy _ => .ok (list ++ [copy])) [] (irsChars "English\na\n")
      (irsEngineReadLangAlphabetsFile [] (irsChars "English\na\n")) :=
  (langFileReaders_fail (irsChars "English\na\n") (by decide)).2 []

/-- The name is the first letter of the alphabet. -/
theorem readLangFile_fails_header :
    irsEngineReadLangAlphabetsFile [] (irsChars "English\na\n") =
      .ok ([irsChars "English", irsChars "a"], irsChars "English") ∧
      ¬ReadsLangFile (fun list copy _ => .ok (list ++ [copy])) [] (irsChars "English\na\n")
        (irsEngineReadLangAlphabetsFile [] (irsChars "English\na\n")) := by
  have run : irsEngineReadLangAlphabetsFile [] (irsChars "English\na\n") =
      .ok ([irsChars "English", irsChars "a"], irsChars "English") := by rfl
  refine ⟨run, ?_⟩
  rw [run]
  intro ⟨name, further, list, split, appended, result⟩
  have lines : textLines (irsChars "English\na\n") = [irsChars "English", irsChars "a"] := by decide
  cases lines.symm.trans split
  rw [appendLines_list] at appended
  cases appended
  have same := congrArg List.length (Prod.mk.inj (Except.ok.inj result)).1
  cases same

/-- The alphabet is all lines, which are complete when the file ends with a newline. -/
theorem irsEngineReadLangAlphabetsFile_lines (list : List Bytes) {file : Bytes}
    (nonempty : file ≠ []) :
    ∃ lines, irsEngineReadLangAlphabetsFile list file = .ok (list ++ lines, lines.headD []) ∧
      lines.length = (textLines file).length ∧
      (lines = textLines file ↔ file.getLast? = some 10) := by
  obtain ⟨word, words, split, whole⟩ :=
    readLangFile_eq (fun list copy _ => .ok (list ++ [copy])) list nonempty
  have complete := map_dropLast_eq_iff 10 nonempty
  unfold textLines gIoChannelReadLines at *
  rw [split, List.map_cons] at complete
  refine ⟨word.dropLast :: words.map List.dropLast, ?_, ?_, ?_⟩
  · rw [appendLines_list, ok_bind] at whole
    exact whole
  · rw [split, List.length_cons, List.length_map, List.length_map, List.length_cons]
  · rw [split]
    exact complete

end IrsMachine
