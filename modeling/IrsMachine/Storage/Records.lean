import IrsMachine.Dictionary.Follow
import IrsMachine.Storage.Documents

/-!
# The terms file

The visit of the terms writes their records one after another to the emptied terms file, and
puts the offset of each record and its term into the dictionary of term offsets.
-/

namespace IrsMachine
open IrsDictionaryNode Except Multimap

/-! ### Pairs of an offset and a term -/

def pairsOf : List TermOffsetValue → List (UInt64 × Bytes)
  | .offset offset :: .term term :: values => (offset, term) :: pairsOf values
  | _ => []

def unpaired (pairs : List (UInt64 × Bytes)) : List TermOffsetValue :=
  pairs.flatMap fun pair => [.offset pair.1, .term pair.2]

def Paired (values : List TermOffsetValue) : Prop := unpaired (pairsOf values) = values

@[simp] theorem pairsOf_unpaired (pairs : List (UInt64 × Bytes)) :
    pairsOf (unpaired pairs) = pairs := by
  induction pairs with
  | nil => rfl
  | cons pair pairs ih =>
    rw [unpaired, List.flatMap_cons]
    exact congrArg (pair :: ·) ih

theorem paired_unpaired (pairs : List (UInt64 × Bytes)) : Paired (unpaired pairs) := by
  rw [Paired, pairsOf_unpaired]

theorem paired_nil : Paired [] := rfl

theorem Paired.concat {values : List TermOffsetValue} (paired : Paired values) (offset : UInt64)
    (term : Bytes) :
    Paired (values ++ [.offset offset, .term term]) ∧
      pairsOf (values ++ [.offset offset, .term term]) = pairsOf values ++ [(offset, term)] := by
  have whole : values ++ [.offset offset, .term term] =
      unpaired (pairsOf values ++ [(offset, term)]) := by
    rw [unpaired, List.flatMap_append]
    exact congrArg (· ++ _) paired.symm
  rw [whole]
  exact ⟨paired_unpaired _, pairsOf_unpaired _⟩

/-- The two appends that `_irs_storage_pass_terms_doc_significancy_dictionary` makes. -/
def appendPair (dictionary : IrsDictionary TermOffsetValue) (term : Bytes) (offset : UInt64) :
    Except Fault (IrsDictionary TermOffsetValue) := do
  let dictionary ← appendKey dictionary term (.offset offset)
  appendKey dictionary term (.term term)

structure Indexed (ok : UInt8 → Prop) (dictionary : IrsDictionary TermOffsetValue) :
    Prop extends Kept ok dictionary where
  paired : ∀ word, Paired (contents irsCharToIrsInt dictionary.root word)
  short : ∀ word ∈ keys irsCharToIrsInt dictionary.root, word.length < 2 ^ 32

variable {ok : UInt8 → Prop}

theorem indexed_freshDictionary : Indexed ok freshDictionary :=
  ⟨kept_freshDictionary, fun word => by rw [contents_freshDictionary]; exact paired_nil,
    fun word member => absurd (contents_freshDictionary word) member⟩

theorem appendPair_ok {dictionary dictionary' : IrsDictionary TermOffsetValue} {term : Bytes}
    {offset : UInt64} (indexed : Indexed ok dictionary) (bytes : ∀ ch ∈ term, ok ch)
    (run : appendPair dictionary term offset = .ok dictionary') :
    Indexed ok dictionary' ∧ ∃ word,
      word.map tolower = (readPart term).map tolower ∧
      (¬Words.Clash SameFold (keys irsCharToIrsInt dictionary.root) (readPart term) →
        word = readPart term) ∧
      ∀ other, contents irsCharToIrsInt dictionary'.root other =
        if other = word then contents irsCharToIrsInt dictionary.root word ++
          [.offset offset, .term term]
        else contents irsCharToIrsInt dictionary.root other := by
  obtain ⟨middle, first, second⟩ := bind_ok.mp run
  obtain ⟨word, pushed, filed, spelled, exact⟩ := appendKey_filed indexed.toKept bytes first
  have kept := kept_appendKey indexed.toKept bytes first
  obtain ⟨last, second', pushed', -⟩ := filed.append kept (.term term)
  cases second.symm.trans second'
  have both : ∀ other, contents irsCharToIrsInt dictionary'.root other =
      if other = word then contents irsCharToIrsInt dictionary.root word ++
        [.offset offset, .term term]
      else contents irsCharToIrsInt dictionary.root other := by
    intro other
    rw [pushed', pushed]
    split
    · rename_i same
      subst same
      simp
    · rename_i different
      rw [push_ne _ _ different, push_ne _ _ different]
  have lengths : word.length < 2 ^ 32 := by
    have := congrArg List.length spelled
    rw [List.length_map, List.length_map] at this
    exact this ▸ Nat.lt_of_le_of_lt (readPart_length term) (UInt32.toNat_lt _)
  refine ⟨⟨kept_appendKey kept bytes second, fun other => ?_, fun other member => ?_⟩, word,
    spelled, exact, both⟩
  · rw [both]
    split
    · exact ((indexed.paired word).concat offset term).1
    · exact indexed.paired other
  · rw [keys, Set.mem_ofPred_eq, both] at member
    split at member
    · rename_i same
      exact same ▸ lengths
    · exact indexed.short other member

/-! ### Fields of the terms file -/

def IrsStorage.growTerms (storage : IrsStorage) (bytes : Nat) : IrsStorage :=
  { storage with termsSize := storage.termsSize + UInt64.ofNat bytes }

theorem IrsStorage.growTerms_growTerms (storage : IrsStorage) (a b : Nat) :
    (storage.growTerms a).growTerms b = storage.growTerms (a + b) := by
  simp only [growTerms, UInt64.ofNat_add, UInt64.add_assoc]

@[simp] theorem IrsStorage.growTerms_zero (storage : IrsStorage) :
    storage.growTerms 0 = storage := by
  simp [growTerms]

structure Extended (writer writer' : TermsWriter) (written chars : Bytes) : Prop where
  storage : writer'.storage = writer.storage.growTerms chars.length
  path : writer'.channel.path = writer.channel.path
  atEnd : AtEnd writer'.channel writer'.world (written ++ chars)
  others : ∀ other, other ≠ writer.channel.path →
    writer'.world.files other = writer.world.files other

theorem Extended.refl {writer : TermsWriter} {written : Bytes}
    (atEnd : AtEnd writer.channel writer.world written) :
    Extended writer writer written [] :=
  ⟨by simp, rfl, by simpa using atEnd, fun _ _ => rfl⟩

theorem Extended.trans {first second third : TermsWriter} {written a b : Bytes}
    (one : Extended first second written a) (two : Extended second third (written ++ a) b) :
    Extended first third written (a ++ b) where
  storage := by rw [two.storage, one.storage, IrsStorage.growTerms_growTerms, List.length_append]
  path := two.path.trans one.path
  atEnd := by rw [← List.append_assoc]; exact two.atEnd
  others := fun other different =>
    (two.others other (by rw [one.path]; exact different)).trans (one.others other different)

theorem writeTermsField_ok {outcomes : Nat → WriteOutcome} {writer writer' : TermsWriter}
    {written chars : Bytes} (atEnd : AtEnd writer.channel writer.world written)
    (run : writeTermsField outcomes writer chars = .ok writer') :
    Extended writer writer' written chars := by
  simp only [writeTermsField] at run
  split at run
  · rename_i complete
    obtain ⟨bytes, atEnd'⟩ := write_complete atEnd complete
    cases run
    exact ⟨by rw [bytes]; rfl, write_path .., atEnd',
      fun other different => write_other _ _ _ _ different⟩
  · cases run

/-! ### Entries and records -/

def entryChars (node : IrsDictionaryNode DocValue) : Bytes :=
  match node.dataList with
  | some (.offset docOffset :: .significancy significancy :: _) =>
    uint64Chars docOffset ++ record significancy
  | _ => []

theorem irsStoragePassTermsDocOffsetDictionary_ok {outcomes : Nat → WriteOutcome}
    {writer writer' : TermsWriter} {node : IrsDictionaryNode DocValue} {written : Bytes}
    (atEnd : AtEnd writer.channel writer.world written)
    (run : irsStoragePassTermsDocOffsetDictionary outcomes writer node = .ok writer') :
    Extended writer writer' written (entryChars node) := by
  unfold irsStoragePassTermsDocOffsetDictionary at run
  split at run
  · rename_i none
    cases run
    rw [entryChars, none]
    exact .refl atEnd
  · rename_i list data
    split at run
    · rename_i docOffset significancy rest
      obtain ⟨first, one, run⟩ := bind_ok.mp run
      obtain ⟨second, two, three⟩ := bind_ok.mp run
      have one := writeTermsField_ok atEnd one
      have two := one.trans (writeTermsField_ok one.atEnd two)
      rw [take_irsStrLen] at three
      have all := two.trans (writeTermsField_ok two.atEnd three)
      rw [List.append_assoc] at all
      simp only [entryChars, data]
      exact all
    · cases run

def entriesChars (dictionary : IrsDictionary DocValue) : Bytes :=
  (irsDictionaryVisitDownNodes dictionary).flatMap fun visit => entryChars visit.2

theorem passEntries_ok {outcomes : Nat → WriteOutcome}
    {visits : List (Address × IrsDictionaryNode DocValue)} {writer writer' : TermsWriter}
    {written : Bytes} (atEnd : AtEnd writer.channel writer.world written)
    (run : visits.foldlM
      (fun writer visit => irsStoragePassTermsDocOffsetDictionary outcomes writer visit.2) writer =
        .ok writer') :
    Extended writer writer' written (visits.flatMap fun visit => entryChars visit.2) := by
  induction visits generalizing writer written with
  | nil =>
    cases run
    exact .refl atEnd
  | cons visit visits ih =>
    obtain ⟨middle, step, rest⟩ := foldlM_cons_ok.mp run
    have one := irsStoragePassTermsDocOffsetDictionary_ok atEnd step
    rw [List.flatMap_cons]
    exact one.trans (ih one.atEnd rest)

def termRecord (docDictionaries : List (IrsDictionary DocValue))
    (node : IrsDictionaryNode TermDocValue) : Bytes :=
  match node.dataList with
  | some (.docOffsetDictionary index :: .term term :: .docsWithTerm docsWithTerm :: _) =>
    record term ++ uint64Chars docsWithTerm ++ ((docDictionaries[index]?).map entriesChars).getD []
  | _ => []

def termOf (node : IrsDictionaryNode TermDocValue) : Option Bytes :=
  match node.dataList with
  | some (.docOffsetDictionary _ :: .term term :: .docsWithTerm _ :: _) => some term
  | _ => none

/-- What the visit of a node with data does: its pair is appended, then its record is
written. -/
theorem irsStoragePassTermsDocSignificancyDictionary_ok {outcomes : Nat → WriteOutcome}
    {docDictionaries : List (IrsDictionary DocValue)} {writer writer' : TermsWriter}
    {node : IrsDictionaryNode TermDocValue} {written : Bytes}
    (atEnd : AtEnd writer.channel writer.world written)
    (run : irsStoragePassTermsDocSignificancyDictionary outcomes docDictionaries writer node =
      .ok writer') :
    (node.dataList = none ∧ writer' = writer) ∨
    ∃ term dictionary, termOf node = some term ∧
      appendPair writer.storage.termOffsetDictionary term writer.storage.termsSize =
        .ok dictionary ∧
      (∃ more, termRecord docDictionaries node = record term ++ more) ∧
      Extended { writer with storage := { writer.storage with termOffsetDictionary := dictionary } }
        writer' written
        (termRecord docDictionaries node) := by
  unfold irsStoragePassTermsDocSignificancyDictionary at run
  split at run
  · rename_i none
    cases run
    exact Or.inl ⟨none, rfl⟩
  · rename_i list data
    split at run
    · rename_i index term docsWithTerm rest
      right
      obtain ⟨middle, append, run⟩ := bind_ok.mp run
      obtain ⟨dictionary, append', run⟩ := bind_ok.mp run
      obtain ⟨first, one, run⟩ := bind_ok.mp run
      obtain ⟨second, two, run⟩ := bind_ok.mp run
      obtain ⟨third, three, run⟩ := bind_ok.mp run
      obtain ⟨docOffsetDictionary, found, four⟩ := bind_ok.mp run
      have here : docDictionaries[index]? = some docOffsetDictionary := by
        unfold docDictionaryAt at found
        split at found
        · rename_i here
          cases found
          exact here
        · cases found
      have start : AtEnd ({ writer with
          storage := { writer.storage with termOffsetDictionary := dictionary } } :
            TermsWriter).channel writer.world written := atEnd
      have one := writeTermsField_ok start one
      rw [take_irsStrLen] at two
      have two := one.trans (writeTermsField_ok one.atEnd two)
      have three := two.trans (writeTermsField_ok two.atEnd three)
      have all := three.trans (passEntries_ok three.atEnd four)
      refine ⟨term, dictionary, by rw [termOf, data], bind_ok.mpr ⟨middle, append, append'⟩,
        ⟨uint64Chars docsWithTerm ++ entriesChars docOffsetDictionary, ?_⟩, ?_⟩
      · simp only [termRecord, data, here, Option.map_some, Option.getD_some, List.append_assoc]
      · simp only [termRecord, data, here, Option.map_some, Option.getD_some]
        exact all
    · cases run

end IrsMachine
