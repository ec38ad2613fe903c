import IrsMachine.Storage.Assign
import IrsMachine.Storage.Reading
import IrsMachine.Storage.Restart

/-!
# The terms file of a batch

The visit of the assigned terms files each of them: one pair in the dictionary of term offsets,
and its record where the pair says.
-/

namespace IrsMachine
open IrsDictionaryNode Except Multimap Words

/-! ### Faults -/

theorem writeTermsField_onlyFails (outcomes : Nat → WriteOutcome) (writer : TermsWriter)
    (chars : Bytes) :
    OnlyFails Fault.aborted (writeTermsField outcomes writer chars) := by
  simp only [writeTermsField]
  split
  · exact onlyFails_ok _ _
  · rintro _ ⟨rfl⟩
    rfl

def DocEntry (node : IrsDictionaryNode DocValue) : Prop :=
  node.dataList = none ∨ ∃ docOffset significancy,
    node.dataList = some [.offset docOffset, .significancy significancy]

theorem DocIndexed.visits {Text : UInt64 → Bytes → Prop} {dictionary : IrsDictionary DocValue}
    (indexed : DocIndexed Text dictionary) :
    ∀ visit ∈ irsDictionaryVisitDownNodes dictionary, DocEntry visit.2 := by
  intro visit member
  rcases indexed.kept.visit visit member with none | ⟨data, present⟩
  · exact Or.inl none
  · obtain ⟨docOffset, text, -, -, stored⟩ := indexed.entries _ present
    exact Or.inr ⟨docOffset, text, by rw [data, stored]⟩

theorem irsStoragePassTermsDocOffsetDictionary_onlyFails {outcomes : Nat → WriteOutcome}
    {node : IrsDictionaryNode DocValue} (writer : TermsWriter) (entry : DocEntry node) :
    OnlyFails Fault.aborted (irsStoragePassTermsDocOffsetDictionary outcomes writer node) := by
  rcases entry with none | ⟨docOffset, significancy, data⟩
  · simp only [irsStoragePassTermsDocOffsetDictionary, none]
    exact onlyFails_ok _ _
  · simp only [irsStoragePassTermsDocOffsetDictionary, data]
    apply (writeTermsField_onlyFails _ _ _).bind
    intro _ _
    exact (writeTermsField_onlyFails _ _ _).bind fun _ _ => writeTermsField_onlyFails _ _ _

def TermEntry (docDictionaries : List (IrsDictionary DocValue))
    (node : IrsDictionaryNode TermDocValue) : Prop :=
  node.dataList = none ∨ ∃ index term docsWithTerm dictionary,
    node.dataList = some [.docOffsetDictionary index, .term term, .docsWithTerm docsWithTerm] ∧
    docDictionaries[index]? = some dictionary ∧
    (∀ visit ∈ irsDictionaryVisitDownNodes dictionary, DocEntry visit.2) ∧
    ∀ ch ∈ term, Admitted ch

theorem irsStoragePassTermsDocSignificancyDictionary_onlyFails {outcomes : Nat → WriteOutcome}
    {docDictionaries : List (IrsDictionary DocValue)} {writer : TermsWriter}
    {node : IrsDictionaryNode TermDocValue}
    (kept : Kept Admitted writer.storage.termOffsetDictionary)
    (entry : TermEntry docDictionaries node) :
    OnlyFails Fault.aborted
      (irsStoragePassTermsDocSignificancyDictionary outcomes docDictionaries writer node) := by
  rcases entry with none | ⟨index, term, docsWithTerm, dictionary, data, located, entries, bytes⟩
  · simp only [irsStoragePassTermsDocSignificancyDictionary, none]
    exact onlyFails_ok _ _
  · obtain ⟨dictionary', append⟩ := appendPair_total writer.storage.termsSize kept bytes
    obtain ⟨middle, first, second⟩ := bind_ok.mp append
    simp only [irsStoragePassTermsDocSignificancyDictionary, data, first, second, ok_bind]
    apply (writeTermsField_onlyFails _ _ _).bind
    intro _ _
    apply (writeTermsField_onlyFails _ _ _).bind
    intro _ _
    apply (writeTermsField_onlyFails _ _ _).bind
    intro _ _
    simp only [docDictionaryAt, located, ok_bind]
    apply OnlyFails.foldlM
    intro before visit after state split _
    exact irsStoragePassTermsDocOffsetDictionary_onlyFails state
      (entries visit (by rw [split]; simp))

/-! ### Filing -/

def visitedTerms (visits : List (Address × IrsDictionaryNode TermDocValue)) : List Bytes :=
  visits.filterMap fun visit => termOf visit.2

/-- Each of the visited terms has its pair and its record, and nothing else is filed. -/
structure Filed (docDictionaries : List (IrsDictionary DocValue))
    (visits : List (Address × IrsDictionaryNode TermDocValue)) (writer : TermsWriter)
    (written : Bytes) : Prop where
  atEnd : AtEnd writer.channel writer.world written
  size : writer.storage.termsSize = UInt64.ofNat written.length
  indexed : Indexed Admitted writer.storage.termOffsetDictionary
  terms : keys irsCharToIrsInt writer.storage.termOffsetDictionary.root =
    {term | term ∈ visitedTerms visits}
  records : ∀ visit ∈ visits, ∀ term, termOf visit.2 = some term →
    ∃ offset : UInt64, offset.toNat ≤ maxFileSize ∧
    contents irsCharToIrsInt writer.storage.termOffsetDictionary.root term =
    [.offset offset, .term term] ∧
    termRecord docDictionaries visit.2 <+: written.drop offset.toNat

theorem visitedTerms_concat (before : List (Address × IrsDictionaryNode TermDocValue))
    (visit : Address × IrsDictionaryNode TermDocValue) :
    visitedTerms (before ++ [visit]) = visitedTerms before ++ (termOf visit.2).toList := by
  rw [visitedTerms, List.filterMap_append, List.filterMap_cons, List.filterMap_nil]
  cases termOf visit.2 <;> rfl

theorem Filed.visit {outcomes : Nat → WriteOutcome}
    {docDictionaries : List (IrsDictionary DocValue)}
    {before : List (Address × IrsDictionaryNode TermDocValue)}
    {visit : Address × IrsDictionaryNode TermDocValue} {writer writer' : TermsWriter}
    {written : Bytes} (filed : Filed docDictionaries before writer written)
    (fits : ∀ term, termOf visit.2 = some term → (∀ ch ∈ term, Admitted ch) ∧ term.length < 2 ^ 32 ∧
      term ∉ visitedTerms before ∧ ¬Clash SameFold {k | k ∈ visitedTerms before} term)
    (run : irsStoragePassTermsDocSignificancyDictionary outcomes docDictionaries writer visit.2 =
      .ok writer') :
    ∃ written', Filed docDictionaries (before ++ [visit]) writer' written' := by
  rcases irsStoragePassTermsDocSignificancyDictionary_ok filed.atEnd run with
    ⟨data, rfl⟩ | ⟨term, dictionary, isTerm, append, -, extended⟩
  · have none : termOf visit.2 = none := by rw [termOf, data]
    have same : visitedTerms (before ++ [visit]) = visitedTerms before := by
      rw [visitedTerms_concat, none, Option.toList_none, List.append_nil]
    refine ⟨written, filed.atEnd, filed.size, filed.indexed, by rw [same]; exact filed.terms,
      fun other member term isTerm => ?_⟩
    rcases List.mem_append.mp member with old | here
    · exact filed.records other old term isTerm
    · obtain rfl := List.mem_singleton.mp here
      rw [none] at isTerm
      cases isTerm
  · obtain ⟨bytes, short, new, noClash⟩ := fits term isTerm
    obtain ⟨indexed, word, -, exact, pushed⟩ := appendPair_ok filed.indexed bytes append
    rw [readPart_short (fun ch member => (bytes ch member).1) short, filed.terms] at exact
    obtain rfl := exact noClash
    have absent : contents irsCharToIrsInt writer.storage.termOffsetDictionary.root word = [] := by
      by_contra present
      rw [← ne_eq, ← mem_keys, filed.terms] at present
      exact new present
    have same : writer'.storage.termOffsetDictionary = dictionary := by rw [extended.storage]; rfl
    rw [absent, List.nil_append] at pushed
    refine ⟨written ++ termRecord docDictionaries visit.2, extended.atEnd, ?_,
      by rw [same]; exact indexed, ?_, fun other member term' isTerm' => ?_⟩
    · rw [extended.storage, List.length_append, UInt64.ofNat_add]
      exact congrArg (· + _) filed.size
    · ext other
      rw [same, mem_keys, pushed, Set.mem_ofPred_eq, visitedTerms_concat, isTerm,
        Option.toList_some, List.mem_append, List.mem_singleton]
      split
      · rename_i here
        simp [here]
      · rename_i different
        rw [← mem_keys, filed.terms]
        simp [different]
    · rw [same, pushed]
      rcases List.mem_append.mp member with old | here
      · obtain ⟨offset, inside, stored, located⟩ := filed.records other old term' isTerm'
        have different : term' ≠ word := by
          rintro rfl
          exact new (List.mem_filterMap.mpr ⟨other, old, isTerm'⟩)
        exact ⟨offset, inside, by rw [if_neg different, stored], drop_append_prefix located⟩
      · -- the new record begins where the file ended
        obtain rfl := List.mem_singleton.mp here
        cases isTerm.symm.trans isTerm'
        have small := filed.atEnd.small
        refine ⟨writer.storage.termsSize, ?_, by rw [if_pos rfl], ?_⟩
        · rw [filed.size, toNat_size small]
          exact small
        · rw [filed.size, toNat_size small, List.drop_left]

structure Fits (docDictionaries : List (IrsDictionary DocValue))
    (visits : List (Address × IrsDictionaryNode TermDocValue)) :
    Prop where
  entry : ∀ visit ∈ visits, TermEntry docDictionaries visit.2
  short : ∀ term ∈ visitedTerms visits, term.length < 2 ^ 32
  nodup : (visitedTerms visits).Nodup
  unmixed : Unmixed SameFold (visitedTerms visits)

theorem Fits.next {docDictionaries : List (IrsDictionary DocValue)}
    {before after : List (Address × IrsDictionaryNode TermDocValue)}
    {visit : Address × IrsDictionaryNode TermDocValue}
    (fits : Fits docDictionaries (before ++ visit :: after)) :
    ∀ term, termOf visit.2 = some term → (∀ ch ∈ term, Admitted ch) ∧ term.length < 2 ^ 32 ∧
      term ∉ visitedTerms before ∧ ¬Clash SameFold {k | k ∈ visitedTerms before} term := by
  intro term isTerm
  have split : visitedTerms (before ++ visit :: after) =
      visitedTerms before ++ term :: visitedTerms after := by
    rw [visitedTerms, List.filterMap_append, List.filterMap_cons, isTerm]
    rfl
  have nodup := fits.nodup
  have unmixed := fits.unmixed
  rw [split] at nodup unmixed
  refine ⟨?_, fits.short term (by rw [split]; simp), fun old => ?_, unmixed.last⟩
  · rcases fits.entry visit (by simp) with none | ⟨index, other, docsWithTerm, dictionary,
      data, -, -, bytes⟩
    · rw [termOf, none] at isTerm
      cases isTerm
    · rw [termOf, data] at isTerm
      cases isTerm
      exact bytes
  · exact (List.nodup_append.mp nodup).2.2 term old term List.mem_cons_self rfl

theorem passRecords_filed {outcomes : Nat → WriteOutcome}
    {docDictionaries : List (IrsDictionary DocValue)}
    {visits : List (Address × IrsDictionaryNode TermDocValue)} {writer : TermsWriter}
    (fits : Fits docDictionaries visits) (start : Filed docDictionaries [] writer []) :
    OnlyFails Fault.aborted (visits.foldlM (fun writer visit =>
      irsStoragePassTermsDocSignificancyDictionary outcomes docDictionaries writer visit.2)
        writer) ∧
    ∀ writer', visits.foldlM (fun writer visit =>
      irsStoragePassTermsDocSignificancyDictionary outcomes docDictionaries writer visit.2) writer =
        .ok writer' →
      ∃ written, Filed docDictionaries visits writer' written := by
  have run : ∀ before after, visits = before ++ after →
      ∀ writer', before.foldlM (fun writer visit =>
      irsStoragePassTermsDocSignificancyDictionary outcomes docDictionaries writer visit.2) writer =
        .ok writer' →
      ∃ written, Filed docDictionaries before writer' written := by
    intro before
    induction before using List.reverseRecOn with
    | nil =>
      rintro after - writer' ⟨rfl⟩
      exact ⟨[], start⟩
    | append_singleton before visit ih =>
      intro after split writer' run
      rw [List.append_assoc, List.singleton_append] at split
      obtain ⟨middle, first, step⟩ := foldlM_concat_ok.mp run
      obtain ⟨written, filed⟩ := ih _ split middle first
      exact filed.visit (split ▸ fits).next step
  refine ⟨OnlyFails.foldlM fun before visit after state split first => ?_,
    run visits [] (List.append_nil _).symm⟩
  obtain ⟨written, filed⟩ := run before _ split state first
  exact irsStoragePassTermsDocSignificancyDictionary_onlyFails filed.indexed.toKept
    (fits.entry visit (by rw [split]; simp))

/-! ### The assigned terms -/

variable {F : Type} [IrsFloat F] {ok : UInt8 → Prop} {documentOffsetMap : List (Bytes × UInt64)}
  {terms : List Bytes}
  {stored : Bytes → UInt64 → Prop} {state : AssignState F}

theorem TermsAssigned.visit (assigned : TermsAssigned ok documentOffsetMap terms state) :
    ∀ visit ∈ irsDictionaryVisitDownNodes state.termsDocSignificancy, visit.2.dataList = none ∨
      visit.2.dataList =
        some [.docOffsetDictionary
          (terms.eraseDups.idxOf (spell state.termsDocSignificancy.root visit.1)),
        .term (spell state.termsDocSignificancy.root visit.1),
        .docsWithTerm (docsNumber documentOffsetMap
          (spell state.termsDocSignificancy.root visit.1))] ∧
      spell state.termsDocSignificancy.root visit.1 ∈ terms := by
  intro visit member
  rcases assigned.significancies.visit visit member with none | ⟨data, present⟩
  · exact Or.inl none
  · rw [assigned.keys_eq, Set.mem_ofPred_eq] at present
    rw [assigned.lists, if_pos present] at data
    exact Or.inr ⟨data, present⟩

/-- The visit meets the words of the dictionary, in the order of their slots. -/
theorem TermsAssigned.visitedTerms (assigned : TermsAssigned ok documentOffsetMap terms state)
    (nonempty : [] ∉ terms) :
    visitedTerms (irsDictionaryVisitDownNodes state.termsDocSignificancy) =
      (entries state.termsDocSignificancy.root).map Prod.fst := by
  rw [assigned.significancies.map_entries (by rw [assigned.keys_eq]; exact nonempty),
    IrsMachine.visitedTerms]
  apply List.filterMap_congr
  intro visit member
  rcases assigned.visit visit member with none | ⟨data, -⟩
  · rw [termOf, none]
    rfl
  · rw [termOf, data]
    rfl

theorem TermsAssigned.mem_visitedTerms (assigned : TermsAssigned ok documentOffsetMap terms state)
    (nonempty : [] ∉ terms) {term : Bytes} :
    term ∈ IrsMachine.visitedTerms (irsDictionaryVisitDownNodes state.termsDocSignificancy) ↔
      term ∈ terms := by
  rw [assigned.visitedTerms nonempty, mem_map_entries assigned.significancies.tidy,
    assigned.keys_eq, Set.mem_ofPred_eq]

theorem TermsAssigned.fits (assigned : TermsAssigned Admitted documentOffsetMap terms state)
    (apart : TokensApart terms) (bytes : ∀ term ∈ terms, term ≠ [] ∧ ∀ ch ∈ term, Admitted ch) :
    Fits state.docDictionaries (irsDictionaryVisitDownNodes state.termsDocSignificancy) := by
  have nonempty : [] ∉ terms := fun member => (bytes [] member).1 rfl
  refine ⟨fun visit member => ?_, fun term member => apart.short term
    ((assigned.mem_visitedTerms nonempty).mp member), ?_, ?_⟩
  · rcases assigned.visit visit member with none | ⟨data, inside⟩
    · exact Or.inl none
    · obtain ⟨dictionary, located, indexed⟩ := assigned.dictionaries _ inside
      exact Or.inr ⟨_, _, _, dictionary, data, located, indexed.visits, (bytes _ inside).2⟩
  · rw [assigned.visitedTerms nonempty]
    exact (lists_entries assigned.significancies.tidy).nodup
  · rw [assigned.visitedTerms nonempty]
    apply unmixed_of_sorted (entries_sorted assigned.significancies.tidy)
    intro word member
    have same : {k | k ∈ (entries state.termsDocSignificancy.root).map Prod.fst} =
        {k | k ∈ terms} := by
      ext k
      rw [Set.mem_ofPred_eq, mem_map_entries assigned.significancies.tidy, assigned.keys_eq]
    rw [same]
    rw [mem_map_entries assigned.significancies.tidy, assigned.keys_eq] at member
    exact apart.ordered word member

theorem Assigned.filed {writer : TermsWriter} {written : Bytes}
    (assigned : Assigned documentOffsetMap terms stored state) (nonempty : [] ∉ terms)
    (filed : Filed state.docDictionaries (irsDictionaryVisitDownNodes state.termsDocSignificancy)
      writer written) :
    keys irsCharToIrsInt writer.storage.termOffsetDictionary.root = {term | term ∈ terms} ∧
    ∀ term ∈ terms, ∃ (offset : UInt64) (dictionary : _), offset.toNat ≤ maxFileSize ∧
      contents irsCharToIrsInt writer.storage.termOffsetDictionary.root term =
        [.offset offset, .term term] ∧
      DocIndexed (SignificancyText F documentOffsetMap term) dictionary ∧
      (Clear documentOffsetMap term →
        ∀ docOffset, decimal docOffset ∈ keys irsCharToIrsInt dictionary.root ↔
          stored term docOffset) ∧
      record term ++ uint64Chars (docsNumber documentOffsetMap term) ++ entriesChars dictionary <+:
        written.drop offset.toNat := by
  refine ⟨?_, fun term member => ?_⟩
  · ext term
    rw [filed.terms, Set.mem_ofPred_eq, assigned.mem_visitedTerms nonempty, Set.mem_ofPred_eq]
  · obtain ⟨visit, inside, isTerm⟩ :=
      List.mem_filterMap.mp ((assigned.mem_visitedTerms nonempty).mpr member)
    obtain ⟨offset, small, pair, located⟩ := filed.records visit inside term isTerm
    obtain ⟨dictionary, found, indexed⟩ := assigned.dictionaries term member
    refine ⟨offset, dictionary, small, pair, indexed,
      fun clear => assigned.entries term member clear dictionary found, ?_⟩
    rcases assigned.visit visit inside with none | ⟨data, -⟩
    · rw [termOf, none] at isTerm
      cases isTerm
    · rw [termOf, data] at isTerm
      cases isTerm
      simp only [termRecord, data, found, Option.map_some, Option.getD_some] at located
      exact located

/-! ### Entries of a record -/

def entryOf (node : IrsDictionaryNode DocValue) : Option (UInt64 × Bytes) :=
  match node.dataList with
  | some (.offset docOffset :: .significancy significancy :: _) => some (docOffset, significancy)
  | _ => none

def docEntries (dictionary : IrsDictionary DocValue) : List (UInt64 × Bytes) :=
  (irsDictionaryVisitDownNodes dictionary).filterMap fun visit => entryOf visit.2

theorem entriesChars_eq (dictionary : IrsDictionary DocValue) :
    entriesChars dictionary = (docEntries dictionary).flatMap entryRecord := by
  rw [entriesChars, docEntries]
  induction irsDictionaryVisitDownNodes dictionary with
  | nil => rfl
  | cons visit visits ih =>
    rw [List.flatMap_cons, List.filterMap_cons, ih, entryChars, entryOf]
    rcases visit.2.dataList with _ | _ | ⟨_ | _, _ | ⟨_ | _, _⟩⟩ <;> rfl

theorem DocIndexed.docEntries {Text : UInt64 → Bytes → Prop} {dictionary : IrsDictionary DocValue}
    (indexed : DocIndexed Text dictionary) :
    ((docEntries dictionary).map Prod.fst).Nodup ∧
      (∀ docOffset, docOffset ∈ (docEntries dictionary).map Prod.fst ↔
        decimal docOffset ∈ keys irsCharToIrsInt dictionary.root) ∧
      ∀ entry ∈ docEntries dictionary, Text entry.1 entry.2 := by
  have root : [] ∉ keys irsCharToIrsInt dictionary.root := by
    intro member
    obtain ⟨docOffset, _, -, empty, -⟩ := indexed.entries [] member
    exact decimal_ne_nil docOffset empty.symm
  have words : ((IrsMachine.docEntries dictionary).map Prod.fst).map decimal =
      (IrsMachine.entries dictionary.root).map Prod.fst := by
    rw [indexed.kept.map_entries root, IrsMachine.docEntries, List.map_map, List.map_filterMap]
    apply List.filterMap_congr
    intro visit member
    rcases indexed.kept.visit visit member with none | ⟨data, present⟩
    · rw [entryOf, none]
      rfl
    · obtain ⟨docOffset, text, -, word, stored⟩ := indexed.entries _ present
      rw [entryOf, data, stored, word]
      rfl
  refine ⟨List.Nodup.of_map decimal (words ▸ (lists_entries indexed.kept.tidy).nodup),
    fun docOffset => ?_, fun entry member => ?_⟩
  · rw [← mem_map_entries indexed.kept.tidy, ← words, List.mem_map_of_injective decimal_injective]
  · obtain ⟨visit, inside, isEntry⟩ := List.mem_filterMap.mp member
    rcases indexed.kept.visit visit inside with none | ⟨data, present⟩
    · rw [entryOf, none] at isEntry
      cases isEntry
    · obtain ⟨docOffset, text, right, -, stored⟩ := indexed.entries _ present
      rw [entryOf, data, stored] at isEntry
      cases isEntry
      exact right

end IrsMachine
