import IrsMachine.Storage.Occurrences

/-!
# Assigning, exactly

Where no terms are mixed up, the dictionaries of `_irs_storage_assign_terms_in_documents` hold
what the occurrences so far say (`Assigned`).
-/

namespace IrsMachine
open IrsDictionaryNode Except Multimap Words

/-! ### Dictionaries of documents -/

/-- Every list of the dictionary is an entry of a document, with a text as it must be. -/
structure DocIndexed (Text : UInt64 → Bytes → Prop) (dictionary : IrsDictionary DocValue) :
    Prop where
  kept : Kept Admitted dictionary
  entries : ∀ word ∈ keys irsCharToIrsInt dictionary.root, ∃ docOffset text, Text docOffset text ∧
    word = decimal docOffset ∧
    contents irsCharToIrsInt dictionary.root word = [.offset docOffset, .significancy text]

variable {Text : UInt64 → Bytes → Prop}

theorem docIndexed_freshDictionary : DocIndexed Text freshDictionary :=
  ⟨kept_freshDictionary, fun word member => absurd (contents_freshDictionary word) member⟩

theorem keys_freshDictionary {α : Type} :
    keys irsCharToIrsInt (freshDictionary : IrsDictionary α).root = ∅ := by
  ext word
  rw [mem_keys, contents_freshDictionary]
  simp

theorem DocIndexed.store {dictionary : IrsDictionary DocValue} {docOffset : UInt64} {text : Bytes}
    (indexed : DocIndexed Text dictionary)
    (absent : decimal docOffset ∉ keys irsCharToIrsInt dictionary.root)
    (right : Text docOffset text) :
    ∃ middle dictionary', appendKey dictionary (decimal docOffset) (.offset docOffset) =
      .ok middle ∧
      appendKey middle (decimal docOffset) (.significancy text) = .ok dictionary' ∧
      DocIndexed Text dictionary' ∧
      ∀ word, word ∈ keys irsCharToIrsInt dictionary'.root ↔
        word ∈ keys irsCharToIrsInt dictionary.root ∨ word = decimal docOffset := by
  -- digits have no case
  have noClash : ¬Clash SameFold (keys irsCharToIrsInt dictionary.root) (decimal docOffset) := by
    apply not_clash_of_apart
    intro a inside k member b inside' same
    obtain ⟨other, _, -, rfl, -⟩ := indexed.entries k member
    rw [← decimal_lower inside, same, decimal_lower inside']
  obtain ⟨dictionary', run, kept, stored⟩ :=
    appendKeys_exact indexed.kept (decimal_admitted docOffset) (fun ch => And.left)
    (length_decimal docOffset) noClash
      (appendKey_total (.offset docOffset) indexed.kept (decimal_admitted docOffset))
    [.significancy text]
  obtain ⟨middle, first, run⟩ := foldlM_cons_ok.mp run
  obtain ⟨_, second, done⟩ := foldlM_cons_ok.mp run
  cases done
  rw [mem_keys, not_not] at absent
  rw [absent, List.nil_append] at stored
  have keys' : ∀ word, word ∈ keys irsCharToIrsInt dictionary'.root ↔
      word ∈ keys irsCharToIrsInt dictionary.root ∨ word = decimal docOffset := by
    intro word
    rw [mem_keys, stored, mem_keys]
    split
    · rename_i here
      simp [here]
    · rename_i different
      simp [different]
  refine ⟨middle, dictionary', first, second, ⟨kept, fun word member => ?_⟩, keys'⟩
  rw [stored]
  split
  · rename_i here
    exact ⟨docOffset, text, right, here, rfl⟩
  · rename_i different
    rcases (keys' word).mp member with old | here
    · exact indexed.entries word old
    · exact absurd here different

/-- A lookup of an offset ends well, and finds an entry if the offset passes for one that is
there. -/
theorem DocIndexed.get {dictionary : IrsDictionary DocValue} (indexed : DocIndexed Text dictionary)
    (docOffset : UInt64) :
    ∃ list, irsDictionaryGet dictionary (decimal docOffset) = .ok list ∧
      (list.isSome ↔ ∃ word ∈ keys irsCharToIrsInt dictionary.root,
        Passes (keys irsCharToIrsInt dictionary.root) word (decimal docOffset)) := by
  obtain ⟨list, get, -, spec⟩ :=
    get_spec indexed.kept (fun ch => And.left) (decimal_admitted docOffset)
  refine ⟨list, get, ?_⟩
  constructor
  · intro found
    obtain ⟨values, rfl⟩ := Option.isSome_iff_exists.mp found
    obtain ⟨-, word, ⟨rfl, present⟩, passes⟩ := (spec values).mp rfl
    exact ⟨word, present, passes⟩
  · rintro ⟨word, present, passes⟩
    rw [(spec _).mpr ⟨length_decimal docOffset, word, ⟨rfl, present⟩, passes⟩]
    rfl

/-! ### The state -/

variable {F : Type} [IrsFloat F]

def docsNumber (documentOffsetMap : List (Bytes × UInt64)) (term : Bytes) : UInt64 :=
  (listSize (irsStorageGetDocumentsWithTerm term documentOffsetMap)).toUInt64

/-- A text of the significancy of the term in the document at the offset. The reverse frequency
in it is that of some token. -/
def SignificancyText (F : Type) [IrsFloat F] (documentOffsetMap : List (Bytes × UInt64))
    (term : Bytes) (docOffset : UInt64) (text : Bytes) : Prop :=
  ∃ document latest, (document, docOffset) ∈ documentOffsetMap ∧
    term ∈ irsStorageGetDocumentTerms document ∧
    latest ∈ tokensOf (documentOffsetMap.map Prod.fst) ∧
    text = IrsFloat.toStrFloat (irsStorageCalculateTermSignificancy
      (irsStorageCalculateTermFrequency term (irsStorageGetDocumentTerms document))
      (irsStorageCalculateTermReverseFrequency (listSize documentOffsetMap).toUInt64
        (docsNumber documentOffsetMap latest)) : F)

/-- The state after these terms. Both dictionaries have them, and each leads to its own dictionary
of documents. -/
structure TermsAssigned (ok : UInt8 → Prop) (documentOffsetMap : List (Bytes × UInt64))
    (terms : List Bytes) (state : AssignState F) : Prop where
  frequencies : Kept ok state.termsReverseFrequency
  frequencyKeys : keys irsCharToIrsInt state.termsReverseFrequency.root = {term | term ∈ terms}
  significancies : Kept ok state.termsDocSignificancy
  lists : ∀ term, contents irsCharToIrsInt state.termsDocSignificancy.root term =
    if term ∈ terms then
      [.docOffsetDictionary (terms.eraseDups.idxOf term), .term term,
        .docsWithTerm (docsNumber documentOffsetMap term)]
    else []
  number : state.docDictionaries.length = terms.eraseDups.length
  dictionaries : ∀ term ∈ terms, ∃ dictionary, state.docDictionaries[terms.eraseDups.idxOf term]? =
    some dictionary ∧
    DocIndexed (SignificancyText F documentOffsetMap term) dictionary
  cell : state.reverseFrequency = (newest terms).map fun term =>
    irsStorageCalculateTermReverseFrequency (listSize documentOffsetMap).toUInt64
      (docsNumber documentOffsetMap term)

def EntriesAre (terms : List Bytes) (stored : Bytes → UInt64 → Prop) (state : AssignState F)
    (term : Bytes) : Prop :=
  ∀ dictionary, state.docDictionaries[terms.eraseDups.idxOf term]? = some dictionary →
    ∀ docOffset, decimal docOffset ∈ keys irsCharToIrsInt dictionary.root ↔ stored term docOffset

/-- The state after these terms, with these entries made for the clear ones. -/
structure Assigned (documentOffsetMap : List (Bytes × UInt64)) (terms : List Bytes)
    (stored : Bytes → UInt64 → Prop) (state : AssignState F) :
    Prop extends TermsAssigned Admitted documentOffsetMap terms state where
  entries : ∀ term ∈ terms, Clear documentOffsetMap term → EntriesAre terms stored state term

structure AssignedExactly (ok : UInt8 → Prop) (documentOffsetMap : List (Bytes × UInt64))
    (terms : List Bytes) (stored : Bytes → UInt64 → Prop) (state : AssignState F) :
    Prop extends TermsAssigned ok documentOffsetMap terms state where
  entries : ∀ term ∈ terms, EntriesAre terms stored state term

variable {ok : UInt8 → Prop} {documentOffsetMap : List (Bytes × UInt64)} {terms : List Bytes}
  {stored stored' : Bytes → UInt64 → Prop} {state : AssignState F} {term : Bytes}

theorem assignedExactly_assignInitialize (stored : Bytes → UInt64 → Prop) :
    AssignedExactly ok documentOffsetMap [] stored (assignInitialize : AssignState F) where
  frequencies := kept_freshDictionary
  frequencyKeys := keys_freshDictionary.trans (by simp)
  significancies := kept_freshDictionary
  lists := fun term => (contents_freshDictionary term).trans (by simp)
  number := rfl
  dictionaries := by simp
  cell := rfl
  entries := by simp

theorem TermsAssigned.keys_eq (assigned : TermsAssigned ok documentOffsetMap terms state) :
    keys irsCharToIrsInt state.termsDocSignificancy.root = {term | term ∈ terms} := by
  ext term
  rw [mem_keys, assigned.lists, Set.mem_ofPred_eq]
  split <;> simp [*]

theorem AssignedExactly.congr (assigned : AssignedExactly ok documentOffsetMap terms stored state)
    (same : ∀ term docOffset, stored term docOffset ↔ stored' term docOffset) :
    AssignedExactly ok documentOffsetMap terms stored' state where
  toTermsAssigned := assigned.toTermsAssigned
  entries := fun term member dictionary located docOffset =>
    (assigned.entries term member dictionary located docOffset).trans (same term docOffset)

theorem AssignedExactly.assigned
    (assigned : AssignedExactly Admitted documentOffsetMap terms stored state)
    (same : ∀ term, Clear documentOffsetMap term → ∀ docOffset, stored term docOffset ↔
      stored' term docOffset) :
    Assigned documentOffsetMap terms stored' state where
  toTermsAssigned := assigned.toTermsAssigned
  entries := fun term member clear dictionary located docOffset =>
    (assigned.entries term member dictionary located docOffset).trans (same term clear docOffset)

theorem mem_concat_old (old : term ∈ terms) (other : Bytes) : other ∈ terms ++ [term] ↔
    other ∈ terms := by
  rw [List.mem_append, List.mem_singleton]
  exact ⟨fun either => either.elim id fun same => same ▸ old, Or.inl⟩

theorem TermsAssigned.again (assigned : TermsAssigned ok documentOffsetMap terms state)
    (old : term ∈ terms) :
    TermsAssigned ok documentOffsetMap (terms ++ [term]) state where
  frequencies := assigned.frequencies
  frequencyKeys := by simpa only [mem_concat_old old] using assigned.frequencyKeys
  significancies := assigned.significancies
  lists := by simpa only [mem_concat_old old, eraseDups_concat_old old] using assigned.lists
  number := by simpa only [eraseDups_concat_old old] using assigned.number
  dictionaries := by
    simpa only [mem_concat_old old, eraseDups_concat_old old] using assigned.dictionaries
  cell := by simpa only [newest, eraseDups_concat_old old] using assigned.cell

theorem AssignedExactly.again (assigned : AssignedExactly ok documentOffsetMap terms stored state)
    (old : term ∈ terms) :
    AssignedExactly ok documentOffsetMap (terms ++ [term]) stored state where
  toTermsAssigned := assigned.toTermsAssigned.again old
  entries := by simpa only [mem_concat_old old, EntriesAre, eraseDups_concat_old old]
    using assigned.entries

/-! ### Lookups -/

omit [IrsFloat F] in
theorem isAssigned_absent {docOffsetStr : Bytes}
    (significancy : irsDictionaryGet state.termsDocSignificancy term = .ok none) :
    isAssigned state docOffsetStr term = .ok false := by
  simp only [isAssigned, significancy, ok_bind]

omit [IrsFloat F] in
theorem isAssigned_present {docOffsetStr : Bytes} {index : Nat} {rest : List TermDocValue}
    {dictionary : IrsDictionary DocValue} {found : Option (List DocValue)}
    (significancy : irsDictionaryGet state.termsDocSignificancy term =
      .ok (some (.docOffsetDictionary index :: rest)))
    (located : state.docDictionaries[index]? = some dictionary)
    (get : irsDictionaryGet dictionary docOffsetStr = .ok found) :
    isAssigned state docOffsetStr term = .ok found.isSome := by
  simp only [isAssigned, significancy, ok_bind, firstDictionary, docDictionaryAt, located, get]

structure Next (ok : UInt8 → Prop) (terms : List Bytes) (term : Bytes) : Prop where
  bytes : ∀ ch ∈ term, ok ch
  noNul : ∀ ch, ok ch → ch ≠ 0
  short : term.length < 2 ^ 32
  noClash : ¬Clash SameFold {k | k ∈ terms} term
  unconfused : term ∉ terms → ∀ k ∈ terms, ¬Passes {k | k ∈ terms} k term

theorem TermsAssigned.get (assigned : TermsAssigned ok documentOffsetMap terms state)
    (noNul : ∀ ch, ok ch → ch ≠ 0) (termNoNul : ∀ ch ∈ term, ch ≠ 0) (short : term.length < 2 ^ 32)
    (old : term ∈ terms) :
    irsDictionaryGet state.termsDocSignificancy term =
      .ok (some [.docOffsetDictionary (terms.eraseDups.idxOf term), .term term,
      .docsWithTerm (docsNumber documentOffsetMap term)]) := by
  have list := assigned.lists term
  rw [if_pos old] at list
  have get := (get_stored assigned.significancies noNul termNoNul short (by rw [list]; simp)).1
  rw [get, list]

theorem TermsAssigned.get_old (assigned : TermsAssigned ok documentOffsetMap terms state)
    (next : Next ok terms term) (old : term ∈ terms) :
    irsDictionaryGet state.termsDocSignificancy term =
      .ok (some [.docOffsetDictionary (terms.eraseDups.idxOf term), .term term,
      .docsWithTerm (docsNumber documentOffsetMap term)]) :=
  assigned.get next.noNul (fun ch member => next.noNul ch (next.bytes ch member)) next.short old

theorem TermsAssigned.frequency_old (assigned : TermsAssigned ok documentOffsetMap terms state)
    (next : Next ok terms term) (old : term ∈ terms) :
    ∃ list, irsDictionaryGet state.termsReverseFrequency term = .ok (some list) := by
  have member : term ∈ keys irsCharToIrsInt state.termsReverseFrequency.root := by
    rw [assigned.frequencyKeys]; exact old
  exact ⟨_, (get_stored assigned.frequencies next.noNul
    (fun ch inside => next.noNul ch (next.bytes ch inside)) next.short member).1⟩

theorem Next.absent {α : Type} {dictionary : IrsDictionary α} {list : Option (List α)}
    (next : Next ok terms term) (new : term ∉ terms) (kept : Kept ok dictionary)
    (same : keys irsCharToIrsInt dictionary.root = {term | term ∈ terms})
    (get : irsDictionaryGet dictionary term = .ok list) : list = none :=
  get_absent_returned kept next.noNul (fun ch member => next.noNul ch (next.bytes ch member))
    (by rw [same]; exact next.unconfused new) get

/-- The calls for a new term return: no child is chosen by the byte `0x7F`. -/
structure Allows (state : AssignState F) (term : Bytes) : Prop where
  getSignificancy : ∃ list, irsDictionaryGet state.termsDocSignificancy term = .ok list
  getFrequency : ∃ list, irsDictionaryGet state.termsReverseFrequency term = .ok list
  appendFrequency : ∃ dictionary, appendKey state.termsReverseFrequency term () = .ok dictionary
  append : ∃ dictionary,
    appendKey state.termsDocSignificancy term (.docOffsetDictionary state.docDictionaries.length) =
    .ok dictionary

theorem TermsAssigned.allows (assigned : TermsAssigned Admitted documentOffsetMap terms state)
    (bytes : ∀ ch ∈ term, Admitted ch) : Allows state term where
  getSignificancy :=
    (get_spec assigned.significancies (fun _ => And.left) bytes).imp fun _ => And.left
  getFrequency := (get_spec assigned.frequencies (fun _ => And.left) bytes).imp fun _ => And.left
  appendFrequency := appendKey_total () assigned.frequencies bytes
  append := appendKey_total _ assigned.significancies bytes

/-! ### Entering a term -/

def enterTerm (documentOffsetMap : List (Bytes × UInt64)) (state : AssignState F) (term : Bytes) :
    Except Fault (AssignState F × Nat) := do
  let (state, docWithTermOffsetsSize) ← assignReverseFrequency documentOffsetMap state term
  assignDocDictionary state term docWithTermOffsetsSize

theorem enterTerm_present {list : List Unit} {index : Nat} {rest : List TermDocValue}
    (frequency : irsDictionaryGet state.termsReverseFrequency term = .ok (some list))
    (significancy : irsDictionaryGet state.termsDocSignificancy term =
      .ok (some (.docOffsetDictionary index :: rest))) :
    enterTerm documentOffsetMap state term = .ok (state, index) := by
  simp only [enterTerm, assignReverseFrequency, frequency, ok_bind, assignDocDictionary,
    significancy, firstDictionary]

/-- A term that is in neither dictionary is appended to both, to the second one with its three
values. -/
theorem enterTerm_absent {frequencies : IrsDictionary Unit}
    {significancies : IrsDictionary TermDocValue}
    (frequency : irsDictionaryGet state.termsReverseFrequency term = .ok none)
    (significancy : irsDictionaryGet state.termsDocSignificancy term = .ok none)
    (frequencyRun : appendKey state.termsReverseFrequency term () = .ok frequencies)
    (run : [.docOffsetDictionary state.docDictionaries.length, .term term,
      .docsWithTerm (docsNumber documentOffsetMap term)].foldlM
      (fun dictionary value => appendKey dictionary term value) state.termsDocSignificancy =
        .ok significancies) :
    enterTerm documentOffsetMap state term = .ok ({ state with
      termsReverseFrequency := frequencies
      termsDocSignificancy := significancies
      docDictionaries := state.docDictionaries ++ [freshDictionary]
      reverseFrequency :=
        some (irsStorageCalculateTermReverseFrequency (listSize documentOffsetMap).toUInt64
        (docsNumber documentOffsetMap term)) }, state.docDictionaries.length) := by
  obtain ⟨one, first, run⟩ := foldlM_cons_ok.mp run
  obtain ⟨two, second, run⟩ := foldlM_cons_ok.mp run
  obtain ⟨_, third, done⟩ := foldlM_cons_ok.mp run
  cases done
  simp only [enterTerm, assignReverseFrequency, frequency, frequencyRun, ok_bind,
    assignDocDictionary, significancy, first, second]
  rw [show (listSize (irsStorageGetDocumentsWithTerm term documentOffsetMap)).toUInt64 =
    docsNumber documentOffsetMap term from rfl, third]
  rfl

theorem TermsAssigned.enterTerm_old (assigned : TermsAssigned ok documentOffsetMap terms state)
    (next : Next ok terms term) (old : term ∈ terms) :
    enterTerm documentOffsetMap state term = .ok (state, terms.eraseDups.idxOf term) := by
  obtain ⟨list, frequency⟩ := assigned.frequency_old next old
  exact enterTerm_present frequency (assigned.get_old next old)

/-- Where entering a new term returned, its calls did. -/
theorem TermsAssigned.allows_of_enterTerm {result : AssignState F × Nat}
    (assigned : TermsAssigned ok documentOffsetMap terms state) (next : Next ok terms term)
    (new : term ∉ terms) {list : Option (List TermDocValue)}
    (get : irsDictionaryGet state.termsDocSignificancy term = .ok list)
    (enter : enterTerm documentOffsetMap state term = .ok result) : Allows state term := by
  obtain rfl := next.absent new assigned.significancies assigned.keys_eq get
  obtain ⟨⟨middle, number⟩, frequency, run⟩ := bind_ok.mp enter
  obtain ⟨found, getFrequency, frequency⟩ := bind_ok.mp frequency
  obtain rfl := next.absent new assigned.frequencies assigned.frequencyKeys getFrequency
  obtain ⟨dictionary, appendFrequency, done⟩ := bind_ok.mp frequency
  cases done
  obtain ⟨found, again, run⟩ := bind_ok.mp run
  cases get.symm.trans again
  obtain ⟨dictionary', append, -⟩ := bind_ok.mp run
  exact ⟨⟨_, get⟩, ⟨_, getFrequency⟩, ⟨_, appendFrequency⟩, ⟨_, append⟩⟩

theorem AssignedExactly.enterTerm_new
    (assigned : AssignedExactly ok documentOffsetMap terms stored state) (next : Next ok terms term)
    (new : term ∉ terms) (allows : Allows state term)
    (nothing : ∀ docOffset, ¬stored term docOffset) :
    ∃ state', enterTerm documentOffsetMap state term =
      .ok (state', (terms ++ [term]).eraseDups.idxOf term) ∧
      state'.docDictionaries[(terms ++ [term]).eraseDups.idxOf term]? = some freshDictionary ∧
      AssignedExactly ok documentOffsetMap (terms ++ [term]) stored state' := by
  have noClash : ¬Clash SameFold (keys irsCharToIrsInt state.termsReverseFrequency.root) term := by
    rw [assigned.frequencyKeys]
    exact next.noClash
  have noClash' : ¬Clash SameFold (keys irsCharToIrsInt state.termsDocSignificancy.root) term := by
    rw [assigned.keys_eq]
    exact next.noClash
  obtain ⟨_, getFrequency⟩ := allows.getFrequency
  obtain rfl := next.absent new assigned.frequencies assigned.frequencyKeys getFrequency
  obtain ⟨_, getSignificancy⟩ := allows.getSignificancy
  obtain rfl := next.absent new assigned.significancies assigned.keys_eq getSignificancy
  obtain ⟨frequencies, run, keptFrequencies, frequencyLists⟩ :=
    appendKeys_exact assigned.frequencies next.bytes next.noNul next.short noClash
      allows.appendFrequency []
  obtain ⟨_, frequencyRun, done⟩ := foldlM_cons_ok.mp run
  cases done
  obtain ⟨significancies, run, keptSignificancies, lists⟩ :=
    appendKeys_exact assigned.significancies next.bytes next.noNul next.short noClash' allows.append
      [.term term, .docsWithTerm (docsNumber documentOffsetMap term)]
  have enter := enterTerm_absent getFrequency getSignificancy frequencyRun run
  have here : (terms ++ [term]).eraseDups.idxOf term = state.docDictionaries.length :=
    (idxOf_concat_new new).trans assigned.number.symm
  have last : (state.docDictionaries ++ [freshDictionary])[state.docDictionaries.length]? =
      some freshDictionary := by
    rw [List.getElem?_append_right (Nat.le_refl _), Nat.sub_self, List.getElem?_cons_zero]
  have earlier : ∀ other ∈ terms,
      (state.docDictionaries ++ [freshDictionary])[(terms ++ [term]).eraseDups.idxOf other]? =
      state.docDictionaries[terms.eraseDups.idxOf other]? := by
    intro other member
    obtain ⟨_, located, -⟩ := assigned.dictionaries other member
    rw [idxOf_concat_of_mem new member,
      List.getElem?_append_left (List.getElem?_eq_some_iff.mp located).1]
  rw [here]
  refine ⟨_, enter, last, ?_⟩
  exact {
    frequencies := keptFrequencies
    frequencyKeys := by
      ext other
      rw [mem_keys, frequencyLists, Set.mem_ofPred_eq, List.mem_append, List.mem_singleton]
      split
      · rename_i same
        simp [same]
      · rename_i different
        rw [← mem_keys, assigned.frequencyKeys]
        simp [different]
    significancies := keptSignificancies
    lists := fun other => by
      rw [lists, assigned.lists, assigned.lists, if_neg new]
      by_cases same : other = term
      · subst same
        rw [if_pos rfl, if_pos (by simp), here, List.nil_append]
      · rw [if_neg same]
        by_cases member : other ∈ terms
        · rw [if_pos member, if_pos (List.mem_append_left _ member), idxOf_concat_of_mem new member]
        · rw [if_neg member, if_neg (by simp [same, member])]
    number := by
      rw [List.length_append, assigned.number, eraseDups_concat_new new, List.length_append]
      rfl
    dictionaries := fun other member => by
      rcases List.mem_append.mp member with old | same
      · obtain ⟨dictionary, located, indexed⟩ := assigned.dictionaries other old
        exact ⟨dictionary, by rw [earlier other old, located], indexed⟩
      · obtain rfl := List.mem_singleton.mp same
        exact ⟨freshDictionary, by rw [here, last], docIndexed_freshDictionary⟩
    cell := by rw [newest_concat_new new, Option.map_some]
    entries := fun other member dictionary located docOffset => by
      rcases List.mem_append.mp member with old | same
      · exact assigned.entries other old dictionary (by rw [← earlier other old, located]) docOffset
      · obtain rfl := List.mem_singleton.mp same
        rw [here] at located
        cases last.symm.trans located
        rw [keys_freshDictionary]
        exact iff_of_false (Set.notMem_empty _) (nothing docOffset) }

/-! ### Entries -/

theorem toNat_docsNumber (few : documentOffsetMap.length < 2 ^ 32) (term : Bytes) :
    (docsNumber documentOffsetMap term).toNat = docsWith documentOffsetMap term :=
  toNat_listSize (Nat.lt_of_le_of_lt (docsWith_le documentOffsetMap term) few)

/-- The significancy at the occurrence is positive after these terms. -/
def Significant (F : Type) [IrsFloat F] (documentOffsetMap : List (Bytes × UInt64))
    (occurrence : Occurrence) (terms : List Bytes) :
    Prop :=
  ∃ latest, newest terms = some latest ∧ IrsFloat.le (irsStorageCalculateTermSignificancy
    (irsStorageCalculateTermFrequency occurrence.2 (irsStorageGetDocumentTerms occurrence.1.1))
    (irsStorageCalculateTermReverseFrequency (listSize documentOffsetMap).toUInt64
      (docsNumber documentOffsetMap latest)) : F)
    IrsFloat.zero = false

theorem significant_iff {occurrence : Occurrence} {latest : Bytes}
    (last : newest terms = some latest) :
    Significant F documentOffsetMap occurrence terms ↔
      IrsFloat.le (irsStorageCalculateTermSignificancy
      (irsStorageCalculateTermFrequency occurrence.2 (irsStorageGetDocumentTerms occurrence.1.1))
      (irsStorageCalculateTermReverseFrequency (listSize documentOffsetMap).toUInt64
        (docsNumber documentOffsetMap latest)) : F)
      IrsFloat.zero = false := by
  constructor
  · rintro ⟨other, same, positive⟩
    cases last.symm.trans same
    exact positive
  · exact fun positive => ⟨latest, last, positive⟩

theorem positive_iff {latest : Bytes} (last : newest terms = some latest) :
    Positive documentOffsetMap terms ↔
      docsWith documentOffsetMap latest ≠ documentOffsetMap.length := by
  constructor
  · rintro ⟨other, same, different⟩
    cases last.symm.trans same
    exact different
  · exact fun different => ⟨latest, last, different⟩

/-- The significancy at a token of this term is positive exactly when the current reverse frequency
is. -/
def Signed (F : Type) [IrsFloat F] (documentOffsetMap : List (Bytes × UInt64)) (term : Bytes) :
    Prop :=
  ∀ pair ∈ documentOffsetMap, term ∈ irsStorageGetDocumentTerms pair.1 →
    ∀ latest ∈ tokensOf (documentOffsetMap.map Prod.fst),
      (IrsFloat.le (irsStorageCalculateTermSignificancy
        (irsStorageCalculateTermFrequency term (irsStorageGetDocumentTerms pair.1))
        (irsStorageCalculateTermReverseFrequency (listSize documentOffsetMap).toUInt64
          (docsNumber documentOffsetMap latest)) : F)
        IrsFloat.zero = true ↔ docsWith documentOffsetMap latest = documentOffsetMap.length)

theorem Signed.significant_iff_positive {before after : List Occurrence} {pair : Bytes × UInt64}
    (signed : Signed F documentOffsetMap term)
    (split : occurrences documentOffsetMap = before ++ (pair, term) :: after) :
    Significant F documentOffsetMap (pair, term) (before.map Prod.snd ++ [term]) ↔
      Positive documentOffsetMap (before.map Prod.snd ++ [term]) := by
  obtain ⟨inMap, member⟩ := split_mem split
  obtain ⟨latest, last⟩ := exists_newest (show before.map Prod.snd ++ [term] ≠ [] by simp)
  have known := split_known split latest (newest_mem last)
  rw [significant_iff last, positive_iff last, ← Bool.not_eq_true, not_iff_not]
  exact signed pair inMap member latest known

theorem length_terms_lt {document : Bytes} {bound : Nat} (length : document.length < bound) :
    (irsStorageGetDocumentTerms document).length < bound + 1 := by
  have := length_documentTerms_le document
  omega

/-- The number of occurrences of a token is counted without a wrap. -/
theorem occurrences_counted {document : Bytes} (member : term ∈ irsStorageGetDocumentTerms document)
    (few : (irsStorageGetDocumentTerms document).length < 2 ^ 64) :
    (UInt64.ofNat ((irsStorageGetDocumentTerms document).countP fun otherTerm =>
      irsStrCmp term otherTerm)).toNat =
        ((irsStorageGetDocumentTerms document).countP fun otherTerm => irsStrCmp term otherTerm) ∧
      0 < (irsStorageGetDocumentTerms document).countP fun otherTerm =>
        irsStrCmp term otherTerm := by
  have bound := List.countP_le_length (p := fun otherTerm => irsStrCmp term otherTerm)
    (l := irsStorageGetDocumentTerms document)
  exact ⟨UInt64.toNat_ofNat_of_lt' (Nat.lt_of_le_of_lt bound few),
    List.countP_pos_iff.mpr ⟨term, member, by simp [irsStrCmp]⟩⟩

theorem signed_of_readable [LawfulIrsFloat F] (few : documentOffsetMap.length < 2 ^ 32)
    (readable : ∀ pair ∈ documentOffsetMap, term ∈ irsStorageGetDocumentTerms pair.1 →
      pair.1.length ≤ intMax) :
    Signed F documentOffsetMap term := by
  intro pair inMap member latest known
  have length : pair.1.length < 2 ^ 31 :=
    Nat.lt_of_le_of_lt (readable pair inMap member) (by decide)
  have small := length_terms_lt length
  obtain ⟨countNat, count⟩ := occurrences_counted member (small.trans (by decide))
  have bound := List.countP_le_length (p := fun otherTerm => irsStrCmp term otherTerm)
    (l := irsStorageGetDocumentTerms pair.1)
  have termsNat : (listSize (irsStorageGetDocumentTerms pair.1)).toNat =
      (irsStorageGetDocumentTerms pair.1).length :=
    UInt32.toNat_ofNat_of_lt' (small.trans (by decide))
  rw [irsStorageCalculateTermSignificancy, irsStorageCalculateTermFrequency,
    irsStorageCalculateTermReverseFrequency,
    LawfulIrsFloat.significancy _ _ _ _ (by rw [countNat]; exact count)
      (by rw [countNat, termsNat]; exact bound)
      (by rw [toNat_docsNumber few]; exact docsWith_pos known)
      (by rw [toNat_docsNumber few, toNat_listSize few]; exact docsWith_le _ _),
    ← UInt64.toNat_inj, toNat_docsNumber few, toNat_listSize few]

theorem signed_of_signedIrsFloat [SignedIrsFloat F] (few : documentOffsetMap.length < 2 ^ 32)
    (lengths : ∀ pair ∈ documentOffsetMap, pair.1.length < 2 ^ 63) (term : Bytes) :
    Signed F documentOffsetMap term := by
  intro pair inMap member latest known
  obtain ⟨countNat, count⟩ :=
    occurrences_counted member ((length_terms_lt (lengths pair inMap)).trans (by decide))
  rw [irsStorageCalculateTermSignificancy, irsStorageCalculateTermFrequency,
    irsStorageCalculateTermReverseFrequency,
    SignedIrsFloat.significancy _ _ _ _ (by rw [countNat]; exact count)
      (by rw [toNat_docsNumber few]; exact docsWith_pos known)
      (by rw [toNat_docsNumber few, toNat_listSize few]; exact docsWith_le _ _),
    ← UInt64.toNat_inj, toNat_docsNumber few, toNat_listSize few]

theorem AssignedExactly.assignSignificancy {pair : Bytes × UInt64}
    (assigned : AssignedExactly ok documentOffsetMap terms stored state) (inTerms : term ∈ terms)
    (inMap : pair ∈ documentOffsetMap) (member : term ∈ irsStorageGetDocumentTerms pair.1)
    (known : ∀ other ∈ terms, other ∈ tokensOf (documentOffsetMap.map Prod.fst))
    (absent : ∀ dictionary, state.docDictionaries[terms.eraseDups.idxOf term]? = some dictionary →
      decimal pair.2 ∉ keys irsCharToIrsInt dictionary.root) :
    ∃ state', IrsMachine.assignSignificancy state pair.2 (decimal pair.2)
      (irsStorageGetDocumentTerms pair.1) term
        (terms.eraseDups.idxOf term) = .ok state' ∧
      AssignedExactly ok documentOffsetMap terms (fun other docOffset => stored other docOffset ∨
        (other = term ∧ docOffset = pair.2 ∧ Significant F documentOffsetMap (pair, term) terms))
          state' := by
  obtain ⟨latest, last⟩ := exists_newest (List.ne_nil_of_mem inTerms)
  have cell := assigned.cell
  rw [last, Option.map_some] at cell
  have significant : Significant F documentOffsetMap (pair, term) terms ↔ _ := significant_iff last
  simp only [IrsMachine.assignSignificancy, cell]
  split
  · rename_i notPositive
    refine ⟨state, rfl, assigned.congr fun other docOffset => (or_iff_left ?_).symm⟩
    rintro ⟨rfl, rfl, positive⟩
    rw [significant, notPositive] at positive
    cases positive
  · rename_i isPositive
    rw [Bool.not_eq_true] at isPositive
    obtain ⟨dictionary, located, indexed⟩ := assigned.dictionaries term inTerms
    have found := assigned.entries term inTerms dictionary located
    obtain ⟨middle, dictionary', first, second, indexed', keys'⟩ :=
      indexed.store (absent dictionary located)
      ⟨pair.1, latest, inMap, member, known latest (newest_mem last), rfl⟩
    have inside := (List.getElem?_eq_some_iff.mp located).1
    have others : ∀ other ∈ terms, other ≠ term →
        (state.docDictionaries.set (terms.eraseDups.idxOf term)
          dictionary')[terms.eraseDups.idxOf other]? =
          state.docDictionaries[terms.eraseDups.idxOf other]? := by
      intro other otherIn different
      rw [List.getElem?_set_ne]
      intro index
      exact different ((List.idxOf_inj (List.mem_eraseDups.mpr otherIn)).mp index.symm)
    refine ⟨_, by simp only [docDictionaryAt, located, ok_bind, first, second]; rfl, ?_⟩
    exact {
      frequencies := assigned.frequencies
      frequencyKeys := assigned.frequencyKeys
      significancies := assigned.significancies
      lists := assigned.lists
      number := by simpa only [List.length_set] using assigned.number
      cell := by rw [last, Option.map_some]
      dictionaries := fun other otherIn => by
        by_cases same : other = term
        · subst same
          exact ⟨dictionary', by rw [List.getElem?_set_self inside], indexed'⟩
        · obtain ⟨dictionary'', located', indexed''⟩ := assigned.dictionaries other otherIn
          exact ⟨dictionary'', by rw [others other otherIn same, located'], indexed''⟩
      entries := fun other otherIn dictionary'' located' docOffset => by
        by_cases same : other = term
        · subst same
          rw [List.getElem?_set_self inside] at located'
          cases located'
          rw [keys', found, decimal_injective.eq_iff]
          exact or_congr Iff.rfl ⟨fun here => ⟨rfl, here, significant.mpr isPositive⟩,
            fun here => here.2.1⟩
        · rw [others other otherIn same] at located'
          exact (assigned.entries other otherIn dictionary'' located' docOffset).trans
            (by simp [same]) }

/-! ### Steps -/

theorem irsStorageAssignTerm_eq (docOffset : UInt64) (docOffsetStr : Bytes)
    (documentTerms : List Bytes) (state : AssignState F) (term : Bytes) :
    irsStorageAssignTerm documentOffsetMap docOffset docOffsetStr documentTerms state term =
      isAssigned state docOffsetStr term >>= fun assigned => if assigned then .ok state
        else enterTerm documentOffsetMap state term >>= fun entered =>
          assignSignificancy entered.1 docOffset docOffsetStr documentTerms term entered.2 := by
  simp only [irsStorageAssignTerm, enterTerm, bind_assoc]

def assignOccurrence (documentOffsetMap : List (Bytes × UInt64)) (state : AssignState F)
    (occurrence : Occurrence) :
    Except Fault (AssignState F) :=
  irsStorageAssignTerm documentOffsetMap occurrence.1.2 (IrsFloat.toStrInt (F := F) occurrence.1.2)
    (irsStorageGetDocumentTerms occurrence.1.1) state occurrence.2

/-- Where the step of a new term returned, its calls did. -/
theorem TermsAssigned.allows_of_run {occurrence : Occurrence} {state' : AssignState F}
    (assigned : TermsAssigned ok documentOffsetMap terms state) (next : Next ok terms occurrence.2)
    (new : occurrence.2 ∉ terms)
    (run : assignOccurrence documentOffsetMap state occurrence = .ok state') :
    Allows state occurrence.2 := by
  rw [assignOccurrence, irsStorageAssignTerm_eq] at run
  obtain ⟨found, isAssigned', run⟩ := bind_ok.mp run
  obtain ⟨list, get, -⟩ := bind_ok.mp isAssigned'
  obtain rfl := next.absent new assigned.significancies assigned.keys_eq get
  rw [isAssigned_absent get] at isAssigned'
  cases isAssigned'
  rw [if_neg Bool.false_ne_true] at run
  obtain ⟨entered, enter, -⟩ := bind_ok.mp run
  exact assigned.allows_of_enterTerm next new get enter

/-- The dictionary of a term has the texts of the offsets with an entry. -/
theorem AssignedExactly.keys_dictionary {dictionary : IrsDictionary DocValue}
    (assigned : AssignedExactly ok documentOffsetMap terms stored state) (member : term ∈ terms)
    (located : state.docDictionaries[terms.eraseDups.idxOf term]? = some dictionary)
    (indexed : DocIndexed (SignificancyText F documentOffsetMap term) dictionary) :
    keys irsCharToIrsInt dictionary.root =
      {key | ∃ docOffset, stored term docOffset ∧ key = decimal docOffset} := by
  have found := assigned.entries term member dictionary located
  ext key
  constructor
  · intro inside
    obtain ⟨docOffset, _, -, rfl, -⟩ := indexed.entries key inside
    exact ⟨docOffset, (found docOffset).mp inside, rfl⟩
  · rintro ⟨docOffset, entry, rfl⟩
    exact (found docOffset).mpr entry

section
variable {done rest : List Occurrence} {pair : Bytes × UInt64}

/-- A known term gets an entry for the document, unless its offset passes for one with an entry. -/
theorem AssignedExactly.assignOccurrence_old
    (split : occurrences documentOffsetMap = done ++ (pair, term) :: rest)
    (digits : IrsFloat.toStrInt (F := F) pair.2 = decimal pair.2)
    (next : Next ok (done.map Prod.snd) term) (old : term ∈ done.map Prod.snd)
    (assigned : AssignedExactly ok documentOffsetMap (done.map Prod.snd)
      (EntryMade (Significant F documentOffsetMap) done) state) :
    ∃ state', IrsMachine.assignOccurrence documentOffsetMap state (pair, term) = .ok state' ∧
      AssignedExactly ok documentOffsetMap (done.map Prod.snd ++ [term])
        (EntryMade (Significant F documentOffsetMap) (done ++ [(pair, term)])) state' := by
  obtain ⟨inMap, member⟩ := split_mem split
  obtain ⟨dictionary, located, indexed⟩ := assigned.dictionaries term old
  have made := assigned.keys_dictionary old located indexed
  obtain ⟨list, get, confused⟩ := indexed.get pair.2
  rw [IrsMachine.assignOccurrence, irsStorageAssignTerm_eq, digits,
    isAssigned_present (assigned.get_old next old) located get, ok_bind]
  cases list with
  | some values =>
    refine ⟨state, rfl, (assigned.again old).congr fun other docOffset => ?_⟩
    rw [entryMade_concat, or_iff_left]
    rintro ⟨rfl, -, -, apart⟩
    obtain ⟨word, inside, passes⟩ := confused.mp rfl
    rw [made] at inside passes
    obtain ⟨docOffset, entry, rfl⟩ := inside
    exact apart docOffset entry passes
  | none =>
    have apart : ∀ word ∈ keys irsCharToIrsInt dictionary.root,
        ¬Passes (keys irsCharToIrsInt dictionary.root) word (decimal pair.2) :=
      fun word inside passes => absurd (confused.mpr ⟨word, inside, passes⟩) (by simp)
    have same := eraseDups_concat_old old
    have absent : ∀ dictionary', state.docDictionaries[(done.map Prod.snd ++
        [term]).eraseDups.idxOf term]? = some dictionary' →
        decimal pair.2 ∉ keys irsCharToIrsInt dictionary'.root := by
      intro dictionary' located' inside
      rw [same, located] at located'
      cases located'
      exact apart _ inside (passes_refl _ _)
    obtain ⟨state', run, assigned'⟩ := (assigned.again old).assignSignificancy (by simp) inMap
      member (split_known split) absent
    rw [same] at run
    refine ⟨state',
      by simp only [assigned.enterTerm_old next old, ok_bind, Option.isSome_none]; exact run, ?_⟩
    apply assigned'.congr
    intro other docOffset
    rw [entryMade_concat]
    refine or_congr Iff.rfl ⟨?_, fun here => ⟨here.1, here.2.1, here.2.2.1⟩⟩
    rintro ⟨rfl, here, positive⟩
    refine ⟨rfl, here, positive, fun docOffset entry passes => ?_⟩
    rw [← made] at passes
    exact apart _ (made ▸ ⟨docOffset, entry, rfl⟩) passes

theorem AssignedExactly.assignOccurrence_new
    (split : occurrences documentOffsetMap = done ++ (pair, term) :: rest)
    (digits : IrsFloat.toStrInt (F := F) pair.2 = decimal pair.2)
    (next : Next ok (done.map Prod.snd) term) (new : term ∉ done.map Prod.snd)
    (allows : Allows state term)
    (assigned : AssignedExactly ok documentOffsetMap (done.map Prod.snd)
      (EntryMade (Significant F documentOffsetMap) done) state) :
    ∃ state', IrsMachine.assignOccurrence documentOffsetMap state (pair, term) = .ok state' ∧
      AssignedExactly ok documentOffsetMap (done.map Prod.snd ++ [term])
        (EntryMade (Significant F documentOffsetMap) (done ++ [(pair, term)])) state' := by
  obtain ⟨inMap, member⟩ := split_mem split
  obtain ⟨_, get⟩ := allows.getSignificancy
  obtain rfl := next.absent new assigned.significancies assigned.keys_eq get
  have nothing : ∀ docOffset, ¬EntryMade (Significant F documentOffsetMap) done term docOffset :=
    fun docOffset made => new made.entryDue.mem_terms
  obtain ⟨middle, enter, located, assigned'⟩ := assigned.enterTerm_new next new allows nothing
  have absent : ∀ dictionary, middle.docDictionaries[(done.map Prod.snd ++
      [term]).eraseDups.idxOf term]? = some dictionary →
      decimal pair.2 ∉ keys irsCharToIrsInt dictionary.root := by
    intro dictionary located'
    rw [located] at located'
    cases located'
    rw [keys_freshDictionary]
    exact Set.notMem_empty _
  obtain ⟨state', run, assigned''⟩ :=
    assigned'.assignSignificancy (by simp) inMap member (split_known split) absent
  rw [IrsMachine.assignOccurrence, irsStorageAssignTerm_eq, digits, isAssigned_absent get]
  refine ⟨state', by simp only [enter, ok_bind]; exact run, ?_⟩
  apply assigned''.congr
  intro other docOffset
  rw [entryMade_concat]
  refine or_congr Iff.rfl ⟨?_, fun here => ⟨here.1, here.2.1, here.2.2.1⟩⟩
  rintro ⟨same, here, positive⟩
  exact ⟨same, here, positive, fun docOffset made => absurd made (nothing docOffset)⟩

theorem AssignedExactly.assignOccurrence
    (split : occurrences documentOffsetMap = done ++ (pair, term) :: rest)
    (digits : IrsFloat.toStrInt (F := F) pair.2 = decimal pair.2)
    (next : Next ok (done.map Prod.snd) term)
    (allows : term ∉ done.map Prod.snd → Allows state term)
    (assigned : AssignedExactly ok documentOffsetMap (done.map Prod.snd)
      (EntryMade (Significant F documentOffsetMap) done) state) :
    ∃ state', IrsMachine.assignOccurrence documentOffsetMap state (pair, term) = .ok state' ∧
      AssignedExactly ok documentOffsetMap ((done ++ [(pair, term)]).map Prod.snd)
        (EntryMade (Significant F documentOffsetMap) (done ++ [(pair, term)])) state' := by
  rw [List.map_append, List.map_singleton]
  by_cases old : term ∈ done.map Prod.snd
  · exact assigned.assignOccurrence_old split digits next old
  · exact assigned.assignOccurrence_new split digits next old (allows old)

end

/-! ### Runs -/

/-- The tokens are not mixed up as they come. -/
structure TokensTold (terms : List Bytes) : Prop where
  short : ∀ term ∈ terms, term.length < 2 ^ 32
  unmixed : Unmixed SameFold terms
  unconfused : Unconfused terms

/-- The tokens are not mixed up, as they come and in the order of the traversal. -/
structure TokensApart (terms : List Bytes) : Prop extends TokensTold terms where
  ordered : ∀ term ∈ terms,
    ¬Clash SameFold (Earlier (SlotLt irsCharToIrsInt) {k | k ∈ terms} term) term

theorem TokensTold.next {done rest : List Bytes} (told : TokensTold (done ++ term :: rest))
    (bytes : ∀ ch ∈ term, ok ch) (noNul : ∀ ch, ok ch → ch ≠ 0) : Next ok done term where
  bytes := bytes
  noNul := noNul
  short := told.short term (by simp)
  noClash := told.unmixed.last
  unconfused := told.unconfused done term rest rfl

/-- The loops over the documents and their terms are one loop over the occurrences. -/
theorem irsStorageAssignTermsInDocuments_eq (documentOffsetMap : List (Bytes × UInt64)) :
    irsStorageAssignTermsInDocuments (F := F) documentOffsetMap =
      (occurrences documentOffsetMap).foldlM
        (assignOccurrence documentOffsetMap) assignInitialize := by
  rw [irsStorageAssignTermsInDocuments, occurrences, foldlM_flatMap]
  congr 1
  funext state pair
  rw [irsStorageAssignDocument, List.foldlM_map]
  rfl

/-- The loop goes on as long as it allows the terms that are new. -/
theorem assignOccurrences_exactly
    (digits : ∀ pair ∈ documentOffsetMap, IrsFloat.toStrInt (F := F) pair.2 = decimal pair.2)
    (bytes : ∀ term ∈ tokensOf (documentOffsetMap.map Prod.fst), ∀ ch ∈ term, ok ch)
    (noNul : ∀ ch, ok ch → ch ≠ 0) (told : TokensTold (tokensOf (documentOffsetMap.map Prod.fst)))
    {done rest : List Occurrence} (split : occurrences documentOffsetMap = done ++ rest)
    (allows : ∀ before occurrence after,
      ∀ state : AssignState F, done = before ++ occurrence :: after →
      before.foldlM (assignOccurrence documentOffsetMap) assignInitialize = .ok state →
      TermsAssigned ok documentOffsetMap (before.map Prod.snd) state →
      Next ok (before.map Prod.snd) occurrence.2 →
      occurrence.2 ∉ before.map Prod.snd → Allows state occurrence.2) :
    ∃ state : AssignState F, done.foldlM (assignOccurrence documentOffsetMap) assignInitialize =
      .ok state ∧
      AssignedExactly ok documentOffsetMap (done.map Prod.snd)
        (EntryMade (Significant F documentOffsetMap) done) state := by
  induction done using List.reverseRecOn generalizing rest with
  | nil => exact ⟨_, rfl, assignedExactly_assignInitialize _⟩
  | append_singleton done occurrence ih =>
    obtain ⟨pair, term⟩ := occurrence
    rw [List.append_assoc, List.singleton_append] at split
    obtain ⟨state, before, assigned⟩ := ih split fun front occurrence back state split' =>
      allows front occurrence (back ++ [(pair, term)]) state
        (by rw [split', List.append_assoc, List.cons_append])
    have tokens := map_snd_occurrences documentOffsetMap
    rw [split, List.map_append, List.map_cons] at tokens
    have next : Next ok (done.map Prod.snd) term :=
      (tokens ▸ told).next (bytes term (tokens ▸ by simp)) noNul
    obtain ⟨state', step, assigned'⟩ :=
      assigned.assignOccurrence split (digits pair (split_mem split).1) next
      (allows done (pair, term) [] state rfl before assigned.toTermsAssigned next)
    exact ⟨state', foldlM_concat_ok.mpr ⟨state, before, step⟩, assigned'⟩

theorem irsStorageAssignTermsInDocuments_exactly
    (digits : ∀ pair ∈ documentOffsetMap, IrsFloat.toStrInt (F := F) pair.2 = decimal pair.2)
    (admitted : ∀ term ∈ tokensOf (documentOffsetMap.map Prod.fst), ∀ ch ∈ term, Admitted ch)
    (told : TokensTold (tokensOf (documentOffsetMap.map Prod.fst))) :
    ∃ state : AssignState F, irsStorageAssignTermsInDocuments documentOffsetMap = .ok state ∧
      AssignedExactly Admitted documentOffsetMap (tokensOf (documentOffsetMap.map Prod.fst))
        (EntryMade (Significant F documentOffsetMap) (occurrences documentOffsetMap)) state := by
  rw [irsStorageAssignTermsInDocuments_eq, ← map_snd_occurrences]
  exact assignOccurrences_exactly digits admitted (fun ch => And.left) told (List.append_nil _).symm
    fun _ _ _ _ _ _ assigned next _ => assigned.allows next.bytes

/-- Whatever bytes the tokens have, a run that returns has assigned them exactly. -/
theorem irsStorageAssignTermsInDocuments_returned
    (digits : ∀ pair ∈ documentOffsetMap, IrsFloat.toStrInt (F := F) pair.2 = decimal pair.2)
    (told : TokensTold (tokensOf (documentOffsetMap.map Prod.fst)))
    (run : irsStorageAssignTermsInDocuments documentOffsetMap = .ok state) :
    AssignedExactly (· ≠ 0) documentOffsetMap (tokensOf (documentOffsetMap.map Prod.fst))
      (EntryMade (Significant F documentOffsetMap) (occurrences documentOffsetMap)) state := by
  rw [irsStorageAssignTermsInDocuments_eq] at run
  rw [← map_snd_occurrences]
  have tokens : ∀ term ∈ tokensOf (documentOffsetMap.map Prod.fst), ∀ ch ∈ term, ch ≠ 0 :=
    fun term member => token_noNul member
  obtain ⟨state', run', assigned⟩ :=
    assignOccurrences_exactly digits tokens (fun ch noNul => noNul) told
    (List.append_nil _).symm fun before occurrence after state split first assigned next new => by
      rw [split, foldlM_append_ok] at run
      obtain ⟨_, first', rest⟩ := run
      cases first.symm.trans first'
      obtain ⟨_, step, -⟩ := foldlM_cons_ok.mp rest
      exact assigned.allows_of_run next new step
  cases run.symm.trans run'
  exact assigned

theorem irsStorageAssignTermsInDocuments_ok [LawfulIrsFloat F]
    (few : documentOffsetMap.length < 2 ^ 32)
    (small : ∀ pair ∈ documentOffsetMap, pair.2.toNat < 2 ^ 53)
    (admitted : ∀ term ∈ tokensOf (documentOffsetMap.map Prod.fst), ∀ ch ∈ term, Admitted ch)
    (apart : TokensApart (tokensOf (documentOffsetMap.map Prod.fst))) :
    ∃ state : AssignState F, irsStorageAssignTermsInDocuments documentOffsetMap = .ok state ∧
      Assigned documentOffsetMap (tokensOf (documentOffsetMap.map Prod.fst))
        (Stored documentOffsetMap (occurrences documentOffsetMap)) state := by
  obtain ⟨state, run, assigned⟩ := irsStorageAssignTermsInDocuments_exactly (F := F)
    (fun pair inMap => LawfulIrsFloat.toStrInt pair.2 (small pair inMap)) admitted
      apart.toTokensTold
  refine ⟨state, run, assigned.assigned fun term clear docOffset => ?_⟩
  have signed : Signed F documentOffsetMap term := signed_of_readable few clear.readable
  rw [← entryMade_iff_stored clear (List.append_nil _).symm]
  exact entryMade_congr (fun before pair after => signed.significant_iff_positive) docOffset

end IrsMachine
