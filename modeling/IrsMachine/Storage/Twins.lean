import IrsMachine.Storage.Frequencies

/-!
# The two dictionaries of the indexer

A term that is in one of the two dictionaries is in the other: an iteration appends its term to
both or to neither, and where they file a term does not depend on the values that they hold.
-/

namespace IrsMachine
open IrsDictionaryNode Except Multimap Words

variable {F : Type} [IrsFloat F]

def termValues (documentOffsetMap : List (Bytes × UInt64)) (index : Nat) (term : Bytes) :
    List TermDocValue :=
  [.docOffsetDictionary index, .term term, .docsWithTerm (docsNumber documentOffsetMap term)]

/-- One iteration set up the dictionary at the index and pushed these values for its term. They
were the first for the word. -/
def PushedTogether (F : Type) [IrsFloat F] (documentOffsetMap : List (Bytes × UInt64))
    (done : List Occurrence) (word : Bytes) (index : Nat) (term : Bytes) : Prop :=
  ∃ before pair after, ∃ state entered : AssignState F, done = before ++ (pair, term) :: after ∧
    before.foldlM (assignOccurrence documentOffsetMap) assignInitialize = .ok state ∧
    Computes documentOffsetMap state (pair, term) entered ∧
    index = state.docDictionaries.length ∧
    entered.docDictionaries = state.docDictionaries ++ [freshDictionary] ∧
    contents irsCharToIrsInt state.termsDocSignificancy.root word = [] ∧
    contents irsCharToIrsInt entered.termsDocSignificancy.root word =
    termValues documentOffsetMap index term

theorem PushedTogether.append {documentOffsetMap : List (Bytes × UInt64)} {done : List Occurrence}
    {word term : Bytes} {index : Nat}
    (pushed : PushedTogether F documentOffsetMap done word index term) (more : List Occurrence) :
    PushedTogether F documentOffsetMap (done ++ more) word index term := by
  obtain ⟨before, pair, after, state, entered, rfl, rest⟩ := pushed
  exact ⟨before, pair, after ++ more, state, entered, by simp, rest⟩

structure Storing (F : Type) [IrsFloat F] (documentOffsetMap : List (Bytes × UInt64))
    (P : IrsDictionary DocValue → Prop) : Prop where
  texts : ∀ pair ∈ documentOffsetMap, ∀ ch ∈ IrsFloat.toStrInt (F := F) pair.2, Admitted ch
  fresh : P freshDictionary
  kept : ∀ dictionary, P dictionary → Kept Admitted dictionary
  store : ∀ pair ∈ documentOffsetMap, ∀ dictionary (significancy : F), P dictionary →
    irsDictionaryGet dictionary (IrsFloat.toStrInt (F := F) pair.2) = .ok none →
    ∃ middle dictionary', appendKey dictionary (IrsFloat.toStrInt (F := F) pair.2)
      (.offset pair.2) = .ok middle ∧
      appendKey middle (IrsFloat.toStrInt (F := F) pair.2)
        (.significancy (IrsFloat.toStrFloat significancy)) = .ok dictionary' ∧
      P dictionary'

structure Twins (P : IrsDictionary DocValue → Prop) (documentOffsetMap : List (Bytes × UInt64))
    (done : List Occurrence) (state : AssignState F) : Prop where
  frequencies : Kept Admitted state.termsReverseFrequency
  significancies : Kept Admitted state.termsDocSignificancy
  alike : outline state.termsReverseFrequency = outline state.termsDocSignificancy
  lists : ∀ word, contents irsCharToIrsInt state.termsDocSignificancy.root word ≠ [] →
    ∃ index term later,
    contents irsCharToIrsInt state.termsDocSignificancy.root word =
    termValues documentOffsetMap index term ++ later ∧
    index < state.docDictionaries.length ∧ PushedTogether F documentOffsetMap done word index term
  dictionaries : ∀ dictionary ∈ state.docDictionaries, P dictionary
  cell : ∀ word, contents irsCharToIrsInt state.termsReverseFrequency.root word ≠ [] →
    ∃ reverseFrequency,
    state.reverseFrequency = some reverseFrequency

variable {P : IrsDictionary DocValue → Prop} {documentOffsetMap : List (Bytes × UInt64)}
  {done : List Occurrence}
  {state : AssignState F} {pair : Bytes × UInt64} {term : Bytes}

theorem twins_assignInitialize :
    Twins P documentOffsetMap [] (assignInitialize : AssignState F) where
  frequencies := kept_freshDictionary
  significancies := kept_freshDictionary
  alike := (outline_freshDictionary (α := Unit)).trans
    (outline_freshDictionary (α := TermDocValue)).symm
  lists := fun word present => absurd (contents_freshDictionary word) present
  dictionaries := by simp [assignInitialize]
  cell := fun word present => absurd (contents_freshDictionary word) present

/-! ### Lookups -/

theorem get_ok {α : Type} {dictionary : IrsDictionary α} {irsString : Bytes}
    (kept : Kept Admitted dictionary) (bytes : ∀ ch ∈ irsString, Admitted ch) :
    ∃ list, irsDictionaryGet dictionary irsString = .ok list ∧
      ∀ values, list = some values →
      ∃ word, contents irsCharToIrsInt dictionary.root word = values ∧ values ≠ [] := by
  obtain ⟨list, get, -, spec⟩ := get_spec kept (fun ch => And.left) bytes
  refine ⟨list, get, fun values found => ?_⟩
  obtain ⟨-, word, held, -⟩ := (spec values).mp found
  exact ⟨word, held⟩

/-- The term is in neither dictionary, or in both. -/
theorem Twins.get (twins : Twins P documentOffsetMap done state)
    (bytes : ∀ ch ∈ term, Admitted ch) :
    (irsDictionaryGet state.termsReverseFrequency term = .ok none ∧
      irsDictionaryGet state.termsDocSignificancy term = .ok none) ∨
    ∃ list index rest dictionary reverseFrequency,
      irsDictionaryGet state.termsReverseFrequency term = .ok (some list) ∧
      irsDictionaryGet state.termsDocSignificancy term =
        .ok (some (.docOffsetDictionary index :: rest)) ∧
      state.docDictionaries[index]? = some dictionary ∧
      state.reverseFrequency = some reverseFrequency := by
  obtain ⟨frequency, getFrequency, inFrequencies⟩ := get_ok twins.frequencies bytes
  obtain ⟨list, getList, inLists⟩ := get_ok twins.significancies bytes
  have same := get_alike_outline twins.alike term
  rw [getFrequency, getList, map_ok, map_ok, Except.ok.injEq] at same
  cases list with
  | none =>
    rw [Option.isNone_none, Option.isNone_iff_eq_none] at same
    subst same
    exact Or.inl ⟨getFrequency, getList⟩
  | some values =>
    cases frequency with
    | none => cases same
    | some frequency =>
      obtain ⟨word, held, present⟩ := inFrequencies _ rfl
      obtain ⟨reverseFrequency, cell⟩ := twins.cell word (held ▸ present)
      obtain ⟨word', held', present'⟩ := inLists _ rfl
      obtain ⟨index, first, later, values', inside, -⟩ := twins.lists word' (held' ▸ present')
      obtain rfl := held'.symm.trans values'
      exact Or.inr ⟨frequency, index, _, _, reverseFrequency, getFrequency, getList,
        List.getElem?_eq_getElem inside, cell⟩

/-! ### Entering a term -/

theorem Twins.enterTerm_new (twins : Twins P documentOffsetMap done state)
    (fresh : P freshDictionary) (bytes : ∀ ch ∈ term, Admitted ch)
    (run : done.foldlM (assignOccurrence documentOffsetMap) assignInitialize = .ok state)
    (notAssigned : isAssigned state (IrsFloat.toStrInt (F := F) pair.2) term = .ok false)
    (frequency : irsDictionaryGet state.termsReverseFrequency term = .ok none)
    (significancy : irsDictionaryGet state.termsDocSignificancy term = .ok none) :
    ∃ entered, enterTerm documentOffsetMap state term =
      .ok (entered, state.docDictionaries.length) ∧
      entered.docDictionaries = state.docDictionaries ++ [freshDictionary] ∧
      (∃ reverseFrequency, entered.reverseFrequency = some reverseFrequency) ∧
      Twins P documentOffsetMap (done ++ [(pair, term)]) entered := by
  obtain ⟨frequencies, frequencyRun⟩ := appendKey_total () twins.frequencies bytes
  obtain ⟨one, first⟩ :=
    appendKey_total (.docOffsetDictionary state.docDictionaries.length) twins.significancies bytes
  obtain ⟨significancies, more, kept, again, word, -, stored⟩ :=
    appendKeys_filed twins.significancies bytes first
    [.term term, .docsWithTerm (docsNumber documentOffsetMap term)]
  have enter := enterTerm_absent frequency significancy frequencyRun
    (foldlM_cons_ok.mpr ⟨one, first, more⟩)
  refine ⟨_, enter, rfl, ⟨_, rfl⟩, ?_⟩
  exact {
    frequencies := kept_appendKey twins.frequencies bytes frequencyRun
    significancies := kept
    alike := (outline_appendKey twins.alike frequencyRun first).trans again.symm
    lists := fun other present => by
      rw [stored] at present ⊢
      dsimp only
      rw [List.length_append, List.length_singleton]
      by_cases old : contents irsCharToIrsInt state.termsDocSignificancy.root other = []
      · by_cases here : other = word
        · -- the three values are the first ones of the word
          subst here
          refine ⟨state.docDictionaries.length, term, [], ?_, by omega, done, pair, [],
            state, _, rfl, run, ⟨notAssigned, _, enter⟩, rfl, rfl, old, ?_⟩
          · rw [if_pos rfl, old, List.append_nil]
            rfl
          · rw [stored, if_pos rfl, old]
            rfl
        · rw [if_neg here] at present
          exact absurd old present
      · obtain ⟨index, first', later, held, inside, pushed⟩ := twins.lists other old
        have more := pushed.append [(pair, term)]
        by_cases here : other = word
        · -- they go behind those of a term that the append took for this one
          subst here
          refine ⟨index, first', later ++ termValues documentOffsetMap state.docDictionaries.length
            term, ?_, by omega, more⟩
          rw [if_pos rfl, held, List.append_assoc]
          rfl
        · refine ⟨index, first', later, ?_, by omega, more⟩
          rw [if_neg here, held]
    dictionaries := fun dictionary member => by
      rcases List.mem_append.mp member with old | new
      · exact twins.dictionaries dictionary old
      · rw [List.mem_singleton.mp new]
        exact fresh
    cell := fun _ _ => ⟨_, rfl⟩ }

/-! ### Steps -/

theorem Twins.append (twins : Twins P documentOffsetMap done state) (more : List Occurrence) :
    Twins P documentOffsetMap (done ++ more) state where
  frequencies := twins.frequencies
  significancies := twins.significancies
  alike := twins.alike
  lists := fun word present => by
    obtain ⟨index, term, later, held, inside, pushed⟩ := twins.lists word present
    exact ⟨index, term, later, held, inside, pushed.append more⟩
  dictionaries := twins.dictionaries
  cell := twins.cell

/-- The significancy is stored in a dictionary in which the offset is not found. -/
theorem Twins.assignSignificancy (twins : Twins P documentOffsetMap done state)
    (storing : Storing F documentOffsetMap P) (inMap : pair ∈ documentOffsetMap) {index : Nat}
    {dictionary : IrsDictionary DocValue}
    (located : state.docDictionaries[index]? = some dictionary)
    (absent : irsDictionaryGet dictionary (IrsFloat.toStrInt (F := F) pair.2) = .ok none)
    (assigned : ∃ reverseFrequency, state.reverseFrequency = some reverseFrequency)
    (documentTerms : List Bytes) :
    ∃ state', IrsMachine.assignSignificancy state pair.2
      (IrsFloat.toStrInt (F := F) pair.2) documentTerms term index = .ok state' ∧
      Twins P documentOffsetMap done state' := by
  obtain ⟨reverseFrequency, cell⟩ := assigned
  simp only [IrsMachine.assignSignificancy, cell]
  split
  · exact ⟨state, rfl, twins⟩
  · obtain ⟨middle, dictionary', first, second, holds⟩ := storing.store pair inMap dictionary
      (irsStorageCalculateTermSignificancy (irsStorageCalculateTermFrequency term documentTerms)
        reverseFrequency)
      (twins.dictionaries dictionary (List.mem_of_getElem? located)) absent
    refine ⟨_, by simp only [docDictionaryAt, located, ok_bind, first, second]; rfl, ?_⟩
    exact {
      frequencies := twins.frequencies
      significancies := twins.significancies
      alike := twins.alike
      lists := by simpa only [List.length_set] using twins.lists
      dictionaries :=
        fun other member => (List.mem_or_eq_of_mem_set member).elim
          (twins.dictionaries other) fun same => same ▸ holds
      cell := fun _ _ => ⟨reverseFrequency, rfl⟩ }

theorem get_freshDictionary {α : Type} {irsString : Bytes} (bytes : ∀ ch ∈ irsString, Admitted ch) :
    irsDictionaryGet (freshDictionary : IrsDictionary α) irsString = .ok none := by
  apply get_absent (kept_freshDictionary : Kept Admitted freshDictionary) (fun ch => And.left) bytes
  rw [keys_freshDictionary]
  exact fun word member => absurd member (Set.notMem_empty word)

theorem Twins.assignOccurrence (twins : Twins P documentOffsetMap done state)
    (storing : Storing F documentOffsetMap P) (inMap : pair ∈ documentOffsetMap)
    (bytes : ∀ ch ∈ term, Admitted ch)
    (run : done.foldlM (IrsMachine.assignOccurrence documentOffsetMap) assignInitialize =
      .ok state) :
    ∃ state', IrsMachine.assignOccurrence documentOffsetMap state (pair, term) = .ok state' ∧
      Twins P documentOffsetMap (done ++ [(pair, term)]) state' := by
  have text := storing.texts pair inMap
  simp only [IrsMachine.assignOccurrence, irsStorageAssignTerm_eq]
  rcases twins.get bytes with ⟨frequency, significancy⟩ |
    ⟨list, index, rest, dictionary, reverseFrequency, frequency, significancy, located, cell⟩
  · -- the term is new
    have notAssigned : isAssigned state (IrsFloat.toStrInt (F := F) pair.2) term = .ok false :=
      isAssigned_absent significancy
    obtain ⟨entered, enter, dictionaries, assigned, twins'⟩ :=
      twins.enterTerm_new storing.fresh bytes run notAssigned frequency significancy
    have here : entered.docDictionaries[state.docDictionaries.length]? = some freshDictionary := by
      rw [dictionaries, List.getElem?_concat_length]
    rw [notAssigned, ok_bind, if_neg Bool.false_ne_true, enter, ok_bind]
    exact twins'.assignSignificancy storing inMap here (get_freshDictionary text) assigned _
  · -- the lookup of the offset is in the dictionary that would get the entry
    have kept := storing.kept dictionary
      (twins.dictionaries dictionary (List.mem_of_getElem? located))
    obtain ⟨found, get, -⟩ := get_ok kept text
    rw [isAssigned_present significancy located get, ok_bind]
    cases found with
    | some values => exact ⟨state, rfl, twins.append _⟩
    | none =>
      rw [Option.isSome_none, if_neg Bool.false_ne_true,
        enterTerm_present frequency significancy, ok_bind]
      exact (twins.append _).assignSignificancy storing inMap located get ⟨reverseFrequency, cell⟩ _

/-! ### Runs -/

/-- The run gets to every token. -/
theorem exists_twins (storing : Storing F documentOffsetMap P)
    (bytes : ∀ pair ∈ documentOffsetMap, ∀ ch ∈ pair.1, Admitted ch) (done rest : List Occurrence)
    (split : occurrences documentOffsetMap = done ++ rest) :
    ∃ state : AssignState F, done.foldlM (assignOccurrence documentOffsetMap) assignInitialize =
      .ok state ∧
      Twins P documentOffsetMap done state := by
  induction done using List.reverseRecOn generalizing rest with
  | nil => exact ⟨_, rfl, twins_assignInitialize⟩
  | append_singleton done occurrence ih =>
    obtain ⟨pair, term⟩ := occurrence
    rw [List.append_assoc, List.singleton_append] at split
    obtain ⟨state, run, twins⟩ := ih _ split
    obtain ⟨inMap, member⟩ := split_mem split
    have admitted : ∀ ch ∈ term, Admitted ch := term_admitted (bytes pair inMap) member
    obtain ⟨state', step, twins'⟩ := twins.assignOccurrence storing inMap admitted run
    exact ⟨state', foldlM_concat_ok.mpr ⟨state, run, step⟩, twins'⟩

/-! ### The start of an iteration -/

theorem assignTerms_goesOn {rest : List Occurrence}
    (split : occurrences documentOffsetMap = done ++ rest)
    (run : done.foldlM (assignOccurrence documentOffsetMap) assignInitialize = .ok state) :
    irsStorageAssignTermsInDocuments documentOffsetMap =
      rest.foldlM (assignOccurrence documentOffsetMap) state := by
  rw [irsStorageAssignTermsInDocuments_eq, split, List.foldlM_append]
  exact (congrArg (· >>= _) run).trans (ok_bind _ _)

/-- An iteration that copies the number of documents with the term has assigned it. -/
def NumberAssigned (documentOffsetMap : List (Bytes × UInt64)) (state : AssignState F)
    (occurrence : Occurrence) : Prop :=
  isAssigned state (IrsFloat.toStrInt (F := F) occurrence.1.2) occurrence.2 = .ok false →
    ∀ middle number,
    assignReverseFrequency documentOffsetMap state occurrence.2 = .ok (middle, number) →
    irsDictionaryGet middle.termsDocSignificancy occurrence.2 = .ok none →
    number = some (docsNumber documentOffsetMap occurrence.2)

/-- What holds of the state when these occurrences are done, and the others are to come. -/
structure InAccord (documentOffsetMap : List (Bytes × UInt64)) (done rest : List Occurrence)
    (state : AssignState F) : Prop where
  reached : done.foldlM (assignOccurrence documentOffsetMap) assignInitialize = .ok state
  goesOn : irsStorageAssignTermsInDocuments documentOffsetMap =
    rest.foldlM (assignOccurrence documentOffsetMap) state
  answers : ∀ query, Option.isNone <$> irsDictionaryGet state.termsReverseFrequency query =
    Option.isNone <$> irsDictionaryGet state.termsDocSignificancy query
  iteration : ∀ occurrence after, rest = occurrence :: after →
    NumberAssigned documentOffsetMap state occurrence ∧
    ∃ next, assignOccurrence documentOffsetMap state occurrence = .ok next
  lists : ∀ address node list, state.termsDocSignificancy.root.nodeAt address = some node →
    node.dataList = some list →
    ∃ index term later, list = termValues documentOffsetMap index term ++ later ∧
      PushedTogether F documentOffsetMap done
        (spell state.termsDocSignificancy.root address) index term

theorem storing_kept (texts : ∀ pair ∈ documentOffsetMap, ∀ ch ∈ IrsFloat.toStrInt (F := F) pair.2,
      Admitted ch) :
    Storing F documentOffsetMap (Kept Admitted) where
  texts := texts
  fresh := kept_freshDictionary
  kept := fun _ kept => kept
  store := fun pair inMap dictionary significancy kept _ => by
    have text := texts pair inMap
    obtain ⟨middle, first⟩ := appendKey_total (DocValue.offset pair.2) kept text
    have kept' := kept_appendKey kept text first
    obtain ⟨dictionary', second⟩ :=
      appendKey_total (DocValue.significancy (IrsFloat.toStrFloat significancy)) kept' text
    exact ⟨middle, dictionary', first, second, kept_appendKey kept' text second⟩

theorem Twins.numberAssigned (twins : Twins P documentOffsetMap done state)
    (bytes : ∀ ch ∈ term, Admitted ch) :
    NumberAssigned documentOffsetMap state (pair, term) := by
  intro _ middle number run absent
  rcases assignReverseFrequency_ok run with ⟨-, computed, -⟩ | ⟨⟨list, hit⟩, -, rfl⟩
  · exact computed
  · rcases twins.get bytes with ⟨miss, -⟩ | ⟨list, index, rest, dictionary, reverseFrequency, -,
      significancy, -⟩
    · rw [hit] at miss
      cases miss
    · rw [significancy] at absent
      cases absent

/-- The two dictionaries stay in step, whatever the documents. -/
theorem irsStorageAssignTermsInDocuments_inAccord (bytes : ∀ pair ∈ documentOffsetMap,
      ∀ ch ∈ pair.1, Admitted ch)
    (texts : ∀ pair ∈ documentOffsetMap, ∀ ch ∈ IrsFloat.toStrInt (F := F) pair.2, Admitted ch)
    (done rest : List Occurrence) (split : occurrences documentOffsetMap = done ++ rest) :
    ∃ state : AssignState F, InAccord documentOffsetMap done rest state := by
  have storing := storing_kept texts
  obtain ⟨state, run, twins⟩ := exists_twins storing bytes done rest split
  refine ⟨state, run, ?_, get_alike_outline twins.alike, ?_, ?_⟩
  · exact assignTerms_goesOn split run
  · rintro ⟨pair, term⟩ after rfl
    obtain ⟨inMap, member⟩ := split_mem split
    have admitted : ∀ ch ∈ term, Admitted ch := term_admitted (bytes pair inMap) member
    obtain ⟨next, step, -⟩ := twins.assignOccurrence storing inMap admitted run
    exact ⟨twins.numberAssigned admitted, next, step⟩
  · intro address node list located data
    have held := contents_nodeAt twins.significancies.tidy located
    rw [data, Option.getD_some] at held
    have stocked : list ≠ [] := by
      rintro rfl
      exact (tidy_nodeAt twins.significancies.tidy located).stocked data
    obtain ⟨index, term, later, values, -, pushed⟩ := twins.lists _ (held ▸ stocked)
    exact ⟨index, term, later, held.symm.trans values, pushed⟩

/-- In `iT it it` the second token is appended to the list of the first. -/
theorem irsStorageAssignTermsInDocuments_inAccord_it :
    ∃ state : AssignState ExactQuotient, InAccord [([105, 84, 32, 105, 116, 32, 105, 116], 0)]
      [(([105, 84, 32, 105, 116, 32, 105, 116], 0), [105, 84]),
        (([105, 84, 32, 105, 116, 32, 105, 116], 0), [105, 116])]
      [(([105, 84, 32, 105, 116, 32, 105, 116], 0), [105, 116])] state :=
  irsStorageAssignTermsInDocuments_inAccord (by unfold Admitted; decide +kernel)
    (by unfold Admitted; decide +kernel) _ _ (by decide +kernel)

end IrsMachine
