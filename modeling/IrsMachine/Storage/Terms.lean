import IrsMachine.Storage.Queries

/-!
# The terms of a run

Every term that the storage records is a token of a document that was added.
-/

namespace IrsMachine
open IrsDictionaryNode Except Multimap

/-! ### Tokens -/

theorem splitOnP_parts {β : Type} (p : β → Bool) (list : List β) :
    ∃ first rest, list.splitOnP p = first :: rest ∧ first <+: list ∧
      ∀ piece ∈ rest, piece <:+: list := by
  induction list with
  | nil => exact ⟨[], [], List.splitOnP_nil, List.nil_prefix, by simp⟩
  | cons ch list ih =>
    obtain ⟨first, rest, split, isPrefix, parts⟩ := ih
    have later : ∀ piece ∈ rest, piece <:+: ch :: list :=
      fun piece member => List.infix_cons (parts piece member)
    rw [List.splitOnP_cons_eq_if_modifyHead, split]
    split
    · refine ⟨[], first :: rest, rfl, List.nil_prefix, fun piece member => ?_⟩
      rcases List.mem_cons.mp member with rfl | member
      · exact List.infix_cons isPrefix.isInfix
      · exact later piece member
    · exact ⟨ch :: first, rest, rfl, List.cons_prefix_cons.mpr ⟨rfl, isPrefix⟩, later⟩

theorem strtok_part {string delim token : Bytes} (member : token ∈ strtok string delim) :
    token ≠ [] ∧ token <:+: cString string := by
  obtain ⟨inside, nonempty⟩ := List.mem_filter.mp member
  refine ⟨of_decide_eq_true nonempty, ?_⟩
  obtain ⟨first, rest, split, isPrefix, parts⟩ :=
    splitOnP_parts (fun ch => decide (ch ∈ cString delim)) (cString string)
  rw [split] at inside
  rcases List.mem_cons.mp inside with rfl | inside
  · exact isPrefix.isInfix
  · exact parts token inside

def tokensOf (documents : List Bytes) : List Bytes := documents.flatMap irsStorageGetDocumentTerms

theorem token_noNul {documents : List Bytes} {term : Bytes} (member : term ∈ tokensOf documents) :
    ∀ ch ∈ term, ch ≠ 0 := by
  obtain ⟨document, -, member⟩ := List.mem_flatMap.mp member
  exact fun ch inside => cString_noNul document ch ((strtok_part member).2.subset inside)

theorem token_nonempty {documents : List Bytes} {term : Bytes}
    (member : term ∈ tokensOf documents) : term ≠ [] := by
  obtain ⟨document, -, member⟩ := List.mem_flatMap.mp member
  exact (strtok_part member).1

theorem term_admitted {document term : Bytes} (bytes : ∀ ch ∈ document, Admitted ch)
    (member : term ∈ irsStorageGetDocumentTerms document) : ∀ ch ∈ term, Admitted ch :=
  fun ch inside =>
    bytes ch ((List.takeWhile_prefix _).subset ((strtok_part member).2.subset inside))

theorem token_admitted {documents : List Bytes}
    (bytes : ∀ document ∈ documents, ∀ ch ∈ document, Admitted ch) :
    ∀ term ∈ tokensOf documents, term ≠ [] ∧ ∀ ch ∈ term, Admitted ch := by
  intro term member
  obtain ⟨document, inBatch, inside⟩ := List.mem_flatMap.mp member
  exact ⟨token_nonempty member, term_admitted (bytes document inBatch) inside⟩

/-! ### Assigned terms -/

variable {F : Type} {ok : UInt8 → Prop}

theorem appendKey_values {α : Type} {P : α → Prop} {dictionary dictionary' : IrsDictionary α}
    {key : Bytes} {value : α} (kept : Kept ok dictionary) (bytes : ∀ ch ∈ key, ok ch)
    (values : ∀ word, ∀ stored ∈ contents irsCharToIrsInt dictionary.root word, P stored)
    (holds : P value) (run : appendKey dictionary key value = .ok dictionary') :
    Kept ok dictionary' ∧ ∀ word, ∀ stored ∈ contents irsCharToIrsInt dictionary'.root word,
      P stored := by
  refine ⟨kept_appendKey kept bytes run, fun word stored member => ?_⟩
  obtain ⟨filed, pushed, -, -⟩ := appendKey_contents kept bytes run
  rw [pushed] at member
  by_cases here : word = filed
  · rw [here, push_self, List.mem_append, List.mem_singleton] at member
    rcases member with old | rfl
    · exact values filed stored old
    · exact holds
  · rw [push_ne _ _ here] at member
    exact values word stored member

structure TermsAmong (ok : UInt8 → Prop) (terms : List Bytes)
    (dictionary : IrsDictionary TermDocValue) : Prop where
  kept : Kept ok dictionary
  among : ∀ word, ∀ value ∈ contents irsCharToIrsInt dictionary.root word, ∀ term,
    value = .term term → term ∈ terms

theorem TermsAmong.append {terms : List Bytes} {dictionary dictionary' : IrsDictionary TermDocValue}
    {term : Bytes} {value : TermDocValue} (among : TermsAmong ok terms dictionary)
    (bytes : ∀ ch ∈ term, ok ch) (named : ∀ other, value = .term other → other ∈ terms)
    (run : appendKey dictionary term value = .ok dictionary') :
    TermsAmong ok terms dictionary' := by
  obtain ⟨kept, values⟩ := appendKey_values among.kept bytes among.among named run
  exact ⟨kept, values⟩

theorem assignDocDictionary_among {terms : List Bytes} {state state' : AssignState F} {term : Bytes}
    {number : Option UInt64} {index : Nat} (among : TermsAmong ok terms state.termsDocSignificancy)
    (member : term ∈ terms) (bytes : ∀ ch ∈ term, ok ch)
    (run : assignDocDictionary state term number = .ok (state', index)) :
    TermsAmong ok terms state'.termsDocSignificancy := by
  unfold assignDocDictionary at run
  obtain ⟨list, -, run⟩ := bind_ok.mp run
  cases list with
  | none =>
    obtain ⟨first, one, run⟩ := bind_ok.mp run
    obtain ⟨second, two, run⟩ := bind_ok.mp run
    cases number with
    | none => cases run
    | some number =>
      obtain ⟨third, three, run⟩ := bind_ok.mp run
      cases run
      have one := among.append bytes (fun _ same => by cases same) one
      have two := one.append bytes (fun _ same => by cases same; exact member) two
      exact two.append bytes (fun _ same => by cases same) three
  | some list =>
    obtain ⟨index, -, run⟩ := bind_ok.mp run
    cases run
    exact among

variable [IrsFloat F]

theorem irsStorageAssignTerm_among {terms : List Bytes} {documentOffsetMap : List (Bytes × UInt64)}
    {docOffset : UInt64} {docOffsetStr : Bytes} {documentTerms : List Bytes}
    {state state' : AssignState F} {term : Bytes}
    (among : TermsAmong ok terms state.termsDocSignificancy) (member : term ∈ terms)
    (bytes : ∀ ch ∈ term, ok ch)
    (run : irsStorageAssignTerm documentOffsetMap docOffset docOffsetStr documentTerms state term =
      .ok state') :
    TermsAmong ok terms state'.termsDocSignificancy := by
  unfold irsStorageAssignTerm at run
  obtain ⟨assigned, -, run⟩ := bind_ok.mp run
  split at run
  · cases run
    exact among
  · obtain ⟨⟨middle, number⟩, frequency, run⟩ := bind_ok.mp run
    obtain ⟨⟨last, index⟩, dictionary, run⟩ := bind_ok.mp run
    have unchanged : middle.termsDocSignificancy = state.termsDocSignificancy := by
      unfold assignReverseFrequency at frequency
      obtain ⟨list, -, frequency⟩ := bind_ok.mp frequency
      cases list with
      | none =>
        obtain ⟨_, -, frequency⟩ := bind_ok.mp frequency
        cases frequency
        rfl
      | some _ => cases frequency; rfl
    have known := assignDocDictionary_among (unchanged ▸ among) member bytes dictionary
    have unchanged' : state'.termsDocSignificancy = last.termsDocSignificancy := by
      simp only [assignSignificancy] at run
      split at run
      · cases run
      · split at run
        · cases run; rfl
        · obtain ⟨_, -, run⟩ := bind_ok.mp run
          obtain ⟨_, -, run⟩ := bind_ok.mp run
          obtain ⟨_, -, run⟩ := bind_ok.mp run
          cases run
          rfl
    rwa [unchanged']

theorem irsStorageAssignTermsInDocuments_among {documentOffsetMap : List (Bytes × UInt64)}
    {assigned : AssignState F} (bytes : ∀ term ∈ tokensOf (documentOffsetMap.map Prod.fst),
      ∀ ch ∈ term, ok ch)
    (run : irsStorageAssignTermsInDocuments documentOffsetMap = .ok assigned) :
    TermsAmong ok (tokensOf (documentOffsetMap.map Prod.fst)) assigned.termsDocSignificancy := by
  have fresh : TermsAmong ok (tokensOf (documentOffsetMap.map Prod.fst))
      (assignInitialize : AssignState F).termsDocSignificancy :=
    ⟨kept_freshDictionary, fun word value member => absurd member (by
      rw [show contents irsCharToIrsInt (assignInitialize : AssignState F).termsDocSignificancy.root
        word = [] from
        contents_freshDictionary word]
      exact List.not_mem_nil)⟩
  refine foldlM_invariant (fun state : AssignState F => TermsAmong ok _ state.termsDocSignificancy)
    fresh ?_ run
  intro state pair state' inMap among step
  refine foldlM_invariant (fun state : AssignState F => TermsAmong ok _ state.termsDocSignificancy)
    among ?_ step
  intro state term state' inDocument among step
  have member : term ∈ tokensOf (documentOffsetMap.map Prod.fst) :=
    List.mem_flatMap.mpr ⟨pair.1, List.mem_map_of_mem inMap, inDocument⟩
  exact irsStorageAssignTerm_among among member (bytes term member) step

/-! ### Recorded terms -/

theorem TermsAmong.visits {terms : List Bytes} {dictionary : IrsDictionary TermDocValue}
    (among : TermsAmong ok terms dictionary) :
    ∀ visit ∈ irsDictionaryVisitDownNodes dictionary, ∀ term, termOf visit.2 = some term →
    term ∈ terms := by
  rintro ⟨address, node⟩ member term isTerm
  have located := (mem_visitDownNode.mp member).2
  have held := contents_nodeAt among.kept.tidy located
  unfold termOf at isTerm
  split at isTerm
  · rename_i data
    cases isTerm
    rw [data, Option.getD_some] at held
    exact among.among _ _ (by rw [held]; simp) term rfl
  · cases isTerm

structure HeldTerms (ok : UInt8 → Prop) (terms : List Bytes)
    (dictionary : IrsDictionary TermOffsetValue) : Prop
    extends Indexed ok dictionary where
  held : ∀ pair ∈ heldPairs dictionary, pair.2 ∈ terms

theorem irsStorageAddDocuments_terms {outcomes : Nat → WriteOutcome} {system system' : System}
    {documents terms : List Bytes} {status : IrsStorageStatus}
    (bytes : ∀ term ∈ tokensOf documents, ∀ ch ∈ term, ok ch)
    (heldTerms : HeldTerms ok terms system.storage.termOffsetDictionary)
    (run : irsStorageAddDocuments F outcomes system documents = .ok (status, system')) :
    HeldTerms ok (terms ++ tokensOf documents) system'.storage.termOffsetDictionary := by
  obtain ⟨written, assigned, writer, grown, storage, documents', assign, terms',
    rfl⟩ | ⟨grown, storage⟩ :=
    irsStorageAddDocuments_cases run
  · have same : written.storage.termOffsetDictionary = system.storage.termOffsetDictionary := by
      rw [storage]; rfl
    have among := irsStorageAssignTermsInDocuments_among (by rw [documents']; exact bytes) assign
    rw [documents'] at among
    obtain ⟨indexed, -, known⟩ :=
      passRecords_held (atEnd_open written.world written.storage.termsPath)
      (by exact same ▸ heldTerms.toIndexed)
      (fun visit member term isTerm => bytes term (among.visits visit member term isTerm)) terms'
    refine ⟨indexed, fun pair member => ?_⟩
    rcases known pair member with old | ⟨visit, inside, isTerm⟩
    · exact List.mem_append_left _ (heldTerms.held pair (by rwa [same] at old))
    · exact List.mem_append_right _ (among.visits visit inside pair.2 isTerm)
  · rw [storage]
    exact ⟨heldTerms.toIndexed, fun pair member =>
      List.mem_append_left _ (heldTerms.held pair member)⟩

/-- After a run, the dictionary holds tokens only. -/
theorem addBatches_terms {outcomes : Nat → WriteOutcome} {path : Bytes} {world : World}
    {batches : List (List Bytes)} {run : Run}
    (bytes : ∀ term ∈ tokensOf batches.flatten, ∀ ch ∈ term, ok ch)
    (ran : addBatches F outcomes (freshSystem path world) batches = .ok run) :
    HeldTerms ok (tokensOf batches.flatten) run.system.storage.termOffsetDictionary := by
  induction batches using List.reverseRecOn generalizing run with
  | nil =>
    cases ran
    exact ⟨indexed_freshDictionary, fun pair member => absurd member List.not_mem_nil⟩
  | append_singleton batches batch ih =>
    obtain ⟨before, status, system', first, call, -, hSystem, -⟩ := addBatches_concat ran
    have tokens : tokensOf (batches ++ [batch]).flatten =
        tokensOf batches.flatten ++ tokensOf batch := by
      simp [tokensOf]
    rw [tokens] at bytes ⊢
    rw [hSystem]
    exact irsStorageAddDocuments_terms
      (fun term member => bytes term (List.mem_append_right _ member))
      (ih (fun term member => bytes term (List.mem_append_left _ member)) first) call

end IrsMachine
