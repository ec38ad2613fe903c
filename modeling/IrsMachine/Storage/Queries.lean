import IrsMachine.Storage.Layout

/-!
# Queries after several batches

Every call adds its pairs to the dictionary of term offsets. A query reads the record at the
first offset of a data list, and no other.
-/

namespace IrsMachine
open IrsDictionaryNode Except Multimap

variable {F : Type} [IrsFloat F]

/-! ### Pairs recorded -/

theorem coe_flatMap {β γ : Type} (f : β → List γ) (list : List β) :
    ((list.flatMap f : List γ) : Multiset γ) =
      (list.map fun entry => (f entry : Multiset γ)).sum := by
  induction list with
  | nil => rfl
  | cons entry list ih =>
    rw [List.flatMap_cons, ← Multiset.coe_add, ih, List.map_cons, List.sum_cons]

theorem coe_heldPairs (dictionary : IrsDictionary TermOffsetValue) :
    (heldPairs dictionary : Multiset (UInt64 × Bytes)) =
      sumOver (fun values => (pairsOf values : Multiset _)) dictionary :=
  coe_flatMap _ _

theorem heldPairs_appendPair {ok : UInt8 → Prop}
    {dictionary dictionary' : IrsDictionary TermOffsetValue} {term : Bytes} {offset : UInt64}
    (indexed : Indexed ok dictionary) (bytes : ∀ ch ∈ term, ok ch)
    (run : appendPair dictionary term offset = .ok dictionary') :
    (heldPairs dictionary' : Multiset (UInt64 × Bytes)) =
      heldPairs dictionary + {(offset, term)} := by
  obtain ⟨indexed', word, -, -, pushed⟩ := appendPair_ok indexed bytes run
  have apart : ∀ other, other ≠ word → contents irsCharToIrsInt dictionary'.root other =
      contents irsCharToIrsInt dictionary.root other := fun other different => by
        rw [pushed, if_neg different]
  have change := Lists.sum_change
    (f := fun values => (pairsOf values : Multiset (UInt64 × Bytes))) rfl
    (lists_entries indexed.tidy) (lists_entries indexed'.tidy) apart
  rw [pushed, if_pos rfl, ((indexed.paired word).concat offset term).2, ← Multiset.coe_add,
    Multiset.coe_singleton, add_comm (pairsOf _ : Multiset (UInt64 × Bytes)), ← add_assoc] at change
  rw [coe_heldPairs, coe_heldPairs]
  exact add_right_cancel change

/-- The visit of the terms takes no pair away, and adds pairs of the terms that it meets. -/
theorem passRecords_held {ok : UInt8 → Prop} {outcomes : Nat → WriteOutcome}
    {docDictionaries : List (IrsDictionary DocValue)}
    {visits : List (Address × IrsDictionaryNode TermDocValue)} {writer writer' : TermsWriter}
    {written : Bytes} (atEnd : AtEnd writer.channel writer.world written)
    (indexed : Indexed ok writer.storage.termOffsetDictionary)
    (bytes : ∀ visit ∈ visits, ∀ term, termOf visit.2 = some term → ∀ ch ∈ term, ok ch)
    (run : visits.foldlM
      (fun writer visit => irsStoragePassTermsDocSignificancyDictionary outcomes docDictionaries
        writer visit.2)
      writer = .ok writer') :
    Indexed ok writer'.storage.termOffsetDictionary ∧
      (heldPairs writer.storage.termOffsetDictionary : Multiset (UInt64 × Bytes)) ≤
        heldPairs writer'.storage.termOffsetDictionary ∧
      ∀ pair ∈ heldPairs writer'.storage.termOffsetDictionary,
        pair ∈ heldPairs writer.storage.termOffsetDictionary ∨
        ∃ visit ∈ visits, termOf visit.2 = some pair.2 := by
  refine (foldlM_invariant
    (fun current => (∃ written', AtEnd current.channel current.world written') ∧
    Indexed ok current.storage.termOffsetDictionary ∧
    (heldPairs writer.storage.termOffsetDictionary : Multiset (UInt64 × Bytes)) ≤
    heldPairs current.storage.termOffsetDictionary ∧
    ∀ pair ∈ heldPairs current.storage.termOffsetDictionary,
    pair ∈ heldPairs writer.storage.termOffsetDictionary ∨
      ∃ visit ∈ visits, termOf visit.2 = some pair.2)
    ⟨⟨written, atEnd⟩, indexed, le_refl _, fun _ => Or.inl⟩ ?_ run).2
  rintro current visit next member ⟨⟨written, atEnd⟩, indexed, held, known⟩ step
  rcases irsStoragePassTermsDocSignificancyDictionary_ok atEnd
    step with ⟨-, rfl⟩ | ⟨term, dictionary, isTerm, append, -, extended⟩
  · exact ⟨⟨written, atEnd⟩, indexed, held, known⟩
  · have same : next.storage.termOffsetDictionary = dictionary := by rw [extended.storage]; rfl
    obtain ⟨indexed', -⟩ := appendPair_ok indexed (bytes visit member term isTerm) append
    have more := heldPairs_appendPair indexed (bytes visit member term isTerm) append
    rw [same]
    refine ⟨⟨_, extended.atEnd⟩, indexed', held.trans (more ▸ Multiset.le_add_right _ _),
      fun pair inside => ?_⟩
    rw [← Multiset.mem_coe, more, Multiset.mem_add, Multiset.mem_coe,
      Multiset.mem_singleton] at inside
    rcases inside with old | rfl
    · exact known pair old
    · exact Or.inr ⟨visit, member, isTerm⟩

theorem irsStorageAddDocuments_held {outcomes : Nat → WriteOutcome} {system system' : System}
    {documents : List Bytes} {status : IrsStorageStatus}
    (indexed : Indexed (fun _ => True) system.storage.termOffsetDictionary)
    (run : irsStorageAddDocuments F outcomes system documents = .ok (status, system')) :
    Indexed (fun _ => True) system'.storage.termOffsetDictionary ∧
      (heldPairs system.storage.termOffsetDictionary : Multiset (UInt64 × Bytes)) ≤
        heldPairs system'.storage.termOffsetDictionary := by
  obtain ⟨written, assigned, writer, bytes, storage, -, -, terms, rfl⟩ | ⟨bytes, storage⟩ :=
    irsStorageAddDocuments_cases run
  · have same : written.storage.termOffsetDictionary = system.storage.termOffsetDictionary := by
      rw [storage]; rfl
    obtain ⟨indexed', held, -⟩ :=
      passRecords_held (atEnd_open written.world written.storage.termsPath)
        (by exact same ▸ indexed)
      (fun _ _ _ _ _ _ => trivial) terms
    rw [same] at held
    exact ⟨indexed', held⟩
  · rw [storage]
    exact ⟨indexed, le_refl _⟩

theorem addBatches_held {outcomes : Nat → WriteOutcome} {path : Bytes} {world : World}
    {batches : List (List Bytes)} {run : Run}
    (ran : addBatches F outcomes (freshSystem path world) batches = .ok run) :
    Indexed (fun _ => True) run.system.storage.termOffsetDictionary ∧
      run.termOffsets.flatten.Perm (heldPairs run.system.storage.termOffsetDictionary) := by
  induction batches using List.reverseRecOn generalizing run with
  | nil =>
    cases ran
    exact ⟨indexed_freshDictionary, List.Perm.refl []⟩
  | append_singleton batches batch ih =>
    obtain ⟨before, status, system', first, call, -, hSystem, -, hTerms⟩ := addBatches_concat ran
    obtain ⟨indexed, recorded⟩ := ih first
    obtain ⟨indexed', held⟩ := irsStorageAddDocuments_held indexed call
    rw [hSystem, hTerms, List.flatten_append, List.flatten_singleton]
    refine ⟨indexed', (recorded.append_right _).trans ?_⟩
    exact List.subperm_append_diff_self_of_count_le fun pair _ =>
      (Multiset.coe_le.mp held).count_le pair

/-! ### Records consulted -/

/-- A query reads at most one record for each of its terms. -/
theorem getDocumentsLoop_consulted {system : System} {terms : List Bytes} {answer answer' : Answer}
    (run : getDocumentsLoop system terms answer = .ok answer') :
    answer'.consulted.length ≤ answer.consulted.length + terms.length := by
  induction terms generalizing answer with
  | nil =>
    cases run
    exact Nat.le_refl _
  | cons term terms ih =>
    unfold getDocumentsLoop at run
    obtain ⟨list, -, run⟩ := bind_ok.mp run
    obtain ⟨offset, -, run⟩ := bind_ok.mp run
    rw [List.length_cons]
    cases offset with
    | none =>
      have := ih run
      simp only at this
      omega
    | some termOffset =>
      simp only at run
      split at run
      · cases run
        simp only [List.length_append, List.length_singleton]
        omega
      · have := ih run
        simp only [List.length_append, List.length_singleton] at this
        omega

def offsetsOf (dictionary : IrsDictionary TermOffsetValue) (term : Bytes) : List UInt64 :=
  ((heldPairs dictionary).filter fun pair => decide (pair.2 = term)).map Prod.fst

/-- A query for the term reads all its records. -/
def Consults (system : System) (term : Bytes) : Prop :=
  ∃ answer, irsStorageGetDocuments system [term] = .ok answer ∧
    (offsetsOf system.storage.termOffsetDictionary term).Subperm answer.consulted

theorem countP_le_length_flatten {β : Type} (p : β → Bool) (lists : List (List β)) :
    (lists.countP fun list => list.any p) ≤ (lists.flatten.filter p).length := by
  induction lists with
  | nil => simp
  | cons list lists ih =>
    rw [List.countP_cons, List.flatten_cons, List.filter_append, List.length_append]
    split
    · rename_i some
      obtain ⟨entry, member, here⟩ := List.any_eq_true.mp some
      have := List.length_pos_of_mem (List.mem_filter.mpr ⟨member, here⟩)
      omega
    · omega

/-- A term that was given records in more than one call is forgotten by all but one of them. -/
theorem addBatches_forgets {outcomes : Nat → WriteOutcome} {path : Bytes} {world : World}
    {batches : List (List Bytes)} {run : Run} {term : Bytes}
    (ran : addBatches F outcomes (freshSystem path world) batches = .ok run)
    (twice : 1 < run.termOffsets.countP fun pairs => pairs.any fun pair => decide (pair.2 = term)) :
    ¬Consults run.system term := by
  rintro ⟨answer, query, all⟩
  have few := getDocumentsLoop_consulted query
  have many := countP_le_length_flatten (fun pair : UInt64 × Bytes => decide (pair.2 = term))
    run.termOffsets
  rw [((addBatches_held ran).2.filter _).length_eq] at many
  have lengths := all.length_le
  rw [offsetsOf, List.length_map] at lengths
  simp only [List.length_nil, List.length_singleton] at few
  omega

theorem addBatches_forgets_a :
    ∃ run, addBatches Ratio allWritten (freshSystem [] .empty) [[[97]], [[97]]] = .ok run ∧
      ¬Consults run.system [97] := by
  have facts : (addBatches Ratio allWritten (freshSystem [] .empty) [[[97]], [[97]]] >>= fun run =>
      .ok run.termOffsets) = .ok [[(0, [97])], [(17, [97])]] := by decide +kernel
  obtain ⟨run, ran, facts⟩ := bind_ok.mp facts
  have offsets : run.termOffsets = [[(0, [97])], [(17, [97])]] := Except.ok.inj facts
  exact ⟨run, ran, addBatches_forgets ran (by rw [offsets]; decide)⟩

/-- The second record of `a`, at 17, is not read. -/
theorem consults_fails_a_a :
    ∃ run, addBatches Ratio allWritten (freshSystem [] .empty) [[[97]], [[97]]] = .ok run ∧
      run.termOffsets = [[(0, [97])], [(17, [97])]] ∧
      ∃ answer, irsStorageGetDocuments run.system [[97]] = .ok answer ∧ 17 ∉ answer.consulted := by
  have facts : (addBatches Ratio allWritten (freshSystem [] .empty) [[[97]], [[97]]] >>= fun run =>
      irsStorageGetDocuments run.system [[97]] >>= fun answer =>
        .ok (run.termOffsets, answer.consulted)) =
      .ok ([[(0, [97])], [(17, [97])]], [0]) := by decide +kernel
  obtain ⟨run, ran, facts⟩ := bind_ok.mp facts
  obtain ⟨answer, query, facts⟩ := bind_ok.mp facts
  simp only [Except.ok.injEq, Prod.mk.injEq] at facts
  obtain ⟨offsets, consulted⟩ := facts
  exact ⟨run, ran, offsets, answer, query, by rw [consulted]; decide⟩

end IrsMachine
