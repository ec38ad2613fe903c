import IrsMachine.Storage.Answers

/-!
# Which entries are made

Whether an entry is made depends on those made before it. Every document with a term gets its
entry exactly if each is due in its own document, and no text of their offsets passes for an
earlier one (`recorded_iff`).
-/

namespace IrsMachine
open IrsDictionaryNode Words

variable {due : Occurrence → List Bytes → Prop} {done rest : List Occurrence} {term : Bytes}
  {docOffset : UInt64}
  {pair : Bytes × UInt64} {documentOffsetMap before after : List (Bytes × UInt64)}

/-! ### Documents -/

theorem occurrences_append (before after : List (Bytes × UInt64)) :
    occurrences (before ++ after) = occurrences before ++ occurrences after := List.flatMap_append

theorem occurrences_cons (pair : Bytes × UInt64) (after : List (Bytes × UInt64)) :
    occurrences (pair :: after) = (irsStorageGetDocumentTerms pair.1).map
      (fun term => (pair, term)) ++ occurrences after :=
  List.flatMap_cons

theorem entryDue_append (elsewhere : ∀ occurrence ∈ rest, occurrence.1.2 ≠ docOffset) :
    EntryDue due (done ++ rest) term docOffset ↔ EntryDue due done term docOffset := by
  induction rest using List.reverseRecOn with
  | nil => rw [List.append_nil]
  | append_singleton rest occurrence ih =>
    obtain ⟨pair, other⟩ := occurrence
    rw [← List.append_assoc, entryDue_concat, ih fun occurrence member => elsewhere occurrence
      (List.mem_append_left _ member)]
    exact or_iff_left fun here => elsewhere (pair, other) (by simp) here.2.1.symm

theorem entryMade_append (elsewhere : ∀ occurrence ∈ rest, occurrence.1.2 ≠ docOffset) :
    EntryMade due (done ++ rest) term docOffset ↔ EntryMade due done term docOffset := by
  induction rest using List.reverseRecOn with
  | nil => rw [List.append_nil]
  | append_singleton rest occurrence ih =>
    obtain ⟨pair, other⟩ := occurrence
    rw [← List.append_assoc, entryMade_concat, ih fun occurrence member => elsewhere occurrence
      (List.mem_append_left _ member)]
    exact or_iff_left fun here => elsewhere (pair, other) (by simp) here.2.1.symm

def madeTexts (due : Occurrence → List Bytes → Prop) (done : List Occurrence) (term : Bytes) :
    Set Bytes :=
  {key | ∃ made, EntryMade due done term made ∧ key = decimal made}

/-- In the course of one document an entry that is due is made, unless its offset passes for one of
an earlier document. -/
theorem entryMade_document {terms : List Bytes} (new : ¬EntryDue due done term pair.2) :
    EntryMade due (done ++ terms.map fun term => (pair, term)) term pair.2 ↔
      EntryDue due (done ++ terms.map fun term => (pair, term)) term pair.2 ∧
        ∀ made, EntryMade due done term made →
        ¬Passes (madeTexts due done term) (decimal made) (decimal pair.2) := by
  induction terms using List.reverseRecOn with
  | nil =>
    rw [List.map_nil, List.append_nil]
    exact iff_of_false (fun made => new made.entryDue) fun here => new here.1
  | append_singleton terms other ih =>
    rw [List.map_append, List.map_singleton, ← List.append_assoc, entryMade_concat, entryDue_concat]
    by_cases made : EntryMade due (done ++ terms.map fun term => (pair, term)) term pair.2
    · obtain ⟨isDue, apart⟩ := ih.mp made
      exact iff_of_true (.inl made) ⟨.inl isDue, apart⟩
    · -- so far the document has added nothing
      have same : ∀ offset, EntryMade due (done ++ terms.map fun term => (pair, term)) term offset ↔
          EntryMade due done term offset := by
        intro offset
        by_cases here : offset = pair.2
        · subst here
          exact iff_of_false made fun old => new old.entryDue
        · apply entryMade_append
          intro occurrence member
          obtain ⟨_, -, rfl⟩ := List.mem_map.mp member
          exact fun same => here same.symm
      rw [or_iff_right made]
      constructor
      · rintro ⟨rfl, -, holds, apart⟩
        simp only [same] at apart
        exact ⟨.inr ⟨rfl, rfl, holds⟩, apart⟩
      · rintro ⟨isDue | ⟨rfl, -, holds⟩, apart⟩
        · exact absurd (ih.mpr ⟨isDue, apart⟩) made
        · refine ⟨rfl, rfl, holds, ?_⟩
          simp only [same]
          exact apart

theorem elsewhere_of_nodup (split : documentOffsetMap = before ++ pair :: after)
    (nodup : (documentOffsetMap.map Prod.snd).Nodup) :
    (∀ occurrence ∈ occurrences before, occurrence.1.2 ≠ pair.2) ∧ ∀ occurrence ∈ occurrences after,
      occurrence.1.2 ≠ pair.2 := by
  rw [split, List.map_append, List.map_cons, List.nodup_append, List.nodup_cons] at nodup
  obtain ⟨-, ⟨notAfter, -⟩, notBefore⟩ := nodup
  constructor
  · rintro ⟨other, _⟩ member
    exact notBefore _ (List.mem_map_of_mem (mem_occurrences.mp member).1) _ List.mem_cons_self
  · rintro ⟨other, _⟩ member same
    exact notAfter (same ▸ List.mem_map_of_mem (mem_occurrences.mp member).1)

theorem entryMade_pair (split : documentOffsetMap = before ++ pair :: after)
    (nodup : (documentOffsetMap.map Prod.snd).Nodup) :
    EntryMade due (occurrences documentOffsetMap) term pair.2 ↔
      EntryDue due (occurrences documentOffsetMap) term pair.2 ∧
      ∀ made, EntryMade due (occurrences before) term made →
        ¬Passes (madeTexts due (occurrences before) term) (decimal made) (decimal pair.2) := by
  obtain ⟨notBefore, notAfter⟩ := elsewhere_of_nodup split nodup
  rw [split, occurrences_append, occurrences_cons, ← List.append_assoc, entryMade_append notAfter,
    entryDue_append notAfter]
  apply entryMade_document
  rintro ⟨first, other, last, here, same, -⟩
  exact notBefore (other, term) (by rw [here]; simp) same

/-! ### All entries of a term -/

/-- Every document with the term gets its entry: it is due there, and the texts of the offsets are
not confused. -/
structure Recorded (due : Occurrence → List Bytes → Prop)
    (documentOffsetMap : List (Bytes × UInt64)) (term : Bytes) : Prop where
  due : ∀ pair ∈ documentOffsetMap, term ∈ irsStorageGetDocumentTerms pair.1 →
    EntryDue due (occurrences documentOffsetMap) term pair.2
  unconfused : Unconfused ((withToken documentOffsetMap term).map fun pair => decimal pair.2)

def Complete (due : Occurrence → List Bytes → Prop) (documentOffsetMap : List (Bytes × UInt64))
    (term : Bytes) : Prop :=
  ∀ pair ∈ documentOffsetMap, term ∈ irsStorageGetDocumentTerms pair.1 →
    EntryMade due (occurrences documentOffsetMap) term pair.2

theorem Complete.texts (complete : Complete due before term) :
    madeTexts due (occurrences before) term =
      {key | key ∈ (withToken before term).map fun pair => decimal pair.2} := by
  ext key
  constructor
  · rintro ⟨made, entry, rfl⟩
    obtain ⟨first, pair, last, split, rfl, -⟩ := entry.entryDue
    obtain ⟨inMap, isToken⟩ := split_mem split
    exact List.mem_map.mpr ⟨pair, List.mem_filter.mpr ⟨inMap, decide_eq_true isToken⟩, rfl⟩
  · intro member
    obtain ⟨pair, inside, rfl⟩ := List.mem_map.mp member
    obtain ⟨inMap, isToken⟩ := List.mem_filter.mp inside
    exact ⟨pair.2, complete pair inMap (of_decide_eq_true isToken), rfl⟩

theorem Complete.earlier (complete : Complete due documentOffsetMap term)
    (split : documentOffsetMap = before ++ pair :: after)
    (nodup : (documentOffsetMap.map Prod.snd).Nodup) : Complete due before term := by
  intro other inMap isToken
  have made := complete other (split ▸ List.mem_append_left _ inMap) isToken
  rw [split, occurrences_append] at made
  refine (entryMade_append ?_).mp made
  rintro ⟨later, _⟩ member same
  rw [split, List.map_append, List.nodup_append] at nodup
  exact nodup.2.2 _ (List.mem_map_of_mem inMap)
    _ (List.mem_map_of_mem (mem_occurrences.mp member).1) same.symm

theorem withToken_cons (isToken : term ∈ irsStorageGetDocumentTerms pair.1) :
    (withToken (before ++ pair :: after) term).map (fun pair => decimal pair.2) =
      (withToken before term).map (fun pair => decimal pair.2) ++ decimal pair.2 ::
        (withToken after term).map fun pair => decimal pair.2 := by
  rw [withToken, List.filter_append, List.filter_cons_of_pos (by simpa using isToken),
    List.map_append, List.map_cons]
  rfl

theorem split_withToken {first last : List Bytes} {text : Bytes}
    (split : (withToken documentOffsetMap term).map (fun pair => decimal pair.2) =
      first ++ text :: last) :
    ∃ before pair after, documentOffsetMap = before ++ pair :: after ∧
      term ∈ irsStorageGetDocumentTerms pair.1 ∧
      (withToken before term).map (fun pair => decimal pair.2) = first ∧ text = decimal pair.2 := by
  obtain ⟨beforeKept, others, kept, rfl, rest⟩ := List.map_eq_append_iff.mp split
  obtain ⟨pair, afterKept, rfl, rfl, -⟩ := List.map_eq_cons_iff.mp rest
  obtain ⟨before, others, rfl, rfl, here⟩ := List.filter_eq_append_iff.mp kept
  obtain ⟨skipped, after, rfl, none, isToken, -⟩ := List.filter_eq_cons_iff.mp here
  refine ⟨before ++ skipped, pair, after, (List.append_assoc _ _ _).symm,
    of_decide_eq_true isToken, ?_, rfl⟩
  rw [withToken, List.filter_append, List.filter_eq_nil_iff.mpr none, List.append_nil]

theorem Complete.recorded (complete : Complete due documentOffsetMap term)
    (nodup : (documentOffsetMap.map Prod.snd).Nodup) :
    Recorded due documentOffsetMap term where
  due := fun pair inMap isToken => (complete pair inMap isToken).entryDue
  unconfused := by
    intro first text last split new key member passes
    obtain ⟨before, pair, after, whole, isToken, rfl, rfl⟩ := split_withToken split
    have texts := (complete.earlier whole nodup).texts
    have inside : key ∈ madeTexts due (occurrences before) term := texts ▸ member
    obtain ⟨made, entry, rfl⟩ := inside
    have made' := complete pair (by rw [whole]; simp) isToken
    rw [← texts] at passes
    exact ((entryMade_pair whole nodup).mp made').2 made entry passes

/-- The documents are taken in order: those before this one have their entries. -/
theorem Recorded.complete (recorded : Recorded due documentOffsetMap term)
    (nodup : (documentOffsetMap.map Prod.snd).Nodup) :
    Complete due documentOffsetMap term := by
  suffices run : ∀ before after, documentOffsetMap = before ++ after → Complete due before term from
    run _ [] (List.append_nil _).symm
  intro before
  induction before using List.reverseRecOn with
  | nil => exact fun after _ pair inMap => absurd inMap List.not_mem_nil
  | append_singleton before pair ih =>
    intro after split
    rw [List.append_assoc, List.singleton_append] at split
    have complete := ih _ split
    intro other inMap isToken
    rcases List.mem_append.mp inMap with old | here
    · rw [occurrences_append]
      refine (entryMade_append ?_).mpr (complete other old isToken)
      rintro ⟨later, _⟩ member same
      obtain ⟨isLast, -⟩ := mem_occurrences.mp member
      obtain rfl := List.mem_singleton.mp isLast
      exact (elsewhere_of_nodup split nodup).1 (other, term)
        (mem_occurrences.mpr ⟨old, isToken⟩) same.symm
    · obtain rfl := List.mem_singleton.mp here
      have nodup' : ((before ++ [other]).map Prod.snd).Nodup := by
        rw [split, ← List.singleton_append, ← List.append_assoc, List.map_append] at nodup
        exact (List.nodup_append.mp nodup).1
      rw [entryMade_pair rfl nodup']
      constructor
      · have isDue := recorded.due other (by rw [split]; simp) isToken
        rw [split, ← List.singleton_append, ← List.append_assoc, occurrences_append] at isDue
        exact (entryDue_append (elsewhere_of_nodup split nodup).2).mp isDue
      · intro made entry passes
        rw [complete.texts] at passes
        refine recorded.unconfused _ _ _ (split ▸ withToken_cons isToken) ?_ _ ?_ passes
        · intro again
          obtain ⟨earlier, inside, same⟩ := List.mem_map.mp again
          obtain ⟨old, isToken'⟩ := List.mem_filter.mp inside
          exact (elsewhere_of_nodup split nodup).1 (earlier, term)
            (mem_occurrences.mpr ⟨old, of_decide_eq_true isToken'⟩)
            (decimal_injective same)
        · rw [← Set.mem_ofPred_eq
            (p := fun key => key ∈ (withToken before term).map fun pair => decimal pair.2),
            ← complete.texts]
          exact ⟨made, entry, rfl⟩

theorem recorded_iff (nodup : (documentOffsetMap.map Prod.snd).Nodup) :
    Complete due documentOffsetMap term ↔ Recorded due documentOffsetMap term :=
  ⟨fun complete => complete.recorded nodup, fun recorded => recorded.complete nodup⟩

theorem recorded_congr {due' : Occurrence → List Bytes → Prop}
    (nodup : (documentOffsetMap.map Prod.snd).Nodup) (same : ∀ before pair after,
      occurrences documentOffsetMap = before ++ (pair, term) :: after →
        (due (pair, term) (before.map Prod.snd ++ [term]) ↔
          due' (pair, term) (before.map Prod.snd ++ [term]))) :
    Recorded due documentOffsetMap term ↔ Recorded due' documentOffsetMap term := by
  rw [← recorded_iff nodup, ← recorded_iff nodup]
  exact forall₃_congr fun pair _ _ => entryMade_congr same pair.2

/-- Where no token is contained in all documents, all entries are due. -/
theorem entryDue_of_fewer (fewer : ∀ term ∈ tokensOf (documentOffsetMap.map Prod.fst),
      docsWith documentOffsetMap term < documentOffsetMap.length) (inMap : pair ∈ documentOffsetMap)
    (isToken : term ∈ irsStorageGetDocumentTerms pair.1) :
    EntryDue (fun _ => Positive documentOffsetMap) (occurrences documentOffsetMap) term pair.2 := by
  obtain ⟨before, after, split⟩ := List.append_of_mem (mem_occurrences.mpr ⟨inMap, isToken⟩)
  obtain ⟨latest, last⟩ := exists_newest (show before.map Prod.snd ++ [term] ≠ [] by simp)
  have known := split_known split latest (newest_mem last)
  exact ⟨before, pair, after, split, rfl, latest, last, (fewer latest known).ne⟩

end IrsMachine
