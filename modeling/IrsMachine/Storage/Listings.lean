import IrsMachine.Storage.TermFile
import IrsMachine.Storage.Twins

/-!
# Listed once

An iteration stores an entry only if the lookup of the offset, in the same dictionary and with no
append to it in between, found none. So no offset gets a second entry for a term, however often
the term is repeated.
-/

namespace IrsMachine
open IrsDictionaryNode Except Multimap Words

variable {F : Type} [IrsFloat F] {documentOffsetMap : List (Bytes × UInt64)}

def SignificancyStr (F : Type) [IrsFloat F] (_docOffset : UInt64) (text : Bytes) : Prop :=
  ∃ significancy : F, text = IrsFloat.toStrFloat significancy

/-- Every data node holds one entry, no offset is at two nodes, and the visit writes entries with
different offsets. -/
structure ListsOnce (F : Type) [IrsFloat F] (dictionary : IrsDictionary DocValue) : Prop where
  entry : ∀ address node list, dictionary.root.nodeAt address = some node →
    node.dataList = some list →
    ∃ docOffset text, list = [.offset docOffset, .significancy text] ∧
    SignificancyStr F docOffset text
  apart : ∀ address address' node node' docOffset rest rest',
    dictionary.root.nodeAt address = some node →
    dictionary.root.nodeAt address' = some node' →
    node.dataList = some (.offset docOffset :: rest) →
    node'.dataList = some (.offset docOffset :: rest') → address = address'
  written : ∀ outcomes writer writer' written, AtEnd writer.channel writer.world written →
    (irsDictionaryVisitDownNodes dictionary).foldlM
      (fun writer visit => irsStoragePassTermsDocOffsetDictionary outcomes writer visit.2) writer =
      .ok writer' →
    ∃ entries : List (UInt64 × Bytes), (entries.map Prod.fst).Nodup ∧
    Extended writer writer' written (entries.flatMap entryRecord)

/-! ### Dictionaries by offset -/

theorem DocIndexed.nodeAt {Text : UInt64 → Bytes → Prop} {dictionary : IrsDictionary DocValue}
    (indexed : DocIndexed Text dictionary) {address : Address} {node : IrsDictionaryNode DocValue}
    {list : List DocValue} (located : dictionary.root.nodeAt address = some node)
    (data : node.dataList = some list) :
    ∃ docOffset text, Text docOffset text ∧ spell dictionary.root address = decimal docOffset ∧
      list = [.offset docOffset, .significancy text] := by
  have held := contents_nodeAt indexed.kept.tidy located
  rw [data, Option.getD_some] at held
  have stocked : list ≠ [] := by
    rintro rfl
    exact (tidy_nodeAt indexed.kept.tidy located).stocked data
  obtain ⟨docOffset, text, right, word, stored⟩ := indexed.entries _ (mem_keys.mpr (held ▸ stocked))
  exact ⟨docOffset, text, right, word, held.symm.trans stored⟩

theorem DocIndexed.listsOnce {dictionary : IrsDictionary DocValue}
    (indexed : DocIndexed (SignificancyStr F) dictionary) :
    ListsOnce F dictionary where
  entry := fun address node list located data => by
    obtain ⟨docOffset, text, right, -, values⟩ := indexed.nodeAt located data
    exact ⟨docOffset, text, values, right⟩
  apart := fun address address' node node' docOffset rest rest' located located' data data' => by
    obtain ⟨first, _, -, word, values⟩ := indexed.nodeAt located data
    obtain ⟨second, _, -, word', values'⟩ := indexed.nodeAt located' data'
    have one : docOffset = first := by simpa using (List.cons.inj values).1
    have two : docOffset = second := by simpa using (List.cons.inj values').1
    exact spell_injective indexed.kept.tidy located located' (by rw [word, word', ← one, ← two])
  written := fun outcomes writer writer' written atEnd run => by
    refine ⟨IrsMachine.docEntries dictionary, indexed.docEntries.1, ?_⟩
    rw [← entriesChars_eq]
    exact passEntries_ok atEnd run

/-- An offset that is not found has no entry. -/
theorem DocIndexed.absent {Text : UInt64 → Bytes → Prop} {dictionary : IrsDictionary DocValue}
    {docOffset : UInt64} (indexed : DocIndexed Text dictionary)
    (notFound : irsDictionaryGet dictionary (decimal docOffset) = .ok none) :
    decimal docOffset ∉ keys irsCharToIrsInt dictionary.root := by
  intro present
  have found := (get_stored indexed.kept (fun ch => And.left)
    (fun ch member => (decimal_admitted docOffset ch member).1)
    (length_decimal docOffset) present).1
  rw [notFound] at found
  cases found

theorem storing_docIndexed (digits : ∀ pair ∈ documentOffsetMap,
      IrsFloat.toStrInt (F := F) pair.2 = decimal pair.2) :
    Storing F documentOffsetMap (DocIndexed (SignificancyStr F)) where
  texts := fun pair inMap => by
    rw [digits pair inMap]
    exact decimal_admitted pair.2
  fresh := docIndexed_freshDictionary
  kept := fun _ indexed => indexed.kept
  store := fun pair inMap dictionary significancy indexed notFound => by
    rw [digits pair inMap] at notFound ⊢
    obtain ⟨middle, dictionary', first, second, indexed', -⟩ :=
      indexed.store (indexed.absent notFound) ⟨significancy, rfl⟩
    exact ⟨middle, dictionary', first, second, indexed'⟩

/-! ### The dictionaries of the indexer -/

/-- No document is listed twice for a term, after any number of iterations. -/
theorem irsStorageAssignTermsInDocuments_listsOnce
    (prints : ∀ docOffset : UInt64, docOffset.toNat < 2 ^ 53 →
      IrsFloat.toStrInt (F := F) docOffset = decimal docOffset)
    (bytes : ∀ pair ∈ documentOffsetMap, ∀ ch ∈ pair.1, Admitted ch)
    (small : ∀ pair ∈ documentOffsetMap, pair.2.toNat < 2 ^ 53) (done rest : List Occurrence)
    (split : occurrences documentOffsetMap = done ++ rest) :
    ∃ state : AssignState F, done.foldlM (assignOccurrence documentOffsetMap) assignInitialize =
      .ok state ∧
      irsStorageAssignTermsInDocuments documentOffsetMap =
        rest.foldlM (assignOccurrence documentOffsetMap) state ∧
      ∀ dictionary ∈ state.docDictionaries, ListsOnce F dictionary := by
  have storing := storing_docIndexed fun pair inMap => prints pair.2 (small pair inMap)
  obtain ⟨state, run, twins⟩ := exists_twins storing bytes done rest split
  exact ⟨state, run, assignTerms_goesOn split run,
    fun dictionary member => (twins.dictionaries dictionary member).listsOnce⟩

/-- In `a a` and `b` the entry of the first document is made once. -/
theorem irsStorageAssignTermsInDocuments_listsOnce_a_a :
    ∃ state : AssignState ExactQuotient, (occurrences [([97, 32, 97], 0), ([98], 11)]).foldlM
        (assignOccurrence [([97, 32, 97], 0), ([98], 11)]) assignInitialize = .ok state ∧
      irsStorageAssignTermsInDocuments [([97, 32, 97], 0), ([98], 11)] = .ok state ∧
      ∀ dictionary ∈ state.docDictionaries, ListsOnce ExactQuotient dictionary :=
  irsStorageAssignTermsInDocuments_listsOnce (fun _ _ => rfl) (by unfold Admitted; decide +kernel)
    (by decide +kernel) _ []
    (List.append_nil _).symm

end IrsMachine
