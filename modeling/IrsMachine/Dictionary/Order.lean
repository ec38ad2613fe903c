import IrsMachine.Dictionary.Traversal

/-!
# The order of the traversal

The visitors go through the slots of a node in order, so they meet the words of a tree in the
lexicographic order of their slots.
-/

namespace IrsMachine
open IrsDictionaryNode Except Multimap Words

variable {α : Type} {toInt : UInt8 → UInt8} {ok : UInt8 → Prop} {size : UInt8}

def SlotLt (toInt : UInt8 → UInt8) (a b : UInt8) : Prop := (toInt a).toNat < (toInt b).toNat

instance : Std.Asymm (SlotLt toInt) := ⟨fun _ _ => Nat.lt_asymm⟩

theorem spell_sorted {node first second : IrsDictionaryNode α} {a b : Address}
    (tidy : Tidy toInt ok size node) (here : node.nodeAt a = some first)
    (there : node.nodeAt b = some second) (earlier : List.Lex (· < ·) a b) :
    List.Lex (SlotLt toInt) (spell node a) (spell node b) := by
  induction earlier generalizing node with
  | nil =>
    obtain ⟨child, stored, -⟩ := nodeAt_stored there
    obtain ⟨c, back, label, -⟩ := (tidy.edge stored).first
    rw [spell_cons stored, label]
    exact .nil
  | rel smaller =>
    obtain ⟨child, stored, -⟩ := nodeAt_stored here
    obtain ⟨child', stored', -⟩ := nodeAt_stored there
    obtain ⟨c, back, label, rfl⟩ := (tidy.edge stored).first
    obtain ⟨c', back', label', rfl⟩ := (tidy.edge stored').first
    rw [spell_cons stored, spell_cons stored', label, label']
    exact .rel smaller
  | cons _ ih =>
    obtain ⟨child, stored, here⟩ := nodeAt_stored here
    obtain ⟨child', stored', there⟩ := nodeAt_stored there
    cases stored.symm.trans stored'
    rw [spell_cons stored, spell_cons stored]
    exact (ih (tidy.child stored) here there).append_left _ _

/-- The words with data come in the order of their slots. -/
theorem entries_sorted {node : IrsDictionaryNode α} (tidy : Tidy toInt ok size node) :
    ((entries node).map Prod.fst).Pairwise (List.Lex (SlotLt toInt)) := by
  have visits : (([], node) :: visitDownNode node).Pairwise fun first second =>
      List.Lex (SlotLt toInt) (spell node first.1) (spell node second.1) := by
    refine List.pairwise_cons.mpr ⟨fun visit member => ?_, ?_⟩
    · obtain ⟨below, located⟩ := mem_visitDownNode.mp member
      obtain ⟨num, address, same⟩ := List.exists_cons_of_ne_nil below
      rw [same] at located ⊢
      exact spell_sorted tidy rfl located .nil
    · refine (visitDownNode_sorted tidy).imp_of_mem fun inFirst inSecond earlier => ?_
      exact spell_sorted tidy (mem_visitDownNode.mp inFirst).2
        (mem_visitDownNode.mp inSecond).2 earlier
  rw [entries, List.pairwise_map, List.pairwise_filterMap]
  refine visits.imp fun earlier first isFirst second isSecond => ?_
  obtain ⟨_, -, rfl⟩ := Option.map_eq_some_iff.mp isFirst
  obtain ⟨_, -, rfl⟩ := Option.map_eq_some_iff.mp isSecond
  exact earlier

/-! ### Words met -/

theorem mem_map_entries {node : IrsDictionaryNode α} {word : Bytes}
    (tidy : Tidy toInt ok size node) :
    word ∈ (entries node).map Prod.fst ↔ word ∈ keys toInt node := by
  constructor
  · intro member
    obtain ⟨⟨_, values⟩, inside, rfl⟩ := List.mem_map.mp member
    obtain ⟨stored, present⟩ := ((lists_entries tidy).mem _ values).mp inside
    rw [mem_keys, stored]
    exact present
  · exact fun present => List.mem_map.mpr
      ⟨(word, _), ((lists_entries tidy).mem word _).mpr ⟨rfl, present⟩, rfl⟩

theorem Kept.visit {dictionary : IrsDictionary α} (kept : Kept ok dictionary) :
    ∀ visit ∈ irsDictionaryVisitDownNodes dictionary, visit.2.dataList = none ∨
      visit.2.dataList =
        some (contents irsCharToIrsInt dictionary.root (spell dictionary.root visit.1)) ∧
      spell dictionary.root visit.1 ∈ keys irsCharToIrsInt dictionary.root := by
  rintro ⟨address, node⟩ member
  have located := (mem_visitDownNode.mp member).2
  have held := contents_nodeAt kept.tidy located
  cases data : node.dataList with
  | none => exact Or.inl rfl
  | some values =>
    rw [data, Option.getD_some] at held
    refine Or.inr ⟨congrArg some held.symm, ?_⟩
    rw [mem_keys, held]
    rintro rfl
    exact (tidy_nodeAt kept.tidy located).stocked data

theorem Kept.map_entries {dictionary : IrsDictionary α} (kept : Kept ok dictionary)
    (root : [] ∉ keys irsCharToIrsInt dictionary.root) :
    (entries dictionary.root).map Prod.fst =
      (irsDictionaryVisitDownNodes dictionary).filterMap fun visit => visit.2.dataList.map fun _ =>
        spell dictionary.root visit.1 := by
  have none : dictionary.root.dataList = none := by
    rw [mem_keys, contents_nil, not_not] at root
    cases data : dictionary.root.dataList with
    | none => rfl
    | some values =>
      rw [data, Option.getD_some] at root
      rw [root] at data
      exact (kept.tidy.stocked data).elim
  rw [entries, List.filterMap_cons, none, Option.map_none, List.map_filterMap,
    irsDictionaryVisitDownNodes]
  apply List.filterMap_congr
  intro visit _
  cases visit.2.dataList <;> rfl

end IrsMachine
