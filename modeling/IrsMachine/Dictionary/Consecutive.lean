import IrsMachine.Dictionary.Outline

/-!
# Two appends in a row

Callers push two or three values under one key and read them back by their places in the data
list. In every dictionary the second append goes to the node of the first one, and changes
nothing but the end of its data list.
-/

namespace IrsMachine
open IrsDictionaryNode Except

variable {α : Type} {ok : UInt8 → Prop}

/-- The dictionaries that calls of `irs_dictionary_append` lead to, when their keys have such
bytes. -/
inductive Reached (ok : UInt8 → Prop) : IrsDictionary α → Prop where
  | fresh : Reached ok freshDictionary
  | append {dictionary dictionary' : IrsDictionary α} {irsString : Bytes} {size : UInt32}
    {value : α} {address : Address}
      (before : Reached ok dictionary) (bytes : ∀ ch ∈ irsString.take size.toNat, ok ch)
      (run : irsDictionaryAppend dictionary irsString size value = .ok (dictionary', address)) :
      Reached ok dictionary'

theorem Reached.kept {dictionary : IrsDictionary α} (reached : Reached ok dictionary) :
    Kept ok dictionary := by
  induction reached with
  | fresh => exact kept_freshDictionary
  | append _ bytes run ih => exact kept_irsDictionaryAppend ih bytes run

theorem Reached.mono {more : UInt8 → Prop} {dictionary : IrsDictionary α}
    (reached : Reached ok dictionary) (wider : ∀ ch, ok ch → more ch) :
    Reached more dictionary := by
  induction reached with
  | fresh => exact .fresh
  | append _ bytes run ih => exact .append ih (fun ch member => wider ch (bytes ch member)) run

theorem dataList_modifyAt {node found : IrsDictionaryNode α} {address : Address} (value : α)
    (located : node.nodeAt address = some found) (other : Address) :
    ((node.modifyAt (pushBack value) address).nodeAt other).map IrsDictionaryNode.dataList =
      if other = address then some (some (found.dataList.getD [] ++ [value]))
      else (node.nodeAt other).map IrsDictionaryNode.dataList := by
  induction address generalizing node other with
  | nil =>
    cases located
    cases other with
    | nil => rfl
    | cons m other => rfl
  | cons num address ih =>
    obtain ⟨child, stored, located⟩ := nodeAt_stored located
    have inside := (List.getElem?_eq_some_iff.mp stored).1
    rw [modifyAt_cons stored]
    cases other with
    | nil => rfl
    | cons m other =>
      by_cases same : num = m
      · subst same
        rw [nodeAt_setNext_self inside, nodeAt_cons stored, ih located other]
        simp only [List.cons.injEq, true_and]
      · rw [nodeAt_setNext_ne _ _ same, if_neg fun both => same (List.cons.inj both).1.symm]

/-- An append ends at a node that is there, and its value is the last one there. -/
theorem append_node {dictionary first : IrsDictionary α} {irsString : Bytes} {size : UInt32} {v : α}
    {address : Address} (kept : Kept ok dictionary) (read : ∀ ch ∈ irsString.take size.toNat, ok ch)
    (run : irsDictionaryAppend dictionary irsString size v = .ok (first, address)) :
    ∃ node list, first.root.nodeAt address = some node ∧ node.dataList = some (list ++ [v]) := by
  obtain ⟨root, loop, rfl⟩ := irsDictionaryAppend_ok.mp run
  rw [kept.toInt, kept.size] at loop
  obtain ⟨⟨found, located⟩, -⟩ := appendLoop_spell irsCharToIrsInt_injective kept.tidy read loop
  obtain ⟨node, there⟩ := nodeAt_modifyAt_some v located
  have data := dataList_modifyAt v located address
  rw [there, if_pos rfl, Option.map_some, Option.some.injEq] at data
  exact ⟨node, _, there, data⟩

/-- Two appends of one key in a row: the second one goes to the same node, changes no label and no
link, and puts its value right behind the first one. -/
theorem irsDictionaryAppend_again {dictionary : IrsDictionary α}
    (reached : Reached (fun _ => True) dictionary) (irsString : Bytes) (size : UInt32) (v w : α) :
    (Reached Admitted dictionary → (∀ ch ∈ irsString, Admitted ch) →
      ∃ first address, irsDictionaryAppend dictionary irsString size v = .ok (first, address)) ∧
    ∀ first address, irsDictionaryAppend dictionary irsString size v = .ok (first, address) →
      ∃ second list, irsDictionaryAppend first irsString size w = .ok (second, address) ∧
        outline second = outline first ∧
        (first.root.nodeAt address).map IrsDictionaryNode.dataList = some (some (list ++ [v])) ∧
        (second.root.nodeAt address).map IrsDictionaryNode.dataList = some (some (list ++ [v, w])) ∧
        ∀ other, other ≠ address →
          (second.root.nodeAt other).map IrsDictionaryNode.dataList =
            (first.root.nodeAt other).map IrsDictionaryNode.dataList := by
  refine ⟨fun admitted bytes => irsDictionaryAppend_total size v admitted.kept bytes, ?_⟩
  intro first address run
  obtain ⟨node, list, located, data⟩ := append_node reached.kept (fun _ _ => trivial) run
  have again := append_again_run reached.kept (fun _ _ => trivial) run w
  obtain ⟨root, -, rfl⟩ := irsDictionaryAppend_ok.mp run
  have lists := dataList_modifyAt w located
  refine ⟨_, list, again, ?_, ?_, ?_, ?_⟩
  · simp only [outline, outlineNode_modifyAt, modifyAt_stock]
  · rw [located, Option.map_some, data]
  · rw [lists, if_pos rfl, data, Option.getD_some, List.append_assoc, List.singleton_append]
  · intro other different
    rw [lists, if_neg different]

/-- `iT` goes to the edge of `it`, twice. -/
theorem irsDictionaryAppend_again_iT :
    ∃ (before first second : IrsDictionary Nat) (address address' : Address),
      irsDictionaryAppend freshDictionary [105, 116] 2 0 = .ok (before, address) ∧
      irsDictionaryAppend before [105, 84] 2 1 = .ok (first, address') ∧
      irsDictionaryAppend first [105, 84] 2 2 = .ok (second, address') ∧
      outline second = outline first := by
  have it : ∀ ch ∈ [(105 : UInt8), 116], Admitted ch := by simp [Admitted]
  have iT : ∀ ch ∈ [(105 : UInt8), 84], Admitted ch := by simp [Admitted]
  obtain ⟨before, address, run⟩ := irsDictionaryAppend_total 2 0 kept_freshDictionary it
  have reached : Reached Admitted before :=
    .append .fresh (fun ch member => it ch (List.mem_of_mem_take member)) run
  obtain ⟨returns, again⟩ :=
    irsDictionaryAppend_again (reached.mono fun _ _ => trivial) [105, 84] 2 1 2
  obtain ⟨first, address', one⟩ := returns reached iT
  obtain ⟨second, list, two, same, -⟩ := again first address' one
  exact ⟨before, first, second, address, address', run, one, two, same⟩

end IrsMachine
