import IrsMachine.Dictionary.Invariant
import IrsMachine.Library.Multimap

/-!
# What a tree contains

`descend` follows a word letter by letter, as a reader of the tree would, and `contents` is
the multimap of the words that end at data. An append pushes its value under the word that
the nodes on its way spell, which is the key up to case.
-/

namespace IrsMachine
open IrsDictionaryNode Except Multimap

variable {α : Type} {toInt : UInt8 → UInt8} {ok : UInt8 → Prop} {size : UInt8}

/-- The node that `word` leads to when every letter of every label is compared. -/
def descend (toInt : UInt8 → UInt8) (node : IrsDictionaryNode α) (word : Bytes) :
    Option (IrsDictionaryNode α) :=
  match word with
  | [] => some node
  | c :: cs =>
    match node.next[(toInt c).toNat]? with
    | some (some child) =>
      if _ : child.label ≠ [] ∧ child.label <+: c :: cs then
        descend toInt child ((c :: cs).drop child.label.length)
      else none
    | _ => none
termination_by word.length
decreasing_by
  rename_i nonempty
  have := List.length_pos_iff.mpr nonempty.1
  simp only [List.length_drop, List.length_cons]
  omega

def contents (toInt : UInt8 → UInt8) (node : IrsDictionaryNode α) (word : Bytes) : List α :=
  (descend toInt node word).elim [] fun found => found.dataList.getD []

def through (toInt : UInt8 → UInt8) (child : IrsDictionaryNode α) (word : Bytes) : List α :=
  if child.label <+: word then contents toInt child (word.drop child.label.length) else []

@[simp] theorem descend_nil (node : IrsDictionaryNode α) : descend toInt node [] = some node := by
  rw [descend]

@[simp] theorem contents_nil (node : IrsDictionaryNode α) :
    contents toInt node [] = node.dataList.getD [] := by
  simp [contents]

theorem descend_stored {node child : IrsDictionaryNode α} {c : UInt8} {cs : Bytes}
    (stored : node.next[(toInt c).toNat]? = some (some child)) (nonempty : child.label ≠ []) :
    descend toInt node (c :: cs) =
      if child.label <+: c :: cs then descend toInt child ((c :: cs).drop child.label.length)
        else none := by
  rw [descend]
  simp [stored, nonempty]

theorem descend_empty {node : IrsDictionaryNode α} {c : UInt8} {cs : Bytes}
    (empty : ∀ child, node.next[(toInt c).toNat]? ≠ some (some child)) :
    descend toInt node (c :: cs) = none := by
  unfold descend
  split
  · rename_i child stored
    exact absurd stored (empty child)
  · rfl

theorem contents_stored {node child : IrsDictionaryNode α} {c : UInt8} {cs : Bytes}
    (stored : node.next[(toInt c).toNat]? = some (some child)) (nonempty : child.label ≠ []) :
    contents toInt node (c :: cs) = through toInt child (c :: cs) := by
  rw [contents, descend_stored stored nonempty, through]
  split
  · rfl
  · rfl

theorem contents_empty {node : IrsDictionaryNode α} {c : UInt8} {cs : Bytes}
    (empty : ∀ child, node.next[(toInt c).toNat]? ≠ some (some child)) :
    contents toInt node (c :: cs) = [] := by
  rw [contents, descend_empty empty]
  rfl

theorem through_append (child : IrsDictionaryNode α) (word : Bytes) :
    through toInt child (child.label ++ word) = contents toInt child word := by
  simp [through]

theorem descend_append {node child : IrsDictionaryNode α} {num : Nat}
    (tidy : Tidy toInt ok size node) (stored : node.next[num]? = some (some child)) (word : Bytes) :
    descend toInt node (child.label ++ word) = descend toInt child word := by
  obtain ⟨b, back, label, rfl⟩ := (tidy.edge stored).first
  have step : descend toInt node (b :: (back ++ word)) = _ :=
    descend_stored stored (tidy.edge stored).nonempty
  rw [← List.cons_append, ← label, if_pos (List.prefix_append _ _), List.drop_left] at step
  exact step

theorem descend_cons {node found : IrsDictionaryNode α} {c : UInt8} {cs : Bytes}
    (tidy : Tidy toInt ok size node) (reached : descend toInt node (c :: cs) = some found) :
    ∃ child word, node.next[(toInt c).toNat]? = some (some child) ∧ c :: cs = child.label ++ word ∧
      descend toInt child word = some found := by
  obtain empty | ⟨child, stored⟩ := absent_or_stored node (toInt c).toNat
  · rw [descend_empty empty] at reached
    cases reached
  · rw [descend_stored stored (tidy.edge stored).nonempty] at reached
    split at reached
    · rename_i isPrefix
      exact ⟨child, _, stored, (List.prefix_iff_eq_append.mp isPrefix).symm, reached⟩
    · cases reached

theorem contents_setNext {node child : IrsDictionaryNode α} {c : UInt8}
    (injective : Function.Injective toInt) (inside : (toInt c).toNat < node.next.length)
    (nonempty : child.label ≠ []) (word : Bytes) :
    contents toInt (node.setNext (toInt c).toNat child) word =
      if word.head? = some c then through toInt child word else contents toInt node word := by
  cases word with
  | nil => simp [setNext]
  | cons b bs =>
    by_cases same : b = c
    · subst same
      simp only [List.head?_cons, if_true]
      exact contents_stored (by rw [getElem?_setNext, if_pos ⟨rfl, inside⟩]) nonempty
    · have other : (toInt c).toNat ≠ (toInt b).toNat :=
        fun index => same (injective (UInt8.toNat_inj.mp index)).symm
      rw [if_neg (by simpa using same), contents, contents, descend, descend, getElem?_setNext,
        if_neg (fun here => other here.1)]

/-! ### The iterations keep the contents -/

theorem contents_freshNode (size : UInt8) (word : Bytes) :
    contents toInt (irsDictionaryNodeInitialize size : IrsDictionaryNode α) word = [] := by
  cases word with
  | nil => simp [irsDictionaryNodeInitialize]
  | cons b bs =>
    exact contents_empty fun child stored => by
      simp [irsDictionaryNodeInitialize, List.getElem?_replicate] at stored

theorem contents_of_next {node other : IrsDictionaryNode α} (next : node.next = other.next)
    (dataList : node.dataList = other.dataList) (word : Bytes) :
    contents toInt node word = contents toInt other word := by
  cases word with
  | nil => simp [dataList]
  | cons b bs => rw [contents, contents, descend, descend, next]

theorem contents_blank {node : IrsDictionaryNode α}
    (next : node.next = List.replicate size.toNat none) (dataList : node.dataList = none)
    (word : Bytes) : contents toInt node word = [] := by
  rw [← contents_freshNode size word]
  exact contents_of_next next dataList word

theorem through_splitOf {old child : IrsDictionaryNode α} {front back : Bytes} {b : UInt8}
    (injective : Function.Injective toInt) (splitOf : SplitOf toInt size old child front b back)
    (word : Bytes) :
    through toInt child word = through toInt old word := by
  obtain ⟨hang, child_eq, hangLabel, -, hangNext, hangData⟩ := splitOf.hang
  rw [through, through, splitOf.label, splitOf.oldLabel]
  by_cases starts : front <+: word
  · obtain ⟨rest, rfl⟩ := starts
    rw [if_pos (List.prefix_append _ _), List.drop_left, child_eq, contents_setNext injective
      (by simpa [prefixNode, irsDictionaryNodeInitialize] using splitOf.inBounds)
      (by simp [hangLabel])]
    have blank : contents toInt (prefixNode size (child.offset.getD []) front.length :
      IrsDictionaryNode α) rest = [] :=
      contents_blank rfl rfl rest
    simp only [List.prefix_append_right_inj]
    by_cases same : rest.head? = some b
    · rw [if_pos same, through, hangLabel]
      split
      · rw [List.length_append, ← List.drop_drop, List.drop_left]
        exact contents_of_next hangNext hangData _
      · rfl
    · rw [if_neg same, blank, if_neg]
      rintro ⟨tail, rfl⟩
      simp at same
  · rw [if_neg starts, if_neg]
    exact fun whole => starts ((List.prefix_append _ _).trans whole)

theorem through_entered {old child : IrsDictionaryNode α} {rest : Bytes}
    (injective : Function.Injective toInt) (entered : Entered toInt size old rest child)
    (word : Bytes) : through toInt child word = through toInt old word := by
  cases entered with
  | whole => rfl
  | split splitOf => exact through_splitOf injective splitOf word

/-- Until its value is pushed, an append changes no contents. -/
theorem appendLoop_contents {fuel : Nat} {node node' : IrsDictionaryNode α} {rest : Bytes}
    {address : Address} (injective : Function.Injective toInt) (tidy : Tidy toInt ok size node)
    (bytes : ∀ b ∈ rest, ok b) (run : appendLoop toInt size fuel node rest = .ok (node', address))
    (word : Bytes) :
    contents toInt node' word = contents toInt node word := by
  revert word
  refine appendLoop_rule (motive := fun node _ node' _ => ∀ word, contents toInt node' word =
    contents toInt node word)
    injective ?_ ?_ ?_ tidy bytes run
  · exact fun _ _ _ => rfl
  · intro node c cs _ empty _ word
    rw [contents_setNext injective (List.getElem?_eq_some_iff.mp empty).1
      (by simp [leafNode_label])]
    split
    · rename_i head
      obtain ⟨bs, rfl⟩ := List.head?_eq_some_iff.mp head
      have nothing : contents toInt node (c :: bs) = [] :=
        contents_empty fun child stored => by rw [empty] at stored; cases stored
      rw [nothing, through]
      split
      · exact contents_blank rfl rfl _
      · rfl
    · rfl
  · intro fuel node c cs old child child' address tidy stored entered edge childTidy matched
      dropped below ih word
    obtain ⟨-, label, -, -⟩ := appendLoop_tidy injective childTidy dropped below
    rw [contents_setNext injective (List.getElem?_eq_some_iff.mp stored).1 (label ▸ edge.nonempty)]
    split
    · rename_i head
      obtain ⟨bs, rfl⟩ := List.head?_eq_some_iff.mp head
      rw [contents_stored stored (tidy.edge stored).nonempty, ← through_entered injective entered]
      simp only [through, label, ih]
    · rfl

/-! ### Spelling -/

/-- The word spelled by the labels on the way to an address. -/
def spell (node : IrsDictionaryNode α) : Address → Bytes
  | [] => []
  | num :: address =>
    match node.next[num]? with
    | some (some child) => child.label ++ spell child address
    | _ => []

theorem spell_cons {node child : IrsDictionaryNode α} {num : Nat}
    (stored : node.next[num]? = some (some child)) (address : Address) :
    spell node (num :: address) = child.label ++ spell child address := by
  simp [spell, stored]

theorem descend_spell {node found : IrsDictionaryNode α} {address : Address}
    (tidy : Tidy toInt ok size node) (located : node.nodeAt address = some found) :
    descend toInt node (spell node address) = some found := by
  induction address generalizing node with
  | nil => cases located; exact descend_nil _
  | cons num address ih =>
    obtain ⟨child, stored, located⟩ := nodeAt_stored located
    rw [spell_cons stored, descend_append tidy stored, ih (tidy.child stored) located]

theorem exists_spell {node found : IrsDictionaryNode α} {word : Bytes}
    (tidy : Tidy toInt ok size node) (reached : descend toInt node word = some found) :
    ∃ address, node.nodeAt address = some found ∧ spell node address = word := by
  induction hn : word.length using Nat.strong_induction_on generalizing node word with
  | _ n ih =>
    cases word with
    | nil =>
      rw [descend_nil] at reached
      cases reached
      exact ⟨[], rfl, rfl⟩
    | cons c cs =>
      obtain ⟨child, rest, stored, split, reached⟩ := descend_cons tidy reached
      have shorter : rest.length < n := by
        have := List.length_pos_iff.mpr (tidy.edge stored).nonempty
        rw [← hn, split, List.length_append]
        omega
      obtain ⟨address, located, spelled⟩ := ih _ shorter (tidy.child stored) reached rfl
      exact ⟨_ :: address, by rw [nodeAt_cons stored, located],
        by rw [spell_cons stored, spelled, split]⟩

theorem contents_nodeAt {node found : IrsDictionaryNode α} {address : Address}
    (tidy : Tidy toInt ok size node) (located : node.nodeAt address = some found) :
    contents toInt node (spell node address) = found.dataList.getD [] := by
  rw [contents, descend_spell tidy located]
  rfl

theorem mem_contents {node : IrsDictionaryNode α} {word : Bytes} {values : List α}
    (tidy : Tidy toInt ok size node) :
    (∃ found, descend toInt node word = some found ∧ found.dataList = some values) ↔
      contents toInt node word = values ∧ values ≠ [] := by
  constructor
  · rintro ⟨found, reached, data⟩
    obtain ⟨address, located, -⟩ := exists_spell tidy reached
    refine ⟨by rw [contents, reached, Option.elim_some, data, Option.getD_some], ?_⟩
    rintro rfl
    exact (tidy_nodeAt tidy located).stocked data
  · rintro ⟨rfl, present⟩
    rw [contents] at present ⊢
    cases reached : descend toInt node word with
    | none => simp [reached] at present
    | some found =>
      cases data : found.dataList with
      | none => simp [reached, data] at present
      | some values => exact ⟨found, rfl, by simp [data]⟩

theorem contents_modifyAt {node found : IrsDictionaryNode α} {address : Address} (value : α)
    (injective : Function.Injective toInt) (tidy : Tidy toInt ok size node)
    (located : node.nodeAt address = some found) :
    contents toInt (node.modifyAt (pushBack value) address) =
      push (contents toInt node) (spell node address) value := by
  funext word
  induction address generalizing node word with
  | nil =>
    cases located
    cases word with
    | nil => simp [modifyAt, spell, pushBack]
    | cons b bs =>
      rw [push_ne _ _ (by simp [spell])]
      simp only [modifyAt, contents, descend, pushBack]
  | cons num address ih =>
    obtain ⟨child, stored, below⟩ := nodeAt_stored located
    obtain ⟨b, back, label, rfl⟩ := (tidy.edge stored).first
    obtain ⟨label', -⟩ := modifyAt_label value child address
    rw [modifyAt_cons stored, spell_cons stored,
      contents_setNext injective (List.getElem?_eq_some_iff.mp stored).1
      (by rw [label']; exact (tidy.edge stored).nonempty)]
    by_cases head : word.head? = some b
    · obtain ⟨bs, rfl⟩ := List.head?_eq_some_iff.mp head
      rw [if_pos head, through, label']
      by_cases starts : child.label <+: b :: bs
      · obtain ⟨rest, split⟩ := starts
        rw [← split, if_pos (List.prefix_append _ _), List.drop_left, ih (tidy.child stored) below]
        simp only [push, Function.update_apply, descend_append tidy stored, contents,
          List.append_cancel_left_eq]
      · rw [if_neg starts, push_ne, contents_stored stored (tidy.edge stored).nonempty, through,
          if_neg starts]
        intro same
        exact starts (same ▸ List.prefix_append _ _)
    · rw [if_neg head, push_ne]
      rintro rfl
      simp [label] at head

end IrsMachine
