import IrsMachine.Dictionary.Contents
import IrsMachine.Library.Words

/-!
# Keys and stops

The keys of a tree are the words with values. In a tidy tree whose inner nodes branch, the
nodes are the stops of the keys (`descend_iff_stop`). So the keys alone say where an append
compares letters in either case, and an append that meets no clash files its value under the
key itself (`appendLoop_exact`).
-/

namespace IrsMachine
open IrsDictionaryNode Except Multimap Words

variable {α : Type} {toInt : UInt8 → UInt8} {ok : UInt8 → Prop} {size : UInt8}

def keys (toInt : UInt8 → UInt8) (node : IrsDictionaryNode α) : Set Bytes :=
  {word | contents toInt node word ≠ []}

theorem mem_keys {node : IrsDictionaryNode α} {word : Bytes} : word ∈ keys toInt node ↔
    contents toInt node word ≠ [] := Iff.rfl

/-- Letters that the append loop takes for one another. -/
def SameFold (a b : UInt8) : Prop := tolower a = tolower b

theorem Bushy.child {node child : IrsDictionaryNode α} {num : Nat}
    (bushy : Bushy node fun _ => False) (stored : node.next[num]? = some (some child)) :
    (child.dataList = none → Branches child) ∧ Bushy child fun _ => False :=
  ⟨bushy [num] child (List.cons_ne_nil _ _) id (by rw [nodeAt_cons stored]; rfl),
    fun address found _ _ located => bushy (num :: address) found (List.cons_ne_nil _ _) id
      (by rw [nodeAt_cons stored, located])⟩

theorem descend_trans {node found : IrsDictionaryNode α} {word : Bytes}
    (tidy : Tidy toInt ok size node) (reached : descend toInt node word = some found)
    (rest : Bytes) :
    descend toInt node (word ++ rest) = descend toInt found rest := by
  obtain ⟨address, located, rfl⟩ := exists_spell tidy reached
  clear reached
  induction address generalizing node with
  | nil => cases located; rfl
  | cons num address ih =>
    obtain ⟨child, stored, below⟩ := nodeAt_stored located
    rw [spell_cons stored, List.append_assoc, descend_append tidy stored,
      ih (tidy.child stored) below]

theorem contents_append {node child : IrsDictionaryNode α} {num : Nat}
    (tidy : Tidy toInt ok size node) (stored : node.next[num]? = some (some child)) (word : Bytes) :
    contents toInt node (child.label ++ word) = contents toInt child word := by
  rw [contents, contents, descend_append tidy stored]

theorem keys_entered {node old child : IrsDictionaryNode α} {num : Nat} {rest : Bytes}
    (injective : Function.Injective toInt) (tidy : Tidy toInt ok size node)
    (stored : node.next[num]? = some (some old)) (entered : Entered toInt size old rest child)
    (nonempty : child.label ≠ []) :
    keys toInt child = under (keys toInt node) child.label := by
  ext word
  have same : contents toInt node (child.label ++ word) = contents toInt child word := by
    obtain ⟨b, back, label, rfl⟩ :=
      (tidy_entered (tidy.edge stored) (tidy.child stored) entered nonempty).1.first
    have step : contents toInt node (b :: (back ++ word)) = _ :=
      contents_stored stored (tidy.edge stored).nonempty
    rw [← through_entered injective entered, ← List.cons_append, ← label, through_append] at step
    exact step
  simp only [keys, under, Set.mem_ofPred_eq, same]

theorem exists_key {node : IrsDictionaryNode α} (tidy : Tidy toInt ok size node)
    (here : node.dataList = none → Branches node) (bushy : Bushy node fun _ => False) :
    ∃ word, word ∈ keys toInt node := by
  induction tidy with
  | @intro node slots stocked edges below ih =>
    cases data : node.dataList with
    | some values => exact ⟨[], by simp [keys, data]; rintro rfl; exact stocked data⟩
    | none =>
      obtain ⟨first, -, -, ⟨child, stored⟩, -⟩ := here data
      obtain ⟨childHere, childBushy⟩ := bushy.child stored
      obtain ⟨word, key⟩ := ih first child stored childHere childBushy
      refine ⟨child.label ++ word, ?_⟩
      rwa [keys, Set.mem_ofPred_eq, contents_append (.intro slots stocked edges below) stored]

theorem exists_key_through {node child : IrsDictionaryNode α} {num : Nat}
    (tidy : Tidy toInt ok size node) (bushy : Bushy node fun _ => False)
    (stored : node.next[num]? = some (some child)) :
    ∃ key ∈ keys toInt node, child.label <+: key := by
  obtain ⟨here, below⟩ := bushy.child stored
  obtain ⟨word, key⟩ := exists_key (tidy.child stored) here below
  refine ⟨child.label ++ word, ?_, List.prefix_append _ _⟩
  rwa [keys, Set.mem_ofPred_eq, contents_append tidy stored]

theorem descend_of_fork {node n₁ n₂ : IrsDictionaryNode α} {u k₁ k₂ : Bytes} {a b : UInt8}
    (tidy : Tidy toInt ok size node) (different : a ≠ b) (first : descend toInt node k₁ = some n₁)
    (second : descend toInt node k₂ = some n₂) (goes : u ++ [a] <+: k₁) (other : u ++ [b] <+: k₂) :
    (descend toInt node u).isSome := by
  induction hn : u.length using Nat.strong_induction_on generalizing node u k₁ k₂ with
  | _ n ih =>
    cases u with
    | nil => simp
    | cons c u =>
      obtain ⟨w₁, rfl⟩ := goes
      obtain ⟨w₂, rfl⟩ := other
      simp only [List.cons_append] at first second
      obtain ⟨child, r₁, stored, split₁, first⟩ := descend_cons tidy first
      obtain ⟨child', r₂, stored', split₂, second⟩ := descend_cons tidy second
      cases stored.symm.trans stored'
      have inU : child.label <+: c :: u :=
        prefix_of_fork different (k := child.label ++ r₁) (m := child.label ++ r₂)
          (List.prefix_append _ _)
          (List.prefix_append _ _) (split₁ ▸ by simp) (split₂ ▸ by simp)
      obtain ⟨u', split⟩ := inU
      have shorter : u'.length < n := by
        have := List.length_pos_iff.mpr (tidy.edge stored).nonempty
        rw [← hn, ← split, List.length_append]
        omega
      rw [← split, descend_append tidy stored]
      refine ih _ shorter (tidy.child stored) first second ?_ ?_ rfl
      · rw [← List.prefix_append_right_inj child.label, ← split₁, ← List.append_assoc, split]; simp
      · rw [← List.prefix_append_right_inj child.label, ← split₂, ← List.append_assoc, split]; simp

/-- The nodes of the tree are the stops of its keys. -/
theorem descend_iff_stop {node : IrsDictionaryNode α} (tidy : Tidy toInt ok size node)
    (bushy : Bushy node fun _ => False) (u : Bytes) : (descend toInt node u).isSome ↔
      Stop (keys toInt node) u := by
  constructor
  · intro reached
    obtain ⟨found, reached⟩ := Option.isSome_iff_exists.mp reached
    by_cases root : u = []
    · exact Or.inl root
    obtain ⟨address, located, spelled⟩ := exists_spell tidy reached
    have notRoot : address ≠ [] := by rintro rfl; exact root (by rw [← spelled]; rfl)
    have foundTidy := tidy_nodeAt tidy located
    cases data : found.dataList with
    | some values =>
      refine Or.inr (Or.inl ?_)
      simp only [keys, Set.mem_ofPred_eq, contents, reached, Option.elim_some, data,
        Option.getD_some]
      rintro rfl
      exact foundTidy.stocked data
    | none =>
      obtain ⟨first, second, other, ⟨child, stored⟩, child', stored'⟩ :=
        bushy address found notRoot id located data
      have foundBushy : Bushy found fun _ => False := fun below deeper notRoot' _ reached' =>
        bushy (address ++ below) deeper (by simp [notRoot]) id
          (by rw [nodeAt_append located, reached'])
      obtain ⟨b, back, label, rfl⟩ := (foundTidy.edge stored).first
      obtain ⟨b', back', label', rfl⟩ := (foundTidy.edge stored').first
      obtain ⟨k, key, w, rfl⟩ := exists_key_through foundTidy foundBushy stored
      obtain ⟨k', key', w', rfl⟩ := exists_key_through foundTidy foundBushy stored'
      have lift : ∀ word, word ∈ keys toInt found → u ++ word ∈ keys toInt node := by
        intro word member
        simpa only [keys, Set.mem_ofPred_eq, contents, descend_trans tidy reached] using member
      exact Or.inr (Or.inr ⟨b, b', fun same => other (by rw [same]),
        ⟨_, lift _ key, by simp [label]⟩,
        _, lift _ key', by simp [label']⟩)
  · rintro (rfl | member | ⟨a, b, different, ⟨k, key, goes⟩, k', key', other⟩)
    · simp
    · simp only [keys, Set.mem_ofPred_eq, contents] at member
      cases reached : descend toInt node u with
      | none => simp [reached] at member
      | some found => rfl
    · have reached : ∀ word, word ∈ keys toInt node →
          ∃ found, descend toInt node word = some found := by
        intro word member
        simp only [keys, Set.mem_ofPred_eq, contents] at member
        cases reached : descend toInt node word with
        | none => simp [reached] at member
        | some found => exact ⟨found, rfl⟩
      obtain ⟨n₁, first⟩ := reached k key
      obtain ⟨n₂, second⟩ := reached k' key'
      exact descend_of_fork tidy different first second goes other

/-! ### Where an append files its value -/

theorem appendLoop_spell {fuel : Nat} {node node' : IrsDictionaryNode α} {rest : Bytes}
    {address : Address} (injective : Function.Injective toInt) (tidy : Tidy toInt ok size node)
    (bytes : ∀ b ∈ rest, ok b) (run : appendLoop toInt size fuel node rest = .ok (node', address)) :
    (∃ found, node'.nodeAt address = some found) ∧
      (spell node' address).map tolower = rest.map tolower := by
  refine appendLoop_rule (motive := fun _ rest node' address =>
    (∃ found, node'.nodeAt address = some found) ∧
      (spell node' address).map tolower = rest.map tolower)
    injective ?_ ?_ ?_ tidy bytes run
  · exact fun node _ => ⟨⟨node, rfl⟩, rfl⟩
  · intro node c cs _ empty _
    have stored := getElem?_setNext node (toInt c).toNat (leafNode size (c :: cs)) (toInt c).toNat
    rw [if_pos ⟨rfl, (List.getElem?_eq_some_iff.mp empty).1⟩] at stored
    exact ⟨⟨_, nodeAt_cons stored []⟩, by rw [spell_cons stored, leafNode_label]; simp [spell]⟩
  · intro fuel node c cs old child child' address tidy stored entered edge childTidy matched
      dropped below rest
    obtain ⟨⟨found, located⟩, spelled⟩ := rest
    obtain ⟨-, label, -, -⟩ := appendLoop_tidy injective childTidy dropped below
    have stored' := getElem?_setNext node (toInt c).toNat child' (toInt c).toNat
    rw [if_pos ⟨rfl, (List.getElem?_eq_some_iff.mp stored).1⟩] at stored'
    refine ⟨⟨found, by rw [nodeAt_cons stored', located]⟩, ?_⟩
    rw [spell_cons stored', List.map_append, spelled, label, matched, ← List.map_append,
      List.take_append_drop]

theorem label_exact {node old child : IrsDictionaryNode α} {num : Nat} {rest : Bytes}
    (tidy : Tidy toInt ok size node) (bushy : Bushy node fun _ => False)
    (stored : node.next[num]? = some (some old)) (entered : Entered toInt size old rest child)
    (first : ∃ c back, child.label = c :: back ∧ rest.head? = some c)
    (matched : child.label.map tolower = (rest.take child.label.length).map tolower)
    (noClash : ¬Clash SameFold (keys toInt node) rest) :
    child.label = rest.take child.label.length := by
  by_contra different
  have lengths : child.label.length = (rest.take child.label.length).length := by
    simpa using congrArg List.length matched
  obtain ⟨u, a, b, ne, goes, other⟩ := exists_first_difference lengths different
  refine noClash ⟨u, b, a, Ne.symm ne, ?_, other.trans (List.take_prefix _ _), ?_, ?_⟩
  · -- the letters at the difference agree up to case
    obtain ⟨w, labelEq⟩ := goes
    obtain ⟨w', restEq⟩ := other
    rw [← restEq, ← labelEq] at matched
    simp only [List.map_append, List.map_cons, List.append_assoc, List.append_cancel_left_eq,
      List.cons_append, List.nil_append, List.cons.injEq] at matched
    exact matched.1.symm
  · have inOld : child.label <+: old.label := by
      cases entered with
      | whole => exact List.prefix_refl _
      | split splitOf => rw [splitOf.label, splitOf.oldLabel]; exact List.prefix_append _ _
    obtain ⟨key, member, isPrefix⟩ := exists_key_through tidy bushy stored
    exact ⟨key, member, goes.trans (inOld.trans isPrefix)⟩
  · rw [← descend_iff_stop tidy bushy]
    have inOld : child.label <+: old.label := by
      cases entered with
      | whole => exact List.prefix_refl _
      | split splitOf => rw [splitOf.label, splitOf.oldLabel]; exact List.prefix_append _ _
    obtain ⟨c, back, label, head⟩ := first
    obtain ⟨c', back', label', index⟩ := (tidy.edge stored).first
    obtain ⟨w, oldEq⟩ := goes.trans inOld
    cases u with
    | nil =>
      -- the first letters are the same, since they choose the same slot
      obtain ⟨w', restEq⟩ := other
      rw [List.nil_append, label] at goes
      have : a = c := by simpa using goes
      cases rest with
      | nil => cases head
      | cons r rest =>
        cases head
        rw [label, List.length_cons, List.take_succ_cons] at restEq
        simp only [List.nil_append, List.cons_append, List.cons.injEq] at restEq
        exact absurd (this.trans restEq.1.symm) ne
    | cons c'' u =>
      have same : c'' = c' := by
        rw [label'] at oldEq
        simpa using (List.cons.inj oldEq).1
      subst same
      rw [descend_stored (by rw [index]; exact stored) (tidy.edge stored).nonempty, if_neg]
      · simp
      · intro isPrefix
        have := isPrefix.length_le
        rw [← oldEq] at this
        simp only [List.append_assoc, List.length_append, List.length_cons, List.length_nil] at this
        omega

/-- An append that meets no clash files its value under the key. -/
theorem appendLoop_exact {fuel : Nat} {node node' : IrsDictionaryNode α} {rest : Bytes}
    {address : Address} (injective : Function.Injective toInt) (tidy : Tidy toInt ok size node)
    (bytes : ∀ b ∈ rest, ok b) (bushy : Bushy node fun _ => False)
    (noClash : ¬Clash SameFold (keys toInt node) rest)
    (run : appendLoop toInt size fuel node rest = .ok (node', address)) :
    spell node' address = rest := by
  revert bushy noClash
  refine appendLoop_rule (motive := fun node rest node' address => (Bushy node fun _ => False) →
    ¬Clash SameFold (keys toInt node) rest → spell node' address = rest) injective ?_ ?_ ?_
      tidy bytes run
  · exact fun _ _ _ _ => rfl
  · intro node c cs _ empty _ _ _
    have stored := getElem?_setNext node (toInt c).toNat (leafNode size (c :: cs)) (toInt c).toNat
    rw [if_pos ⟨rfl, (List.getElem?_eq_some_iff.mp empty).1⟩] at stored
    rw [spell_cons stored, leafNode_label]
    simp [spell]
  · intro fuel node c cs old child child' address tidy stored entered edge childTidy matched dropped
      below ih bushy noClash
    obtain ⟨-, label, -, -⟩ := appendLoop_tidy injective childTidy dropped below
    have stored' := getElem?_setNext node (toInt c).toNat child' (toInt c).toNat
    rw [if_pos ⟨rfl, (List.getElem?_eq_some_iff.mp stored).1⟩] at stored'
    obtain ⟨back, head⟩ := edge.head injective
    have exact := label_exact tidy bushy stored entered ⟨c, back, head, rfl⟩ matched noClash
    have split : c :: cs = child.label ++ (c :: cs).drop child.label.length := by
      have whole := List.take_append_drop child.label.length (c :: cs)
      rw [← exact] at whole
      exact whole.symm
    have oldHere := bushy.child stored
    have childBushy : Bushy child fun _ => False := by
      cases entered with
      | whole => exact oldHere.2
      | split splitOf => exact bushy_splitOf splitOf oldHere.1 oldHere.2
    have childClash : ¬Clash SameFold (keys toInt child) ((c :: cs).drop child.label.length) := by
      rw [keys_entered injective tidy stored entered edge.nonempty]
      intro clash
      have := clash.of_under
      rw [← split] at this
      exact noClash this
    rw [spell_cons stored', ih childBushy childClash, label, ← split]

end IrsMachine
