import IrsMachine.Dictionary.Run

/-!
# Appending a key again

After an append the edges lead from the root to the node of the key. So another append of the
same key changes no edge, and pushes its value behind the first one.
-/

namespace IrsMachine
open IrsDictionaryNode Except Multimap Words

variable {α : Type} {toInt : UInt8 → UInt8} {ok : UInt8 → Prop} {size : UInt8}

/-- The append loop follows whole edges from `node` to the address. -/
inductive Follows (toInt : UInt8 → UInt8) : IrsDictionaryNode α → Bytes → Address → Prop where
  | done {node : IrsDictionaryNode α} : Follows toInt node [] []
  | step {node child : IrsDictionaryNode α} {c : UInt8} {cs : Bytes} {address : Address}
      (stored : node.next[(toInt c).toNat]? = some (some child))
      (whole : agreed child (c :: cs) = child.label.length)
      (below : Follows toInt child ((c :: cs).drop child.label.length) address) :
      Follows toInt node (c :: cs) ((toInt c).toNat :: address)

theorem matchLength_whole {label rest : Bytes}
    (matched : label.map tolower = (rest.take label.length).map tolower) :
    matchLength label label.length rest = label.length := by
  induction label generalizing rest with
  | nil => cases rest <;> rfl
  | cons ch label ih =>
    cases rest with
    | nil => simp at matched
    | cons c rest =>
      simp only [List.length_cons, List.take_succ_cons, List.map_cons, List.cons.injEq] at matched
      rw [List.length_cons, matchLength, if_pos matched.1, ih matched.2]

/-- Every append leaves a way that the next one follows. -/
theorem appendLoop_follows {fuel : Nat} {node node' : IrsDictionaryNode α} {rest : Bytes}
    {address : Address} (injective : Function.Injective toInt) (tidy : Tidy toInt ok size node)
    (bytes : ∀ b ∈ rest, ok b) (run : appendLoop toInt size fuel node rest = .ok (node', address)) :
    Follows toInt node' rest address := by
  refine appendLoop_rule (motive := fun _ rest node' address => Follows toInt node' rest address)
    injective ?_ ?_ ?_
    tidy bytes run
  · exact fun _ _ => .done
  · intro node c cs _ empty _
    have stored := getElem?_setNext node (toInt c).toNat (leafNode size (c :: cs)) (toInt c).toNat
    rw [if_pos ⟨rfl, (List.getElem?_eq_some_iff.mp empty).1⟩] at stored
    refine .step stored ?_ ?_
    · rw [agreed, leafNode_label]
      exact matchLength_whole (by simp)
    · rw [leafNode_label, List.drop_length]
      exact .done
  · intro fuel node c cs old child child' address _ stored _ _ childTidy matched dropped below ih
    obtain ⟨-, label, -, -⟩ := appendLoop_tidy injective childTidy dropped below
    have stored' := getElem?_setNext node (toInt c).toNat child' (toInt c).toNat
    rw [if_pos ⟨rfl, (List.getElem?_eq_some_iff.mp stored).1⟩] at stored'
    refine .step stored' ?_ ?_
    · rw [agreed, label]
      exact matchLength_whole matched
    · rwa [label]

theorem setNext_same {node child : IrsDictionaryNode α} {num : Nat}
    (stored : node.next[num]? = some (some child)) :
    node.setNext num child = node := by
  cases node with
  | mk next offset offsetSize dataList =>
    obtain ⟨inside, here⟩ := List.getElem?_eq_some_iff.mp stored
    simp only at inside here
    simp only [setNext, ← here, List.set_getElem_self]

/-- Along such a way the loop changes nothing. -/
theorem appendLoop_of_follows {fuel : Nat} {node : IrsDictionaryNode α} {rest : Bytes}
    {address : Address} (tidy : Tidy toInt ok size node) (enough : rest.length ≤ fuel)
    (follows : Follows toInt node rest address) :
    appendLoop toInt size fuel node rest = .ok (node, address) := by
  induction follows generalizing fuel with
  | done => rw [appendLoop]
  | @step node child c cs address stored whole below ih =>
    rw [List.length_cons] at enough
    obtain ⟨fuel, rfl⟩ : ∃ n, fuel = n + 1 := ⟨fuel - 1, by omega⟩
    have edge := tidy.edge stored
    have positive := List.length_pos_iff.mpr edge.nonempty
    have shorter : ((c :: cs).drop child.label.length).length ≤ fuel := by
      rw [List.length_drop, List.length_cons]
      omega
    have lower := ih (tidy.child stored) shorter
    rcases @appendIteration_stored α toInt ok size node child _ c cs edge
      stored with ⟨-, step⟩ | ⟨b, inside, -⟩
    · rw [appendLoop_enter step lower, setNext_same stored]
    · omega

theorem follows_modifyAt {node : IrsDictionaryNode α} {rest : Bytes} {address : Address} (value : α)
    (at' : Address) (follows : Follows toInt node rest address) :
    Follows toInt (node.modifyAt (pushBack value) at') rest address := by
  induction follows generalizing at' with
  | done => exact .done
  | @step node child c cs address stored whole below ih =>
    cases at' with
    | nil => exact .step stored whole below
    | cons num at' =>
      by_cases same : num = (toInt c).toNat
      · subst same
        obtain ⟨label, -⟩ := modifyAt_label value child at'
        rw [modifyAt_cons stored]
        have stored' :=
          getElem?_setNext node (toInt c).toNat (child.modifyAt (pushBack value) at')
            (toInt c).toNat
        rw [if_pos ⟨rfl, (List.getElem?_eq_some_iff.mp stored).1⟩] at stored'
        refine .step stored' ?_ ?_
        · rw [agreed, label]
          exact whole
        · rw [label]
          exact ih at'
      · refine .step ?_ whole below
        unfold modifyAt
        split
        · rw [getElem?_setNext, if_neg (fun here => same here.1), stored]
        · exact stored

theorem spell_modifyAt {node : IrsDictionaryNode α} (value : α) (at' address : Address) :
    spell (node.modifyAt (pushBack value) at') address = spell node address := by
  induction address generalizing node at' with
  | nil => rfl
  | cons num address ih =>
    cases at' with
    | nil => rfl
    | cons m at' =>
      obtain absent | ⟨child, stored⟩ := absent_or_stored node m
      · rw [modifyAt_absent _ absent]
      · rw [modifyAt_cons stored]
        by_cases same : m = num
        · subst same
          have inside := (List.getElem?_eq_some_iff.mp stored).1
          rw [spell_cons (by rw [getElem?_setNext, if_pos ⟨rfl, inside⟩]), spell_cons stored, ih,
            (modifyAt_label value child at').1]
        · simp only [spell, getElem?_setNext, same, false_and, if_false]

/-- A second append of the same characters follows the edges that the first one left. -/
theorem append_again_run {dictionary first : IrsDictionary α} {irsString : Bytes} {size : UInt32}
    {v : α} {address : Address} (kept : Kept ok dictionary)
    (read : ∀ ch ∈ irsString.take size.toNat, ok ch)
    (run : irsDictionaryAppend dictionary irsString size v = .ok (first, address)) (w : α) :
    irsDictionaryAppend first irsString size w =
      .ok ({ first with root := first.root.modifyAt (pushBack w) address }, address) := by
  have kept' := kept_irsDictionaryAppend kept read run
  obtain ⟨root, loop, rfl⟩ := irsDictionaryAppend_ok.mp run
  rw [kept.toInt, kept.size] at loop
  have follows :=
    follows_modifyAt v address (appendLoop_follows irsCharToIrsInt_injective kept.tidy read loop)
  have again := appendLoop_of_follows kept'.tidy (List.length_take_le size.toNat irsString) follows
  refine irsDictionaryAppend_ok.mpr ⟨_, ?_, rfl⟩
  rw [kept'.toInt, kept'.size]
  exact again

/-! ### Filed keys -/

/-- Appends of the key go to the node that `word` spells. -/
def FiledUnder (dictionary : IrsDictionary α) (key word : Bytes) : Prop :=
  ∃ address found, Follows irsCharToIrsInt dictionary.root (readPart key) address ∧
    dictionary.root.nodeAt address = some found ∧ spell dictionary.root address = word

/-- Where an append files its value, it files the next ones. -/
theorem appendKey_filed {dictionary dictionary' : IrsDictionary α} {key : Bytes} {value : α}
    (kept : Kept ok dictionary) (bytes : ∀ ch ∈ key, ok ch)
    (run : appendKey dictionary key value = .ok dictionary') :
    ∃ word, contents irsCharToIrsInt dictionary'.root =
      push (contents irsCharToIrsInt dictionary.root) word value ∧
      FiledUnder dictionary' key word ∧ word.map tolower = (readPart key).map tolower ∧
      (¬Clash SameFold (keys irsCharToIrsInt dictionary.root) (readPart key) →
        word = readPart key) := by
  obtain ⟨root, address, found, loop, pushed, located, stored, spelled, exact⟩ :=
    appendKey_at kept bytes run
  have read : ∀ ch ∈ readPart key, ok ch := fun ch member => bytes ch (List.mem_of_mem_take member)
  have follows := appendLoop_follows irsCharToIrsInt_injective kept.tidy read loop
  obtain ⟨found', located'⟩ := nodeAt_modifyAt_some value located
  refine ⟨spell root address, stored, ⟨address, found', ?_, ?_, ?_⟩, spelled, exact⟩
  · rw [pushed]
    exact follows_modifyAt value address follows
  · rw [pushed]
    exact located'
  · rw [pushed]
    exact spell_modifyAt value address address

theorem FiledUnder.append {dictionary : IrsDictionary α} {key word : Bytes}
    (filed : FiledUnder dictionary key word) (kept : Kept ok dictionary) (value : α) :
    ∃ dictionary', appendKey dictionary key value = .ok dictionary' ∧
      contents irsCharToIrsInt dictionary'.root =
        push (contents irsCharToIrsInt dictionary.root) word value ∧
      FiledUnder dictionary' key word := by
  obtain ⟨address, found, follows, located, rfl⟩ := filed
  have loop := appendLoop_of_follows kept.tidy (readPart_length key) follows
  obtain ⟨found', located'⟩ := nodeAt_modifyAt_some value located
  refine ⟨_, appendKey_ok.mpr ⟨dictionary.root, address, by rw [kept.toInt, kept.size, loop], rfl⟩,
    ?_, ?_⟩
  · exact contents_modifyAt value irsCharToIrsInt_injective kept.tidy located
  · exact ⟨address, found', follows_modifyAt value address follows, located',
      spell_modifyAt value address address⟩

end IrsMachine
