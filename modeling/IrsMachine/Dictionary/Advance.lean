import IrsMachine.Dictionary.Consecutive
import IrsMachine.Dictionary.Lookup
import IrsMachine.Library.Loops

/-!
# The walks advance

The loops of `irs_dictionary_append_to_node` and `irs_dictionary_get_last_node_from_node` with their
index `i` as they count it, in 32 bits. An iteration that stays in the loop goes over a part of a
label that is not empty, and the labels that a lookup goes over are the beginning of a stored key.
-/

namespace IrsMachine
open IrsDictionaryNode Except Multimap Loops

variable {α : Type} {toInt : UInt8 → UInt8} {ok : UInt8 → Prop} {size : UInt8}

/-- Where such a loop is: the node it has come to, and its index `i`. -/
structure Descent (α : Type) where
  node : IrsDictionaryNode α
  i : UInt32

/-- The body of the loop of `irs_dictionary_append_to_node`. -/
def appendBody (dictionary : IrsDictionary α) (irsString : Bytes) (size : UInt32)
    (descent : Descent α) :
    Except Fault (Option (Descent α)) :=
  match (irsString.take size.toNat).drop descent.i.toNat with
  | [] => .error .outOfBounds
  | c :: cs => do
    match ← appendIteration dictionary.irsCharToIrsInt dictionary.size descent.node c cs with
    | .leaf _ _ => .ok none
    | .enter _ child advance => .ok (some { node := child, i := descent.i + UInt32.ofNat advance })

/-- The body of the loop of `irs_dictionary_get_last_node_from_node`. -/
def lookupBody (dictionary : IrsDictionary α) (irsString : Bytes) (descent : Descent α) :
    Except Fault (Option (Descent α)) :=
  match irsString[descent.i.toNat]? with
  | none => .error .outOfBounds
  | some ch => do
    match ← irsDictionaryGetNextNode dictionary descent.node ch with
    | some next => .ok (some { node := next, i := descent.i + UInt32.ofNat next.offsetSize })
    | none => .ok none

def appendWalk (dictionary : IrsDictionary α) (irsString : Bytes) (size : UInt32) :
    Loop Fault (Descent α) where
  size := size.toNat
  index descent := descent.i.toNat
  body := appendBody dictionary irsString size

def lookupWalk (dictionary : IrsDictionary α) (irsString : Bytes) : Loop Fault (Descent α) where
  size := (UInt32.ofNat (irsStrLen irsString)).toNat
  index descent := descent.i.toNat
  body := lookupBody dictionary irsString

def atRoot (dictionary : IrsDictionary α) : Descent α := { node := dictionary.root, i := 0 }

theorem toNat_add_ofNat {i : UInt32} {n : Nat} (fits : i.toNat + n < 2 ^ 32) :
    (i + UInt32.ofNat n).toNat = i.toNat + n := by
  rw [UInt32.toNat_add, UInt32.toNat_ofNat_of_lt'
    (show n < UInt32.size from Nat.lt_of_le_of_lt (Nat.le_add_left _ _) fits),
    Nat.mod_eq_of_lt fits]

/-! ### One iteration of an append -/

theorem appendIteration_total {node : IrsDictionaryNode α} {c : UInt8} (cs : Bytes)
    (tidy : Tidy toInt ok size node) (inBounds : ∀ ch, ok ch → (toInt ch).toNat < size.toNat)
    (here : ok c) :
    ∃ iteration, appendIteration toInt size node c cs = .ok iteration := by
  cases stored : node.next[(toInt c).toNat]? with
  | none =>
    have outside := List.getElem?_eq_none_iff.mp stored
    have inside := inBounds c here
    rw [tidy.slots] at outside
    omega
  | some slot =>
    cases slot with
    | none =>
      exact ⟨.leaf (toInt c).toNat (leafNode size (c :: cs)), by simp [appendIteration, stored]⟩
    | some old =>
      have edge := tidy.edge stored
      obtain ⟨-, step⟩ | ⟨b, -, read, outcome⟩ :=
        @appendIteration_stored α toInt ok size node old _ c cs edge stored
      · exact ⟨_, step⟩
      · rw [if_pos (inBounds b (edge.bytes b (List.mem_of_getElem? read)))] at outcome
        obtain ⟨child, step, -⟩ := outcome
        exact ⟨_, step⟩

/-- An iteration that stays in the loop goes over at least one character, and over none behind the
end. -/
theorem appendIteration_advance {node child : IrsDictionaryNode α} {c : UInt8} {cs : Bytes}
    {num advance : Nat} (injective : Function.Injective toInt) (tidy : Tidy toInt ok size node)
    (step : appendIteration toInt size node c cs = .ok (.enter num child advance)) :
    0 < advance ∧ advance ≤ (c :: cs).length ∧ Tidy toInt ok size child := by
  obtain ⟨-, leaf⟩ | ⟨old, child', stored, same, entered, nonempty, matched⟩ :=
    appendIteration_ok injective tidy step
  · cases leaf
  · cases same
    have lengths := congrArg List.length matched
    rw [List.length_map, List.length_map, List.length_take] at lengths
    exact ⟨List.length_pos_iff.mpr nonempty, by omega,
      (tidy_entered (tidy.edge stored) (tidy.child stored) entered nonempty).2⟩

/-- What holds on the way of an append. -/
structure Going (size : UInt32) (descent : Descent α) : Prop where
  tidy : Tidy irsCharToIrsInt Admitted irsDictionaryChildrenSize descent.node
  within : descent.i.toNat ≤ size.toNat

theorem appendBody_cases {dictionary : IrsDictionary α} {irsString : Bytes} {size : UInt32}
    {descent : Descent α} (kept : Kept Admitted dictionary) (bytes : ∀ ch ∈ irsString, Admitted ch)
    (inside : size.toNat ≤ irsString.length) (going : Going size descent)
    (goesOn : descent.i.toNat < size.toNat) :
    ∃ c cs, (irsString.take size.toNat).drop descent.i.toNat = c :: cs ∧
      ((∃ num temp, appendIteration irsCharToIrsInt irsDictionaryChildrenSize descent.node c cs =
        .ok (.leaf num temp) ∧
          appendBody dictionary irsString size descent = .ok none) ∨
        ∃ num child advance i,
          appendIteration irsCharToIrsInt irsDictionaryChildrenSize descent.node c cs =
            .ok (.enter num child advance) ∧
          appendBody dictionary irsString size descent = .ok (some { node := child, i }) ∧
          i.toNat = descent.i.toNat + advance ∧ 0 < advance ∧ Going size { node := child, i }) := by
  have left : ((irsString.take size.toNat).drop descent.i.toNat).length =
      size.toNat - descent.i.toNat := by
    rw [List.length_drop, List.length_take, Nat.min_eq_left inside]
  cases rest : (irsString.take size.toNat).drop descent.i.toNat with
  | nil =>
    rw [rest, List.length_nil] at left
    omega
  | cons c cs =>
    rw [rest] at left
    refine ⟨c, cs, rfl, ?_⟩
    have here : Admitted c := by
      have member : c ∈ (irsString.take size.toNat).drop descent.i.toNat :=
        rest ▸ List.mem_cons_self
      exact bytes c (List.mem_of_mem_take (List.mem_of_mem_drop member))
    obtain ⟨iteration, step⟩ :=
      appendIteration_total cs going.tidy
        (fun ch admitted => (irsCharToIrsInt_inBounds ch).mpr admitted.2) here
    simp only [appendBody, rest, kept.toInt, kept.size, step, ok_bind]
    cases iteration with
    | leaf num temp => exact .inl ⟨num, temp, rfl, rfl⟩
    | enter num child advance =>
      obtain ⟨positive, fits, tidy⟩ :=
        appendIteration_advance irsCharToIrsInt_injective going.tidy step
      have small := size.toNat_lt
      have moved := toNat_add_ofNat (i := descent.i) (n := advance) (by omega)
      exact .inr ⟨num, child, advance, _, rfl, rfl, moved, positive, tidy, by rw [moved]; omega⟩

theorem appendWalk_forward {dictionary : IrsDictionary α} {irsString : Bytes} {size : UInt32}
    (kept : Kept Admitted dictionary) (bytes : ∀ ch ∈ irsString, Admitted ch)
    (inside : size.toNat ≤ irsString.length) :
    Forward (appendWalk dictionary irsString size) (Going size) := by
  intro descent going goesOn
  obtain ⟨c, cs, -, ⟨num, temp, -, leaves⟩ | ⟨num, child, advance, i, -, stays, moved,
    positive, going'⟩⟩ :=
    appendBody_cases kept bytes inside going goesOn
  · exact .inl leaves
  · refine .inr ⟨_, stays, ?_, going'⟩
    show descent.i.toNat < i.toNat
    omega

theorem going_atRoot {dictionary : IrsDictionary α} (kept : Kept Admitted dictionary)
    (size : UInt32) :
    Going size (atRoot dictionary) :=
  ⟨kept.tidy, Nat.zero_le _⟩

/-- `appendLoop` goes on where the walk has come to. -/
theorem appendLoop_after {dictionary : IrsDictionary α} {irsString : Bytes} {size : UInt32}
    {n : Nat} {descent : Descent α} (kept : Kept Admitted dictionary)
    (bytes : ∀ ch ∈ irsString, Admitted ch) (inside : size.toNat ≤ irsString.length)
    (after : After (appendWalk dictionary irsString size) (atRoot dictionary) n descent)
    (fuel : Nat) :
    (∃ result, appendLoop irsCharToIrsInt irsDictionaryChildrenSize (fuel + n) dictionary.root
      (irsString.take size.toNat) = .ok result) ↔
      ∃ result, appendLoop irsCharToIrsInt irsDictionaryChildrenSize fuel descent.node
        ((irsString.take size.toNat).drop descent.i.toNat) = .ok result := by
  refine Forward.related (fun run run' => (∃ result, run = .ok result) ↔
    ∃ result, run' = .ok result)
    (fun fuel descent => appendLoop irsCharToIrsInt irsDictionaryChildrenSize fuel descent.node
      ((irsString.take size.toNat).drop descent.i.toNat))
    (appendWalk_forward kept bytes inside) (going_atRoot kept size) (fun _ => Iff.rfl)
    (fun _ _ _ => Iff.trans) ?_ after fuel
  intro fuel descent descent' going goesOn run
  obtain ⟨c, cs, rest, ⟨num, temp, -, leaves⟩ | ⟨num, child, advance, i, step, stays, moved, -⟩⟩ :=
    appendBody_cases kept bytes inside going goesOn
  · cases leaves.symm.trans run
  · cases stays.symm.trans run
    show (∃ result, appendLoop _ _ (fuel + 1) descent.node _ = .ok result) ↔
      ∃ result, appendLoop _ _ fuel child ((irsString.take size.toNat).drop i.toNat) = .ok result
    rw [moved, ← List.drop_drop, rest]
    exact appendLoop_enter_ok_iff step

/-! ### One iteration of a lookup -/

/-- The keys are shorter than their sizes can say. -/
theorem Reached.short {dictionary : IrsDictionary α} (reached : Reached ok dictionary) :
    ∀ word ∈ keys irsCharToIrsInt dictionary.root, word.length < 2 ^ 32 := by
  induction reached with
  | fresh =>
    intro word key
    exact absurd (contents_freshDictionary word) key
  | @append _ _ irsString size value address before bytes run ih =>
    intro word key
    obtain ⟨root, _, -, -, -, pushed, spelled, -⟩ := irsDictionaryAppend_at before.kept bytes run
    rw [mem_keys, pushed] at key
    by_cases same : word = spell root address
    · have lengths := congrArg List.length spelled
      rw [List.length_map, List.length_map, List.length_take] at lengths
      have small := size.toNat_lt
      rw [same]
      omega
    · rw [push_ne _ _ same] at key
      exact ih word key

/-- What holds on the way of a lookup: below the node go on keys that are at most this long. -/
structure Ahead (descent : Descent α) : Prop where
  tidy : Tidy irsCharToIrsInt Admitted irsDictionaryChildrenSize descent.node
  bushy : Bushy descent.node fun _ => False
  short : ∀ word ∈ keys irsCharToIrsInt descent.node, descent.i.toNat + word.length < 2 ^ 32

theorem Ahead.child {descent : Descent α} {next : IrsDictionaryNode α} {num : Nat}
    (ahead : Ahead descent) (stored : descent.node.next[num]? = some (some next)) :
    (descent.i + UInt32.ofNat next.offsetSize).toNat = descent.i.toNat + next.offsetSize ∧
    0 < next.offsetSize ∧
      Ahead { node := next, i := descent.i + UInt32.ofNat next.offsetSize } := by
  have edge := ahead.tidy.edge stored
  have positive := List.length_pos_iff.mpr edge.nonempty
  rw [edge.exact] at positive
  obtain ⟨key, member, behind, rfl⟩ := exists_key_through ahead.tidy ahead.bushy stored
  have whole := ahead.short _ member
  rw [List.length_append, edge.exact] at whole
  have moved := toNat_add_ofNat (i := descent.i) (n := next.offsetSize) (by omega)
  refine ⟨moved, positive, ahead.tidy.child stored, (ahead.bushy.child stored).2, ?_⟩
  intro word below
  have below : word ∈ keys irsCharToIrsInt next := below
  rw [← under_keys ahead.tidy stored] at below
  have long := ahead.short _ below
  rw [List.length_append, edge.exact] at long
  show (descent.i + UInt32.ofNat next.offsetSize).toNat + word.length < 2 ^ 32
  omega

theorem length_lookupWalk (dictionary : IrsDictionary α) {irsString : Bytes}
    (bytes : ∀ ch ∈ irsString, Admitted ch) :
    (lookupWalk dictionary irsString).size ≤ irsString.length := by
  show (UInt32.ofNat (irsStrLen irsString)).toNat ≤ irsString.length
  rw [irsStrLen_of_noNul fun ch member => (bytes ch member).1, UInt32.toNat_ofNat']
  exact Nat.mod_le _ _

theorem lookupBody_cases {dictionary : IrsDictionary α} {irsString : Bytes} {descent : Descent α}
    (kept : Kept Admitted dictionary) (bytes : ∀ ch ∈ irsString, Admitted ch)
    (ahead : Ahead descent) (goesOn : descent.i.toNat < (lookupWalk dictionary irsString).size) :
    ∃ ch, irsString[descent.i.toNat]? = some ch ∧
      ((descent.node.next[(irsCharToIrsInt ch).toNat]? = some none ∧
        lookupBody dictionary irsString descent = .ok none) ∨
        ∃ next i, descent.node.next[(irsCharToIrsInt ch).toNat]? = some (some next) ∧
          lookupBody dictionary irsString descent = .ok (some { node := next, i }) ∧
          i.toNat = descent.i.toNat + next.offsetSize ∧ 0 < next.offsetSize ∧
          Ahead { node := next, i }) := by
  have inside := Nat.lt_of_lt_of_le goesOn (length_lookupWalk dictionary bytes)
  have read := List.getElem?_eq_getElem inside
  have slot := (irsCharToIrsInt_inBounds irsString[descent.i.toNat]).mpr
    (bytes _ (List.getElem_mem inside)).2
  rw [← ahead.tidy.slots] at slot
  refine ⟨_, read, ?_⟩
  cases stored : descent.node.next[(irsCharToIrsInt irsString[descent.i.toNat]).toNat]? with
  | none =>
    have outside := List.getElem?_eq_none_iff.mp stored
    omega
  | some next =>
    simp only [lookupBody, irsDictionaryGetNextNode, kept.toInt, read, stored, ok_bind]
    cases next with
    | none => exact .inl ⟨rfl, rfl⟩
    | some next => exact .inr ⟨next, _, rfl, rfl, ahead.child stored⟩

theorem lookupWalk_forward {dictionary : IrsDictionary α} {irsString : Bytes}
    (kept : Kept Admitted dictionary) (bytes : ∀ ch ∈ irsString, Admitted ch) :
    Forward (lookupWalk dictionary irsString) Ahead := by
  intro descent ahead goesOn
  obtain ⟨ch, -, ⟨-, leaves⟩ | ⟨next, i, -, stays, moved, positive, ahead'⟩⟩ :=
    lookupBody_cases kept bytes ahead goesOn
  · exact .inl leaves
  · refine .inr ⟨_, stays, ?_, ahead'⟩
    show descent.i.toNat < i.toNat
    omega

theorem Reached.ahead {dictionary : IrsDictionary α} (reached : Reached Admitted dictionary) :
    Ahead (atRoot dictionary) := by
  refine ⟨reached.kept.tidy, reached.kept.bushy, ?_⟩
  intro word key
  show 0 + word.length < 2 ^ 32
  rw [Nat.zero_add]
  exact reached.short word key

/-- `prefixLoop` goes on where the walk has come to. -/
theorem prefixLoop_after {dictionary : IrsDictionary α} {irsString : Bytes} {n : Nat}
    {descent : Descent α} (reached : Reached Admitted dictionary)
    (bytes : ∀ ch ∈ irsString, Admitted ch)
    (after : After (lookupWalk dictionary irsString) (atRoot dictionary) n descent) (fuel : Nat) :
    prefixLoop dictionary irsString (lookupWalk dictionary irsString).size
      (fuel + n) dictionary.root 0 =
      prefixLoop dictionary irsString (lookupWalk dictionary irsString).size fuel descent.node
        descent.i.toNat := by
  refine Forward.related (· = ·)
    (fun fuel descent => prefixLoop dictionary irsString
      (lookupWalk dictionary irsString).size fuel descent.node descent.i.toNat)
    (lookupWalk_forward reached.kept bytes) reached.ahead (fun _ => rfl)
      (fun _ _ _ => Eq.trans) ?_ after fuel
  intro fuel descent descent' ahead goesOn run
  have goesOn : descent.i.toNat < (lookupWalk dictionary irsString).size := goesOn
  obtain ⟨ch, read, ⟨-, leaves⟩ | ⟨next, i, stored, stays, moved, -⟩⟩ :=
    lookupBody_cases reached.kept bytes ahead goesOn
  · cases leaves.symm.trans run
  · cases stays.symm.trans run
    show prefixLoop _ _ _ (fuel + 1) descent.node descent.i.toNat =
        prefixLoop _ _ _ fuel next i.toNat
    rw [prefixLoop_step goesOn read (reached.kept.toInt ▸ stored), Option.elim_some, moved]

/-! ### Both calls return -/

/-- The append loop of the model ends where its walk does. -/
theorem appendLoop_ends {dictionary : IrsDictionary α} {irsString : Bytes} {size : UInt32}
    (kept : Kept Admitted dictionary) (bytes : ∀ ch ∈ irsString, Admitted ch)
    (inside : size.toNat ≤ irsString.length)
    (advances : Advances (appendWalk dictionary irsString size) (atRoot dictionary)) :
    ∃ result, appendLoop irsCharToIrsInt irsDictionaryChildrenSize size.toNat dictionary.root
      (irsString.take size.toNat) = .ok result := by
  obtain ⟨n, last, after, few, ended⟩ := advances.finish
  have few : n ≤ size.toNat := few
  have later := appendLoop_after kept bytes inside after (size.toNat - n)
  rw [Nat.sub_add_cancel few] at later
  apply later.mpr
  obtain past | ⟨goesOn, leaves, fuel, left⟩ := ended
  · have past : size.toNat ≤ last.i.toNat := past
    rw [List.drop_eq_nil_of_le (by rw [List.length_take]; omega)]
    exact ⟨_, by unfold appendLoop; rfl⟩
  · have left : size.toNat - n = fuel + 1 := left
    have going := (appendWalk_forward kept bytes inside).invariant (going_atRoot kept size) after
    obtain ⟨c, cs, rest, ⟨num, temp, step, -⟩ | ⟨num, child, advance, i, -, stays, -⟩⟩ :=
      appendBody_cases kept bytes inside going goesOn
    · rw [rest, left]
      exact ⟨_, appendLoop_leaf step⟩
    · cases stays.symm.trans leaves

theorem prefixLoop_ends {dictionary : IrsDictionary α} {irsString : Bytes}
    (reached : Reached Admitted dictionary) (bytes : ∀ ch ∈ irsString, Admitted ch)
    (advances : Advances (lookupWalk dictionary irsString) (atRoot dictionary)) :
    ∃ n last, After (lookupWalk dictionary irsString) (atRoot dictionary) n last ∧
      prefixLoop dictionary irsString (lookupWalk dictionary irsString).size
        (lookupWalk dictionary irsString).size
        dictionary.root 0 = .ok (last.node, last.i.toNat) := by
  obtain ⟨n, last, after, few, ended⟩ := advances.finish
  refine ⟨n, last, after, ?_⟩
  have later := prefixLoop_after reached bytes after ((lookupWalk dictionary irsString).size - n)
  rw [Nat.sub_add_cancel few] at later
  rw [later]
  obtain past | ⟨goesOn, leaves, fuel, left⟩ := ended
  · exact prefixLoop_end past
  · have goesOn : last.i.toNat < (lookupWalk dictionary irsString).size := goesOn
    have ahead := (lookupWalk_forward reached.kept bytes).invariant reached.ahead after
    obtain ⟨ch, read, ⟨stored, -⟩ | ⟨next, i, -, stays, -⟩⟩ :=
      lookupBody_cases reached.kept bytes ahead goesOn
    · rw [left, prefixLoop_step goesOn read (reached.kept.toInt ▸ stored), Option.elim_none]
    · cases stays.symm.trans leaves

/-- In every dictionary that appends lead to, both loops fail in no iteration, and each iteration
leaves the loop or moves `i` ahead. The append moves it to `size` at most and the lookup reads
inside the string only, so both end within the length of the string. -/
theorem walks_advance {dictionary : IrsDictionary α} (reached : Reached Admitted dictionary)
    {irsString : Bytes} (bytes : ∀ ch ∈ irsString, Admitted ch) :
    (∀ size : UInt32, size.toNat ≤ irsString.length →
      Advances (appendWalk dictionary irsString size) (atRoot dictionary) ∧
      (∀ n descent, After (appendWalk dictionary irsString size) (atRoot dictionary) n descent →
        n ≤ irsString.length ∧ descent.i.toNat ≤ size.toNat) ∧
      ∃ result, irsDictionaryAppendToNode dictionary irsString size = .ok result) ∧
    Advances (lookupWalk dictionary irsString) (atRoot dictionary) ∧
    (∀ n descent, After (lookupWalk dictionary irsString) (atRoot dictionary) n descent →
      n ≤ irsString.length ∧ (descent.i.toNat < (lookupWalk dictionary irsString).size →
        descent.i.toNat < irsString.length)) ∧
    ∃ last, irsDictionaryGetLastNodeFromNode dictionary irsString = .ok last := by
  have kept := reached.kept
  refine ⟨?_, ?_⟩
  · intro size inside
    have forward := appendWalk_forward kept bytes inside
    have advances := forward.advances (going_atRoot kept size)
    refine ⟨advances, ?_, ?_⟩
    · intro n descent after
      exact ⟨(advances.bound n descent after).1.trans inside,
        (forward.invariant (going_atRoot kept size) after).within⟩
    · obtain ⟨⟨root, address⟩, run⟩ := appendLoop_ends kept bytes inside advances
      exact ⟨_, by rw [irsDictionaryAppendToNode, kept.toInt, kept.size, run, ok_bind]⟩
  · have advances := (lookupWalk_forward kept bytes).advances reached.ahead
    have long := length_lookupWalk dictionary bytes
    refine ⟨advances, ?_, ?_⟩
    · intro n descent after
      exact ⟨(advances.bound n descent after).1.trans long,
        fun goesOn => Nat.lt_of_lt_of_le goesOn long⟩
    · obtain ⟨n, last, -, run⟩ := prefixLoop_ends reached bytes advances
      have run : prefixLoop dictionary irsString (UInt32.ofNat (irsStrLen irsString)).toNat
        (UInt32.ofNat (irsStrLen irsString)).toNat dictionary.root 0 =
        .ok (last.node, last.i.toNat) := run
      rw [irsDictionaryGetLastNodeFromNode]
      simp only [run, ok_bind]
      split
      · exact ⟨_, rfl⟩
      · exact ⟨_, rfl⟩

/-- `it` and `in` are stored: then `is` is looked for. -/
theorem walks_advance_is : ∃ (one two : IrsDictionary Nat) (address address' : Address),
    irsDictionaryAppend freshDictionary [105, 116] 2 0 = .ok (one, address) ∧
    irsDictionaryAppend one [105, 110] 2 1 = .ok (two, address') ∧
    Advances (appendWalk two [105, 115] 2) (atRoot two) ∧
    Advances (lookupWalk two [105, 115]) (atRoot two) := by
  have it : ∀ ch ∈ [(105 : UInt8), 116], Admitted ch := by simp [Admitted]
  have inn : ∀ ch ∈ [(105 : UInt8), 110], Admitted ch := by simp [Admitted]
  obtain ⟨one, address, run⟩ := irsDictionaryAppend_total 2 0 kept_freshDictionary it
  have reached : Reached Admitted one :=
    .append .fresh (fun ch member => it ch (List.mem_of_mem_take member)) run
  obtain ⟨two, address', run'⟩ := irsDictionaryAppend_total 2 1 reached.kept inn
  have reached' : Reached Admitted two :=
    .append reached (fun ch member => inn ch (List.mem_of_mem_take member)) run'
  obtain ⟨append, lookup, -⟩ :=
    walks_advance reached' (show ∀ ch ∈ [(105 : UInt8), 115], Admitted ch by simp [Admitted])
  exact ⟨one, two, address, address', run, run', (append 2 (by decide)).1, lookup⟩

end IrsMachine
