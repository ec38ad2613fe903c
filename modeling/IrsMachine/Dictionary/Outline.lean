import IrsMachine.Dictionary.Follow

/-!
# The outline of a tree

Neither the append nor the lookup looks at the values: what they do to a tree shows in its
outline, which says of each data list only whether there is one. So two dictionaries, of values
of any types, that get the same keys stay alike.
-/

namespace IrsMachine
open IrsDictionaryNode Except Multimap Words

variable {α β : Type} {toInt : UInt8 → UInt8} {size : UInt8}

mutual
def outlineNode : IrsDictionaryNode α → IrsDictionaryNode Unit
  | ⟨next, offset, offsetSize, dataList⟩ =>
    ⟨outlineNext next, offset, offsetSize, dataList.map fun _ => []⟩
def outlineNext : List (Option (IrsDictionaryNode α)) → List (Option (IrsDictionaryNode Unit))
  | [] => []
  | none :: rest => none :: outlineNext rest
  | some next :: rest => some (outlineNode next) :: outlineNext rest
end

def outline (dictionary : IrsDictionary α) : IrsDictionary Unit :=
  { dictionary with root := outlineNode dictionary.root }

/-! ### Nodes -/

theorem outlineNext_eq (next : List (Option (IrsDictionaryNode α))) :
    outlineNext next = next.map (Option.map outlineNode) := by
  induction next with
  | nil => rfl
  | cons slot rest ih => cases slot <;> simp [outlineNext, ih]

@[simp] theorem outlineNode_next (node : IrsDictionaryNode α) :
    (outlineNode node).next = node.next.map (Option.map outlineNode) := by
  cases node
  exact outlineNext_eq _

@[simp] theorem outlineNode_offset (node : IrsDictionaryNode α) :
    (outlineNode node).offset = node.offset := by
  cases node
  rfl

@[simp] theorem outlineNode_offsetSize (node : IrsDictionaryNode α) :
    (outlineNode node).offsetSize = node.offsetSize := by
  cases node
  rfl

@[simp] theorem outlineNode_dataList (node : IrsDictionaryNode α) :
    (outlineNode node).dataList = node.dataList.map fun _ => [] := by
  cases node
  rfl

@[simp] theorem outlineNode_label (node : IrsDictionaryNode α) :
    (outlineNode node).label = node.label := by
  rw [label, label, outlineNode_offset, outlineNode_offsetSize]

/-- A node is its four fields. -/
theorem outlineNode_eq {node : IrsDictionaryNode α} {other : IrsDictionaryNode Unit}
    (next : node.next.map (Option.map outlineNode) = other.next)
    (offset : node.offset = other.offset) (offsetSize : node.offsetSize = other.offsetSize)
    (dataList : (node.dataList.map fun _ => []) = other.dataList) :
    outlineNode node = other := by
  cases node
  cases other
  simp only [outlineNode, outlineNext_eq] at *
  rw [next, offset, offsetSize, dataList]

theorem outlineNode_setNext (node child : IrsDictionaryNode α) (num : Nat) :
    outlineNode (node.setNext num child) = (outlineNode node).setNext num (outlineNode child) := by
  apply outlineNode_eq
  · simp [setNext, List.map_set]
  · simp [setNext]
  · simp [setNext]
  · simp [setNext]

theorem outlineNode_leafNode (rest : Bytes) :
    outlineNode (leafNode size rest : IrsDictionaryNode α) = leafNode size rest := by
  apply outlineNode_eq <;> simp [leafNode, irsDictionaryNodeInitialize]

theorem outlineNode_prefixNode (offset : Bytes) (j : Nat) :
    outlineNode (prefixNode size offset j : IrsDictionaryNode α) = prefixNode size offset j := by
  apply outlineNode_eq <;> simp [prefixNode, irsDictionaryNodeInitialize]

theorem outlineNode_hangNode (moving : IrsDictionaryNode α) (offset : Bytes) (j : Nat) :
    outlineNode (hangNode moving offset j) = hangNode (outlineNode moving) offset j := by
  apply outlineNode_eq <;> simp [hangNode]

theorem outlineNode_initialize :
    outlineNode (irsDictionaryNodeInitialize size : IrsDictionaryNode α) =
      irsDictionaryNodeInitialize size := by
  apply outlineNode_eq <;> simp [irsDictionaryNodeInitialize]

theorem outline_freshDictionary :
    outline (freshDictionary : IrsDictionary α) = freshDictionary := by
  simp only [outline, freshDictionary, irsDictionaryInitialize, outlineNode_initialize]

theorem prefixNode_slots (offset : Bytes) (j : Nat) :
    (prefixNode size offset j : IrsDictionaryNode α).next.length = size.toNat := by
  simp [prefixNode, irsDictionaryNodeInitialize]

/-! ### Appending -/

def Iteration.outline : Iteration α → Iteration Unit
  | .leaf num temp => .leaf num (outlineNode temp)
  | .enter num child advance => .enter num (outlineNode child) advance

theorem appendIteration_outline (node : IrsDictionaryNode α) (c : UInt8) (cs : Bytes) :
    appendIteration toInt size (outlineNode node) c cs =
      Iteration.outline <$> appendIteration toInt size node c cs := by
  unfold appendIteration
  simp only [outlineNode_next, List.getElem?_map]
  cases stored : node.next[(toInt c).toNat]? with
  | none => rfl
  | some slot =>
    cases slot with
    | none =>
      exact congrArg (fun temp => Except.ok (Iteration.leaf _ temp)) (outlineNode_leafNode _).symm
    | some moving =>
      simp only [Option.map_some, outlineNode_offset]
      cases buffer : moving.offset with
      | none => rfl
      | some offset =>
        simp only [outlineNode_offsetSize]
        split
        · rfl
        · cases offset[matchLength offset moving.offsetSize (c :: cs)]? with
          | none => rfl
          | some ch =>
            simp only [prefixNode_slots]
            split
            · simp only [map_ok, Iteration.outline, outlineNode_setNext, outlineNode_hangNode,
                outlineNode_prefixNode]
            · rfl

theorem appendLoop_outline (fuel : Nat) (node : IrsDictionaryNode α) (rest : Bytes) :
    appendLoop toInt size fuel (outlineNode node) rest =
      (fun result => (outlineNode result.1, result.2)) <$> appendLoop toInt size fuel node
        rest := by
  induction fuel generalizing node rest with
  | zero => cases rest <;> rfl
  | succ fuel ih =>
    cases rest with
    | nil => rfl
    | cons c cs =>
      unfold appendLoop
      rw [appendIteration_outline]
      cases step : appendIteration toInt size node c cs with
      | error fault => rfl
      | ok iteration =>
        cases iteration with
        | leaf num temp =>
          exact congrArg (fun node => Except.ok (node, [num]))
            (outlineNode_setNext node temp num).symm
        | enter num child advance =>
          simp only [map_ok, ok_bind, Iteration.outline]
          rw [ih]
          cases below : appendLoop toInt size fuel child ((c :: cs).drop advance) with
          | error fault => rfl
          | ok result =>
            simp only [map_ok, ok_bind]
            rw [outlineNode_setNext]

def stock (node : IrsDictionaryNode Unit) : IrsDictionaryNode Unit :=
  { node with dataList := some [] }

theorem outlineNode_modifyAt (value : α) (node : IrsDictionaryNode α) (address : Address) :
    outlineNode (node.modifyAt (pushBack value) address) =
      (outlineNode node).modifyAt stock address := by
  induction address generalizing node with
  | nil => apply outlineNode_eq <;> simp [modifyAt, pushBack, stock]
  | cons num address ih =>
    unfold modifyAt
    rw [outlineNode_next, List.getElem?_map]
    cases node.next[num]? with
    | none => rfl
    | some slot =>
      cases slot with
      | none => rfl
      | some child =>
        simp only [Option.map_some]
        rw [outlineNode_setNext, ih]

theorem modifyAt_stock (node : IrsDictionaryNode Unit) (address : Address) :
    (node.modifyAt stock address).modifyAt stock address = node.modifyAt stock address := by
  induction address generalizing node with
  | nil => rfl
  | cons num address ih =>
    obtain absent | ⟨child, stored⟩ := absent_or_stored node num
    · rw [modifyAt_absent _ absent, modifyAt_absent _ absent]
    · have inside := (List.getElem?_eq_some_iff.mp stored).1
      have there : (node.setNext num (child.modifyAt stock address)).next[num]? =
          some (some (child.modifyAt stock address)) := by
        rw [getElem?_setNext, if_pos ⟨rfl, inside⟩]
      rw [modifyAt_stored _ stored, modifyAt_stored _ there, ih]
      simp only [setNext, List.set_set]

/-- Two dictionaries that are alike are alike after the same key was appended to both. -/
theorem outline_appendKey {first first' : IrsDictionary α} {second second' : IrsDictionary β}
    {key : Bytes} {value : α} {value' : β} (alike : outline first = outline second)
    (one : appendKey first key value = .ok first')
    (two : appendKey second key value' = .ok second') : outline first' = outline second' := by
  obtain ⟨root, address, loop, rfl⟩ := appendKey_ok.mp one
  obtain ⟨root', address', loop', rfl⟩ := appendKey_ok.mp two
  have roots : outlineNode first.root = outlineNode second.root := congrArg IrsDictionary.root alike
  have sizes : first.size = second.size := congrArg IrsDictionary.size alike
  have slots : first.irsCharToIrsInt = second.irsCharToIrsInt :=
    congrArg IrsDictionary.irsCharToIrsInt alike
  have run : appendLoop first.irsCharToIrsInt first.size (UInt32.ofNat (irsStrLen key)).toNat
      (outlineNode first.root)
      (readPart key) = _ := appendLoop_outline _ _ _
  rw [loop, roots, slots, sizes, appendLoop_outline, loop'] at run
  simp only [map_ok, Except.ok.injEq, Prod.mk.injEq] at run
  obtain ⟨same, rfl⟩ := run
  simp only [outline, outlineNode_modifyAt, same, sizes, slots]

/-- A second append of the key changes no outline. -/
theorem outline_appendKey_again {ok : UInt8 → Prop} {dictionary middle last : IrsDictionary α}
    {key : Bytes} {value value' : α} (kept : Kept ok dictionary) (bytes : ∀ ch ∈ key, ok ch)
    (one : appendKey dictionary key value = .ok middle)
    (two : appendKey middle key value' = .ok last) : outline last = outline middle := by
  obtain ⟨⟨_, address⟩, one, done⟩ := bind_ok.mp one
  cases done
  obtain ⟨⟨_, address'⟩, two, done⟩ := bind_ok.mp two
  cases done
  rw [append_again_run kept (fun ch member => bytes ch (List.mem_of_mem_take member)) one
    value'] at two
  cases two
  obtain ⟨root, -, rfl⟩ := irsDictionaryAppend_ok.mp one
  simp only [outline, outlineNode_modifyAt, modifyAt_stock]

theorem outline_appendKeys {ok : UInt8 → Prop} {dictionary middle last : IrsDictionary α}
    {key : Bytes} {value : α} {values : List α} (kept : Kept ok dictionary)
    (bytes : ∀ ch ∈ key, ok ch) (one : appendKey dictionary key value = .ok middle)
    (rest : values.foldlM (fun dictionary value => appendKey dictionary key value) middle =
      .ok last) : outline last = outline middle := by
  induction values generalizing dictionary value middle with
  | nil =>
    cases rest
    rfl
  | cons next values ih =>
    obtain ⟨between, step, rest⟩ := foldlM_cons_ok.mp rest
    exact (ih (kept_appendKey kept bytes one) step rest).trans
      (outline_appendKey_again kept bytes one step)

/-! ### Looking up -/

theorem prefixLoop_outline (dictionary : IrsDictionary α) (irsString : Bytes) (n fuel : Nat)
    (node : IrsDictionaryNode α) (i : Nat) :
    prefixLoop (outline dictionary) irsString n fuel (outlineNode node) i =
      (fun result => (outlineNode result.1, result.2)) <$> prefixLoop dictionary irsString n fuel
        node i := by
  induction fuel generalizing node i with
  | zero =>
    unfold prefixLoop
    split
    · rfl
    · rfl
  | succ fuel ih =>
    unfold prefixLoop
    split
    · cases irsString[i]? with
      | none => rfl
      | some ch =>
        simp only [irsDictionaryGetNextNode, outline, outlineNode_next, List.getElem?_map]
        cases node.next[(dictionary.irsCharToIrsInt ch).toNat]? with
        | none => rfl
        | some slot =>
          cases slot with
          | none => rfl
          | some next =>
            simp only [Option.map_some, ok_bind, outlineNode_offsetSize]
            exact ih next (i + next.offsetSize)
    · rfl

theorem get_outline (dictionary : IrsDictionary α) (irsString : Bytes) :
    Option.isNone <$> irsDictionaryGet (outline dictionary) irsString =
      Option.isNone <$> irsDictionaryGet dictionary irsString := by
  have root : (outline dictionary).root = outlineNode dictionary.root := rfl
  unfold irsDictionaryGet irsDictionaryGetLastNodeFromNode
  simp only [root, prefixLoop_outline]
  cases run : prefixLoop dictionary irsString (UInt32.ofNat (irsStrLen irsString)).toNat
      (UInt32.ofNat (irsStrLen irsString)).toNat dictionary.root 0 with
  | error fault => rfl
  | ok result =>
    simp only [map_ok, ok_bind, outlineNode_label, outlineNode_offsetSize]
    by_cases ended : result.2 = (UInt32.ofNat (irsStrLen irsString)).toNat ∧
        irsStrCmp result.1.label
          (irsString.drop ((UInt32.ofNat (irsStrLen irsString)).toNat - result.1.offsetSize)) = true
    · rw [if_pos ended, if_pos ended]
      simp only [ok_bind, map_ok, Option.bind_some, outlineNode_dataList, Option.isNone_map]
    · rw [if_neg ended, if_neg ended]
      rfl

/-- Dictionaries that are alike have the same strings in them. -/
theorem get_alike_outline {first : IrsDictionary α} {second : IrsDictionary β}
    (alike : outline first = outline second) (irsString : Bytes) :
    Option.isNone <$> irsDictionaryGet first irsString =
      Option.isNone <$> irsDictionaryGet second irsString := by
  rw [← get_outline, alike, get_outline]

end IrsMachine
