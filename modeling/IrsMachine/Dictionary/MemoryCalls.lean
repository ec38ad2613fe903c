import IrsMachine.Dictionary.InMemory

/-!
# Calls on a dictionary in memory

An append, and a look at a string, do to the blocks of a dictionary what they do to the dictionary;
what else they make is freed again.
-/

namespace IrsMachine
open Except Separation Assertion IrsDictionaryNode Quantale

variable {α : Type} {size : UInt8} {address num pointer : Nat} {layout : NodeLayout}
  {node child sub : IrsDictionaryNode (Option α)} {path : Address}

/-! ### Appending -/

theorem modifyAt_found {f : IrsDictionaryNode (Option α) → IrsDictionaryNode (Option α)}
    (found : node.nodeAt path = some sub) :
    node.modifyAt (fun _ => f sub) path = node.modifyAt f path := by
  induction path generalizing node with
  | nil =>
    obtain rfl := Option.some.inj found
    rfl
  | cons num path ih =>
    rw [nodeAt] at found
    rw [modifyAt, modifyAt]
    split at found
    · rw [ih found]
    · cases found

theorem holeAt_fill {f : IrsDictionaryNode (Option α) → IrsDictionaryNode (Option α)}
    (found : node.nodeAt path = some sub) :
    holeAt size pointer address node path * treeAt size pointer (f sub) ≤ treeAt size address
      (node.modifyAt f path) := by
  rw [← modifyAt_found found]
  exact holeAt_mul (f sub)

/-- The data of a node in memory are in a list, or it has none. -/
theorem bodyAt_data_cases (size : UInt8) (layout : NodeLayout)
    (node : IrsDictionaryNode (Option α)) :
    bodyAt size layout node = ⊥ ∨ (layout.dataList = none ∧ node.dataList = none) ∨
      ∃ list values, layout.dataList = some list ∧ node.dataList = some values ∧ values ≠ [] := by
  unfold bodyAt
  cases layout.dataList with
  | none =>
    cases node.dataList with
    | none => exact .inr (.inl ⟨rfl, rfl⟩)
    | some values =>
      refine .inl ?_
      show _ * (⊥ * _) = ⊥
      rw [bot_mul, mul_bot]
  | some list =>
    cases node.dataList with
    | none =>
      refine .inl ?_
      show _ * (⊥ * _) = ⊥
      rw [bot_mul, mul_bot]
    | some values =>
      by_cases goesOn : values = []
      · refine .inl ?_
        rw [dataListAt, iSup_neg (not_not_intro goesOn), bot_mul, mul_bot]
      · exact .inr (.inr ⟨list, values, rfl, rfl, goesOn⟩)

theorem dataListAt_some {list : Nat} {values : List (Option α)} (goesOn : values ≠ []) :
    dataListAt (some list) (some values) = listAt list values :=
  iSup_pos goesOn

/-- A value is put into the list of a node, which is made if there is none. -/
theorem runs_pushBack (value : Option α) :
    Runs (treeAt size pointer sub)
      (Memory.dataListOf (some pointer) >>= fun list => Memory.irsListPushBack (some list) value)
        fun _ => treeAt size pointer (pushBack value sub) := by
  unfold Memory.dataListOf
  rw [← mul_one (treeAt size pointer sub), bind_assoc]
  refine refines_tree fun layout fits => ?_
  rw [mul_one]
  apply refines_readNode
  rw [NodeLayout.fields]
  obtain nothing | ⟨there, here⟩ | ⟨list, values, there, here, goesOn⟩ :=
    bodyAt_data_cases size layout sub
  · refine Refines.absurd ?_
    rw [nothing, mul_bot]
  · rw [there]
    dsimp only
    rw [bind_assoc]
    refine refines_irsListInit fun list => ?_
    rw [bind_assoc, mul_left_comm]
    refine refines_changeNode { layout with dataList := some list } sub.offsetSize rfl rfl rfl ?_
    rw [pure_bind, mul_left_comm]
    refine (Refines.frame (runs_irsListPushBack value) _).weaken le_rfl fun _ _ => ?_
    have kept : bodyAt size { layout with dataList := some list } (pushBack value sub) =
        bodyAt size layout sub * listAt list [value] := by
      have data : (pushBack value sub).dataList = some [value] := by rw [pushBack, here]; rfl
      rw [bodyAt, bodyAt, data, there, here, dataListAt_some (List.cons_ne_nil value []), pushBack,
        dataListAt, one_mul]
      ac_rfl
    calc _ = headAt pointer { layout with dataList := some list } sub.offsetSize
      * bodyAt size { layout with dataList := some list } (pushBack value sub) := by
          rw [kept, List.nil_append]
          ac_rfl
      _ ≤ _ := le_treeAt (pushBack value sub) ⟨fits.length, fits.shape⟩
  · rw [there]
    dsimp only
    rw [pure_bind]
    have before : headAt pointer layout sub.offsetSize * bodyAt size layout sub =
        listAt list values *
        (headAt pointer layout sub.offsetSize *
          (bufferAt layout.offset sub.offset sub.offsetSize * childrenAt size layout.pointers
            sub.next)) := by
      rw [bodyAt, there, here, dataListAt_some goesOn]
      ac_rfl
    have after : headAt pointer layout sub.offsetSize * bodyAt size layout (pushBack value sub) =
        listAt list (values ++ [value]) *
        (headAt pointer layout sub.offsetSize *
          (bufferAt layout.offset sub.offset sub.offsetSize * childrenAt size layout.pointers
            sub.next)) := by
      have data : (pushBack value sub).dataList = some (values ++ [value]) := by
        rw [pushBack, here]; rfl
      rw [bodyAt, there, data, dataListAt_some (by simp), pushBack]
      ac_rfl
    rw [before]
    refine (Refines.frame (runs_irsListPushBack value) _).weaken le_rfl fun _ _ => ?_
    rw [← after]
    exact le_treeAt (pushBack value sub) ⟨fits.length, fits.shape⟩

def dictionaryAt (pointer : Nat) (dictionary : IrsDictionary (Option α)) :
    Assertion Place (Content α) :=
  ⨆ (root : Nat) (_ : dictionary.size ≠ 0),
    blockAt pointer (.dictionary
      { root := some root, size := dictionary.size, irsCharToIrsInt := dictionary.irsCharToIrsInt })
        *
      treeAt dictionary.size root dictionary.root

theorem le_dictionaryAt (dictionary : IrsDictionary (Option α)) (root : Nat)
    (positive : dictionary.size ≠ 0) :
    blockAt pointer (.dictionary
      { root := some root, size := dictionary.size, irsCharToIrsInt := dictionary.irsCharToIrsInt })
        *
      treeAt dictionary.size root dictionary.root ≤ dictionaryAt pointer dictionary :=
  le_iSup₂_of_le root positive le_rfl

/-- A dictionary in memory, and where its root is. -/
theorem refines_dictionary {β γ : Type} {spec : Except Fault γ} {run : MemoryM α β}
    {R : γ → β → Assertion Place (Content α)} {dictionary : IrsDictionary (Option α)}
    (each : ∀ root, dictionary.size ≠ 0 →
      Refines (blockAt pointer (.dictionary
        { root := some root, size := dictionary.size,
          irsCharToIrsInt := dictionary.irsCharToIrsInt }) *
        treeAt dictionary.size root dictionary.root) spec run R) :
          Refines (dictionaryAt pointer dictionary) spec run R :=
  Refines.cases fun root => Refines.cases fun positive => each root positive

theorem runs_irsDictionaryInitialize (positive : size ≠ 0) (toInt : UInt8 → UInt8) :
    Runs (1 : Assertion Place (Content α))
      (Memory.irsDictionaryInitialize size toInt) fun pointer =>
      dictionaryAt pointer (irsDictionaryInitialize size toInt) := by
  refine refines_new fun pointer => ?_
  rw [mul_comm]
  refine Runs.step (runs_irsDictionaryNodeInitialize positive) fun root => ?_
  rw [mul_comm]
  refine refines_write (Refines.pure ?_)
  refine le_trans (mul_le_mul_right (iSup_le fun array => ?_) _)
    (le_dictionaryAt (irsDictionaryInitialize size toInt) root positive)
  have body : bodyAt size (newLayout size array)
      (irsDictionaryNodeInitialize (α := Option α) size) = 1 := by
    rw [bodyAt, newLayout, irsDictionaryNodeInitialize, childrenAt_replicate]
    show (⨆ _ : 0 = 0, 1) * (1 * 1) = (1 : Assertion Place (Content α))
    rw [iSup_pos rfl, one_mul, one_mul]
  rw [← mul_one (headAt root _ _), ← body]
  exact le_treeAt (irsDictionaryNodeInitialize size) (arrayFits_newLayout size array)

theorem refines_irsDictionaryAppend (dictionary : IrsDictionary (Option α)) {irsString : Bytes}
    {length : UInt32} (inside : length.toNat ≤ irsString.length) (value : Option α) :
    Refines (dictionaryAt pointer dictionary)
      (irsDictionaryAppend dictionary irsString length value)
      (Memory.irsDictionaryAppend (some pointer) irsString length value) fun result _ =>
        dictionaryAt pointer result.1 := by
  refine refines_dictionary fun root positive => ?_
  unfold irsDictionaryAppend irsDictionaryAppendToNode Memory.irsDictionaryAppend
    Memory.irsDictionaryAppendToNode
  rw [bind_assoc, bind_assoc]
  refine refines_readAs rfl ?_
  rw [bind_assoc]
  refine refines_new fun text => ?_
  rw [bind_assoc, Memory.readString, if_neg (Nat.not_lt.mpr inside), pure_bind, bind_assoc,
    ← mul_assoc, mul_comm]
  refine Refines.bind (Refines.frame (refines_appendLoop _ positive _ _) _) fun result last => ?_
  obtain ⟨tree, path⟩ := result
  rw [bind_assoc, mul_left_comm]
  refine refines_free ?_
  rw [pure_bind, endsAt, exists_mul]
  refine Refines.cases fun p => ?_
  rw [exists_mul]
  refine Refines.cases fun sub => ?_
  rw [exists_mul]
  refine Refines.cases fun both => ?_
  obtain ⟨rfl, found⟩ := both
  rw [← bind_assoc, mul_right_comm, mul_comm]
  refine Runs.step (runs_pushBack value) fun _ => Refines.pure ?_
  calc _ = blockAt pointer (.dictionary
    { root := some root, size := dictionary.size, irsCharToIrsInt := dictionary.irsCharToIrsInt }) *
        (holeAt dictionary.size p root tree path * treeAt dictionary.size p
          (pushBack value sub)) := by ac_rfl
    _ ≤ _ := le_trans (mul_le_mul_right (holeAt_fill found) _) (le_dictionaryAt
      { dictionary with root := tree.modifyAt (pushBack value) path } root positive)

/-! ### Looking up -/

def insideAt (size : UInt8) (address : Nat) (node : IrsDictionaryNode (Option α)) (pointer : Nat)
    (sub : IrsDictionaryNode (Option α)) :
    Assertion Place (Content α) :=
  treeAt size pointer sub * (treeAt size pointer sub ⇨ₗ treeAt size address node)

theorem treeAt_le_insideAt : treeAt size address node ≤ insideAt size address node address node :=
  le_trans (mul_one _).ge (mul_le_mul_right (leftMulResiduation_le_iff_mul_le.mpr (one_mul _).le) _)

theorem insideAt_le : insideAt size address node pointer sub ≤ treeAt size address node := by
  rw [insideAt, mul_comm]
  exact leftMulResiduation_le_iff_mul_le.mp le_rfl

theorem insideAt_child {last : Nat} (fits : ArrayFits size layout node.next)
    (here : node.next[num]? = some (some child))
    (there : layout.pointers[num]? = some (some pointer)) :
    insideAt size pointer child last sub
      * (headAt address layout node.offsetSize * bodyBut size layout node num) ≤
      insideAt size address node last sub := by
  rw [insideAt, insideAt, mul_assoc]
  refine mul_le_mul_right (leftMulResiduation_le_iff_mul_le.mpr ?_) _
  have closed : headAt address layout node.offsetSize
      * (bodyBut size layout node num * treeAt size pointer child) ≤ treeAt size address node := by
    rw [← bodyAt_child fits here there]
    exact le_treeAt node fits
  calc _ = headAt address layout node.offsetSize * (bodyBut size layout node num *
        ((treeAt size last sub ⇨ₗ treeAt size pointer child) * treeAt size last sub)) := by ac_rfl
    _ ≤ _ := le_trans (mul_le_mul_right
      (mul_le_mul_right (leftMulResiduation_le_iff_mul_le.mp le_rfl) _) _) closed

/-- A read of a node, of which the length of the label is used. -/
theorem refines_offsetSize {β γ : Type} {spec : Except Fault γ} {next : NodeFields → MemoryM α β}
    {P : Assertion Place (Content α)} {R : γ → β → Assertion Place (Content α)}
    (later : ∀ fields, fields.offsetSize = node.offsetSize →
      Refines (treeAt size address node * P) spec (next fields) R) :
    Refines (treeAt size address node * P) spec (Memory.readNode (some address) >>= next) R := by
  refine refines_tree fun layout fits => refines_readNode ?_
  refine (later (layout.fields node.offsetSize) rfl).pre ?_
  rw [← mul_assoc]
  exact mul_le_mul_left (le_treeAt node fits) _

/-- Where the loop over the prefixes of a string ends. -/
def stopsAt (size : UInt8) (address : Nat) (node : IrsDictionaryNode (Option α))
    (value : IrsDictionaryNode (Option α) × Nat) (result : Option Nat × Nat) :
    Assertion Place (Content α) :=
  ⨆ (pointer : Nat) (_ : result = (some pointer, value.2)),
    insideAt size address node pointer value.1

theorem treeAt_le_stopsAt (i : Nat) :
    treeAt size address node ≤ stopsAt size address node (node, i) (some address, i) :=
  le_iSup₂_of_le address rfl treeAt_le_insideAt

theorem refines_prefixLoop (dictionary : IrsDictionary (Option α)) (root : Option Nat)
    (irsString : Bytes) (stringSize fuel i : Nat) :
    Refines (treeAt size address node) (prefixLoop dictionary irsString stringSize fuel node i)
      (Memory.prefixLoop
        { root, size := dictionary.size, irsCharToIrsInt := dictionary.irsCharToIrsInt } irsString
          stringSize fuel (some address) i)
      (stopsAt size address node) := by
  induction fuel generalizing address node i with
  | zero =>
    unfold prefixLoop Memory.prefixLoop
    split
    · exact Refines.throw _
    · exact Refines.pure (treeAt_le_stopsAt i)
  | succ fuel ih =>
    unfold prefixLoop Memory.prefixLoop
    split
    · cases irsString[i]? with
      | none => exact Refines.throw _
      | some ch =>
        dsimp only
        unfold irsDictionaryGetNextNode Memory.irsDictionaryGetNextNode
        rw [← mul_one (treeAt size address node), bind_assoc]
        refine refines_tree fun layout fits => ?_
        rw [mul_one]
        apply refines_readNode
        rw [NodeLayout.fields]
        dsimp only
        have shape := fits.pointer (dictionary.irsCharToIrsInt ch).toNat
        cases found : node.next[(dictionary.irsCharToIrsInt ch).toNat]? with
        | none =>
          rw [found] at shape
          exact refines_getNext_outside (Option.map_eq_none_iff.mp shape) rfl
        | some slot =>
          cases slot with
          | none =>
            rw [found] at shape
            obtain ⟨pointer, there, absent⟩ := Option.map_eq_some_iff.mp shape
            obtain rfl := Option.isNone_iff_eq_none.mp (Option.isSome_eq_false_iff.mp absent)
            refine refines_getNext there (Refines.pure ?_)
            exact le_trans (le_treeAt node fits) (treeAt_le_stopsAt i)
          | some child =>
            obtain ⟨pointer, there⟩ := fits.hasChild found
            refine refines_getNext there ?_
            rw [bodyAt_child fits found there, ← mul_assoc, mul_comm]
            refine refines_offsetSize fun fields same => ?_
            rw [same]
            refine ((ih _).frame _).weaken le_rfl fun value result => ?_
            rw [stopsAt, exists_mul]
            refine iSup_le fun last => ?_
            rw [exists_mul]
            refine iSup_le fun ends => le_iSup₂_of_le last ends ?_
            exact insideAt_child fits found there
    · exact Refines.pure (treeAt_le_stopsAt i)

theorem cString_zero (string : Bytes) : cString (string ++ [0]) = cString string := by
  induction string with
  | nil => rfl
  | cons ch string ih =>
    unfold cString at ih ⊢
    rw [List.cons_append, List.takeWhile_cons, List.takeWhile_cons, ih]

def foundAt (size : UInt8) (address : Nat) (node : IrsDictionaryNode (Option α)) :
    Option (IrsDictionaryNode (Option α)) → Option Nat → Assertion Place (Content α)
  | some sub, some pointer => insideAt size address node pointer sub
  | none, none => treeAt size address node
  | _, _ => ⊥

/-- The label of a node is copied. -/
theorem refines_label {β γ : Type} {spec : Except Fault γ} {next : Bytes → MemoryM α β}
    {P : Assertion Place (Content α)} {R : γ → β → Assertion Place (Content α)}
    (later : Refines (headAt address layout node.offsetSize * (bodyAt size layout node * P)) spec
      (next node.label) R) :
    Refines (headAt address layout node.offsetSize * (bodyAt size layout node * P)) spec
      (Memory.irsMemCpy layout.offset node.offsetSize >>= next) R := by
  unfold Memory.irsMemCpy
  obtain nothing | ⟨here, label, empty⟩ | ⟨buffer, bytes, here, label, enough⟩ :=
    bodyAt_cases size layout node
  · refine Refines.absurd ?_
    rw [nothing, bot_mul, mul_bot]
  · have copied : node.label = [] := by
      rw [IrsDictionaryNode.label, label]
      exact List.take_nil
    rw [here]
    dsimp only
    rw [if_pos empty, pure_bind, ← copied]
    exact later
  · rw [here]
    dsimp only
    rw [bind_assoc]
    refine refines_readBuffer here label enough ?_
    have copied : (bytes ++ [0]).take node.offsetSize = node.label := by
      rw [IrsDictionaryNode.label, label, Option.getD_some, List.take_append_of_le_length enough]
    rw [if_neg (by rw [List.length_append]; omega), pure_bind, copied]
    exact later

theorem refines_irsDictionaryGetLastNodeFromNode (dictionary : IrsDictionary (Option α))
    (root : Nat) (irsString : Bytes) :
    Refines (blockAt pointer (.dictionary
      { root := some root, size := dictionary.size, irsCharToIrsInt := dictionary.irsCharToIrsInt })
        *
        treeAt dictionary.size root dictionary.root)
      (irsDictionaryGetLastNodeFromNode dictionary irsString)
      (Memory.irsDictionaryGetLastNodeFromNode (some pointer) irsString)
      fun value result => blockAt pointer (.dictionary
        { root := some root, size := dictionary.size,
          irsCharToIrsInt := dictionary.irsCharToIrsInt }) *
        foundAt dictionary.size root dictionary.root value result := by
  unfold irsDictionaryGetLastNodeFromNode Memory.irsDictionaryGetLastNodeFromNode
  refine refines_readAs rfl ?_
  rw [mul_comm]
  refine Refines.bind (Refines.frame (refines_prefixLoop dictionary _ irsString _ _ _) _)
    fun value result => ?_
  obtain ⟨node, i⟩ := value
  rw [stopsAt, exists_mul]
  refine Refines.cases fun last => ?_
  rw [exists_mul]
  refine Refines.cases fun ends => ?_
  subst ends
  dsimp only
  by_cases whole : i = (UInt32.ofNat (irsStrLen irsString)).toNat
  · have closed : ∀ layout, ArrayFits dictionary.size layout node.next →
        headAt last layout node.offsetSize * (bodyAt dictionary.size layout node *
        ((treeAt dictionary.size last node ⇨ₗ treeAt dictionary.size root dictionary.root) * blockAt
          pointer (.dictionary
          { root := some root, size := dictionary.size,
            irsCharToIrsInt := dictionary.irsCharToIrsInt }))) ≤ blockAt pointer (.dictionary
          { root := some root, size := dictionary.size,
            irsCharToIrsInt := dictionary.irsCharToIrsInt }) *
            insideAt dictionary.size root dictionary.root last node := by
      intro layout fits
      rw [← mul_assoc, ← mul_assoc, mul_comm]
      exact mul_le_mul_right (mul_le_mul_left (le_treeAt node fits) _) _
    rw [if_pos whole, insideAt, mul_assoc]
    refine refines_tree fun layout fits => refines_readNode (refines_label ?_)
    refine refines_new fun str => refines_readAs rfl (refines_free ?_)
    have compare : ∀ other, irsStrCmp (node.label ++ [0]) other = irsStrCmp node.label other :=
      fun other => by
      rw [irsStrCmp, irsStrCmp, cString_zero]
    rw [compare, show (layout.fields node.offsetSize).offsetSize = node.offsetSize from rfl]
    by_cases same : irsStrCmp node.label
      (irsString.drop ((UInt32.ofNat (irsStrLen irsString)).toNat - node.offsetSize)) = true
    · rw [if_pos same, if_pos ⟨whole, same⟩]
      exact Refines.pure (closed layout fits)
    · rw [if_neg same, if_neg (fun both => same both.2)]
      exact Refines.pure (le_trans (closed layout fits) (mul_le_mul_right insideAt_le _))
  · rw [if_neg whole, if_neg (fun both => whole both.1)]
    refine Refines.pure ?_
    rw [mul_comm]
    exact mul_le_mul_right insideAt_le _

def Memory.valuesOf (list : Option Nat) : MemoryM α (Option (List (Option α))) :=
  match list with
  | none => pure none
  | some _ => do
    let values ← listValues list
    pure (some values)

theorem runs_valuesOf (fits : ArrayFits size layout sub.next) :
    Runs (headAt pointer layout sub.offsetSize * bodyAt size layout sub)
      (Memory.valuesOf layout.dataList)
      fun result => ⨆ _ : result = sub.dataList, treeAt size pointer sub := by
  unfold Memory.valuesOf
  obtain nothing | ⟨there, here⟩ | ⟨list, values, there, here, goesOn⟩ :=
    bodyAt_data_cases size layout sub
  · refine Refines.absurd ?_
    rw [nothing, mul_bot]
  · rw [there, here]
    exact Refines.pure (le_iSup_of_le rfl (le_treeAt sub fits))
  · have closed : listAt list values
        * (headAt pointer layout sub.offsetSize
          * (bufferAt layout.offset sub.offset sub.offsetSize *
        childrenAt size layout.pointers sub.next)) =
          headAt pointer layout sub.offsetSize * bodyAt size layout sub := by
      rw [bodyAt, there, here, dataListAt_some goesOn]
      ac_rfl
    rw [there, here, ← closed]
    refine Runs.step runs_listValues fun result => ?_
    rw [exists_mul]
    refine Refines.cases fun same => Refines.pure ?_
    rw [same, iSup_pos rfl, closed]
    exact le_treeAt sub fits

theorem runs_values :
    Runs (treeAt size pointer sub)
      (Memory.readNode (some pointer) >>= fun fields => Memory.valuesOf fields.dataList)
      fun result => ⨆ _ : result = sub.dataList, treeAt size pointer sub := by
  rw [← mul_one (treeAt size pointer sub)]
  refine refines_tree fun layout fits => refines_readNode ?_
  rw [mul_one, mul_one]
  exact runs_valuesOf fits

theorem refines_foundAt {β γ : Type} {spec : Except Fault γ} {run : MemoryM α β}
    {P : Assertion Place (Content α)} {R : γ → β → Assertion Place (Content α)}
    {value : Option (IrsDictionaryNode (Option α))} {result : Option Nat}
    (missing : value = none → result = none → Refines (P * treeAt size address node) spec run R)
    (found : ∀ sub pointer, value = some sub → result = some pointer →
      Refines (P * insideAt size address node pointer sub) spec run R) :
    Refines (P * foundAt size address node value result) spec run R := by
  cases value with
  | none =>
    cases result with
    | none => exact missing rfl rfl
    | some pointer => exact Refines.absurd mul_bot.le
  | some sub =>
    cases result with
    | none => exact Refines.absurd mul_bot.le
    | some pointer => exact found sub pointer rfl rfl

theorem runs_hasData :
    Runs (treeAt size pointer sub)
      (Memory.readNode (some pointer) >>= fun fields => Pure.pure fields.dataList.isSome)
      fun result => ⨆ _ : result = sub.dataList.isSome, treeAt size pointer sub := by
  rw [← mul_one (treeAt size pointer sub)]
  refine refines_tree fun layout fits => refines_readNode (Refines.pure ?_)
  rw [mul_one, mul_one]
  obtain nothing | ⟨there, here⟩ | ⟨list, values, there, here, goesOn⟩ :=
    bodyAt_data_cases size layout sub
  · rw [nothing, mul_bot]
    exact bot_le
  · exact le_iSup_of_le (by rw [NodeLayout.fields, there, here]; rfl) (le_treeAt sub fits)
  · exact le_iSup_of_le (by rw [NodeLayout.fields, there, here]; rfl) (le_treeAt sub fits)

/-- Something is asked of the node that a look at a string found. -/
theorem refines_ask {β : Type} (dictionary : IrsDictionary (Option α)) (irsString : Bytes)
    {ask : Option (IrsDictionaryNode (Option α)) → β} {run : Option Nat → MemoryM α β}
    (missing : run none = Pure.pure (ask none))
    (found : ∀ pointer sub,
      Runs (treeAt dictionary.size pointer sub) (run (some pointer)) fun result =>
      ⨆ _ : result = ask (some sub), treeAt dictionary.size pointer sub) :
    Refines (dictionaryAt pointer dictionary)
      (irsDictionaryGetLastNodeFromNode dictionary irsString >>= fun last => .ok (ask last))
      (Memory.irsDictionaryGetLastNodeFromNode (some pointer) irsString >>= run)
      fun value result => ⨆ _ : result = value, dictionaryAt pointer dictionary := by
  refine refines_dictionary fun root positive => ?_
  refine (refines_irsDictionaryGetLastNodeFromNode dictionary root irsString).bind
    fun value result => ?_
  refine refines_foundAt (fun nothing absent => ?_) fun sub last here there => ?_
  · subst nothing absent
    rw [missing]
    exact Refines.pure (le_iSup_of_le rfl (le_dictionaryAt dictionary root positive))
  · subst here there
    rw [insideAt, mul_left_comm]
    show Refines _ ((.ok () : Except Fault Unit) >>= fun _ => .ok (ask (some sub))) _ _
    refine (Refines.frame (found last sub) _).map fun _ result => ?_
    rw [exists_mul]
    refine iSup_mono fun same => ?_
    rw [mul_left_comm]
    exact le_trans (mul_le_mul_right insideAt_le _) (le_dictionaryAt dictionary root positive)

theorem refines_irsDictionaryIsIn (dictionary : IrsDictionary (Option α)) (irsString : Bytes) :
    Refines (dictionaryAt pointer dictionary) (irsDictionaryIsIn dictionary irsString)
      (Memory.irsDictionaryIsIn (some pointer) irsString)
      fun value result => ⨆ _ : result = value, dictionaryAt pointer dictionary :=
  refines_ask dictionary irsString rfl fun _ _ => runs_hasData

theorem refines_irsDictionaryGet (dictionary : IrsDictionary (Option α)) (irsString : Bytes) :
    Refines (dictionaryAt pointer dictionary) (irsDictionaryGet dictionary irsString)
      (Memory.irsDictionaryGet (some pointer) irsString >>= Memory.valuesOf)
      fun value result => ⨆ _ : result = value, dictionaryAt pointer dictionary := by
  unfold irsDictionaryGet Memory.irsDictionaryGet
  rw [bind_assoc]
  refine refines_ask dictionary irsString rfl fun last sub => ?_
  dsimp only
  rw [bind_assoc]
  exact runs_values

end IrsMachine
