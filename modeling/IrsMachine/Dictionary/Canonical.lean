import IrsMachine.Dictionary.Order
import IrsMachine.Dictionary.Retrieval
import IrsMachine.Dictionary.Shape

/-!
# The order of the appends does not matter

Keys without capital letters are told apart by every append, so the tree is a sorted map of
them: a traversal meets them in order, whatever the order in which they were appended.
-/

namespace IrsMachine
open IrsDictionaryNode Except Multimap Words

variable {α γ : Type} {toInt : UInt8 → UInt8} {ok : UInt8 → Prop} {size : UInt8}

/-! ### Sorted traversals -/

/-- A strictly sorted list is determined by its members. -/
theorem eq_of_strictly_sorted {β : Type} {R : β → β → Prop} [Std.Asymm R] {first second : List β}
    (sorted : first.Pairwise R) (sorted' : second.Pairwise R) (same : ∀ x, x ∈ first ↔ x ∈ second) :
    first = second := by
  have nodup : ∀ {list : List β}, list.Pairwise R → list.Nodup := by
    intro list sorted
    refine List.Pairwise.imp ?_ sorted
    intro a b less same
    subst same
    exact Std.Asymm.asymm a a less less
  have perm := (List.perm_ext_iff_of_nodup (nodup sorted) (nodup sorted')).mpr same
  exact perm.eq_of_pairwise (fun a b _ _ less greater => absurd greater (Std.Asymm.asymm _ _ less))
    sorted sorted'

/-- Alike trees are traversed alike. -/
theorem visitDownNode_alike {f : List α → γ} {first second : IrsDictionaryNode α}
    (tidy : Tidy toInt ok size first) (tidy' : Tidy toInt ok size second)
    (alike : Alike f first second) :
    (visitDownNode first).map (fun visit => (visit.1, view f visit.2)) =
      (visitDownNode second).map fun visit => (visit.1, view f visit.2) := by
  have asymm : Std.Asymm fun a b : Address × (Bytes × Nat × Nat × Option γ) =>
    List.Lex (· < ·) a.1 b.1 :=
    ⟨fun a b less greater => Std.Asymm.asymm a.1 b.1 less greater⟩
  have mem : ∀ (node : IrsDictionaryNode α) address seen,
      (address, seen) ∈ (visitDownNode node).map (fun visit => (visit.1, view f visit.2)) ↔
      address ≠ [] ∧ (node.nodeAt address).map (view f) = some seen := by
    intro node address seen
    simp only [List.mem_map, Prod.exists, mem_visitDownNode, Prod.mk.injEq, Option.map_eq_some_iff]
    constructor
    · rintro ⟨_, found, ⟨below, located⟩, rfl, same⟩
      exact ⟨below, found, located, same⟩
    · rintro ⟨below, found, located, same⟩
      exact ⟨_, found, ⟨below, located⟩, rfl, same⟩
  apply eq_of_strictly_sorted (R := fun a b => List.Lex (· < ·) a.1 b.1)
  · rw [List.pairwise_map]
    exact visitDownNode_sorted tidy
  · rw [List.pairwise_map]
    exact visitDownNode_sorted tidy'
  · rintro ⟨address, seen⟩
    rw [mem, mem, alike address]

/-! ### Appends of keys without capital letters -/

/-- A call of `irs_dictionary_append`. Its key is as long as `size` says. -/
structure LowerCall (α : Type) where
  irsString : Bytes
  size : UInt32
  value : α
  inside : size.toNat ≤ irsString.length
  nonempty : size ≠ 0
  admitted : ∀ ch ∈ irsString.take size.toNat, Admitted ch
  lower : ∀ ch ∈ irsString.take size.toNat, ¬(65 ≤ ch ∧ ch ≤ 90)

namespace LowerCall

def key (call : LowerCall α) : Bytes := call.irsString.take call.size.toNat

theorem length_key (call : LowerCall α) : call.key.length = call.size.toNat := by
  rw [key, List.length_take]
  have := call.inside
  omega

theorem key_ne_nil (call : LowerCall α) : call.key ≠ [] := by
  intro nothing
  have zero := call.length_key
  rw [nothing, List.length_nil] at zero
  exact call.nonempty (UInt32.toNat_inj.mp zero.symm)

theorem tolower_key (call : LowerCall α) : ∀ ch ∈ call.key, tolower ch = ch := by
  intro ch member
  rw [tolower, if_neg (call.lower ch member)]

def entry (call : LowerCall α) : Bytes × α := (call.key, call.value)

end LowerCall

def appendCalls (dictionary : IrsDictionary α) (calls : List (LowerCall α)) :
    Except Fault (IrsDictionary α) :=
  calls.foldlM (fun dictionary call => do
    let (dictionary, _) ← irsDictionaryAppend dictionary call.irsString call.size call.value
    .ok dictionary) dictionary

def valuesOf (calls : List (LowerCall α)) (key : Bytes) : List α :=
  (calls.filter fun call => decide (call.key = key)).map LowerCall.value

theorem append_eq_appendKey (dictionary : IrsDictionary α) (call : LowerCall α) :
    (do
      let (dictionary, _) ← irsDictionaryAppend dictionary call.irsString call.size call.value
      .ok dictionary) = appendKey dictionary call.key call.value := by
  have size : UInt32.ofNat (irsStrLen call.key) = call.size := by
    have noNul : ∀ ch ∈ call.key, ch ≠ 0 := fun ch member => (call.admitted ch member).1
    rw [irsStrLen_of_noNul noNul, call.length_key, UInt32.ofNat_toNat]
  have key : call.key.take call.size.toNat = call.irsString.take call.size.toNat := by
    rw [LowerCall.key, List.take_take, Nat.min_self]
  unfold appendKey irsDictionaryAppend irsDictionaryAppendToNode
  rw [size, key]

theorem appendCalls_eq (dictionary : IrsDictionary α) (calls : List (LowerCall α)) :
    appendCalls dictionary calls = appendAll dictionary (calls.map LowerCall.entry) := by
  rw [appendCalls, appendAll, List.foldlM_map]
  simp only [append_eq_appendKey, LowerCall.entry]

theorem valuesOf_eq (calls : List (LowerCall α)) (key : Bytes) :
    valuesOf calls key = ofPairs (calls.map LowerCall.entry) key := by
  rw [ofPairs_apply, valuesOf, List.filter_map, List.map_map]
  rfl

/-- The nodes with data that a traversal meets: their words and their data. -/
def dataNodes (dictionary : IrsDictionary α) : List (Bytes × List α) :=
  (irsDictionaryVisitDownNodes dictionary).filterMap fun visit =>
    visit.2.dataList.map fun values => (spell dictionary.root visit.1, values)

theorem entries_eq_dataNodes {dictionary : IrsDictionary α}
    (root : dictionary.root.dataList = none) :
    entries dictionary.root = dataNodes dictionary := by
  rw [entries, List.filterMap_cons, root]
  rfl

/-- What a sequence of such appends leaves. -/
theorem appendCalls_kept (calls : List (LowerCall α)) :
    ∃ dictionary, appendCalls freshDictionary calls = .ok dictionary ∧ Kept Admitted dictionary ∧
      contents irsCharToIrsInt dictionary.root = valuesOf calls ∧
      dictionary.root.dataList = none := by
  have bytes : ∀ pair ∈ calls.map LowerCall.entry, ∀ ch ∈ pair.1, Admitted ch := by
    intro pair member
    obtain ⟨call, -, rfl⟩ := List.mem_map.mp member
    exact call.admitted
  have short : ∀ pair ∈ calls.map LowerCall.entry, pair.1.length < 2 ^ 32 := by
    intro pair member
    obtain ⟨call, -, rfl⟩ := List.mem_map.mp member
    rw [LowerCall.entry, call.length_key]
    exact call.size.toNat_lt
  have unmixed : Unmixed SameFold ((calls.map LowerCall.entry).map Prod.fst) := by
    apply unmixed_of_lower
    intro word member
    obtain ⟨pair, inside, rfl⟩ := List.mem_map.mp member
    obtain ⟨call, -, rfl⟩ := List.mem_map.mp inside
    exact call.tolower_key
  obtain ⟨dictionary, run, kept⟩ := appendAll_total kept_freshDictionary bytes
  have stored := appendAll_contents (fun pair member ch inside => (bytes pair member ch inside).1)
    short unmixed run
  refine ⟨dictionary, (appendCalls_eq _ _).trans run, kept, ?_, ?_⟩
  · funext key
    rw [stored, valuesOf_eq]
  · rw [← getD_eq_nil kept.tidy, stored, ← not_not (a := ofPairs _ _ = []), ← ne_eq, ofPairs_ne_nil]
    intro member
    obtain ⟨pair, inside, empty⟩ := List.mem_map.mp member
    obtain ⟨call, -, rfl⟩ := List.mem_map.mp inside
    exact call.key_ne_nil empty

theorem dataNodes_sorted {dictionary : IrsDictionary α} (kept : Kept ok dictionary)
    (root : dictionary.root.dataList = none) :
    ((dataNodes dictionary).map Prod.fst).Pairwise (List.Lex (SlotLt irsCharToIrsInt)) := by
  rw [← entries_eq_dataNodes root]
  exact entries_sorted kept.tidy

theorem valuesOf_ne_nil {calls : List (LowerCall α)} {key : Bytes} : valuesOf calls key ≠ [] ↔
    key ∈ calls.map LowerCall.key := by
  rw [valuesOf_eq, ofPairs_ne_nil, List.map_map]
  rfl

/-- Trees with the same values are traversed alike, node by node. -/
theorem traversed_alike {first second : IrsDictionary α} (kept : Kept ok first)
    (kept' : Kept ok second)
    (same : contents irsCharToIrsInt first.root = contents irsCharToIrsInt second.root) :
    (irsDictionaryVisitDownNodes first).map
      (fun visit => (visit.1, visit.2.label, visit.2.dataList)) =
      (irsDictionaryVisitDownNodes second).map fun visit =>
        (visit.1, visit.2.label, visit.2.dataList) := by
  have alike : Alike (fun values : List α => values) first.root second.root :=
    alike_of_keys kept.tidy kept.bushy kept'.tidy kept'.bushy
      (kept.rootLabel.trans kept'.rootLabel.symm)
      (kept.rootSize.trans kept'.rootSize.symm) (by rw [keys, keys, same]) fun word => by rw [same]
  have visits := congrArg (List.map fun seen : Address × (Bytes × Nat × Nat × Option (List α)) =>
    (seen.1, seen.2.1, seen.2.2.2.2))
    (visitDownNode_alike kept.tidy kept'.tidy alike)
  simp only [List.map_map, Function.comp_def, view, Option.map_id'] at visits
  exact visits

/-- A traversal meets the keys in the order of their slots, each one once and with its values; and
sequences that give every key the same values are traversed alike, node by node. -/
theorem appendCalls_canonical (calls : List (LowerCall α)) :
    ∃ dictionary, appendCalls freshDictionary calls = .ok dictionary ∧
      ((dataNodes dictionary).map Prod.fst).Pairwise (List.Lex (SlotLt irsCharToIrsInt)) ∧
      (∀ key, key ∈ (dataNodes dictionary).map Prod.fst ↔ key ∈ calls.map LowerCall.key) ∧
      (∀ node ∈ dataNodes dictionary, node.2 = valuesOf calls node.1) ∧
      ∀ calls' : List (LowerCall α), (∀ key, valuesOf calls' key = valuesOf calls key) →
        ∃ dictionary', appendCalls freshDictionary calls' = .ok dictionary' ∧
          dataNodes dictionary' = dataNodes dictionary ∧
          (irsDictionaryVisitDownNodes dictionary').map
            (fun visit => (visit.1, visit.2.label, visit.2.dataList)) =
            (irsDictionaryVisitDownNodes dictionary).map fun visit =>
              (visit.1, visit.2.label, visit.2.dataList) := by
  obtain ⟨dictionary, run, kept, stored, root⟩ := appendCalls_kept calls
  have mem := (lists_entries kept.tidy).mem
  rw [entries_eq_dataNodes root, stored] at mem
  refine ⟨dictionary, run, dataNodes_sorted kept root, ?_, ?_, ?_⟩
  · intro key
    rw [← entries_eq_dataNodes root, mem_map_entries kept.tidy, mem_keys, stored, valuesOf_ne_nil]
  · intro node member
    exact ((mem _ _).mp member).1.symm
  · intro calls' same
    obtain ⟨dictionary', run', kept', stored', root'⟩ := appendCalls_kept calls'
    have mem' := (lists_entries kept'.tidy).mem
    rw [entries_eq_dataNodes root', stored', funext same] at mem'
    refine ⟨dictionary', run', ?_,
      traversed_alike kept' kept (by rw [stored', stored, funext same])⟩
    have asymm : Std.Asymm fun a b : Bytes × List α => List.Lex (SlotLt irsCharToIrsInt) a.1 b.1 :=
      ⟨fun a b less greater => Std.Asymm.asymm a.1 b.1 less greater⟩
    apply eq_of_strictly_sorted (R := fun a b => List.Lex (SlotLt irsCharToIrsInt) a.1 b.1)
    · exact List.pairwise_map.mp (dataNodes_sorted kept' root')
    · exact List.pairwise_map.mp (dataNodes_sorted kept root)
    · intro node
      rw [mem', mem]

/-- `1` and `12`, in both orders. -/
theorem appendCalls_canonical_swapped :
    let one : LowerCall Nat := ⟨[49], 1, 7, by decide, by decide, by simp [Admitted], by simp⟩
    let twelve : LowerCall Nat :=
      ⟨[49, 50], 2, 8, by decide, by decide, by simp [Admitted], by simp⟩
    ∃ first second, appendCalls freshDictionary [one, twelve] = .ok first ∧
    appendCalls freshDictionary [twelve, one] = .ok second ∧
      dataNodes second = dataNodes first := by
  intro one twelve
  obtain ⟨first, run, -, -, -, others⟩ := appendCalls_canonical [one, twelve]
  obtain ⟨second, run', same, -⟩ := others [twelve, one] fun key => by
    by_cases here : one.key = key
    · have there : twelve.key ≠ key := here ▸ by decide
      simp [valuesOf, here, there]
    · by_cases there : twelve.key = key
      · simp [valuesOf, here, there]
      · simp [valuesOf, here, there]
  exact ⟨first, second, run, run', same⟩

end IrsMachine
