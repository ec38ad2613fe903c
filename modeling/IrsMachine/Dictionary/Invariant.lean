import IrsMachine.Dictionary.Progress

/-!
# The prefix-tree invariant

`PrefixTree` is the representation invariant of a dictionary, address by address. It holds
of the fresh dictionary and every append keeps it.
-/

namespace IrsMachine
open IrsDictionaryNode Except

variable {α : Type} {toInt : UInt8 → UInt8} {ok : UInt8 → Prop} {size : UInt8}

/-! ### Addresses -/

theorem nodeAt_cons {node child : IrsDictionaryNode α} {num : Nat}
    (stored : node.next[num]? = some (some child)) (address : Address) :
    node.nodeAt (num :: address) = child.nodeAt address := by
  simp [nodeAt, stored]

theorem nodeAt_stored {node found : IrsDictionaryNode α} {num : Nat} {address : Address}
    (located : node.nodeAt (num :: address) = some found) :
    ∃ child, node.next[num]? = some (some child) ∧ child.nodeAt address = some found := by
  unfold nodeAt at located
  split at located
  · rename_i child stored
    exact ⟨child, stored, located⟩
  · cases located

theorem nodeAt_of_next {node other : IrsDictionaryNode α} (same : node.next = other.next)
    {address : Address} (below : address ≠ []) : node.nodeAt address = other.nodeAt address := by
  cases address with
  | nil => exact absurd rfl below
  | cons num address => simp only [nodeAt, same]

theorem nodeAt_setNext_self {node child : IrsDictionaryNode α} {num : Nat}
    (inside : num < node.next.length) (address : Address) :
    (node.setNext num child).nodeAt (num :: address) = child.nodeAt address :=
  nodeAt_cons (by rw [getElem?_setNext, if_pos ⟨rfl, inside⟩]) address

theorem nodeAt_setNext_ne (node child : IrsDictionaryNode α) {num m : Nat} (other : num ≠ m)
    (address : Address) :
    (node.setNext num child).nodeAt (m :: address) = node.nodeAt (m :: address) := by
  simp only [nodeAt, getElem?_setNext, other, false_and, if_false]

theorem nodeAt_append {node middle : IrsDictionaryNode α} {address : Address}
    (located : node.nodeAt address = some middle) (below : Address) :
    node.nodeAt (address ++ below) = middle.nodeAt below := by
  induction address generalizing node with
  | nil => cases located; rfl
  | cons num address ih =>
    obtain ⟨child, stored, located⟩ := nodeAt_stored located
    rw [List.cons_append, nodeAt_cons stored, ih located]

theorem tidy_nodeAt {node found : IrsDictionaryNode α} {address : Address}
    (tidy : Tidy toInt ok size node) (located : node.nodeAt address = some found) :
    Tidy toInt ok size found := by
  induction address generalizing node with
  | nil => cases located; exact tidy
  | cons num address ih =>
    obtain ⟨child, stored, located⟩ := nodeAt_stored located
    exact ih (tidy.child stored) located

theorem edge_nodeAt {node found : IrsDictionaryNode α} {address : Address}
    (tidy : Tidy toInt ok size node) (located : node.nodeAt address = some found)
    (below : address ≠ []) : ∃ num, Edge toInt ok num found := by
  induction address generalizing node with
  | nil => exact absurd rfl below
  | cons num address ih =>
    obtain ⟨child, stored, located⟩ := nodeAt_stored located
    cases address with
    | nil => cases located; exact ⟨num, tidy.edge stored⟩
    | cons num' address => exact ih (tidy.child stored) located (List.cons_ne_nil _ _)

theorem modifyAt_label (value : α) (node : IrsDictionaryNode α) (address : Address) :
    (node.modifyAt (pushBack value) address).label = node.label ∧
      (node.modifyAt (pushBack value) address).offsetSize = node.offsetSize := by
  cases address with
  | nil => exact ⟨rfl, rfl⟩
  | cons num address =>
    unfold modifyAt
    split <;> exact ⟨rfl, rfl⟩

theorem modifyAt_stored (f : IrsDictionaryNode α → IrsDictionaryNode α)
    {node child : IrsDictionaryNode α} {num : Nat} (stored : node.next[num]? = some (some child))
    (address : Address) :
    node.modifyAt f (num :: address) = node.setNext num (child.modifyAt f address) := by
  simp [modifyAt, stored]

theorem modifyAt_absent (f : IrsDictionaryNode α → IrsDictionaryNode α) {node : IrsDictionaryNode α}
    {num : Nat} (absent : ∀ child, node.next[num]? ≠ some (some child)) (address : Address) :
    node.modifyAt f (num :: address) = node := by
  unfold modifyAt
  split
  · rename_i child stored
    exact absurd stored (absent child)
  · rfl

theorem modifyAt_cons {node child : IrsDictionaryNode α} {num : Nat}
    (stored : node.next[num]? = some (some child)) (value : α) (address : Address) :
    node.modifyAt (pushBack value) (num :: address) =
      node.setNext num (child.modifyAt (pushBack value) address) :=
  modifyAt_stored (pushBack value) stored address

theorem tidy_modifyAt {node found : IrsDictionaryNode α} {address : Address} (value : α)
    (tidy : Tidy toInt ok size node) (located : node.nodeAt address = some found) :
    Tidy toInt ok size (node.modifyAt (pushBack value) address) := by
  induction address generalizing node with
  | nil =>
    exact .intro tidy.slots (by simp [modifyAt, pushBack]) (fun _ _ => tidy.edge)
      (fun _ _ => tidy.child)
  | cons num address ih =>
    obtain ⟨child, stored, located⟩ := nodeAt_stored located
    obtain ⟨label, exact⟩ := modifyAt_label value child address
    have edge := tidy.edge stored
    rw [modifyAt_cons stored]
    exact tidy_setNext tidy
      ⟨by rw [label]; exact edge.first, by rw [label, exact]; exact edge.exact,
      by rw [label]; exact edge.bytes⟩ (ih (tidy.child stored) located)

def HasChild (node : IrsDictionaryNode α) (num : Nat) : Prop :=
  ∃ child, node.next[num]? = some (some child)

theorem hasChild_setNext {node child : IrsDictionaryNode α} {num : Nat}
    (inside : num < node.next.length) (m : Nat) :
    HasChild (node.setNext num child) m ↔ num = m ∨ HasChild node m := by
  simp only [HasChild, getElem?_setNext]
  by_cases same : num = m
  · subst same; simp [inside]
  · simp [same]

theorem nodeAt_modifyAt {node found other : IrsDictionaryNode α} {address at' : Address} (value : α)
    (located : node.nodeAt address = some found)
    (reached : (node.modifyAt (pushBack value) address).nodeAt at' = some other) :
    ∃ before, node.nodeAt at' = some before ∧ other.label = before.label ∧
      other.dataList =
        (if at' = address then some (before.dataList.getD [] ++ [value]) else before.dataList) ∧
      ∀ num, HasChild before num ↔ HasChild other num := by
  induction address generalizing node at' with
  | nil =>
    cases located
    cases at' with
    | nil => cases reached; exact ⟨_, rfl, rfl, rfl, fun _ => Iff.rfl⟩
    | cons num at' => exact ⟨other, reached, rfl, rfl, fun _ => Iff.rfl⟩
  | cons num address ih =>
    obtain ⟨child, stored, located⟩ := nodeAt_stored located
    have inside := (List.getElem?_eq_some_iff.mp stored).1
    rw [modifyAt_cons stored] at reached
    cases at' with
    | nil =>
      cases reached
      refine ⟨node, rfl, rfl, rfl, fun m => ?_⟩
      rw [hasChild_setNext inside]
      exact ⟨Or.inr, Or.rec (fun same => same ▸ ⟨child, stored⟩) id⟩
    | cons m at' =>
      by_cases same : num = m
      · subst same
        rw [nodeAt_setNext_self inside] at reached
        obtain ⟨before, first, label, data, slots⟩ := ih located reached
        refine ⟨before, by rw [nodeAt_cons stored, first], label, ?_, slots⟩
        simpa using data
      · rw [nodeAt_setNext_ne _ _ same] at reached
        refine ⟨other, reached, rfl, ?_, fun _ => Iff.rfl⟩
        simp [Ne.symm same]

theorem nodeAt_modifyAt_some {node found : IrsDictionaryNode α} {address : Address} (value : α)
    (located : node.nodeAt address = some found) :
    (∃ found', (node.modifyAt (pushBack value) address).nodeAt address = some found') := by
  induction address generalizing node with
  | nil => exact ⟨_, rfl⟩
  | cons num address ih =>
    obtain ⟨child, stored, located⟩ := nodeAt_stored located
    obtain ⟨found', below⟩ := ih located
    exact ⟨found', by
      rw [modifyAt_cons stored, nodeAt_setNext_self (List.getElem?_eq_some_iff.mp stored).1, below]⟩

/-! ### Branching -/

def Branches (node : IrsDictionaryNode α) : Prop :=
  ∃ first second, first ≠ second ∧ HasChild node first ∧ HasChild node second

theorem Branches.mono {node node' : IrsDictionaryNode α} (branches : Branches node)
    (kept : ∀ num, HasChild node num → HasChild node' num) : Branches node' := by
  obtain ⟨first, second, different, one, two⟩ := branches
  exact ⟨first, second, different, kept _ one, kept _ two⟩

/-- Every node below `node` that holds no data branches, those exempted aside. -/
def Bushy (node : IrsDictionaryNode α) (exempt : Address → Prop) : Prop :=
  ∀ address found, address ≠ [] → ¬exempt address → node.nodeAt address = some found →
    found.dataList = none →
    Branches found

theorem appendLoop_children {fuel : Nat} {node node' : IrsDictionaryNode α} {rest : Bytes}
    {address : Address} (injective : Function.Injective toInt) (tidy : Tidy toInt ok size node)
    (bytes : ∀ b ∈ rest, ok b) (run : appendLoop toInt size fuel node rest = .ok (node', address)) :
    (∀ num, HasChild node num → HasChild node' num) ∧
      (∀ c, rest.head? = some c → HasChild node' (toInt c).toNat) ∧ (address = [] ↔ rest = []) := by
  refine appendLoop_rule (motive := fun node rest node' address =>
    (∀ num, HasChild node num → HasChild node' num) ∧
      (∀ c, rest.head? = some c → HasChild node' (toInt c).toNat) ∧ (address = [] ↔ rest = []))
    injective ?_ ?_ ?_ tidy bytes run
  · intro node _
    exact ⟨fun _ => id, by simp, by simp⟩
  · intro node c cs _ empty _
    have inside := (List.getElem?_eq_some_iff.mp empty).1
    exact ⟨fun num has => (hasChild_setNext inside num).mpr (Or.inr has),
      fun b head => (hasChild_setNext inside _).mpr (Or.inl (by cases head; rfl)), by simp⟩
  · intro _ node c cs old child child' address _ stored _ _ _ _ _ _ _
    have inside := (List.getElem?_eq_some_iff.mp stored).1
    exact ⟨fun num has => (hasChild_setNext inside num).mpr (Or.inr has),
      fun b head => (hasChild_setNext inside _).mpr (Or.inl (by cases head; rfl)), by simp⟩

theorem bushy_splitOf {old child : IrsDictionaryNode α} {front back : Bytes} {b : UInt8}
    (splitOf : SplitOf toInt size old child front b back)
    (here : old.dataList = none → Branches old) (below : Bushy old fun _ => False) :
    Bushy child fun _ => False := by
  intro address found notRoot _ located noData
  obtain ⟨hang, child_eq, -, -, hangNext, hangData⟩ := splitOf.hang
  cases address with
  | nil => exact absurd rfl notRoot
  | cons num address =>
    rw [child_eq] at located
    by_cases same : (toInt b).toNat = num
    · subst same
      rw [nodeAt_setNext_self
        (by simpa [prefixNode, irsDictionaryNodeInitialize] using splitOf.inBounds)] at located
      cases address with
      | nil =>
        cases located
        apply (here (hangData ▸ noData)).mono
        intro num has
        simpa only [HasChild, hangNext] using has
      | cons num address =>
        rw [nodeAt_of_next hangNext (List.cons_ne_nil _ _)] at located
        exact below _ found (List.cons_ne_nil _ _) id located noData
    · rw [nodeAt_setNext_ne _ _ same] at located
      simp [nodeAt, prefixNode, irsDictionaryNodeInitialize, List.getElem?_replicate] at located

/-- An append may leave one node without data and without branches: the one it ends at. -/
theorem appendLoop_bushy {fuel : Nat} {node node' : IrsDictionaryNode α} {rest : Bytes}
    {address : Address} (injective : Function.Injective toInt) (tidy : Tidy toInt ok size node)
    (bytes : ∀ b ∈ rest, ok b) (bushy : Bushy node fun _ => False)
    (run : appendLoop toInt size fuel node rest = .ok (node', address)) :
    Bushy node' fun at' => at' = address := by
  revert bushy
  refine appendLoop_rule (motive := fun node _ node' address =>
    (Bushy node fun _ => False) → Bushy node' fun at' => at' = address) injective ?_ ?_ ?_
      tidy bytes run
  · intro node _ bushy at' found notRoot _
    exact bushy at' found notRoot id
  · intro node c cs _ empty _ bushy at' found notRoot exempt located noData
    have inside := (List.getElem?_eq_some_iff.mp empty).1
    cases at' with
    | nil => exact absurd rfl notRoot
    | cons num at' =>
      by_cases same : (toInt c).toNat = num
      · subst same
        cases at' with
        | nil => exact absurd rfl exempt
        | cons num at' =>
          rw [nodeAt_setNext_self inside] at located
          simp [nodeAt, leafNode, irsDictionaryNodeInitialize, List.getElem?_replicate] at located
      · rw [nodeAt_setNext_ne _ _ same] at located
        exact bushy _ found notRoot id located noData
  · intro fuel node c cs old child child' address tidy stored entered edge childTidy matched dropped
      below ih bushy
    have inside := (List.getElem?_eq_some_iff.mp stored).1
    obtain ⟨kept, fresh, ended⟩ := appendLoop_children injective childTidy dropped below
    obtain ⟨-, -, -, sameData⟩ := appendLoop_tidy injective childTidy dropped below
    have oldHere : old.dataList = none → Branches old :=
      bushy [_] old (List.cons_ne_nil _ _) id (by rw [nodeAt_cons stored]; rfl)
    have oldBelow : Bushy old fun _ => False := fun at' found notRoot _ located =>
      bushy (_ :: at') found (List.cons_ne_nil _ _) id (by rw [nodeAt_cons stored, located])
    have childBelow : Bushy child fun _ => False := by
      cases entered with
      | whole => exact oldBelow
      | split splitOf => exact bushy_splitOf splitOf oldHere oldBelow
    intro at' found notRoot exempt located noData
    cases at' with
    | nil => exact absurd rfl notRoot
    | cons num at' =>
      by_cases same : (toInt c).toNat = num
      · subst same
        rw [nodeAt_setNext_self inside] at located
        have exempt' : ¬at' = address := fun same => exempt (by rw [same])
        cases at' with
        | cons num at' => exact ih childBelow _ found (List.cons_ne_nil _ _) exempt' located noData
        | nil =>
          -- the child itself, and the string does not end at it
          cases located
          rw [sameData] at noData
          cases entered with
          | whole => exact (oldHere noData).mono kept
          | @split _ front b back splitOf differs =>
            have goesOn : (c :: cs).drop child.label.length ≠ [] :=
              fun none => exempt' (ended.mpr none).symm
            obtain ⟨c', head⟩ := Option.isSome_iff_exists.mp (List.isSome_head?.mpr goesOn)
            have other : (toInt b).toNat ≠ (toInt c').toNat := by
              intro same
              refine differs c' ?_ (congrArg tolower (injective (UInt8.toNat_inj.mp same)))
              rw [← List.head?_drop, ← splitOf.label, head]
            have hung : HasChild child (toInt b).toNat := by
              obtain ⟨hang, child_eq, -⟩ := splitOf.hang
              rw [child_eq, hasChild_setNext
                (by simpa [prefixNode, irsDictionaryNodeInitialize] using splitOf.inBounds)]
              exact Or.inl rfl
            exact ⟨_, _, other, kept _ hung, fresh c' head⟩
      · rw [nodeAt_setNext_ne _ _ same] at located
        exact bushy _ found notRoot id located noData

theorem bushy_modifyAt {node found : IrsDictionaryNode α} {address : Address} (value : α)
    (located : node.nodeAt address = some found) (bushy : Bushy node fun at' => at' = address) :
    Bushy (node.modifyAt (pushBack value) address) fun _ => False := by
  intro at' other notRoot _ reached noData
  obtain ⟨before, first, -, data, slots⟩ := nodeAt_modifyAt value located reached
  by_cases same : at' = address
  · rw [if_pos same] at data
    rw [data] at noData
    cases noData
  · rw [if_neg same] at data
    exact (bushy at' before notRoot same first (data ▸ noData)).mono fun num => (slots num).mp

end IrsMachine
