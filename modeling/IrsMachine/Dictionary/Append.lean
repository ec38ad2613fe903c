import IrsMachine.Dictionary.Model
import IrsMachine.Library.Except

/-!
# One iteration of an append

`appendIteration_ok` says all that an iteration of the append loop can do to a tidy node:
store a leaf, enter a child whose whole label matches, or split the child's edge where the
label stops matching.
-/

namespace IrsMachine
open IrsDictionaryNode Except

variable {α : Type} {toInt : UInt8 → UInt8} {ok : UInt8 → Prop} {size : UInt8}

/-! ### The comparison loop -/

theorem matchLength_le_size (offset : Bytes) (n : Nat) (rest : Bytes) :
    matchLength offset n rest ≤ n := by
  fun_induction matchLength with
  | case1 => omega
  | case2 => omega
  | case3 => omega

theorem matchLength_matched (offset : Bytes) (n : Nat) (rest : Bytes) :
    (offset.take (matchLength offset n rest)).map tolower =
      (rest.take (matchLength offset n rest)).map tolower := by
  fun_induction matchLength with
  | case1 ch offset n c rest same ih => simp [same, ih]
  | case2 => rfl
  | case3 => rfl

theorem matchLength_differs {offset rest : Bytes} {n : Nat} {ch c : UInt8}
    (inside : matchLength offset n rest < n) (first : offset[matchLength offset n rest]? = some ch)
    (second : rest[matchLength offset n rest]? = some c) :
    tolower ch ≠ tolower c := by
  fun_induction matchLength with
  | case1 ch' offset n c' rest same ih =>
    exact ih (by omega) (by simpa using first) (by simpa using second)
  | case2 ch' offset n c' rest different => simp_all
  | case3 offset n rest impossible =>
    cases offset with
    | nil => simp at first
    | cons ch' offset =>
      cases rest with
      | nil => simp at second
      | cons c' rest =>
        obtain ⟨m, rfl⟩ : ∃ m, n = m + 1 := ⟨n - 1, by omega⟩
        exact (impossible _ _ _ _ _ rfl rfl rfl).elim

theorem matchLength_pos {ch : UInt8} {offset rest : Bytes} {n : Nat} (positive : 0 < n) :
    0 < matchLength (ch :: offset) n (ch :: rest) := by
  obtain ⟨m, rfl⟩ : ∃ m, n = m + 1 := ⟨n - 1, by omega⟩
  simp [matchLength]

/-! ### Tidy trees -/

/-- What is kept of the child at index `num`: its label is not empty, has exactly
`offsetSize` bytes, all of them admitted, and begins with the byte of that index. -/
structure Edge (toInt : UInt8 → UInt8) (ok : UInt8 → Prop) (num : Nat)
    (child : IrsDictionaryNode α) : Prop where
  first : ∃ b back, child.label = b :: back ∧ (toInt b).toNat = num
  exact : child.label.length = child.offsetSize
  bytes : ∀ b ∈ child.label, ok b

/-- All arrays have `size` slots, no data list is empty, and every edge is in order. -/
inductive Tidy (toInt : UInt8 → UInt8) (ok : UInt8 → Prop) (size : UInt8) : IrsDictionaryNode α →
    Prop where
  | intro {node : IrsDictionaryNode α} (slots : node.next.length = size.toNat)
    (stocked : node.dataList ≠ some [])
      (edges : ∀ (num : Nat) (child : IrsDictionaryNode α), node.next[num]? = some (some child) →
        Edge toInt ok num child)
      (below : ∀ (num : Nat) (child : IrsDictionaryNode α), node.next[num]? = some (some child) →
        Tidy toInt ok size child) :
      Tidy toInt ok size node

namespace Tidy
variable {node : IrsDictionaryNode α}

theorem slots (tidy : Tidy toInt ok size node) : node.next.length = size.toNat := by
  cases tidy; assumption

theorem stocked (tidy : Tidy toInt ok size node) : node.dataList ≠ some [] := by
  cases tidy; assumption

theorem edge (tidy : Tidy toInt ok size node) {num : Nat} {child : IrsDictionaryNode α}
    (stored : node.next[num]? = some (some child)) : Edge toInt ok num child := by
  cases tidy with
  | intro _ _ edges _ => exact edges num child stored

theorem child (tidy : Tidy toInt ok size node) {num : Nat} {child : IrsDictionaryNode α}
    (stored : node.next[num]? = some (some child)) : Tidy toInt ok size child := by
  cases tidy with
  | intro _ _ _ below => exact below num child stored

end Tidy

theorem Edge.nonempty {num : Nat} {child : IrsDictionaryNode α} (edge : Edge toInt ok num child) :
    child.label ≠ [] := by
  obtain ⟨b, back, label, _⟩ := edge.first
  simp [label]

theorem Edge.head {c : UInt8} {child : IrsDictionaryNode α} (injective : Function.Injective toInt)
    (edge : Edge toInt ok (toInt c).toNat child) : ∃ back, child.label = c :: back := by
  obtain ⟨b, back, label, index⟩ := edge.first
  exact ⟨back, by rw [label, injective (UInt8.toNat_inj.mp index)]⟩

theorem tidy_freshNode :
    Tidy toInt ok size (irsDictionaryNodeInitialize size : IrsDictionaryNode α) := by
  refine .intro (by simp [irsDictionaryNodeInitialize])
    (by simp [irsDictionaryNodeInitialize]) ?_ ?_
  all_goals
    intro num child stored
    simp [irsDictionaryNodeInitialize, List.getElem?_replicate] at stored

theorem getElem?_setNext (node : IrsDictionaryNode α) (num : Nat) (child : IrsDictionaryNode α)
    (m : Nat) :
    (node.setNext num child).next[m]? = if num = m ∧
    m < node.next.length then some (some child) else node.next[m]? := by
  simp only [setNext, List.getElem?_set]
  by_cases same : num = m
  · subst same
    by_cases inside : num < node.next.length <;> simp [inside]
  · simp [same]

@[simp] theorem setNext_length (node : IrsDictionaryNode α) (num : Nat)
    (child : IrsDictionaryNode α) :
    (node.setNext num child).next.length = node.next.length := by simp [setNext]

theorem tidy_setNext {node child : IrsDictionaryNode α} {num : Nat} (tidy : Tidy toInt ok size node)
    (edge : Edge toInt ok num child) (below : Tidy toInt ok size child) :
    Tidy toInt ok size (node.setNext num child) := by
  refine .intro (by simpa using tidy.slots) tidy.stocked ?_ ?_
  all_goals
    intro m other stored
    rw [getElem?_setNext] at stored
    split at stored
  · rename_i here
    obtain ⟨rfl, -⟩ := here
    cases stored
    exact edge
  · exact tidy.edge stored
  · cases stored
    exact below
  · exact tidy.child stored

/-- A slot holds a child, or there is none to be found. -/
theorem absent_or_stored (node : IrsDictionaryNode α) (num : Nat) :
    (∀ child, node.next[num]? ≠ some (some child)) ∨
      ∃ child, node.next[num]? = some (some child) := by
  by_cases stored : ∃ child, node.next[num]? = some (some child)
  · exact .inr stored
  · exact .inl (not_exists.mp stored)

/-! ### The three outcomes -/

theorem leafNode_label (size : UInt8) (rest : Bytes) :
    (leafNode size rest : IrsDictionaryNode α).label = rest := by
  simp [leafNode, label]

theorem edge_leafNode {c : UInt8} {cs : Bytes} (bytes : ∀ b ∈ c :: cs, ok b) :
    Edge toInt ok (toInt c).toNat (leafNode size (c :: cs) : IrsDictionaryNode α) :=
  ⟨⟨c, cs, leafNode_label _ _, rfl⟩, by rw [leafNode_label]; rfl, by rwa [leafNode_label]⟩

theorem tidy_leafNode (rest : Bytes) :
    Tidy toInt ok size (leafNode size rest : IrsDictionaryNode α) := by
  cases @tidy_freshNode α toInt ok size with
  | intro slots stocked edges below => exact .intro slots stocked edges below

/-- `child` stands for `old` with its edge split after `front`: below it hangs the old node
with the rest of its label. -/
structure SplitOf (toInt : UInt8 → UInt8) (size : UInt8) (old child : IrsDictionaryNode α)
    (front : Bytes) (b : UInt8) (back : Bytes) : Prop where
  oldLabel : old.label = front ++ b :: back
  label : child.label = front
  exact : child.offsetSize = front.length
  dataList : child.dataList = none
  inBounds : (toInt b).toNat < size.toNat
  hang : ∃ hang : IrsDictionaryNode α,
    child = (prefixNode size (child.offset.getD []) front.length).setNext (toInt b).toNat hang ∧
    hang.label = b :: back ∧ hang.offsetSize = back.length + 1 ∧ hang.next = old.next ∧
    hang.dataList = old.dataList

inductive Entered (toInt : UInt8 → UInt8) (size : UInt8) (old : IrsDictionaryNode α)
    (rest : Bytes) :
    IrsDictionaryNode α → Prop where
  | whole : Entered toInt size old rest old
  | split {child : IrsDictionaryNode α} {front : Bytes} {b : UInt8} {back : Bytes}
      (splitOf : SplitOf toInt size old child front b back)
      (differs : ∀ c, rest[front.length]? = some c → tolower b ≠ tolower c) :
      Entered toInt size old rest child

theorem hangNode_label {moving : IrsDictionaryNode α} {offset : Bytes} (j : Nat)
    (buffer : moving.offset = some offset) :
    (hangNode moving offset j).label = moving.label.drop j := by
  simp [hangNode, label, buffer, List.drop_take, List.take_take]

theorem splitOf_setNext {moving : IrsDictionaryNode α} {offset : Bytes} {ch : UInt8} {j : Nat}
    (buffer : moving.offset = some offset) (exact : moving.label.length = moving.offsetSize)
    (inside : j < moving.offsetSize) (read : offset[j]? = some ch)
    (inBounds : (toInt ch).toNat < size.toNat) :
    SplitOf toInt size moving
      ((prefixNode size offset j).setNext (toInt ch).toNat (hangNode moving offset j))
      (moving.label.take j) ch (moving.label.drop (j + 1)) := by
  have labelRead : moving.label[j]? = some ch := by
    simpa [label, buffer, List.getElem?_take, inside] using read
  have dropped : moving.label.drop j = ch :: moving.label.drop (j + 1) := by
    obtain ⟨bound, rfl⟩ := List.getElem?_eq_some_iff.mp labelRead
    exact List.drop_eq_getElem_cons bound
  have fits : j ≤ moving.label.length := by omega
  have fitsOffset : j < offset.length := (List.getElem?_eq_some_iff.mp read).1
  refine ⟨by rw [← dropped, List.take_append_drop], ?_, ?_, rfl, inBounds, ?_⟩
  · simp [label, prefixNode, setNext, buffer, List.take_take, Nat.min_eq_left (Nat.le_of_lt inside)]
  · simp [prefixNode, setNext, Nat.min_eq_left fits]
  · refine ⟨hangNode moving offset j, ?_, ?_, ?_, rfl, rfl⟩
    · simp [prefixNode, setNext, Nat.min_eq_left fits]
    · rw [hangNode_label j buffer, dropped]
    · simp only [hangNode, List.length_drop]
      omega

/-- What an iteration does at a tidy node. -/
theorem appendIteration_ok {node : IrsDictionaryNode α} {c : UInt8} {cs : Bytes}
    {iteration : Iteration α} (injective : Function.Injective toInt)
    (tidy : Tidy toInt ok size node) (run : appendIteration toInt size node c cs = .ok iteration) :
    (node.next[(toInt c).toNat]? = some none ∧
      iteration = .leaf (toInt c).toNat (leafNode size (c :: cs))) ∨
    ∃ old child, node.next[(toInt c).toNat]? = some (some old) ∧
      iteration = .enter (toInt c).toNat child child.label.length ∧
      Entered toInt size old (c :: cs) child ∧
      child.label ≠ [] ∧ child.label.map tolower =
        ((c :: cs).take child.label.length).map tolower := by
  simp only [appendIteration] at run
  split at run
  · cases run
  · rename_i empty
    cases run
    exact Or.inl ⟨empty, rfl⟩
  · rename_i old stored
    have edge := tidy.edge stored
    obtain ⟨back, head⟩ := edge.head injective
    have exact := edge.exact
    right
    cases buffer : old.offset with
    | none => simp [label, buffer] at head
    | some offset =>
      have labelEq : old.label = offset.take old.offsetSize := by simp [label, buffer]
      have positive : 0 < old.offsetSize := by rw [← exact, head]; simp
      obtain ⟨offset', rfl⟩ : ∃ offset', offset = c :: offset' := by
        cases offset with
        | nil => simp [labelEq] at head
        | cons ch offset =>
          obtain ⟨n, size_eq⟩ : ∃ n, old.offsetSize = n + 1 := ⟨old.offsetSize - 1, by omega⟩
          rw [labelEq, size_eq, List.take_succ_cons] at head
          exact ⟨offset, by rw [(List.cons.inj head).1]⟩
      simp only [buffer] at run
      generalize hj : matchLength (c :: offset') old.offsetSize (c :: cs) = j at run
      have matched := matchLength_matched (c :: offset') old.offsetSize (c :: cs)
      have jPositive : 0 < j := hj ▸ matchLength_pos positive
      have jSize : j ≤ old.offsetSize := hj ▸ matchLength_le_size _ _ _
      rw [hj] at matched
      by_cases whole : j = old.offsetSize
      · rw [if_pos whole] at run
        cases run
        refine ⟨old, old, stored, by rw [whole, exact], .whole, edge.nonempty, ?_⟩
        rw [exact, ← whole, labelEq, ← whole]
        exact matched
      · rw [if_neg whole] at run
        have inside : j < old.offsetSize := by omega
        split at run
        · cases run
        · rename_i ch read
          split at run
          · rename_i bound
            have inBounds : (toInt ch).toNat < size.toNat := by
              simpa [prefixNode, irsDictionaryNodeInitialize] using bound
            have splitOf := splitOf_setNext buffer exact inside read inBounds
            have frontLength : (old.label.take j).length = j := by
              rw [List.length_take, exact]; omega
            cases run
            refine ⟨old, _, stored, ?_, .split splitOf ?_, ?_, ?_⟩
            · rw [splitOf.label, frontLength]
            · intro other second
              rw [frontLength] at second
              rw [← hj] at read second inside
              exact matchLength_differs inside read second
            · rw [splitOf.label]
              exact fun none => by rw [none] at frontLength; simp at frontLength; omega
            · rw [splitOf.label, frontLength, labelEq, List.take_take, Nat.min_eq_left jSize]
              exact matched
          · cases run

/-! ### The loop -/

theorem tidy_entered {old child : IrsDictionaryNode α} {rest : Bytes} {num : Nat}
    (edge : Edge toInt ok num old) (below : Tidy toInt ok size old)
    (entered : Entered toInt size old rest child) (nonempty : child.label ≠ []) :
    Edge toInt ok num child ∧ Tidy toInt ok size child := by
  cases entered with
  | whole => exact ⟨edge, below⟩
  | @split _ front b back splitOf =>
    obtain ⟨first, tail, label, index⟩ := edge.first
    rw [splitOf.label] at nonempty
    obtain ⟨front', rfl⟩ : ∃ front', front = first :: front' := by
      cases front with
      | nil => exact absurd rfl nonempty
      | cons ch front' =>
        rw [splitOf.oldLabel] at label
        exact ⟨front', by rw [(List.cons.inj label).1]⟩
    have bytes := edge.bytes
    rw [splitOf.oldLabel] at bytes
    refine ⟨⟨⟨first, front', splitOf.label, index⟩, by rw [splitOf.label, splitOf.exact],
      fun ch member => bytes ch (List.mem_append_left _ (splitOf.label ▸ member))⟩, ?_⟩
    obtain ⟨hang, child_eq, hangLabel, hangSize, hangNext, hangData⟩ := splitOf.hang
    have blank : Tidy toInt ok size
        (prefixNode size (child.offset.getD []) (first :: front').length :
          IrsDictionaryNode α) := by
      cases @tidy_freshNode α toInt ok size with
      | intro slots stocked edges below => exact .intro slots stocked edges below
    rw [child_eq]
    refine tidy_setNext blank ⟨⟨b, back, hangLabel, rfl⟩, by rw [hangLabel, hangSize]; rfl,
      fun ch member => bytes ch (List.mem_append_right _ (hangLabel ▸ member))⟩ ?_
    refine .intro (by rw [hangNext]; exact below.slots)
      (by rw [hangData]; exact below.stocked) ?_ ?_
    · intro m other stored
      rw [hangNext] at stored
      exact below.edge stored
    · intro m other stored
      rw [hangNext] at stored
      exact below.child stored

/-- Induction along a run of the append loop through a tidy tree. -/
theorem appendLoop_rule {motive : IrsDictionaryNode α → Bytes → IrsDictionaryNode α → Address →
      Prop}
    (injective : Function.Injective toInt)
    (done : ∀ node, Tidy toInt ok size node → motive node [] node [])
    (leaf : ∀ node c cs, Tidy toInt ok size node → node.next[(toInt c).toNat]? = some none →
      (∀ b ∈ c :: cs, ok b) →
      motive node (c :: cs) (node.setNext (toInt c).toNat (leafNode size (c :: cs)))
        [(toInt c).toNat]) (enter : ∀ fuel node c cs old child child' address,
          Tidy toInt ok size node →
      node.next[(toInt c).toNat]? = some (some old) → Entered toInt size old (c :: cs) child →
      Edge toInt ok (toInt c).toNat child → Tidy toInt ok size child →
      child.label.map tolower = ((c :: cs).take child.label.length).map tolower →
      (∀ b ∈ (c :: cs).drop child.label.length, ok b) →
      appendLoop toInt size fuel child ((c :: cs).drop child.label.length) = .ok (child', address) →
      motive child ((c :: cs).drop child.label.length) child' address →
      motive node (c :: cs) (node.setNext (toInt c).toNat child') ((toInt c).toNat :: address))
    {fuel : Nat} {node node' : IrsDictionaryNode α} {rest : Bytes} {address : Address}
    (tidy : Tidy toInt ok size node) (bytes : ∀ b ∈ rest, ok b)
    (run : appendLoop toInt size fuel node rest = .ok (node', address)) :
    motive node rest node' address := by
  induction fuel generalizing node node' rest address with
  | zero =>
    cases rest with
    | nil => cases run; exact done node tidy
    | cons c cs => simp [appendLoop] at run
  | succ fuel ih =>
    cases rest with
    | nil => cases run; exact done node tidy
    | cons c cs =>
      unfold appendLoop at run
      obtain ⟨iteration, step, run⟩ := bind_ok.mp run
      rcases appendIteration_ok injective tidy step with
        ⟨empty, rfl⟩ | ⟨old, child, stored, rfl, entered, nonempty, matched⟩
      · cases run
        exact leaf node c cs tidy empty bytes
      · obtain ⟨⟨child', address'⟩, below, run⟩ := bind_ok.mp run
        cases run
        obtain ⟨edge, childTidy⟩ :=
          tidy_entered (tidy.edge stored) (tidy.child stored) entered nonempty
        have dropped : ∀ b ∈ (c :: cs).drop child.label.length, ok b :=
          fun b member => bytes b (List.mem_of_mem_drop member)
        exact enter fuel node c cs old child child' address' tidy stored entered edge childTidy
          matched dropped below
          (ih childTidy dropped below)

theorem appendLoop_tidy {fuel : Nat} {node node' : IrsDictionaryNode α} {rest : Bytes}
    {address : Address} (injective : Function.Injective toInt) (tidy : Tidy toInt ok size node)
    (bytes : ∀ b ∈ rest, ok b) (run : appendLoop toInt size fuel node rest = .ok (node', address)) :
    Tidy toInt ok size node' ∧ node'.label = node.label ∧ node'.offsetSize = node.offsetSize ∧
      node'.dataList = node.dataList := by
  refine appendLoop_rule (motive := fun node _ node' _ => Tidy toInt ok size node' ∧
    node'.label = node.label ∧
    node'.offsetSize = node.offsetSize ∧ node'.dataList = node.dataList) injective ?_ ?_ ?_
      tidy bytes run
  · intro node tidy
    exact ⟨tidy, rfl, rfl, rfl⟩
  · intro node c cs tidy _ bytes
    exact ⟨tidy_setNext tidy (edge_leafNode bytes) (tidy_leafNode _), rfl, rfl, rfl⟩
  · rintro _ node c cs old child child' address tidy _ _ edge _ _ _ _ ⟨below, label, exact, _⟩
    exact ⟨tidy_setNext tidy
      ⟨by rw [label]; exact edge.first, by rw [label, exact]; exact edge.exact,
      by rw [label]; exact edge.bytes⟩ below, rfl, rfl, rfl⟩

end IrsMachine
