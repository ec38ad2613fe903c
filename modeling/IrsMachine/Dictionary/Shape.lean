import IrsMachine.Dictionary.Lookup

/-!
# The shape of a tree

The keys determine the tree: its nodes are the stops of the keys. So two dictionaries with the
same keys give every string the same way down, whatever the order in which they were built.
-/

namespace IrsMachine
open IrsDictionaryNode Except Multimap Words

variable {α γ : Type} {toInt : UInt8 → UInt8} {ok : UInt8 → Prop} {size : UInt8}

/-- What a lookup can tell of a node, when `f` is all that it takes from the data list. -/
def view (f : List α → γ) (node : IrsDictionaryNode α) : Bytes × Nat × Nat × Option γ :=
  (node.label, node.offsetSize, node.next.length, node.dataList.map f)

def Alike (f : List α → γ) (first second : IrsDictionaryNode α) : Prop :=
  ∀ address, (first.nodeAt address).map (view f) = (second.nodeAt address).map (view f)

theorem exists_child_prefix {first second child : IrsDictionaryNode α} {num : Nat}
    (tidy : Tidy toInt ok size first) (bushy : Bushy first fun _ => False)
    (tidy' : Tidy toInt ok size second) (bushy' : Bushy second fun _ => False)
    (same : keys toInt first = keys toInt second) (stored : first.next[num]? = some (some child)) :
    ∃ child', second.next[num]? = some (some child') ∧ child'.label <+: child.label := by
  obtain ⟨b, back, label, rfl⟩ := (tidy.edge stored).first
  have stop := stop_label tidy bushy stored
  rw [same, ← descend_iff_stop tidy' bushy'] at stop
  obtain ⟨found, reached⟩ := Option.isSome_iff_exists.mp stop
  rw [label] at reached
  obtain ⟨child', rest, stored', split, -⟩ := descend_cons tidy' reached
  exact ⟨child', stored', by rw [label, split]; exact List.prefix_append _ _⟩

theorem exists_same_child {first second child : IrsDictionaryNode α} {num : Nat}
    (tidy : Tidy toInt ok size first) (bushy : Bushy first fun _ => False)
    (tidy' : Tidy toInt ok size second) (bushy' : Bushy second fun _ => False)
    (same : keys toInt first = keys toInt second) (stored : first.next[num]? = some (some child)) :
    ∃ child', second.next[num]? = some (some child') ∧ child'.label = child.label := by
  obtain ⟨child', stored', isPrefix⟩ := exists_child_prefix tidy bushy tidy' bushy' same stored
  obtain ⟨child'', stored'', isPrefix'⟩ :=
    exists_child_prefix tidy' bushy' tidy bushy same.symm stored'
  cases stored.symm.trans stored''
  exact ⟨child', stored', isPrefix.eq_of_length_le isPrefix'.length_le⟩

theorem keys_child {first second child child' : IrsDictionaryNode α} {num : Nat}
    (tidy : Tidy toInt ok size first) (tidy' : Tidy toInt ok size second)
    (same : keys toInt first = keys toInt second) (stored : first.next[num]? = some (some child))
    (stored' : second.next[num]? = some (some child')) (label : child'.label = child.label) :
    keys toInt child = keys toInt child' := by
  rw [← under_keys tidy stored, ← under_keys tidy' stored', same, label]

theorem getD_eq_nil {node : IrsDictionaryNode α} (tidy : Tidy toInt ok size node) :
    contents toInt node [] = [] ↔ node.dataList = none := by
  rw [contents_nil]
  cases data : node.dataList with
  | none => simp
  | some values =>
    simp only [Option.getD_some, reduceCtorEq, iff_false]
    rintro rfl
    exact tidy.stocked data

theorem alike_of_keys {f : List α → γ} {first second : IrsDictionaryNode α}
    (tidy : Tidy toInt ok size first) (bushy : Bushy first fun _ => False)
    (tidy' : Tidy toInt ok size second) (bushy' : Bushy second fun _ => False)
    (label : first.label = second.label) (exact : first.offsetSize = second.offsetSize)
    (same : keys toInt first = keys toInt second)
    (values : ∀ word, f (contents toInt first word) = f (contents toInt second word)) :
    Alike f first second := by
  intro address
  induction address generalizing first second with
  | nil =>
    have data : first.dataList.map f = second.dataList.map f := by
      have none : first.dataList = none ↔ second.dataList = none := by
        rw [← getD_eq_nil tidy, ← getD_eq_nil tidy', ← not_iff_not]
        exact Set.ext_iff.mp same []
      have here := values []
      rw [contents_nil, contents_nil] at here
      cases data : first.dataList with
      | none => rw [none.mp data]
      | some list =>
        cases data' : second.dataList with
        | none => rw [none.mpr data'] at data; cases data
        | some list' =>
          rw [data, data', Option.getD_some, Option.getD_some] at here
          rw [Option.map_some, Option.map_some, here]
    simp only [nodeAt, Option.map_some, view, label, exact, data, tidy.slots, tidy'.slots]
  | cons num address ih =>
    by_cases stored : ∃ child, first.next[num]? = some (some child)
    · obtain ⟨child, stored⟩ := stored
      obtain ⟨child', stored', labels⟩ := exists_same_child tidy bushy tidy' bushy' same stored
      rw [nodeAt_cons stored, nodeAt_cons stored']
      refine ih (tidy.child stored) (bushy.child stored).2 (tidy'.child stored')
        (bushy'.child stored').2 labels.symm ?_
        (keys_child tidy tidy' same stored stored' labels) fun word => ?_
      · rw [← (tidy.edge stored).exact, ← (tidy'.edge stored').exact, labels]
      · rw [← contents_append tidy stored, ← contents_append tidy' stored', labels]
        exact values _
    · have stored' : ¬∃ child', second.next[num]? = some (some child') := by
        rintro ⟨child', stored'⟩
        obtain ⟨child, here, -⟩ := exists_same_child tidy' bushy' tidy bushy same.symm stored'
        exact stored ⟨child, here⟩
      have none : ∀ node : IrsDictionaryNode α, (¬∃ child, node.next[num]? = some (some child)) →
          node.nodeAt (num :: address) = none := by
        intro node absent
        unfold nodeAt
        split
        · rename_i child here
          exact absurd ⟨child, here⟩ absent
        · rfl
      rw [none first stored, none second stored']

/-! ### The same way down -/

theorem Alike.here {f : List α → γ} {first second : IrsDictionaryNode α}
    (alike : Alike f first second) :
    view f first = view f second := by
  have := alike []
  simpa only [nodeAt, Option.map_some, Option.some.injEq] using this

theorem Alike.symm {f : List α → γ} {first second : IrsDictionaryNode α}
    (alike : Alike f first second) : Alike f second first :=
  fun address => (alike address).symm

theorem Alike.child {f : List α → γ} {first second child : IrsDictionaryNode α} {num : Nat}
    (alike : Alike f first second) (stored : first.next[num]? = some (some child)) :
    ∃ child', second.next[num]? = some (some child') ∧ Alike f child child' := by
  have here := alike [num]
  rw [nodeAt_cons stored, nodeAt, Option.map_some] at here
  obtain ⟨found, located, -⟩ := Option.map_eq_some_iff.mp here.symm
  obtain ⟨child', stored', -⟩ := nodeAt_stored located
  refine ⟨child', stored', fun address => ?_⟩
  have below := alike (num :: address)
  rwa [nodeAt_cons stored, nodeAt_cons stored'] at below

theorem Alike.slot {f : List α → γ} {first second : IrsDictionaryNode α}
    (alike : Alike f first second) (num : Nat) :
    (first.next[num]? = none ∧ second.next[num]? = none) ∨
      (first.next[num]? = some none ∧ second.next[num]? = some none) ∨
      ∃ child child', first.next[num]? = some (some child) ∧
        second.next[num]? = some (some child') ∧ Alike f child child' := by
  have lengths : first.next.length = second.next.length :=
    congrArg (fun seen => seen.2.2.1) alike.here
  cases stored : first.next[num]? with
  | none =>
    rw [List.getElem?_eq_none_iff, lengths, ← List.getElem?_eq_none_iff] at stored
    exact Or.inl ⟨rfl, stored⟩
  | some slot =>
    cases slot with
    | none =>
      cases stored' : second.next[num]? with
      | none =>
        rw [List.getElem?_eq_none_iff, ← lengths, ← List.getElem?_eq_none_iff, stored] at stored'
        cases stored'
      | some slot' =>
        cases slot' with
        | none => exact Or.inr (Or.inl ⟨rfl, rfl⟩)
        | some child' =>
          obtain ⟨child, here, -⟩ := alike.symm.child stored'
          rw [stored] at here
          cases here
    | some child =>
      obtain ⟨child', stored', below⟩ := alike.child stored
      exact Or.inr (Or.inr ⟨child, child', rfl, stored', below⟩)

def SameEnd (f : List α → γ) : Except Fault (IrsDictionaryNode α × Nat) →
    Except Fault (IrsDictionaryNode α × Nat) → Prop
  | .ok (last, i), .ok (last', i') => Alike f last last' ∧ i = i'
  | .error fault, .error fault' => fault = fault'
  | _, _ => False

theorem prefixLoop_alike {f : List α → γ} {dictionary dictionary' : IrsDictionary α}
    {irsString : Bytes} {n fuel i : Nat} {node node' : IrsDictionaryNode α}
    (mapped : dictionary.irsCharToIrsInt = dictionary'.irsCharToIrsInt)
    (alike : Alike f node node') :
    SameEnd f (prefixLoop dictionary irsString n fuel node i)
      (prefixLoop dictionary' irsString n fuel node' i) := by
  induction fuel generalizing node node' i with
  | zero =>
    unfold prefixLoop
    split
    · cases irsString[i]? <;> rfl
    · exact ⟨alike, rfl⟩
  | succ fuel ih =>
    by_cases goesOn : i < n
    · cases read : irsString[i]? with
      | none =>
        unfold prefixLoop
        rw [if_pos goesOn, if_pos goesOn, read]
        rfl
      | some ch =>
        rcases alike.slot (dictionary.irsCharToIrsInt ch).toNat with
          ⟨none, none'⟩ | ⟨empty, empty'⟩ | ⟨child, child', stored, stored', below⟩
        · unfold prefixLoop
          rw [if_pos goesOn, if_pos goesOn, read]
          simp only [irsDictionaryGetNextNode, none, ← mapped, none', error_bind]
          rfl
        · rw [prefixLoop_step goesOn read empty, prefixLoop_step goesOn read (mapped ▸ empty')]
          exact ⟨alike, rfl⟩
        · rw [prefixLoop_step goesOn read stored, prefixLoop_step goesOn read (mapped ▸ stored'),
            Option.elim_some, Option.elim_some, show child.offsetSize =
            child'.offsetSize from congrArg (fun seen => seen.2.1) below.here]
          exact ih below
    · rw [prefixLoop_end (by omega), prefixLoop_end (by omega)]
      exact ⟨alike, rfl⟩

theorem get_alike {f : List α → γ} {dictionary dictionary' : IrsDictionary α} (irsString : Bytes)
    (mapped : dictionary.irsCharToIrsInt = dictionary'.irsCharToIrsInt)
    (alike : Alike f dictionary.root dictionary'.root) :
    (irsDictionaryGet dictionary irsString).map (Option.map f) =
      (irsDictionaryGet dictionary' irsString).map (Option.map f) := by
  have loops := @prefixLoop_alike α γ f dictionary dictionary' irsString
    (UInt32.ofNat (irsStrLen irsString)).toNat
    (UInt32.ofNat (irsStrLen irsString)).toNat 0 _ _ mapped alike
  simp only [irsDictionaryGet, irsDictionaryGetLastNodeFromNode]
  cases run : prefixLoop dictionary irsString (UInt32.ofNat (irsStrLen irsString)).toNat
      (UInt32.ofNat (irsStrLen irsString)).toNat dictionary.root 0 with
  | error fault =>
    cases run' : prefixLoop dictionary' irsString (UInt32.ofNat (irsStrLen irsString)).toNat
        (UInt32.ofNat (irsStrLen irsString)).toNat dictionary'.root 0 with
    | error fault' =>
      rw [run, run'] at loops
      rw [show fault = fault' from loops]
    | ok result => rw [run, run'] at loops; exact loops.elim
  | ok result =>
    cases run' : prefixLoop dictionary' irsString (UInt32.ofNat (irsStrLen irsString)).toNat
        (UInt32.ofNat (irsStrLen irsString)).toNat dictionary'.root 0 with
    | error fault' => rw [run, run'] at loops; exact loops.elim
    | ok result' =>
      rw [run, run'] at loops
      obtain ⟨last, i⟩ := result
      obtain ⟨last', i'⟩ := result'
      obtain ⟨below, rfl⟩ := loops
      have label : last.label = last'.label := congrArg Prod.fst below.here
      have exact : last.offsetSize = last'.offsetSize := congrArg (fun seen => seen.2.1) below.here
      have data : last.dataList.map f = last'.dataList.map f :=
        congrArg (fun seen => seen.2.2.2) below.here
      simp only [ok_bind, label, exact]
      split
      · simpa only [ok_bind, Option.bind_some, Except.map, Except.ok.injEq] using data
      · rfl

end IrsMachine
