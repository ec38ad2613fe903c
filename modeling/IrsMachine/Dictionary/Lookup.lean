import IrsMachine.Dictionary.Run

/-!
# Looking up

The lookup goes down by the first character of each edge, skips the rest of the edge and
compares the last edge only. `lookup_iff`: what it finds is a node whose word agrees with the
string where it was compared. A word that is stored passes, so it is found; whatever else
passes is taken for it.
-/

namespace IrsMachine
open IrsDictionaryNode Except Multimap Words

variable {α : Type} {toInt : UInt8 → UInt8} {ok : UInt8 → Prop} {size : UInt8}

inductive Walk (toInt : UInt8 → UInt8) : IrsDictionaryNode α → Bytes → IrsDictionaryNode α →
    Prop where
  | done {node : IrsDictionaryNode α} : Walk toInt node [] node
  | step {node child last : IrsDictionaryNode α} {c : UInt8} {cs : Bytes}
      (stored : node.next[(toInt c).toNat]? = some (some child))
      (fits : child.offsetSize ≤ cs.length + 1)
      (below : Walk toInt child ((c :: cs).drop child.offsetSize) last) :
      Walk toInt node (c :: cs) last

theorem walk_nil {node last : IrsDictionaryNode α} : Walk toInt node [] last ↔ last = node :=
  ⟨fun walk => by cases walk; rfl, fun same => same ▸ .done⟩

theorem walk_cons {node child last : IrsDictionaryNode α} {c : UInt8} {cs : Bytes}
    (stored : node.next[(toInt c).toNat]? = some (some child)) :
    Walk toInt node (c :: cs) last ↔
      child.offsetSize ≤ cs.length + 1 ∧
      Walk toInt child ((c :: cs).drop child.offsetSize) last := by
  constructor
  · intro walk
    cases walk with
    | step stored' fits below =>
      cases stored.symm.trans stored'
      exact ⟨fits, below⟩
  · rintro ⟨fits, below⟩
    exact .step stored fits below

theorem prefixLoop_end {dictionary : IrsDictionary α} {irsString : Bytes} {n fuel i : Nat}
    {node : IrsDictionaryNode α} (ended : n ≤ i) :
    prefixLoop dictionary irsString n fuel node i = .ok (node, i) := by
  unfold prefixLoop
  rw [if_neg (by omega)]

theorem prefixLoop_step {dictionary : IrsDictionary α} {irsString : Bytes} {n fuel i : Nat}
    {node : IrsDictionaryNode α} {ch : UInt8} {slot : Option (IrsDictionaryNode α)} (goesOn : i < n)
    (read : irsString[i]? = some ch)
    (stored : node.next[(dictionary.irsCharToIrsInt ch).toNat]? = some slot) :
    prefixLoop dictionary irsString n (fuel + 1) node i =
      slot.elim (.ok (node, i)) fun next =>
        prefixLoop dictionary irsString n fuel next (i + next.offsetSize) := by
  conv_lhs => unfold prefixLoop
  rw [if_pos goesOn]
  simp only [read, irsDictionaryGetNextNode, stored, ok_bind]
  cases slot <;> rfl

theorem prefixLoop_fault {dictionary : IrsDictionary α} {irsString : Bytes} {n fuel i : Nat}
    {node : IrsDictionaryNode α} {ch : UInt8} (goesOn : i < n) (read : irsString[i]? = some ch)
    (outside : node.next[(dictionary.irsCharToIrsInt ch).toNat]? = none) :
    prefixLoop dictionary irsString n (fuel + 1) node i = .error .outOfBounds := by
  unfold prefixLoop
  rw [if_pos goesOn]
  simp only [read, irsDictionaryGetNextNode, outside]
  rfl

theorem drop_take_cons {irsString : Bytes} {n i : Nat} (inside : n ≤ irsString.length)
    (goesOn : i < n) :
    ∃ ch, irsString[i]? = some ch ∧
      (irsString.take n).drop i = ch :: (irsString.take n).drop (i + 1) := by
  refine ⟨irsString[i], List.getElem?_eq_getElem (by omega), ?_⟩
  rw [List.drop_eq_getElem_cons (by rw [List.length_take]; omega), List.getElem_take]

theorem drop_take_nil {irsString : Bytes} {n i : Nat} (ended : n ≤ i) :
    (irsString.take n).drop i = [] :=
  List.drop_eq_nil_of_le (by rw [List.length_take]; omega)

/-- A loop that returns has reached the end of the string exactly along a walk. -/
theorem prefixLoop_walk {dictionary : IrsDictionary α} {irsString : Bytes} {n fuel i i' : Nat}
    {node last : IrsDictionaryNode α} (mapped : dictionary.irsCharToIrsInt = toInt)
    (tidy : Tidy toInt ok size node) (inside : n ≤ irsString.length) (enough : n ≤ i + fuel)
    (run : prefixLoop dictionary irsString n fuel node i = .ok (last, i')) :
    ∀ found, last = found ∧ i' = n ↔ i ≤ n ∧ Walk toInt node ((irsString.take n).drop i) found := by
  induction fuel generalizing node i with
  | zero =>
    rw [prefixLoop_end (by omega)] at run
    cases run
    intro found
    rw [drop_take_nil (by omega), walk_nil]
    exact ⟨fun ⟨same, last⟩ => ⟨by omega, same.symm⟩, fun ⟨last, same⟩ => ⟨same.symm, by omega⟩⟩
  | succ fuel ih =>
    by_cases goesOn : i < n
    · obtain ⟨ch, read, split⟩ := drop_take_cons inside goesOn
      rw [split]
      cases stored : node.next[(toInt ch).toNat]? with
      | none =>
        rw [prefixLoop_fault goesOn read (mapped ▸ stored)] at run
        cases run
      | some slot =>
        rw [prefixLoop_step goesOn read (mapped ▸ stored)] at run
        cases slot with
        | none =>
          cases run
          refine fun found => ⟨fun ⟨_, last⟩ => absurd last (by omega), fun ⟨_, walk⟩ => ?_⟩
          cases walk with
          | step stored' => rw [stored] at stored'; cases stored'
        | some child =>
          have edge := tidy.edge stored
          have positive := List.length_pos_iff.mpr edge.nonempty
          rw [edge.exact] at positive
          have reached := ih (i := i + child.offsetSize) (tidy.child stored) (by omega) run
          intro found
          rw [reached, walk_cons stored, ← split, List.drop_drop, List.length_drop,
            List.length_take]
          exact ⟨fun ⟨fits, walk⟩ => ⟨by omega, by omega, walk⟩,
            fun ⟨_, fits, walk⟩ => ⟨by omega, walk⟩⟩
    · rw [prefixLoop_end (by omega)] at run
      cases run
      intro found
      rw [drop_take_nil (by omega), walk_nil]
      exact ⟨fun ⟨same, last⟩ => ⟨by omega, same.symm⟩, fun ⟨last, same⟩ => ⟨same.symm, by omega⟩⟩

/-! ### Which children are chosen -/

/-- The lookup of the string chooses a child by the byte `b`. -/
inductive Chooses (toInt : UInt8 → UInt8) : IrsDictionaryNode α → Bytes → UInt8 → Prop where
  | here {node : IrsDictionaryNode α} {c : UInt8} {cs : Bytes} : Chooses toInt node (c :: cs) c
  | onward {node child : IrsDictionaryNode α} {c b : UInt8} {cs : Bytes}
      (stored : node.next[(toInt c).toNat]? = some (some child))
      (rest : Chooses toInt child ((c :: cs).drop child.offsetSize) b) :
      Chooses toInt node (c :: cs) b

theorem not_chooses_nil {node : IrsDictionaryNode α} {b : UInt8} : ¬Chooses toInt node [] b :=
  fun chooses => by cases chooses

theorem chooses_empty {node : IrsDictionaryNode α} {c b : UInt8} {cs : Bytes}
    (empty : ∀ child, node.next[(toInt c).toNat]? ≠ some (some child)) :
    Chooses toInt node (c :: cs) b ↔ b = c := by
  constructor
  · intro chooses
    cases chooses with
    | here => rfl
    | onward stored => exact absurd stored (empty _)
  · rintro rfl
    exact .here

theorem chooses_stored {node child : IrsDictionaryNode α} {c b : UInt8} {cs : Bytes}
    (stored : node.next[(toInt c).toNat]? = some (some child)) :
    Chooses toInt node (c :: cs) b ↔
      b = c ∨ Chooses toInt child ((c :: cs).drop child.offsetSize) b := by
  constructor
  · intro chooses
    cases chooses with
    | here => exact .inl rfl
    | onward stored' onward =>
      cases stored.symm.trans stored'
      exact .inr onward
  · rintro (rfl | onward)
    · exact .here
    · exact .onward stored onward

/-- The loop returns as long as each byte that chooses a child has its slot. -/
theorem prefixLoop_ok_iff {dictionary : IrsDictionary α} {irsString : Bytes} {n fuel i : Nat}
    {node : IrsDictionaryNode α} (mapped : dictionary.irsCharToIrsInt = toInt)
    (tidy : Tidy toInt ok size node) (inside : n ≤ irsString.length) (enough : n ≤ i + fuel) :
    (∃ result, prefixLoop dictionary irsString n fuel node i = .ok result) ↔
      ∀ b, Chooses toInt node ((irsString.take n).drop i) b → (toInt b).toNat < size.toNat := by
  induction fuel generalizing node i with
  | zero =>
    rw [prefixLoop_end (by omega), drop_take_nil (by omega)]
    exact iff_of_true ⟨_, rfl⟩ fun b chooses => absurd chooses not_chooses_nil
  | succ fuel ih =>
    by_cases goesOn : i < n
    · obtain ⟨ch, read, split⟩ := drop_take_cons inside goesOn
      rw [split]
      cases stored : node.next[(toInt ch).toNat]? with
      | none =>
        rw [prefixLoop_fault goesOn read (mapped ▸ stored)]
        refine iff_of_false (fun ⟨_, run⟩ => by cases run) fun all => ?_
        have here := all ch .here
        have outside := List.getElem?_eq_none_iff.mp stored
        rw [tidy.slots] at outside
        omega
      | some slot =>
        have bound := (List.getElem?_eq_some_iff.mp stored).1
        rw [tidy.slots] at bound
        rw [prefixLoop_step goesOn read (mapped ▸ stored)]
        cases slot with
        | none =>
          refine iff_of_true ⟨_, rfl⟩ fun b chooses => ?_
          obtain rfl := (chooses_empty (by simp [stored])).mp chooses
          exact bound
        | some child =>
          have edge := tidy.edge stored
          have positive := List.length_pos_iff.mpr edge.nonempty
          rw [edge.exact] at positive
          rw [Option.elim_some, ih (tidy.child stored) (by omega), ← List.drop_drop, split]
          simp only [chooses_stored stored, or_imp, forall_and, forall_eq]
          exact (and_iff_right bound).symm
    · rw [prefixLoop_end (by omega), drop_take_nil (by omega)]
      exact iff_of_true ⟨_, rfl⟩ fun b chooses => absurd chooses not_chooses_nil

/-! ### Walks and words -/

theorem stop_label {node child : IrsDictionaryNode α} {num : Nat} (tidy : Tidy toInt ok size node)
    (bushy : Bushy node fun _ => False) (stored : node.next[num]? = some (some child)) :
    Stop (keys toInt node) child.label := by
  rw [← descend_iff_stop tidy bushy]
  have := descend_append tidy stored []
  rw [List.append_nil, descend_nil] at this
  rw [this, Option.isSome_some]

theorem not_stop_inside {node child : IrsDictionaryNode α} {num : Nat}
    (tidy : Tidy toInt ok size node) (bushy : Bushy node fun _ => False)
    (stored : node.next[num]? = some (some child)) (p : Nat) (positive : 0 < p)
    (inside : p < child.label.length) : ¬Stop (keys toInt node) (child.label.take p) := by
  rw [← descend_iff_stop tidy bushy]
  obtain ⟨b, back, label, rfl⟩ := (tidy.edge stored).first
  obtain ⟨m, rfl⟩ : ∃ m, p = m + 1 := ⟨p - 1, by omega⟩
  have cut : child.label.take (m + 1) = b :: back.take m := by rw [label, List.take_succ_cons]
  rw [cut, descend_stored stored (tidy.edge stored).nonempty, if_neg]
  · simp
  · intro isPrefix
    have := isPrefix.length_le
    rw [← cut, List.length_take] at this
    omega

theorem under_keys {node child : IrsDictionaryNode α} {num : Nat} (tidy : Tidy toInt ok size node)
    (stored : node.next[num]? = some (some child)) :
    under (keys toInt node) child.label = keys toInt child := by
  ext word
  simp only [under, keys, Set.mem_ofPred_eq, contents_append tidy stored]

theorem walk_last_size {node last : IrsDictionaryNode α} {rest : Bytes}
    (walk : Walk toInt node rest last) (goesOn : rest ≠ []) : last.offsetSize ≤ rest.length := by
  induction walk with
  | done => exact absurd rfl goesOn
  | @step node child last c cs stored fits below ih =>
    by_cases done : (c :: cs).drop child.offsetSize = []
    · rw [done, walk_nil] at below
      rw [below]
      exact fits
    · have := ih done
      rw [List.length_drop] at this
      omega

/-- The string ends on the edge to `child`. -/
theorem ends_iff_passes {node child last : IrsDictionaryNode α} {num : Nat} {rest : Bytes}
    (tidy : Tidy toInt ok size node) (bushy : Bushy node fun _ => False)
    (stored : node.next[num]? = some (some child)) (short : rest.length ≤ child.offsetSize) :
    (last = child ∧ child.offsetSize ≤ rest.length ∧
      last.label = rest.drop (rest.length - last.offsetSize)) ↔
      ∃ word, descend toInt child word = some last ∧
        Passes (keys toInt node) (child.label ++ word) rest := by
  have exact := (tidy.edge stored).exact
  have inner := not_stop_inside tidy bushy stored
  constructor
  · rintro ⟨rfl, fits, same⟩
    refine ⟨[], descend_nil _, ?_⟩
    rw [List.append_nil, passes_edge inner, same, show rest.length - last.offsetSize = 0 by omega,
      List.drop_zero]
  · rintro ⟨word, reached, passes⟩
    have lengths := passes.1
    rw [List.length_append, exact] at lengths
    obtain rfl : word = [] := List.length_eq_zero_iff.mp (by omega)
    rw [List.append_nil, passes_edge inner] at passes
    rw [descend_nil] at reached
    obtain rfl : child = last := Option.some.inj reached
    refine ⟨rfl, by omega, ?_⟩
    rw [show rest.length - child.offsetSize = 0 by omega, List.drop_zero, passes]

/-- The string goes on below `child`. -/
theorem onward_iff_passes {node child last : IrsDictionaryNode α} {num : Nat} {rest : Bytes}
    (tidy : Tidy toInt ok size node) (bushy : Bushy node fun _ => False)
    (stored : node.next[num]? = some (some child)) (first : rest.head? = child.label.head?)
    (longer : child.offsetSize < rest.length)
    (step : (Walk toInt child (rest.drop child.offsetSize) last ∧
        last.label = (rest.drop child.offsetSize).drop
          ((rest.drop child.offsetSize).length - last.offsetSize)) ↔
      ∃ word, descend toInt child word = some last ∧
        Passes (keys toInt child) word (rest.drop child.offsetSize)) :
    (Walk toInt child (rest.drop child.offsetSize) last ∧ child.offsetSize ≤ rest.length ∧
        last.label = rest.drop (rest.length - last.offsetSize)) ↔
      ∃ word, descend toInt child word = some last ∧
        Passes (keys toInt node) (child.label ++ word) rest := by
  have edge := tidy.edge stored
  have inner := not_stop_inside tidy bushy stored
  have here := stop_label tidy bushy stored
  have goesOn : rest.drop child.offsetSize ≠ [] := by
    rw [Ne, List.drop_eq_nil_iff]
    omega
  have suffix : Walk toInt child (rest.drop child.offsetSize) last →
      (rest.drop child.offsetSize).drop ((rest.drop child.offsetSize).length - last.offsetSize) =
        rest.drop (rest.length - last.offsetSize) := by
    intro walk
    have fits := walk_last_size walk goesOn
    rw [List.length_drop] at fits
    rw [List.drop_drop, List.length_drop]
    congr 1
    omega
  have split {word : Bytes} (lengths : (child.label ++ word).length = rest.length) :
      Passes (keys toInt node) (child.label ++ word) rest ↔
      Passes (keys toInt child) word (rest.drop child.offsetSize) := by
    have wordGoes : word ≠ [] := by
      rintro rfl
      rw [List.append_nil, edge.exact] at lengths
      omega
    rw [passes_append edge.nonempty inner here wordGoes, under_keys tidy stored, edge.exact,
      and_iff_right first]
  constructor
  · rintro ⟨walk, -, same⟩
    obtain ⟨word, reached, passes⟩ := step.mp ⟨walk, by rw [same, suffix walk]⟩
    refine ⟨word, reached, (split ?_).mpr passes⟩
    have lengths := passes.1
    rw [List.length_drop] at lengths
    rw [List.length_append, edge.exact]
    omega
  · rintro ⟨word, reached, passes⟩
    obtain ⟨walk, same⟩ := step.mpr ⟨word, reached, (split passes.1).mp passes⟩
    exact ⟨walk, by omega, by rw [same, suffix walk]⟩

/-- A walk that ends with the right edge has found a word that the string passes for. -/
theorem walk_iff_passes {node last : IrsDictionaryNode α} {rest : Bytes}
    (injective : Function.Injective toInt) (tidy : Tidy toInt ok size node)
    (bushy : Bushy node fun _ => False) (goesOn : rest ≠ []) :
    (Walk toInt node rest last ∧ last.label = rest.drop (rest.length - last.offsetSize)) ↔
      ∃ word, descend toInt node word = some last ∧ Passes (keys toInt node) word rest := by
  induction hn : rest.length using Nat.strong_induction_on generalizing node rest with
  | _ n ih =>
    obtain ⟨c, cs, rfl⟩ := List.exists_cons_of_ne_nil goesOn
    obtain empty | ⟨child, stored⟩ := absent_or_stored node (toInt c).toNat
    · refine iff_of_false ?_ ?_
      · rintro ⟨walk, -⟩
        cases walk with
        | step stored => exact empty _ stored
      · rintro ⟨word, reached, passes⟩
        obtain ⟨bs, rfl⟩ := List.head?_eq_some_iff.mp passes.head.symm
        obtain ⟨child, _, stored, -⟩ := descend_cons tidy reached
        exact empty child stored
    have edge := tidy.edge stored
    obtain ⟨back, label⟩ := edge.head injective
    -- the words of the two sides go on below `child` in the same way
    have below : (Walk toInt child ((c :: cs).drop child.offsetSize) last ∧
        child.offsetSize ≤ (c :: cs).length ∧
        last.label = (c :: cs).drop ((c :: cs).length - last.offsetSize)) ↔
        ∃ word, descend toInt child word = some last ∧
        Passes (keys toInt node) (child.label ++ word) (c :: cs) := by
      by_cases done : (c :: cs).drop child.offsetSize = []
      · rw [done, walk_nil]
        exact ends_iff_passes tidy bushy stored (List.drop_eq_nil_iff.mp done)
      · have longer : child.offsetSize < (c :: cs).length := by
          rw [List.drop_eq_nil_iff] at done
          omega
        have positive : 0 < child.offsetSize := by
          rw [← edge.exact]
          exact List.length_pos_iff.mpr edge.nonempty
        apply onward_iff_passes tidy bushy stored (by rw [label]; rfl) longer
        exact ih _ (by rw [← hn, List.length_drop]; omega) (tidy.child stored)
          (bushy.child stored).2 done rfl
    rw [walk_cons stored, and_assoc, and_left_comm, ← hn, ← List.length_cons, below]
    constructor
    · rintro ⟨word, reached, passes⟩
      exact ⟨child.label ++ word, by rw [descend_append tidy stored, reached], passes⟩
    · rintro ⟨word, reached, passes⟩
      obtain ⟨bs, rfl⟩ := List.head?_eq_some_iff.mp passes.head.symm
      obtain ⟨child', word, stored', split, reached⟩ := descend_cons tidy reached
      cases stored.symm.trans stored'
      exact ⟨word, reached, split ▸ passes⟩

/-- The edges that leave a node are those from one stop of its words to the next. -/
theorem label_iff_stop {node : IrsDictionaryNode α} {c : UInt8} {edge : Bytes}
    (injective : Function.Injective toInt) (tidy : Tidy toInt ok size node)
    (bushy : Bushy node fun _ => False) :
    (∃ child, node.next[(toInt c).toNat]? = some (some child) ∧ child.label = edge) ↔
      edge.head? = some c ∧ Stop (keys toInt node) edge ∧
        ∀ p, 0 < p → p < edge.length → ¬Stop (keys toInt node) (edge.take p) := by
  constructor
  · rintro ⟨child, stored, rfl⟩
    obtain ⟨back, label⟩ := (tidy.edge stored).head injective
    exact ⟨by rw [label]; rfl, stop_label tidy bushy stored, not_stop_inside tidy bushy stored⟩
  · rintro ⟨head, stop, inner⟩
    obtain ⟨back, rfl⟩ := List.head?_eq_some_iff.mp head
    rw [← descend_iff_stop tidy bushy] at stop
    obtain ⟨found, reached⟩ := Option.isSome_iff_exists.mp stop
    obtain ⟨child, word, stored, split, -⟩ := descend_cons tidy reached
    refine ⟨child, stored, ?_⟩
    -- the word ends at the first stop
    by_contra different
    have goesOn : word ≠ [] := by
      rintro rfl
      rw [List.append_nil] at split
      exact different split.symm
    have shorter : child.label.length < (c :: back).length := by
      rw [split, List.length_append]
      have := List.length_pos_iff.mpr goesOn
      omega
    apply inner _ (List.length_pos_iff.mpr (tidy.edge stored).nonempty) shorter
    rw [split, List.take_left]
    exact stop_label tidy bushy stored

theorem chooses_iff_probes {node : IrsDictionaryNode α} {rest : Bytes} {b : UInt8}
    (injective : Function.Injective toInt) (tidy : Tidy toInt ok size node)
    (bushy : Bushy node fun _ => False) :
    Chooses toInt node rest b ↔ Probes (keys toInt node) rest b := by
  constructor
  · intro chooses
    induction chooses with
    | here => exact .here
    | onward stored _ ih =>
      obtain ⟨head, stop, inner⟩ := (label_iff_stop injective tidy bushy).mp ⟨_, stored, rfl⟩
      refine .onward head stop inner ?_
      rw [under_keys tidy stored, (tidy.edge stored).exact]
      exact ih (tidy.child stored) (bushy.child stored).2
  · generalize same : keys toInt node = K
    intro probes
    induction probes generalizing node with
    | here => exact .here
    | onward head stop inner _ ih =>
      subst same
      obtain ⟨child, stored, rfl⟩ := (label_iff_stop injective tidy bushy).mpr ⟨head, stop, inner⟩
      refine .onward stored ?_
      rw [← (tidy.edge stored).exact]
      exact ih (tidy.child stored) (bushy.child stored).2 (under_keys tidy stored).symm

/-! ### The lookup -/

theorem walk_edge {node last : IrsDictionaryNode α} {rest : Bytes}
    (walk : Walk toInt node rest last) (tidy : Tidy toInt ok size node) :
    last = node ∧ rest = [] ∨ ∃ num, Edge toInt ok num last := by
  induction walk with
  | done => exact Or.inl ⟨rfl, rfl⟩
  | step stored _ _ ih =>
    rcases ih (tidy.child stored) with ⟨rfl, -⟩ | edge
    · exact Or.inr ⟨_, tidy.edge stored⟩
    · exact Or.inr edge

theorem Kept.walk_label {dictionary : IrsDictionary α} {rest : Bytes} {last : IrsDictionaryNode α}
    (kept : Kept ok dictionary) (noNul : ∀ ch, ok ch → ch ≠ 0)
    (walk : Walk irsCharToIrsInt dictionary.root rest last) :
    last.label.length = last.offsetSize ∧ ∀ ch ∈ last.label, ch ≠ 0 := by
  obtain ⟨rfl, -⟩ | ⟨num, edge⟩ := walk_edge walk kept.tidy
  · rw [kept.rootLabel, kept.rootSize]
    exact ⟨rfl, fun _ member => absurd member List.not_mem_nil⟩
  · exact ⟨edge.exact, fun ch member => noNul ch (edge.bytes ch member)⟩

theorem Kept.walk_size {dictionary : IrsDictionary α} {rest : Bytes} {last : IrsDictionaryNode α}
    (kept : Kept ok dictionary) (walk : Walk irsCharToIrsInt dictionary.root rest last) :
    last.offsetSize ≤ rest.length := by
  by_cases empty : rest = []
  · rw [empty, walk_nil] at walk
    rw [walk, kept.rootSize]
    exact Nat.zero_le _
  · exact walk_last_size walk empty

/-- A lookup fails only when it uses the byte `0x7F` to choose a child. -/
theorem getLastNode_ok_iff {dictionary : IrsDictionary α} {irsString : Bytes}
    (kept : Kept ok dictionary) :
    (∃ last, irsDictionaryGetLastNodeFromNode dictionary irsString = .ok last) ↔
      ¬Probes (keys irsCharToIrsInt dictionary.root) (readPart irsString) 0x7F := by
  have inside : (UInt32.ofNat (irsStrLen irsString)).toNat ≤ irsString.length :=
    (by rw [UInt32.toNat_ofNat']; exact Nat.mod_le _ _ : _ ≤ irsStrLen irsString).trans
      (List.takeWhile_prefix _).length_le
  have loop := prefixLoop_ok_iff (i := 0) kept.toInt kept.tidy inside
    (show _ ≤ 0 + _ from (Nat.zero_add _).ge)
  rw [List.drop_zero] at loop
  simp only [irsCharToIrsInt_inBounds] at loop
  rw [← chooses_iff_probes irsCharToIrsInt_injective kept.tidy kept.bushy, readPart]
  have avoids : (∀ b,
    Chooses irsCharToIrsInt dictionary.root
    (irsString.take (UInt32.ofNat (irsStrLen irsString)).toNat) b →
      b ≠ 0x7F) ↔ ¬Chooses irsCharToIrsInt dictionary.root
        (irsString.take (UInt32.ofNat (irsStrLen irsString)).toNat) 0x7F :=
    ⟨fun all chooses => all _ chooses rfl, fun none b chooses same => none (same ▸ chooses)⟩
  rw [← avoids, ← loop]
  simp only [irsDictionaryGetLastNodeFromNode, bind_ok]
  constructor
  · rintro ⟨_, result, run, -⟩
    exact ⟨result, run⟩
  · rintro ⟨result, run⟩
    by_cases matched : result.2 = (UInt32.ofNat (irsStrLen irsString)).toNat ∧
        irsStrCmp result.1.label
          (irsString.drop ((UInt32.ofNat (irsStrLen irsString)).toNat - result.1.offsetSize))
    · exact ⟨some result.1, result, run, if_pos matched⟩
    · exact ⟨none, result, run, if_neg matched⟩

/-- A lookup that returns ends at a node exactly when a word that leads there passes. -/
theorem getLastNode_spec {dictionary : IrsDictionary α} {irsString : Bytes}
    {result : Option (IrsDictionaryNode α)} (kept : Kept ok dictionary)
    (noNul : ∀ ch, ok ch → ch ≠ 0) (stringNoNul : ∀ ch ∈ irsString, ch ≠ 0)
    (run : irsDictionaryGetLastNodeFromNode dictionary irsString = .ok result) :
    ∀ found, result = some found ↔ irsString.length < 2 ^ 32 ∧ ∃ word,
        descend irsCharToIrsInt dictionary.root word = some found ∧
        Passes (keys irsCharToIrsInt dictionary.root) word irsString := by
  have len : irsStrLen irsString = irsString.length := irsStrLen_of_noNul stringNoNul
  generalize hn : (UInt32.ofNat (irsStrLen irsString)).toNat = n
  have wrapped : n = irsString.length % 2 ^ 32 := by rw [← hn, len, UInt32.toNat_ofNat']
  have inside : n ≤ irsString.length := wrapped ▸ Nat.mod_le _ _
  simp only [irsDictionaryGetLastNodeFromNode, hn] at run
  obtain ⟨⟨last, i'⟩, loop, run⟩ := bind_ok.mp run
  have reached := prefixLoop_walk kept.toInt kept.tidy inside (show n ≤ 0 + n by omega) loop
  simp only [List.drop_zero, Nat.zero_le, true_and] at reached
  have labelled : i' = n → last.label.length = last.offsetSize ∧ ∀ ch ∈ last.label, ch ≠ 0 :=
    fun ended =>
    kept.walk_label noNul ((reached last).mp ⟨rfl, ended⟩)
  have compared : i' = n → (irsStrCmp last.label (irsString.drop (n - last.offsetSize)) = true ↔
      last.label = irsString.drop (n - last.offsetSize)) := fun ended =>
    irsStrCmp_of_noNul (labelled ended).2 fun ch member =>
      stringNoNul ch (List.mem_of_mem_drop member)
  have value : ∀ found,
      (if i' = n ∧ irsStrCmp last.label (irsString.drop (n - last.offsetSize)) = true then some last
      else none) = some found ↔
      Walk irsCharToIrsInt dictionary.root (irsString.take n) found ∧
      found.label = irsString.drop (n - found.offsetSize) := by
    intro found
    rw [← reached found]
    split
    · rename_i matched
      rw [compared matched.1] at matched
      rw [Option.some.injEq]
      exact ⟨fun same => same ▸ ⟨⟨rfl, matched.1⟩, matched.2⟩, fun ⟨⟨same, _⟩, _⟩ => same⟩
    · rename_i unmatched
      apply iff_of_false (by simp)
      rintro ⟨⟨rfl, ended⟩, same⟩
      exact unmatched ⟨ended, (compared ended).mpr same⟩
  have result_eq : result = if i' = n ∧
      irsStrCmp last.label (irsString.drop (n - last.offsetSize)) = true then some last
      else none := by
    split at run <;> cases run
    · rename_i matched
      rw [if_pos matched]
    · rename_i unmatched
      rw [if_neg unmatched]
  intro found
  rw [result_eq, value]
  by_cases short : irsString.length < 2 ^ 32
  · rw [Nat.mod_eq_of_lt short] at wrapped
    subst wrapped
    rw [List.take_length]
    simp only [short, true_and]
    by_cases empty : irsString = []
    · subst empty
      rw [walk_nil]
      constructor
      · rintro ⟨rfl, -⟩
        exact ⟨[], descend_nil _, passes_refl _ _⟩
      · rintro ⟨word, reached, lengths, -⟩
        obtain rfl := List.length_eq_zero_iff.mp lengths
        rw [descend_nil] at reached
        cases reached
        exact ⟨rfl, by simpa using kept.rootLabel⟩
    · exact walk_iff_passes irsCharToIrsInt_injective kept.tidy kept.bushy empty
  · refine iff_of_false ?_ fun ⟨inside, _⟩ => short inside
    rintro ⟨walk, same⟩
    obtain ⟨rfl, ended⟩ := (reached found).mpr walk
    have lengths := congrArg List.length same
    rw [(labelled ended).1, List.length_drop] at lengths
    have : n < 2 ^ 32 := wrapped ▸ Nat.mod_lt _ (by decide)
    have small := kept.walk_size walk
    rw [List.length_take] at small
    omega

theorem get_ok_iff {dictionary : IrsDictionary α} {irsString : Bytes} (kept : Kept ok dictionary) :
    (∃ list, irsDictionaryGet dictionary irsString = .ok list) ↔
      ¬Probes (keys irsCharToIrsInt dictionary.root) (readPart irsString) 0x7F := by
  rw [← getLastNode_ok_iff kept]
  simp only [irsDictionaryGet, bind_ok]
  exact ⟨fun ⟨_, last, run, _⟩ => ⟨last, run⟩, fun ⟨last, run⟩ => ⟨_, last, run, rfl⟩⟩

/-- `irs_dictionary_get` and `irs_dictionary_is_in`, where they return: the values of a word that
the string passes for. -/
theorem get_returned {dictionary : IrsDictionary α} {irsString : Bytes} {list : Option (List α)}
    (kept : Kept ok dictionary) (noNul : ∀ ch, ok ch → ch ≠ 0)
    (stringNoNul : ∀ ch ∈ irsString, ch ≠ 0)
    (get : irsDictionaryGet dictionary irsString = .ok list) :
    irsDictionaryIsIn dictionary irsString = .ok list.isSome ∧
      ∀ values, list = some values ↔ irsString.length < 2 ^ 32 ∧ ∃ word,
        (contents irsCharToIrsInt dictionary.root word = values ∧ values ≠ []) ∧
        Passes (keys irsCharToIrsInt dictionary.root) word irsString := by
  obtain ⟨last, run, done⟩ := bind_ok.mp get
  cases done
  have spec := getLastNode_spec kept noNul stringNoNul run
  refine ⟨?_, fun values => ?_⟩
  · rw [irsDictionaryIsIn, run, ok_bind]
    cases last <;> rfl
  · rw [Option.bind_eq_some_iff]
    constructor
    · rintro ⟨found, here, data⟩
      obtain ⟨short, word, reached, passes⟩ := (spec found).mp here
      exact ⟨short, word, (mem_contents kept.tidy).mp ⟨found, reached, data⟩, passes⟩
    · rintro ⟨short, word, stored, passes⟩
      obtain ⟨found, reached, data⟩ := (mem_contents kept.tidy).mpr stored
      exact ⟨found, (spec found).mpr ⟨short, word, reached, passes⟩, data⟩

/-- A string without the byte `0x7F` can always be looked up. -/
theorem get_spec {dictionary : IrsDictionary α} {irsString : Bytes} (kept : Kept ok dictionary)
    (noNul : ∀ ch, ok ch → ch ≠ 0) (bytes : ∀ ch ∈ irsString, Admitted ch) :
    ∃ list, irsDictionaryGet dictionary irsString = .ok list ∧
      irsDictionaryIsIn dictionary irsString = .ok list.isSome ∧
      ∀ values, list = some values ↔ irsString.length < 2 ^ 32 ∧ ∃ word,
        (contents irsCharToIrsInt dictionary.root word = values ∧ values ≠ []) ∧
        Passes (keys irsCharToIrsInt dictionary.root) word irsString := by
  obtain ⟨list, get⟩ :=
    (get_ok_iff kept).mpr fun probes => (bytes _ (List.mem_of_mem_take probes.mem)).2 rfl
  exact ⟨list, get, get_returned kept noNul (fun ch member => (bytes ch member).1) get⟩

/-- On the way to a stored word there is a child for every byte that chooses one. -/
theorem chooses_inside {node : IrsDictionaryNode α} {word : Bytes} {b : UInt8}
    (chooses : Chooses toInt node word b) (tidy : Tidy toInt ok size node)
    (reached : (descend toInt node word).isSome) : (toInt b).toNat < size.toNat := by
  induction chooses with
  | here =>
    obtain ⟨found, reached⟩ := Option.isSome_iff_exists.mp reached
    obtain ⟨child, word, stored, -⟩ := descend_cons tidy reached
    rw [← tidy.slots]
    exact (List.getElem?_eq_some_iff.mp stored).1
  | onward stored _ ih =>
    obtain ⟨found, reached⟩ := Option.isSome_iff_exists.mp reached
    obtain ⟨child, word, stored', split, reached⟩ := descend_cons tidy reached
    cases stored.symm.trans stored'
    apply ih (tidy.child stored)
    rw [split, ← (tidy.edge stored).exact, List.drop_left, reached]
    rfl

theorem get_stored {dictionary : IrsDictionary α} {word : Bytes} (kept : Kept ok dictionary)
    (noNul : ∀ ch, ok ch → ch ≠ 0) (wordNoNul : ∀ ch ∈ word, ch ≠ 0) (short : word.length < 2 ^ 32)
    (present : contents irsCharToIrsInt dictionary.root word ≠ []) :
    irsDictionaryGet dictionary word = .ok (some (contents irsCharToIrsInt dictionary.root word)) ∧
      irsDictionaryIsIn dictionary word = .ok true := by
  obtain ⟨found, reached, -⟩ := (mem_contents kept.tidy).mpr ⟨rfl, present⟩
  obtain ⟨list, get⟩ := (get_ok_iff kept).mpr fun probes => by
    rw [readPart_short wordNoNul short,
      ← chooses_iff_probes irsCharToIrsInt_injective kept.tidy kept.bushy] at probes
    exact (irsCharToIrsInt_inBounds _).mp
      (chooses_inside probes kept.tidy (by rw [reached]; rfl)) rfl
  obtain ⟨isIn, spec⟩ := get_returned kept noNul wordNoNul get
  have found := (spec _).mpr ⟨short, word, ⟨rfl, present⟩, passes_refl _ _⟩
  exact ⟨by rw [get, found], by rw [isIn, found]; rfl⟩

end IrsMachine
