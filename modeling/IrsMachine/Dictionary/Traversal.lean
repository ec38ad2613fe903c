import IrsMachine.Dictionary.Run
import Mathlib.Algebra.BigOperators.Group.Multiset.Basic

/-!
# Traversal

The visitors meet every node below the root once. The data lists they see are the entries of
the multimap that the tree contains, except for the root's own.
-/

namespace IrsMachine
open IrsDictionaryNode Except Multimap Words

variable {α : Type} {toInt : UInt8 → UInt8} {ok : UInt8 → Prop} {size : UInt8}

/-! ### The nodes visited -/

theorem visitDownNode_eq (node : IrsDictionaryNode α) :
    visitDownNode node = visitDownNext 0 node.next := by
  cases node
  rw [visitDownNode]

theorem visitUpNode_eq (node : IrsDictionaryNode α) :
    visitUpNode node = visitUpNext 0 node.next := by
  cases node
  rw [visitUpNode]

theorem mem_visitDownNext {next : List (Option (IrsDictionaryNode α))} {i : Nat} {address : Address}
    {found : IrsDictionaryNode α} :
    (address, found) ∈ visitDownNext i next ↔
      ∃ (j : Nat) (child : IrsDictionaryNode α) (below : Address),
      next[j]? = some (some child) ∧ address = (i + j) :: below ∧
      (below = [] ∧ found = child ∨ (below, found) ∈ visitDownNode child) := by
  induction next generalizing i with
  | nil => simp [visitDownNext]
  | cons slot next ih =>
    have shift : (address, found) ∈ visitDownNext (i + 1) next ↔
        ∃ (j : Nat) (child : IrsDictionaryNode α) (below : Address),
        (slot :: next)[j + 1]? = some (some child) ∧
          address = (i + (j + 1)) :: below ∧
          (below = [] ∧ found = child ∨ (below, found) ∈ visitDownNode child) := by
      simp only [ih, List.getElem?_cons_succ, Nat.add_assoc, Nat.add_comm 1]
    cases slot with
    | none =>
      rw [visitDownNext, shift]
      constructor
      · rintro ⟨j, rest⟩
        exact ⟨j + 1, rest⟩
      · rintro ⟨j, child, below, stored, rest⟩
        cases j with
        | zero => cases stored
        | succ j => exact ⟨j, child, below, stored, rest⟩
    | some child =>
      simp only [visitDownNext, List.cons_append, List.mem_cons, List.mem_append, List.mem_map,
        shift, Prod.mk.injEq]
      constructor
      · rintro (⟨rfl, rfl⟩ | ⟨⟨below, found⟩, member, rfl, rfl⟩ | ⟨j, rest⟩)
        · exact ⟨0, _, [], rfl, rfl, Or.inl ⟨rfl, rfl⟩⟩
        · exact ⟨0, child, below, rfl, rfl, Or.inr member⟩
        · exact ⟨j + 1, rest⟩
      · rintro ⟨j, other, below, stored, rfl, here⟩
        cases j with
        | zero =>
          cases stored
          rcases here with ⟨rfl, rfl⟩ | member
          · exact Or.inl ⟨rfl, rfl⟩
          · exact Or.inr (Or.inl ⟨(below, found), member, rfl, rfl⟩)
        | succ j => exact Or.inr (Or.inr ⟨j, other, below, stored, rfl, here⟩)

theorem mem_visitDownNode {node found : IrsDictionaryNode α} {address : Address} :
    (address, found) ∈ visitDownNode node ↔ address ≠ [] ∧ node.nodeAt address = some found := by
  induction address generalizing node with
  | nil =>
    rw [visitDownNode_eq, mem_visitDownNext]
    simp
  | cons num address ih =>
    simp only [visitDownNode_eq node, mem_visitDownNext, Nat.zero_add, List.cons.injEq]
    constructor
    · rintro ⟨j, child, below, stored, ⟨rfl, rfl⟩, here⟩
      refine ⟨List.cons_ne_nil _ _, ?_⟩
      rw [nodeAt_cons stored]
      rcases here with ⟨rfl, rfl⟩ | member
      · rfl
      · exact (ih.mp member).2
    · rintro ⟨-, located⟩
      obtain ⟨child, stored, located⟩ := nodeAt_stored located
      refine ⟨num, child, address, stored, ⟨rfl, rfl⟩, ?_⟩
      by_cases here : address = []
      · subst here
        cases located
        exact Or.inl ⟨rfl, rfl⟩
      · exact Or.inr (ih.mpr ⟨here, located⟩)

theorem visitDownNext_sorted {next : List (Option (IrsDictionaryNode α))} (i : Nat)
    (below : ∀ child, some child ∈ next →
      (visitDownNode child).Pairwise fun first second => List.Lex (· < ·) first.1 second.1) :
    (visitDownNext i next).Pairwise fun first second => List.Lex (· < ·) first.1 second.1 := by
  induction next generalizing i with
  | nil => rw [visitDownNext]; exact List.Pairwise.nil
  | cons slot next ih =>
    have rest := ih (i + 1) fun child member => below child (List.mem_cons_of_mem _ member)
    cases slot with
    | none => rwa [visitDownNext]
    | some child =>
      rw [visitDownNext, List.cons_append, List.pairwise_cons, List.pairwise_append,
        List.pairwise_map]
      have later : ∀ visit ∈ visitDownNext (i + 1) next,
          ∃ num address, visit.1 = num :: address ∧ i < num := by
        rintro ⟨address, found⟩ member
        obtain ⟨j, _, deeper, -, same, -⟩ := mem_visitDownNext.mp member
        exact ⟨i + 1 + j, deeper, same, by omega⟩
      refine ⟨fun visit member => ?_, (below child List.mem_cons_self).imp .cons, rest, ?_⟩
      · rcases List.mem_append.mp member with inner | outer
        · obtain ⟨⟨address, found⟩, inside, rfl⟩ := List.mem_map.mp inner
          obtain ⟨num, address, rfl⟩ := List.exists_cons_of_ne_nil (mem_visitDownNode.mp inside).1
          exact .cons .nil
        · obtain ⟨num, address, same, larger⟩ := later visit outer
          rw [same]
          exact .rel larger
      · intro first inner second outer
        obtain ⟨⟨address, found⟩, -, rfl⟩ := List.mem_map.mp inner
        obtain ⟨num, address, same, larger⟩ := later second outer
        rw [same]
        exact .rel larger

/-- The addresses come in lexicographic order. -/
theorem visitDownNode_sorted {node : IrsDictionaryNode α} (tidy : Tidy toInt ok size node) :
    (visitDownNode node).Pairwise fun first second => List.Lex (· < ·) first.1 second.1 := by
  induction tidy with
  | intro _ _ _ _ ih =>
    rw [visitDownNode_eq]
    apply visitDownNext_sorted 0
    intro child member
    obtain ⟨num, stored⟩ := List.mem_iff_getElem?.mp member
    exact ih num child stored

theorem visitDownNode_nodup {node : IrsDictionaryNode α} (tidy : Tidy toInt ok size node) :
    ((visitDownNode node).map Prod.fst).Nodup := by
  refine List.pairwise_map.mpr ((visitDownNode_sorted tidy).imp ?_)
  intro first second earlier same
  rw [same] at earlier
  exact Std.Asymm.asymm _ _ earlier earlier

theorem visitUpNext_perm {next : List (Option (IrsDictionaryNode α))} (i : Nat)
    (below : ∀ child, some child ∈ next → (visitUpNode child).Perm (visitDownNode child)) :
    (visitUpNext i next).Perm (visitDownNext i next) := by
  induction next generalizing i with
  | nil => rw [visitUpNext, visitDownNext]
  | cons slot next ih =>
    have rest := ih (i + 1) fun child member => below child (List.mem_cons_of_mem _ member)
    cases slot with
    | none => rwa [visitUpNext, visitDownNext]
    | some child =>
      rw [visitUpNext, visitDownNext]
      exact List.perm_middle.trans (((below child List.mem_cons_self).map _).append rest |>.cons _)

theorem visitUpNode_perm {node : IrsDictionaryNode α} (tidy : Tidy toInt ok size node) :
    (visitUpNode node).Perm (visitDownNode node) := by
  induction tidy with
  | intro _ _ _ _ ih =>
    rw [visitUpNode_eq, visitDownNode_eq]
    apply visitUpNext_perm 0
    intro child member
    obtain ⟨num, stored⟩ := List.mem_iff_getElem?.mp member
    exact ih num child stored

/-! ### The data seen -/

theorem spell_injective {node first second : IrsDictionaryNode α} {a b : Address}
    (tidy : Tidy toInt ok size node) (here : node.nodeAt a = some first)
    (there : node.nodeAt b = some second) (same : spell node a = spell node b) :
    a = b := by
  induction a generalizing node b with
  | nil =>
    cases b with
    | nil => rfl
    | cons num b =>
      obtain ⟨child, stored, -⟩ := nodeAt_stored there
      rw [spell_cons stored] at same
      exact absurd (List.append_eq_nil_iff.mp same.symm).1 (tidy.edge stored).nonempty
  | cons num a ih =>
    obtain ⟨child, stored, below⟩ := nodeAt_stored here
    cases b with
    | nil =>
      rw [spell_cons stored] at same
      exact absurd (List.append_eq_nil_iff.mp same).1 (tidy.edge stored).nonempty
    | cons num' b =>
      obtain ⟨child', stored', below'⟩ := nodeAt_stored there
      rw [spell_cons stored, spell_cons stored'] at same
      obtain ⟨c, back, label, rfl⟩ := (tidy.edge stored).first
      obtain ⟨c', back', label', rfl⟩ := (tidy.edge stored').first
      obtain rfl : c = c' := by
        rw [label, label'] at same
        exact (List.cons.inj same).1
      cases stored.symm.trans stored'
      rw [ih (tidy.child stored) below below' (List.append_cancel_left same)]

/-- The words of the nodes with data, and the data: first the root's, then those in the
order of the visit. -/
def entries (node : IrsDictionaryNode α) : List (Bytes × List α) :=
  (([], node) :: visitDownNode node).filterMap fun visit => visit.2.dataList.map fun data =>
    (spell node visit.1, data)

theorem lists_entries {node : IrsDictionaryNode α} (tidy : Tidy toInt ok size node) :
    Lists (entries node) (contents toInt node) where
  nodup := by
    have located : ∀ visit ∈ ([], node) :: visitDownNode node, node.nodeAt visit.1 =
        some visit.2 := by
      rintro ⟨address, found⟩ member
      rcases List.mem_cons.mp member with here | member
      · cases here; rfl
      · exact (mem_visitDownNode.mp member).2
    have apart : ((([], node) :: visitDownNode node).map Prod.fst).Nodup := by
      rw [List.map_cons, List.nodup_cons]
      refine ⟨fun member => ?_, visitDownNode_nodup tidy⟩
      obtain ⟨⟨_, found⟩, member, rfl⟩ := List.mem_map.mp member
      exact (mem_visitDownNode.mp member).1 rfl
    unfold entries
    generalize ([], node) :: visitDownNode node = visits at located apart
    induction visits with
    | nil => simp
    | cons visit visits ih =>
      rw [List.map_cons, List.nodup_cons] at apart
      have rest := ih (fun other member => located other (List.mem_cons_of_mem _ member)) apart.2
      rw [List.filterMap_cons]
      cases data : visit.2.dataList with
      | none => simpa using rest
      | some values =>
        simp only [Option.map_some, List.map_cons, List.nodup_cons]
        refine ⟨fun member => ?_, rest⟩
        obtain ⟨⟨_, _⟩, member, same⟩ := List.mem_map.mp member
        obtain ⟨other, inside, here⟩ := List.mem_filterMap.mp member
        obtain ⟨_, -, here⟩ := Option.map_eq_some_iff.mp here
        have := spell_injective tidy (located other (List.mem_cons_of_mem _ inside))
          (located visit List.mem_cons_self)
          ((congrArg Prod.fst here).trans same)
        exact apart.1 (this ▸ List.mem_map_of_mem inside)
  mem := by
    intro word values
    rw [← mem_contents tidy, entries, List.mem_filterMap]
    constructor
    · rintro ⟨⟨address, found⟩, member, here⟩
      obtain ⟨_, data, here⟩ := Option.map_eq_some_iff.mp here
      cases here
      rcases List.mem_cons.mp member with root | member
      · cases root
        exact ⟨node, descend_nil _, data⟩
      · exact ⟨found, descend_spell tidy (mem_visitDownNode.mp member).2, data⟩
    · rintro ⟨found, reached, data⟩
      obtain ⟨address, located, rfl⟩ := exists_spell tidy reached
      refine ⟨(address, found), ?_, by simp [data]⟩
      by_cases here : address = []
      · subst here
        cases located
        exact List.mem_cons_self
      · exact List.mem_cons_of_mem _ (mem_visitDownNode.mpr ⟨here, located⟩)

def sumOver {M : Type} [AddCommMonoid M] (f : List α → M) (dictionary : IrsDictionary α) : M :=
  ((entries dictionary.root).map fun entry => f entry.2).sum

def seen (dictionary : IrsDictionary α) : List α :=
  (irsDictionaryVisitDownNodes dictionary).flatMap fun visit => visit.2.dataList.getD []

theorem sumOver_seen (dictionary : IrsDictionary α) :
    sumOver (fun values => (values : Multiset α)) dictionary =
      (dictionary.root.dataList.getD [] : Multiset α) + (seen dictionary : Multiset α) := by
  have sum : ∀ visits : List (Address × IrsDictionaryNode α),
      ((visits.filterMap fun visit => visit.2.dataList.map fun data =>
        (spell dictionary.root visit.1, data)).map
        fun entry => (entry.2 : Multiset α)).sum =
      ((visits.flatMap fun visit => visit.2.dataList.getD [] : List α) : Multiset α) := by
    intro visits
    induction visits with
    | nil => rfl
    | cons visit visits ih =>
      rw [List.filterMap_cons, List.flatMap_cons, ← Multiset.coe_add, ← ih]
      cases visit.2.dataList with
      | none => simp
      | some values => simp
  rw [sumOver, entries, sum, List.flatMap_cons, ← Multiset.coe_add]
  rfl

theorem sumOver_irsDictionaryAppend {M : Type} [AddCommMonoid M] {f : List α → M} (empty : f [] = 0)
    {dictionary dictionary' : IrsDictionary α} {irsString : Bytes} {size : UInt32} {value : α}
    {address : Address} (kept : Kept ok dictionary) (read : ∀ ch ∈ irsString.take size.toNat, ok ch)
    (run : irsDictionaryAppend dictionary irsString size value = .ok (dictionary', address)) :
    ∃ values : List α, sumOver f dictionary' + f values =
      sumOver f dictionary + f (values ++ [value]) := by
  obtain ⟨root, found, -, -, -, pushed, -⟩ := irsDictionaryAppend_at kept read run
  have apart : ∀ other, other ≠ spell root address →
      contents irsCharToIrsInt dictionary'.root other =
      contents irsCharToIrsInt dictionary.root other := fun other different => by
        rw [pushed, push_ne _ _ different]
  have change := Lists.sum_change empty (lists_entries kept.tidy)
    (lists_entries (kept_irsDictionaryAppend kept read run).tidy) apart
  rw [pushed, push_self] at change
  exact ⟨_, change⟩

theorem sumOver_appendKey {M : Type} [AddCommMonoid M] {f : List α → M} (empty : f [] = 0)
    {dictionary dictionary' : IrsDictionary α} {key : Bytes} {value : α} (kept : Kept ok dictionary)
    (bytes : ∀ ch ∈ key, ok ch) (run : appendKey dictionary key value = .ok dictionary') :
    ∃ values : List α, sumOver f dictionary' + f values =
      sumOver f dictionary + f (values ++ [value]) := by
  obtain ⟨⟨_, address⟩, run, done⟩ := bind_ok.mp run
  cases done
  exact sumOver_irsDictionaryAppend empty kept
    (fun ch member => bytes ch (List.mem_of_mem_take member)) run

theorem sumOver_appendAll {dictionary : IrsDictionary α} {pairs : List (Bytes × α)}
    (run : appendAll freshDictionary pairs = .ok dictionary) :
    sumOver (fun values => (values : Multiset α)) dictionary = (pairs.map Prod.snd : List α) := by
  induction pairs using List.reverseRecOn generalizing dictionary with
  | nil => cases run; rfl
  | append_singleton pairs pair ih =>
    obtain ⟨middle, before, last⟩ := foldlM_concat_ok.mp run
    have kept : Kept (fun _ => True) middle :=
      kept_appendAll kept_freshDictionary (fun _ _ _ _ => trivial) before
    obtain ⟨values, change⟩ := sumOver_appendKey (f := fun values => (values : Multiset α)) rfl kept
      (fun _ _ => trivial) last
    rw [ih before, ← Multiset.coe_add, add_comm (values : Multiset α), ← add_assoc] at change
    rw [add_right_cancel change, List.map_append]
    rfl

/-! ### The root's own data -/

theorem readPart_eq_nil {key : Bytes} (noNul : ∀ ch ∈ key, ch ≠ 0) : readPart key = [] ↔
    key.length % 2 ^ 32 = 0 := by
  rw [readPart, irsStrLen_of_noNul noNul, UInt32.toNat_ofNat', List.take_eq_nil_iff]
  constructor
  · rintro (zero | rfl)
    · exact zero
    · rfl
  · exact Or.inl

theorem appendAll_root {dictionary : IrsDictionary α} {pairs : List (Bytes × α)}
    (run : appendAll freshDictionary pairs = .ok dictionary) :
    contents irsCharToIrsInt dictionary.root [] = [] ↔ ∀ pair ∈ pairs, readPart pair.1 ≠ [] := by
  induction pairs using List.reverseRecOn generalizing dictionary with
  | nil =>
    cases run
    exact iff_of_true (contents_freshDictionary []) (by simp)
  | append_singleton pairs pair ih =>
    obtain ⟨middle, before, last⟩ := foldlM_concat_ok.mp run
    have kept : Kept (fun _ => True) middle :=
      kept_appendAll kept_freshDictionary (fun _ _ _ _ => trivial) before
    obtain ⟨word, pushed, spelled, -⟩ := appendKey_contents kept (fun _ _ => trivial) last
    have lengths := congrArg List.length spelled
    rw [List.length_map, List.length_map] at lengths
    simp only [List.mem_append, List.mem_singleton, or_imp, forall_and, forall_eq,
      ← ih before, pushed]
    by_cases here : word = []
    · subst here
      have nothing : readPart pair.1 = [] := List.length_eq_zero_iff.mp lengths.symm
      simp [nothing]
    · have goesOn : readPart pair.1 ≠ [] := by
        intro nothing
        rw [nothing] at lengths
        exact here (List.length_eq_zero_iff.mp lengths)
      rw [push_ne _ _ (Ne.symm here)]
      simp [goesOn]

/-! ### Nothing is out of reach -/

/-- The visitors meet every node below the root once, and the data seen are these values. -/
structure Reaches (dictionary : IrsDictionary α) (values : List α) : Prop where
  nodes : ∀ address node, (address, node) ∈ irsDictionaryVisitDownNodes dictionary ↔
    address ≠ [] ∧ dictionary.root.nodeAt address = some node
  once : ((irsDictionaryVisitDownNodes dictionary).map Prod.fst).Nodup
  up : (irsDictionaryVisitUpNodes dictionary).Perm (irsDictionaryVisitDownNodes dictionary)
  data : (seen dictionary).Perm values

theorem Kept.reaches_iff {dictionary : IrsDictionary α} {pairs : List (Bytes × α)}
    (kept : Kept ok dictionary) (run : appendAll freshDictionary pairs = .ok dictionary) :
    Reaches dictionary (pairs.map Prod.snd) ↔ ∀ pair ∈ pairs, readPart pair.1 ≠ [] := by
  have total := (sumOver_appendAll run).symm.trans (sumOver_seen dictionary)
  rw [← appendAll_root run, contents_nil]
  constructor
  · intro reaches
    rw [Multiset.coe_eq_coe.mpr reaches.data] at total
    exact Multiset.coe_eq_zero _ |>.mp (left_eq_add.mp (by rw [add_comm]; exact total))
  · intro nothing
    refine ⟨fun _ _ => mem_visitDownNode, visitDownNode_nodup kept.tidy,
      visitUpNode_perm kept.tidy, ?_⟩
    rw [nothing, Multiset.coe_nil, zero_add] at total
    exact Multiset.coe_eq_coe.mp total.symm

def stringsOf (pairs : List (CString × α)) : List (Bytes × α) :=
  pairs.map fun pair => (pair.1.bytes, pair.2)

/-- A sequence of appends ends well, and the visitors reach all of it, exactly when no step
uses the byte `0x7F` to choose a child and no `size` is zero modulo `2 ^ 32`. -/
theorem appendAll_reaches_iff (pairs : List (CString × α)) :
    (∃ dictionary, appendAll freshDictionary (stringsOf pairs) = .ok dictionary ∧
      Reaches dictionary (pairs.map Prod.snd)) ↔
      ∀ front pair back, pairs = front ++ pair :: back → pair.1.bytes.length % 2 ^ 32 ≠ 0 ∧
        ∀ dictionary, appendAll freshDictionary (stringsOf front) = .ok dictionary →
          ¬Selects irsCharToIrsInt dictionary.root (readPart pair.1.bytes) 0x7F := by
  have values : pairs.map Prod.snd = (stringsOf pairs).map Prod.snd := by simp [stringsOf]
  have keptFresh : Kept (fun _ => True) (freshDictionary : IrsDictionary α) := kept_freshDictionary
  constructor
  · rintro ⟨dictionary, run, reaches⟩ front pair back rfl
    rw [values, (kept_appendAll keptFresh (fun _ _ _ _ => trivial) run).reaches_iff run] at reaches
    simp only [stringsOf, List.map_append, List.map_cons] at run reaches
    refine ⟨fun zero => reaches _ (List.mem_append_right _ List.mem_cons_self)
      ((readPart_eq_nil pair.1.noNul).mpr zero), fun middle before => ?_⟩
    obtain ⟨middle', before', rest⟩ := foldlM_append_ok.mp run
    cases before.symm.trans before'
    obtain ⟨after, step, -⟩ := foldlM_cons_ok.mp rest
    exact (appendKey_ok_iff (kept_appendAll keptFresh (fun _ _ _ _ => trivial) before)).mp
      ⟨after, step⟩
  · intro steps
    have run : ∃ dictionary, appendAll freshDictionary (stringsOf pairs) = .ok dictionary := by
      clear values
      induction pairs using List.reverseRecOn with
      | nil => exact ⟨_, rfl⟩
      | append_singleton pairs pair ih =>
        obtain ⟨middle, before⟩ :=
          ih fun front pair' back split => steps front pair' (back ++ [pair]) (by simp [split])
        obtain ⟨after, step⟩ :=
          (appendKey_ok_iff (kept_appendAll keptFresh (fun _ _ _ _ => trivial) before)).mpr
          ((steps pairs pair [] rfl).2 middle before)
        refine ⟨after, ?_⟩
        rw [stringsOf, List.map_append]
        exact foldlM_concat_ok.mpr ⟨middle, before, step⟩
    obtain ⟨dictionary, run⟩ := run
    refine ⟨dictionary, run, ?_⟩
    rw [values, (kept_appendAll keptFresh (fun _ _ _ _ => trivial) run).reaches_iff run]
    simp only [stringsOf, List.mem_map, forall_exists_index, and_imp, forall_apply_eq_imp_iff₂]
    intro pair member nothing
    obtain ⟨front, back, split⟩ := List.append_of_mem member
    exact (steps front pair back split).1 ((readPart_eq_nil pair.1.noNul).mp nothing)

/-- The byte `0x7F` has the index 255, and there are 255 slots. -/
theorem reaches_fails_delete :
    let delete : CString := ⟨[0x7F], by simp, Nat.one_lt_two_pow (Nat.succ_ne_zero 63)⟩
    ¬∃ dictionary, appendAll freshDictionary (stringsOf [(delete, 0)]) = .ok dictionary ∧
    Reaches dictionary [0] := by
  rintro delete ⟨dictionary, run, -⟩
  have fails : appendKey freshDictionary [0x7F] 0 = .error .outOfBounds := rfl
  rw [show appendAll freshDictionary (stringsOf [(delete, 0)]) =
    (appendKey freshDictionary [0x7F] 0 >>= fun dictionary => .ok dictionary) from rfl,
    fails] at run
  cases run

end IrsMachine
