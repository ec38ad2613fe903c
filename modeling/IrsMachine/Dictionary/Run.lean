import IrsMachine.Dictionary.Keys

/-!
# Sequences of appends

The dictionaries that the storage and the engine set up, and what every sequence of appends
keeps of them. `appendAll_prefixTree` is the representation invariant; `appendAll_contents`
says what a sequence of appends stores.
-/

namespace IrsMachine
open IrsDictionaryNode Except Multimap Words

variable {α : Type} {ok : UInt8 → Prop}

def freshDictionary : IrsDictionary α :=
  irsDictionaryInitialize irsDictionaryChildrenSize irsCharToIrsInt

/-- A call of `irs_dictionary_append` with the size that `strlen` gives, in 32 bits. -/
def appendKey (dictionary : IrsDictionary α) (key : Bytes) (value : α) :
    Except Fault (IrsDictionary α) := do
  let (dictionary, _) ← irsDictionaryAppend dictionary key (UInt32.ofNat (irsStrLen key)) value
  .ok dictionary

def appendAll (dictionary : IrsDictionary α) (pairs : List (Bytes × α)) :
    Except Fault (IrsDictionary α) :=
  pairs.foldlM (fun dictionary pair => appendKey dictionary pair.1 pair.2) dictionary

/-- The part of a key that an append reads: `strlen` modulo `2 ^ 32` characters. -/
def readPart (key : Bytes) : Bytes := key.take (UInt32.ofNat (irsStrLen key)).toNat

/-! ### Slots -/

theorem irsCharToIrsInt_injective : Function.Injective irsCharToIrsInt := by
  intro a b same
  simpa [irsCharToIrsInt] using same

/-- The one byte without a slot is `0x7F`. -/
theorem irsCharToIrsInt_inBounds (ch : UInt8) :
    (irsCharToIrsInt ch).toNat < irsDictionaryChildrenSize.toNat ↔ ch ≠ 0x7F := by
  have slots : irsDictionaryChildrenSize.toNat = 255 := rfl
  have top : (irsCharToIrsInt 0x7F).toNat = 255 := rfl
  rw [slots, ← not_iff_not, Ne, not_not]
  constructor
  · intro outside
    have := (irsCharToIrsInt ch).toNat_lt
    exact irsCharToIrsInt_injective (UInt8.toNat_inj.mp (by omega))
  · rintro rfl
    omega

/-! ### What every append keeps -/

structure Kept (ok : UInt8 → Prop) (dictionary : IrsDictionary α) : Prop where
  size : dictionary.size = irsDictionaryChildrenSize
  toInt : dictionary.irsCharToIrsInt = irsCharToIrsInt
  rootLabel : dictionary.root.label = []
  rootSize : dictionary.root.offsetSize = 0
  tidy : Tidy irsCharToIrsInt ok irsDictionaryChildrenSize dictionary.root
  bushy : Bushy dictionary.root fun _ => False

theorem kept_freshDictionary : Kept ok (freshDictionary : IrsDictionary α) := by
  refine ⟨rfl, rfl, rfl, rfl, tidy_freshNode, ?_⟩
  intro address found notRoot _ located _
  cases address with
  | nil => exact absurd rfl notRoot
  | cons num address =>
    simp [nodeAt, freshDictionary, irsDictionaryInitialize, irsDictionaryNodeInitialize,
      List.getElem?_replicate] at located

theorem irsDictionaryAppend_ok {dictionary dictionary' : IrsDictionary α} {irsString : Bytes}
    {size : UInt32} {value : α} {address : Address} :
    irsDictionaryAppend dictionary irsString size value = .ok (dictionary', address) ↔
      ∃ root, appendLoop dictionary.irsCharToIrsInt dictionary.size size.toNat dictionary.root
        (irsString.take size.toNat) =
        .ok (root, address) ∧ dictionary' =
          { dictionary with root := root.modifyAt (pushBack value) address } := by
  simp only [irsDictionaryAppend, irsDictionaryAppendToNode, bind_ok, Prod.exists]
  constructor
  · rintro ⟨_, _, ⟨root, address, loop, node⟩, append⟩
    cases node
    cases append
    exact ⟨root, loop, rfl⟩
  · rintro ⟨root, loop, rfl⟩
    exact ⟨_, address, ⟨root, address, loop, rfl⟩, rfl⟩

theorem appendKey_ok {dictionary dictionary' : IrsDictionary α} {key : Bytes} {value : α} :
    appendKey dictionary key value = .ok dictionary' ↔
      ∃ root address, appendLoop dictionary.irsCharToIrsInt dictionary.size
        (UInt32.ofNat (irsStrLen key)).toNat
        dictionary.root (readPart key) = .ok (root, address) ∧
      dictionary' = { dictionary with root := root.modifyAt (pushBack value) address } := by
  simp only [appendKey, bind_ok, Prod.exists, irsDictionaryAppend_ok]
  constructor
  · rintro ⟨_, address, ⟨root, loop, rfl⟩, run⟩
    cases run
    exact ⟨root, address, loop, rfl⟩
  · rintro ⟨root, address, loop, rfl⟩
    exact ⟨_, address, ⟨root, loop, rfl⟩, rfl⟩

theorem kept_irsDictionaryAppend {dictionary dictionary' : IrsDictionary α} {irsString : Bytes}
    {size : UInt32} {value : α} {address : Address} (kept : Kept ok dictionary)
    (read : ∀ ch ∈ irsString.take size.toNat, ok ch)
    (run : irsDictionaryAppend dictionary irsString size value = .ok (dictionary', address)) :
    Kept ok dictionary' := by
  obtain ⟨root, loop, rfl⟩ := irsDictionaryAppend_ok.mp run
  rw [kept.toInt, kept.size] at loop
  obtain ⟨tidy, label, exact, -⟩ := appendLoop_tidy irsCharToIrsInt_injective kept.tidy read loop
  obtain ⟨⟨found, located⟩, -⟩ := appendLoop_spell irsCharToIrsInt_injective kept.tidy read loop
  obtain ⟨label', exact'⟩ := modifyAt_label value root address
  exact ⟨kept.size, kept.toInt, by rw [label', label, kept.rootLabel],
    by rw [exact', exact, kept.rootSize],
    tidy_modifyAt value tidy located,
    bushy_modifyAt value located
      (appendLoop_bushy irsCharToIrsInt_injective kept.tidy read kept.bushy loop)⟩

theorem kept_appendKey {dictionary dictionary' : IrsDictionary α} {key : Bytes} {value : α}
    (kept : Kept ok dictionary) (bytes : ∀ ch ∈ key, ok ch)
    (run : appendKey dictionary key value = .ok dictionary') : Kept ok dictionary' := by
  obtain ⟨⟨_, address⟩, run, done⟩ := bind_ok.mp run
  cases done
  exact kept_irsDictionaryAppend kept (fun ch member => bytes ch (List.mem_of_mem_take member)) run

theorem selects_admitted {toInt : UInt8 → UInt8} {size : UInt8} {node : IrsDictionaryNode α}
    {rest : Bytes} {b : UInt8} (selects : Selects toInt node rest b)
    (tidy : Tidy toInt ok size node) (bytes : ∀ ch ∈ rest, ok ch) : ok b := by
  induction selects with
  | key => exact bytes _ List.mem_cons_self
  | cut stored read => exact (tidy.edge stored).bytes _ (List.mem_of_getElem? read)
  | afterCut _ _ read => exact bytes _ (List.mem_of_getElem? read)
  | deeper stored _ _ ih =>
    exact ih (tidy.child stored) fun ch member => bytes ch (List.mem_of_mem_drop member)

/-- An append fails only when it uses the byte `0x7F` to choose a child. -/
theorem irsDictionaryAppend_ok_iff {dictionary : IrsDictionary α} {irsString : Bytes}
    {size : UInt32} (value : α) (kept : Kept ok dictionary) :
    (∃ dictionary' address, irsDictionaryAppend dictionary irsString size value =
      .ok (dictionary', address)) ↔
      ¬Selects irsCharToIrsInt dictionary.root (irsString.take size.toNat) 0x7F := by
  have loop := appendLoop_ok_iff irsCharToIrsInt_injective kept.tidy
    (List.length_take_le size.toNat irsString)
  simp only [irsCharToIrsInt_inBounds] at loop
  have avoids : (∀ b, Selects irsCharToIrsInt dictionary.root (irsString.take size.toNat) b →
    b ≠ 0x7F) ↔
      ¬Selects irsCharToIrsInt dictionary.root (irsString.take size.toNat) 0x7F :=
    ⟨fun all selects => all _ selects rfl, fun none b selects same => none (same ▸ selects)⟩
  rw [← avoids, ← loop]
  constructor
  · rintro ⟨_, address, run⟩
    obtain ⟨root, run, -⟩ := irsDictionaryAppend_ok.mp run
    rw [kept.toInt, kept.size] at run
    exact ⟨_, run⟩
  · rintro ⟨⟨root, address⟩, run⟩
    exact ⟨_, address, irsDictionaryAppend_ok.mpr ⟨root, by rw [kept.toInt, kept.size, run], rfl⟩⟩

theorem appendKey_ok_iff {dictionary : IrsDictionary α} {key : Bytes} {value : α}
    (kept : Kept ok dictionary) :
    (∃ dictionary', appendKey dictionary key value = .ok dictionary') ↔
      ¬Selects irsCharToIrsInt dictionary.root (readPart key) 0x7F := by
  unfold readPart
  rw [← irsDictionaryAppend_ok_iff value kept]
  constructor
  · rintro ⟨_, run⟩
    obtain ⟨⟨dictionary', address⟩, run, -⟩ := bind_ok.mp run
    exact ⟨dictionary', address, run⟩
  · rintro ⟨dictionary', address, run⟩
    exact ⟨dictionary', bind_ok.mpr ⟨_, run, rfl⟩⟩

theorem readPart_length (key : Bytes) :
    (readPart key).length ≤ (UInt32.ofNat (irsStrLen key)).toNat :=
  List.length_take_le _ _

/-- The bytes that strings can have. -/
def Admitted (ch : UInt8) : Prop := ch ≠ 0 ∧ ch ≠ 0x7F

theorem irsDictionaryAppend_total {dictionary : IrsDictionary α} {irsString : Bytes} (size : UInt32)
    (value : α) (kept : Kept Admitted dictionary) (bytes : ∀ ch ∈ irsString, Admitted ch) :
    ∃ dictionary' address, irsDictionaryAppend dictionary irsString size value =
      .ok (dictionary', address) :=
  (irsDictionaryAppend_ok_iff value kept).mpr fun selects =>
    (selects_admitted selects kept.tidy fun ch member => bytes ch (List.mem_of_mem_take member)).2
      rfl

theorem appendKey_total {dictionary : IrsDictionary α} {key : Bytes} (value : α)
    (kept : Kept Admitted dictionary) (bytes : ∀ ch ∈ key, Admitted ch) :
    ∃ dictionary', appendKey dictionary key value = .ok dictionary' := by
  obtain ⟨dictionary', address, run⟩ :=
    irsDictionaryAppend_total (UInt32.ofNat (irsStrLen key)) value kept bytes
  exact ⟨dictionary', bind_ok.mpr ⟨_, run, rfl⟩⟩

/-! ### What an append stores -/

theorem irsDictionaryAppend_at {dictionary dictionary' : IrsDictionary α} {irsString : Bytes}
    {size : UInt32} {value : α} {address : Address} (kept : Kept ok dictionary)
    (read : ∀ ch ∈ irsString.take size.toNat, ok ch)
    (run : irsDictionaryAppend dictionary irsString size value = .ok (dictionary', address)) :
    ∃ root found, appendLoop irsCharToIrsInt irsDictionaryChildrenSize size.toNat dictionary.root
      (irsString.take size.toNat) = .ok (root, address) ∧
      dictionary'.root = root.modifyAt (pushBack value) address ∧ root.nodeAt address = some found ∧
      contents irsCharToIrsInt dictionary'.root = push (contents irsCharToIrsInt dictionary.root)
        (spell root address) value ∧
      (spell root address).map tolower = (irsString.take size.toNat).map tolower ∧
      (¬Clash SameFold (keys irsCharToIrsInt dictionary.root) (irsString.take size.toNat) →
        spell root address = irsString.take size.toNat) := by
  obtain ⟨root, loop, rfl⟩ := irsDictionaryAppend_ok.mp run
  rw [kept.toInt, kept.size] at loop
  obtain ⟨tidy, -, -, -⟩ := appendLoop_tidy irsCharToIrsInt_injective kept.tidy read loop
  obtain ⟨⟨found, located⟩, spelled⟩ :=
    appendLoop_spell irsCharToIrsInt_injective kept.tidy read loop
  refine ⟨root, found, loop, rfl, located, ?_, spelled, fun noClash =>
    appendLoop_exact irsCharToIrsInt_injective kept.tidy read kept.bushy noClash loop⟩
  rw [contents_modifyAt value irsCharToIrsInt_injective tidy located]
  congr 1
  funext word
  exact appendLoop_contents irsCharToIrsInt_injective kept.tidy read loop word

theorem appendKey_at {dictionary dictionary' : IrsDictionary α} {key : Bytes} {value : α}
    (kept : Kept ok dictionary) (bytes : ∀ ch ∈ key, ok ch)
    (run : appendKey dictionary key value = .ok dictionary') :
    ∃ root address found, appendLoop irsCharToIrsInt irsDictionaryChildrenSize
      (UInt32.ofNat (irsStrLen key)).toNat
        dictionary.root (readPart key) = .ok (root, address) ∧
      dictionary'.root = root.modifyAt (pushBack value) address ∧ root.nodeAt address = some found ∧
      contents irsCharToIrsInt dictionary'.root = push (contents irsCharToIrsInt dictionary.root)
        (spell root address) value ∧
      (spell root address).map tolower = (readPart key).map tolower ∧
      (¬Clash SameFold (keys irsCharToIrsInt dictionary.root) (readPart key) →
        spell root address = readPart key) := by
  obtain ⟨⟨_, address⟩, run, done⟩ := bind_ok.mp run
  cases done
  obtain ⟨root, found, spec⟩ :=
    irsDictionaryAppend_at kept (fun ch member => bytes ch (List.mem_of_mem_take member)) run
  exact ⟨root, address, found, spec⟩

theorem appendKey_contents {dictionary dictionary' : IrsDictionary α} {key : Bytes} {value : α}
    (kept : Kept ok dictionary) (bytes : ∀ ch ∈ key, ok ch)
    (run : appendKey dictionary key value = .ok dictionary') :
    ∃ word, contents irsCharToIrsInt dictionary'.root =
      push (contents irsCharToIrsInt dictionary.root) word value ∧
      word.map tolower = (readPart key).map tolower ∧
      (¬Clash SameFold (keys irsCharToIrsInt dictionary.root) (readPart key) →
        word = readPart key) := by
  obtain ⟨root, address, found, -, -, -, spec⟩ := appendKey_at kept bytes run
  exact ⟨spell root address, spec⟩

theorem readPart_short {key : Bytes} (noNul : ∀ ch ∈ key, ch ≠ 0) (short : key.length < 2 ^ 32) :
    readPart key = key := by
  rw [readPart, irsStrLen_of_noNul noNul, UInt32.toNat_ofNat_of_lt' short, List.take_length]

/-! ### Whole sequences -/

theorem kept_appendAll {dictionary dictionary' : IrsDictionary α} {pairs : List (Bytes × α)}
    (kept : Kept ok dictionary) (bytes : ∀ pair ∈ pairs, ∀ ch ∈ pair.1, ok ch)
    (run : appendAll dictionary pairs = .ok dictionary') :
    Kept ok dictionary' :=
  foldlM_invariant (Kept ok) kept
    (fun _ pair _ member kept step => kept_appendKey kept (bytes pair member) step) run

theorem appendAll_total {dictionary : IrsDictionary α} {pairs : List (Bytes × α)}
    (kept : Kept Admitted dictionary) (bytes : ∀ pair ∈ pairs, ∀ ch ∈ pair.1, Admitted ch) :
    ∃ dictionary', appendAll dictionary pairs = .ok dictionary' ∧ Kept Admitted dictionary' := by
  apply foldlM_progress _ kept
  intro dictionary pair member kept
  obtain ⟨dictionary', run⟩ := appendKey_total pair.2 kept (bytes pair member)
  exact ⟨dictionary', run, kept_appendKey kept (bytes pair member) run⟩

theorem contents_freshDictionary (word : Bytes) :
    contents irsCharToIrsInt (freshDictionary : IrsDictionary α).root word = [] :=
  contents_freshNode _ word

theorem appendAll_contents {dictionary : IrsDictionary α} {pairs : List (Bytes × α)}
    (bytes : ∀ pair ∈ pairs, ∀ ch ∈ pair.1, ch ≠ 0) (short : ∀ pair ∈ pairs, pair.1.length < 2 ^ 32)
    (unmixed : Unmixed SameFold (pairs.map Prod.fst))
    (run : appendAll freshDictionary pairs = .ok dictionary) :
    contents irsCharToIrsInt dictionary.root = ofPairs pairs := by
  induction pairs using List.reverseRecOn generalizing dictionary with
  | nil =>
    cases run
    funext word
    exact contents_freshDictionary word
  | append_singleton pairs pair ih =>
    obtain ⟨middle, before, last⟩ := foldlM_concat_ok.mp run
    simp only [List.mem_append, List.mem_singleton, or_imp, forall_and, forall_eq] at bytes short
    rw [List.map_append, List.map_singleton] at unmixed
    have stored := ih bytes.1 short.1 unmixed.init before
    have kept := kept_appendAll kept_freshDictionary bytes.1 before
    obtain ⟨word, pushed, -, exact⟩ := appendKey_contents kept bytes.2 last
    rw [readPart_short bytes.2 short.2] at exact
    have same : keys irsCharToIrsInt middle.root = {key | key ∈ pairs.map Prod.fst} := by
      ext key
      rw [keys, stored, Set.mem_ofPred_eq, Set.mem_ofPred_eq, ofPairs_ne_nil]
    rw [pushed, stored, ofPairs_concat, exact (same ▸ unmixed.last)]

/-! ### The representation invariant -/

/-- Strings as the dictionary is meant to take them. -/
structure Query extends CString where
  noDelete : ∀ ch ∈ bytes, ch ≠ 0x7F

structure Key extends Query where
  nonempty : bytes ≠ []

theorem Query.admitted (query : Query) : ∀ ch ∈ query.bytes, Admitted ch :=
  fun ch member => ⟨query.noNul ch member, query.noDelete ch member⟩

def entriesOf (pairs : List (Key × α)) : List (Bytes × α) :=
  pairs.map fun pair => (pair.1.bytes, pair.2)

theorem entriesOf_admitted (pairs : List (Key × α)) :
    ∀ pair ∈ entriesOf pairs, ∀ ch ∈ pair.1, Admitted ch := by
  simp only [entriesOf, List.mem_map, forall_exists_index, and_imp, forall_apply_eq_imp_iff₂]
  exact fun pair _ => pair.1.toQuery.admitted

structure PrefixTree (dictionary : IrsDictionary α) : Prop where
  root : dictionary.root.label = [] ∧ dictionary.root.offsetSize = 0
  labels : ∀ address node, address ≠ [] → dictionary.root.nodeAt address = some node →
    node.label ≠ [] ∧ node.label.length = node.offsetSize
  slots : ∀ address node (num : Nat) child, dictionary.root.nodeAt address = some node →
    node.next[num]? = some (some child) →
    ∃ b, child.label.head? = some b ∧ (dictionary.irsCharToIrsInt b).toNat = num
  branches : ∀ address node, address ≠ [] → dictionary.root.nodeAt address = some node →
    node.dataList = none →
    Branches node

theorem Kept.prefixTree {dictionary : IrsDictionary α} (kept : Kept ok dictionary) :
    PrefixTree dictionary where
  root := ⟨kept.rootLabel, kept.rootSize⟩
  labels := by
    intro address node below located
    obtain ⟨num, edge⟩ := edge_nodeAt kept.tidy located below
    exact ⟨edge.nonempty, edge.exact⟩
  slots := by
    intro address node num child located stored
    obtain ⟨b, back, label, index⟩ := ((tidy_nodeAt kept.tidy located).edge stored).first
    exact ⟨b, by rw [label, List.head?_cons], by rw [kept.toInt, index]⟩
  branches := by
    intro address node below located noData
    exact kept.bushy address node below id located noData

/-- Every sequence of appends ends well and leaves a prefix tree. -/
theorem appendAll_prefixTree (pairs : List (Key × α)) :
    ∃ dictionary, appendAll freshDictionary (entriesOf pairs) = .ok dictionary ∧
      PrefixTree dictionary := by
  obtain ⟨dictionary, run, kept⟩ := appendAll_total kept_freshDictionary (entriesOf_admitted pairs)
  exact ⟨dictionary, run, kept.prefixTree⟩

end IrsMachine
