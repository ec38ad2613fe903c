import IrsMachine.Dictionary.Lookup

/-!
# What comes back

`appendAll_retrieves`: keys that do not clash are all found, each with its own values.
`appendAll_notFound_iff`: a string that is no key is not found exactly when no stored word
agrees with it where the lookup compares.
-/

namespace IrsMachine
open IrsDictionaryNode Except Multimap Words

variable {α : Type}

/-- Every key is found, with exactly the values appended under it, in order. -/
def Retrieves (dictionary : IrsDictionary α) (pairs : List (Bytes × α)) : Prop :=
  ∀ key ∈ pairs.map Prod.fst, irsDictionaryIsIn dictionary key = .ok true ∧
    irsDictionaryGet dictionary key =
    .ok (some ((pairs.filter fun pair => decide (pair.1 = key)).map Prod.snd))

def NotFound (dictionary : IrsDictionary α) (irsString : Bytes) : Prop :=
  irsDictionaryIsIn dictionary irsString = .ok false ∧
    irsDictionaryGet dictionary irsString = .ok none

/-- Keys that an append tells apart from all earlier ones, and whose length fits `size`. -/
structure ToldApart (pairs : List (Key × α)) : Prop where
  short : ∀ pair ∈ pairs, pair.1.bytes.length < 2 ^ 32
  unmixed : Unmixed SameFold (pairs.map fun pair => pair.1.bytes)

theorem ToldApart.contents {pairs : List (Key × α)} {dictionary : IrsDictionary α}
    (apart : ToldApart pairs) (run : appendAll freshDictionary (entriesOf pairs) = .ok dictionary) :
    contents irsCharToIrsInt dictionary.root = ofPairs (entriesOf pairs) := by
  refine appendAll_contents
    (fun pair member ch inside => (entriesOf_admitted pairs pair member ch inside).1) ?_ ?_ run
  · simp only [entriesOf, List.mem_map, forall_exists_index, and_imp, forall_apply_eq_imp_iff₂]
    exact apart.short
  · simpa only [entriesOf, List.map_map, Function.comp_def] using apart.unmixed

theorem ToldApart.init {front back : List (Key × α)} (apart : ToldApart (front ++ back)) :
    ToldApart front :=
  ⟨fun pair member => apart.short pair (List.mem_append_left _ member),
    by have := apart.unmixed; rw [List.map_append] at this; exact this.init⟩

theorem unmixed_of_lower {words : List Bytes}
    (lower : ∀ word ∈ words, ∀ ch ∈ word, tolower ch = ch) :
    Unmixed SameFold words :=
  unmixed_of_apart fun w hw a ha v hv b hb same => by rw [← lower w hw a ha, same, lower v hv b hb]

/-- After every step of the sequence all keys so far are found. -/
theorem appendAll_retrieves (pairs : List (Key × α)) (apart : ToldApart pairs) :
    ∀ front, front <+: pairs → ∃ dictionary, appendAll freshDictionary (entriesOf front) =
      .ok dictionary ∧
      Retrieves dictionary (entriesOf front) := by
  rintro front ⟨back, rfl⟩
  have front_apart := apart.init
  obtain ⟨dictionary, run, kept⟩ := appendAll_total kept_freshDictionary (entriesOf_admitted front)
  have stored := front_apart.contents run
  refine ⟨dictionary, run, fun key member => ?_⟩
  have present : contents irsCharToIrsInt dictionary.root key ≠ [] := by
    rw [stored]
    exact ofPairs_ne_nil.mpr member
  obtain ⟨pair, inside, rfl⟩ : ∃ pair ∈ front, pair.1.bytes = key := by
    simpa [entriesOf] using member
  obtain ⟨get, isIn⟩ :=
    get_stored kept (fun ch => And.left) pair.1.noNul (front_apart.short pair inside) present
  rw [stored, ofPairs_apply] at get
  exact ⟨isIn, get⟩

theorem appendAll_retrieves_abc :
    let abc : Key := ⟨⟨⟨[97, 98, 99], by simp, by simp⟩, by simp⟩, by simp⟩
    let abd : Key := ⟨⟨⟨[97, 98, 100], by simp, by simp⟩, by simp⟩, by simp⟩
    ∃ dictionary, appendAll freshDictionary (entriesOf [(abc, 1), (abd, 2), (abc, 3)]) =
    .ok dictionary ∧
      Retrieves dictionary (entriesOf [(abc, 1), (abd, 2), (abc, 3)]) :=
  appendAll_retrieves _ ⟨by simp, unmixed_of_lower (by simp [tolower])⟩ _ (List.prefix_refl _)

/-- `iT` is filed under `it` and then looked for in vain. -/
theorem retrieves_fails_it_iT :
    let it : Key := ⟨⟨⟨[105, 116], by simp, by simp⟩, by simp⟩, by simp⟩
    let iT : Key := ⟨⟨⟨[105, 84], by simp, by simp⟩, by simp⟩, by simp⟩
    ¬∃ dictionary, appendAll freshDictionary (entriesOf [(it, 1), (iT, 2)]) = .ok dictionary ∧
      Retrieves dictionary (entriesOf [(it, 1), (iT, 2)]) := by
  rintro it iT ⟨dictionary, run, retrieves⟩
  have lookup : (appendAll freshDictionary (entriesOf [(it, 1), (iT, 2)]) >>= fun dictionary =>
      irsDictionaryIsIn dictionary iT.bytes) = .ok false := by decide +kernel
  rw [run, ok_bind] at lookup
  have := (retrieves iT.bytes (by decide)).1
  rw [lookup] at this
  cases this

/-! ### Strings that are no key -/

/-- What is looked up and is no key is found exactly when it passes for a stored word. When
the keys are told apart, the stored words are the keys. -/
theorem appendAll_notFound_iff (pairs : List (Key × α)) :
    ∃ dictionary, appendAll freshDictionary (entriesOf pairs) = .ok dictionary ∧
      (ToldApart pairs → keys irsCharToIrsInt dictionary.root =
        {key | key ∈ pairs.map fun pair => pair.1.bytes}) ∧
      ∀ query : Query, query.bytes ∉ pairs.map (fun pair => pair.1.bytes) →
        (NotFound dictionary query.bytes ↔ 2 ^ 32 ≤ query.bytes.length ∨
          ∀ word ∈ keys irsCharToIrsInt dictionary.root,
            ¬Passes (keys irsCharToIrsInt dictionary.root) word query.bytes) := by
  obtain ⟨dictionary, run, kept⟩ := appendAll_total kept_freshDictionary (entriesOf_admitted pairs)
  refine ⟨dictionary, run, fun apart => ?_, fun query _ => ?_⟩
  · ext key
    rw [keys, apart.contents run, Set.mem_ofPred_eq, Set.mem_ofPred_eq, ofPairs_ne_nil,
      entriesOf, List.map_map]
    rfl
  · obtain ⟨list, get, isIn, spec⟩ := get_spec kept (fun ch => And.left) query.admitted
    simp only [NotFound, get, isIn, Except.ok.injEq]
    constructor
    · rintro ⟨-, rfl⟩
      by_contra found
      rw [not_or, not_forall] at found
      obtain ⟨short, word, found⟩ := found
      rw [Classical.not_imp, not_not] at found
      have := (spec _).mpr ⟨by omega, word, ⟨rfl, found.1⟩, found.2⟩
      cases this
    · intro avoids
      cases list with
      | none => exact ⟨rfl, rfl⟩
      | some values =>
        obtain ⟨short, word, ⟨rfl, present⟩, passes⟩ := (spec values).mp rfl
        rcases avoids with long | none
        · omega
        · exact absurd passes (none word present)

/-- With `abc` and `abd` stored, `axc` is taken for `abc`. -/
theorem notFound_fails_axc :
    let abc : Key := ⟨⟨⟨[97, 98, 99], by simp, by simp⟩, by simp⟩, by simp⟩
    let abd : Key := ⟨⟨⟨[97, 98, 100], by simp, by simp⟩, by simp⟩, by simp⟩
    let axc : Query := ⟨⟨[97, 120, 99], by simp, by simp⟩, by simp⟩
    axc.bytes ∉ [abc.bytes, abd.bytes] ∧
      ¬∃ dictionary, appendAll freshDictionary (entriesOf [(abc, 1), (abd, 2)]) = .ok dictionary ∧
        NotFound dictionary axc.bytes := by
  refine ⟨by decide, ?_⟩
  rintro ⟨dictionary, run, -, none⟩
  have lookup : (appendAll freshDictionary [([97, 98, 99], 1), ([97, 98, 100], 2)] >>=
    fun dictionary =>
      irsDictionaryGet dictionary [97, 120, 99]) = .ok (some [1]) := by decide +kernel
  rw [show appendAll freshDictionary [([97, 98, 99], 1), ([97, 98, 100], 2)] =
    .ok dictionary from run, ok_bind, none] at lookup
  cases lookup

end IrsMachine
