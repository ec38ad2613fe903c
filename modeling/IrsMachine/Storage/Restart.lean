import IrsMachine.Dictionary.Order
import IrsMachine.Dictionary.Retrieval
import IrsMachine.Dictionary.Shape
import IrsMachine.Storage.Load
import IrsMachine.Storage.Ratio
import IrsMachine.Storage.Terms

/-!
# Restart

A load builds the dictionary of term offsets anew, from the first pair of every list in the
order of the traversal. Where no letters are mixed up on the way, queries get the same first
offsets as before (`addBatches_restart`).
-/

namespace IrsMachine
open IrsDictionaryNode Except Multimap Words

/-! ### Appending pairs anew -/

theorem appendPair_total {dictionary : IrsDictionary TermOffsetValue} {term : Bytes}
    (offset : UInt64) (kept : Kept Admitted dictionary) (bytes : ∀ ch ∈ term, Admitted ch) :
    ∃ dictionary', appendPair dictionary term offset = .ok dictionary' := by
  obtain ⟨middle, first⟩ := appendKey_total (TermOffsetValue.offset offset) kept bytes
  obtain ⟨word, -, filed, -⟩ := appendKey_filed kept bytes first
  obtain ⟨last, second, -⟩ := filed.append (kept_appendKey kept bytes first) (.term term)
  exact ⟨last, bind_ok.mpr ⟨middle, first, second⟩⟩

theorem unpaired_filter_ne_nil {pairs : List (UInt64 × Bytes)} {word : Bytes} :
    unpaired (pairs.filter fun pair => decide (pair.2 = word)) ≠ [] ↔
      word ∈ pairs.map Prod.snd := by
  simp [unpaired]

theorem appendPairs_contents {pairs : List (UInt64 × Bytes)}
    (bytes : ∀ pair ∈ pairs, ∀ ch ∈ pair.2, Admitted ch)
    (short : ∀ pair ∈ pairs, pair.2.length < 2 ^ 32)
    (unmixed : Unmixed SameFold (pairs.map Prod.snd)) :
    ∃ dictionary, appendPairs freshDictionary pairs = .ok dictionary ∧ Indexed Admitted dictionary ∧
      ∀ word, contents irsCharToIrsInt dictionary.root word =
        unpaired (pairs.filter fun pair => decide (pair.2 = word)) := by
  induction pairs using List.reverseRecOn with
  | nil => exact ⟨freshDictionary, rfl, indexed_freshDictionary, contents_freshDictionary⟩
  | append_singleton pairs pair ih =>
    simp only [List.mem_append, List.mem_singleton, or_imp, forall_and, forall_eq] at bytes short
    rw [List.map_append, List.map_singleton] at unmixed
    obtain ⟨dictionary, before, indexed, stored⟩ := ih bytes.1 short.1 unmixed.init
    obtain ⟨dictionary', step⟩ := appendPair_total pair.1 indexed.toKept bytes.2
    obtain ⟨indexed', word, -, exact, pushed⟩ := appendPair_ok indexed bytes.2 step
    have read : readPart pair.2 = pair.2 :=
      readPart_short (fun ch member => (bytes.2 ch member).1) short.2
    have same : keys irsCharToIrsInt dictionary.root = {key | key ∈ pairs.map Prod.snd} := by
      ext key
      rw [mem_keys, stored, unpaired_filter_ne_nil]
      rfl
    rw [read] at exact
    obtain rfl : word = pair.2 := exact (same ▸ unmixed.last)
    refine ⟨dictionary', foldlM_concat_ok.mpr ⟨dictionary, before, step⟩, indexed',
      fun other => ?_⟩
    rw [pushed, stored, stored, List.filter_append]
    split
    · rename_i here
      rw [here, unpaired, unpaired, List.flatMap_append]
      simp
    · rename_i different
      simp [Ne.symm different]

/-! ### The saved pairs -/

/-- Every list stands at the word of its first term, and the words do not clash in the order
of the traversal. -/
structure Restorable (dictionary : IrsDictionary TermOffsetValue) : Prop where
  own : ∀ entry ∈ entries dictionary.root, (pairsOf entry.2).head?.map Prod.snd = some entry.1
  apart : Unmixed SameFold ((entries dictionary.root).map Prod.fst)

theorem savedPair_eq (node : IrsDictionaryNode TermOffsetValue) :
    savedPair node = node.dataList.bind fun list => (pairsOf list).head? := by
  cases data : node.dataList with
  | none => rw [savedPair, data]; rfl
  | some list =>
    rw [savedPair, data, Option.bind_some]
    rcases list with _ | ⟨_ | _, _ | ⟨_ | _, _⟩⟩ <;> rfl

theorem savedPairs_eq {dictionary : IrsDictionary TermOffsetValue}
    (root : dictionary.root.dataList = none) :
    savedPairs dictionary = (entries dictionary.root).filterMap fun entry =>
      (pairsOf entry.2).head? := by
  rw [entries, List.filterMap_cons, root, Option.map_none, List.filterMap_filterMap, savedPairs,
    irsDictionaryVisitDownNodes]
  congr 1
  funext visit
  rw [savedPair_eq]
  cases visit.2.dataList <;> rfl

theorem map_snd_filterMap {β γ δ : Type} {f : β → Option (γ × δ)} {g : β → δ} {list : List β}
    (all : ∀ entry ∈ list, (f entry).map Prod.snd = some (g entry)) :
    (list.filterMap f).map Prod.snd = list.map g := by
  induction list with
  | nil => rfl
  | cons entry list ih =>
    obtain ⟨pair, here, same⟩ := Option.map_eq_some_iff.mp (all entry List.mem_cons_self)
    rw [List.filterMap_cons_some here, List.map_cons, List.map_cons, same,
      ih fun other member => all other (List.mem_cons_of_mem _ member)]

theorem Restorable.root {dictionary : IrsDictionary TermOffsetValue} {terms : List Bytes}
    (restorable : Restorable dictionary) (held : HeldTerms Admitted terms dictionary)
    (nonempty : ∀ term ∈ terms, term ≠ []) : dictionary.root.dataList = none := by
  cases data : dictionary.root.dataList with
  | none => rfl
  | some values =>
    have entry : ([], values) ∈ entries dictionary.root :=
      List.mem_filterMap.mpr ⟨([], dictionary.root), List.mem_cons_self, by rw [data]; rfl⟩
    obtain ⟨pair, first, empty⟩ := Option.map_eq_some_iff.mp (restorable.own _ entry)
    have member : pair ∈ heldPairs dictionary :=
      List.mem_flatMap.mpr ⟨_, entry, List.mem_of_mem_head? (by simp [first])⟩
    exact absurd empty (nonempty _ (held.held pair member))

theorem Restorable.saved {dictionary : IrsDictionary TermOffsetValue}
    (restorable : Restorable dictionary) (indexed : Indexed Admitted dictionary)
    (root : dictionary.root.dataList = none) :
    (savedPairs dictionary).map Prod.snd = (entries dictionary.root).map Prod.fst ∧
      ∀ pair ∈ savedPairs dictionary,
        (contents irsCharToIrsInt dictionary.root pair.2).head? = some (.offset pair.1) ∧
        pair.2.length < 2 ^ 32 := by
  rw [savedPairs_eq root]
  refine ⟨map_snd_filterMap restorable.own, fun pair member => ?_⟩
  obtain ⟨⟨word, values⟩, entry, first⟩ := List.mem_filterMap.mp member
  have own := restorable.own _ entry
  rw [first, Option.map_some, Option.some.injEq] at own
  obtain ⟨stored, present⟩ := ((lists_entries indexed.tidy).mem word values).mp entry
  have key : word ∈ keys irsCharToIrsInt dictionary.root := by rw [mem_keys, stored]; exact present
  refine ⟨?_, own ▸ indexed.short word key⟩
  have paired := indexed.paired word
  rw [stored] at paired
  obtain ⟨rest, pairs⟩ : ∃ rest, pairsOf values = pair :: rest := by
    cases pairs : pairsOf values with
    | nil => rw [pairs] at first; cases first
    | cons head rest => rw [pairs] at first; cases first; exact ⟨rest, rfl⟩
  rw [own, stored, ← paired, pairs]
  rfl

/-! ### After a restart -/

theorem restore_alike {dictionary : IrsDictionary TermOffsetValue} {terms : List Bytes}
    (restorable : Restorable dictionary) (held : HeldTerms Admitted terms dictionary)
    (bytes : ∀ term ∈ terms, term ≠ [] ∧ ∀ ch ∈ term, Admitted ch) :
    ∃ dictionary', appendPairs freshDictionary
      ((savedPairs dictionary).map fun pair => (pair.1, cString pair.2)) = .ok dictionary' ∧
      dictionary'.irsCharToIrsInt = dictionary.irsCharToIrsInt ∧
      Alike List.head? dictionary'.root dictionary.root := by
  have root := restorable.root held fun term member => (bytes term member).1
  obtain ⟨words, saved⟩ := restorable.saved held.toIndexed root
  have admitted : ∀ pair ∈ savedPairs dictionary, ∀ ch ∈ pair.2, Admitted ch := by
    intro pair member
    rw [savedPairs_eq root] at member
    obtain ⟨entry, inside, first⟩ := List.mem_filterMap.mp member
    exact (bytes _ (held.held pair
      (List.mem_flatMap.mpr ⟨entry, inside, List.mem_of_mem_head? (by simp [first])⟩))).2
  have strings : (savedPairs dictionary).map (fun pair => (pair.1, cString pair.2)) =
      savedPairs dictionary := by
    rw [List.map_congr_left (g := id) fun pair member => by
      rw [cString_of_noNul fun ch inside => (admitted pair member ch inside).1]; rfl, List.map_id]
  obtain ⟨dictionary', run, indexed', stored⟩ :=
    appendPairs_contents admitted (fun pair member => (saved pair member).2)
    (words ▸ restorable.apart)
  have same : keys irsCharToIrsInt dictionary'.root = keys irsCharToIrsInt dictionary.root := by
    ext word
    rw [mem_keys, stored, unpaired_filter_ne_nil, words, mem_map_entries held.tidy]
  refine ⟨dictionary', by rw [strings, run], by rw [indexed'.toInt, held.toInt], ?_⟩
  refine alike_of_keys indexed'.tidy indexed'.bushy held.tidy held.bushy
    (by rw [indexed'.rootLabel, held.rootLabel])
    (by rw [indexed'.rootSize, held.rootSize]) same fun word => ?_
  rw [stored]
  cases list : (savedPairs dictionary).filter fun pair => decide (pair.2 = word) with
  | nil =>
    have absent : word ∉ keys irsCharToIrsInt dictionary'.root := by
      rw [mem_keys, stored, list]
      simp [unpaired]
    rw [same, mem_keys, not_not] at absent
    rw [absent]
    rfl
  | cons pair rest =>
    have member : pair ∈ (savedPairs dictionary).filter fun pair => decide (pair.2 = word) := by
      rw [list]; exact List.mem_cons_self
    obtain ⟨inside, here⟩ := List.mem_filter.mp member
    rw [← of_decide_eq_true here, (saved pair inside).1]
    rfl

variable {F : Type} [IrsFloat F]

theorem irsStorageAddDocuments_path {outcomes : Nat → WriteOutcome} {system system' : System}
    {documents : List Bytes} {status : IrsStorageStatus}
    (run : irsStorageAddDocuments F outcomes system documents = .ok (status, system')) :
    system'.storage.termOffsetsPath = system.storage.termOffsetsPath := by
  obtain ⟨written, assigned, writer, bytes, storage, -, -, terms, rfl⟩ | ⟨bytes, storage⟩ :=
    irsStorageAddDocuments_cases run
  · obtain ⟨-, frame⟩ :=
      passRecords_frame (atEnd_open written.world written.storage.termsPath) terms
    exact (congrArg IrsStorage.termOffsetsPath frame.storage).trans (by rw [storage]; rfl)
  · rw [storage]
    rfl

theorem addBatches_path {outcomes : Nat → WriteOutcome} {path : Bytes} {world : World}
    {batches : List (List Bytes)} {run : Run}
    (ran : addBatches F outcomes (freshSystem path world) batches = .ok run) :
    run.system.storage.termOffsetsPath = (irsStorageInitialize path).termOffsetsPath := by
  induction batches using List.reverseRecOn generalizing run with
  | nil =>
    cases ran
    rfl
  | append_singleton batches batch ih =>
    obtain ⟨before, status, system', first, call, -, hSystem, -⟩ := addBatches_concat ran
    rw [hSystem, irsStorageAddDocuments_path call, ih first]

/-! ### Texts without mixed case -/

def OneCase (words : List Bytes) : Prop :=
  ∀ w ∈ words, ∀ a ∈ w, ∀ v ∈ words, ∀ b ∈ v, SameFold a b → a = b

structure OwnTerms (terms : List Bytes) (dictionary : IrsDictionary TermOffsetValue) :
    Prop extends Indexed Admitted dictionary where
  own : ∀ word, ∀ pair ∈ pairsOf (contents irsCharToIrsInt dictionary.root word),
    pair.2 = word ∧ word ∈ terms

theorem OwnTerms.first {terms : List Bytes} {word : Bytes}
    {dictionary : IrsDictionary TermOffsetValue} (ownTerms : OwnTerms terms dictionary)
    (present : word ∈ keys irsCharToIrsInt dictionary.root) :
    ∃ pair rest, pairsOf (contents irsCharToIrsInt dictionary.root word) = pair :: rest ∧
      pair.2 = word ∧ word ∈ terms := by
  cases pairs : pairsOf (contents irsCharToIrsInt dictionary.root word) with
  | nil =>
    have paired := ownTerms.paired word
    rw [Paired, pairs] at paired
    exact absurd paired.symm present
  | cons pair rest =>
    exact ⟨pair, rest, rfl, ownTerms.own word pair (by rw [pairs]; exact List.mem_cons_self)⟩

theorem OwnTerms.append {terms : List Bytes}
    {dictionary dictionary' : IrsDictionary TermOffsetValue} {term : Bytes} {offset : UInt64}
    (ownTerms : OwnTerms terms dictionary) (oneCase : OneCase terms) (member : term ∈ terms)
    (bytes : ∀ ch ∈ term, Admitted ch) (short : term.length < 2 ^ 32)
    (run : appendPair dictionary term offset = .ok dictionary') :
    OwnTerms terms dictionary' := by
  obtain ⟨indexed, word, -, exact, pushed⟩ := appendPair_ok ownTerms.toIndexed bytes run
  rw [readPart_short (fun ch inside => (bytes ch inside).1) short] at exact
  have noClash : ¬Clash SameFold (keys irsCharToIrsInt dictionary.root) term := by
    apply not_clash_of_apart
    intro a inside k present b inside' same
    obtain ⟨_, _, -, -, known⟩ := ownTerms.first present
    exact oneCase term member a inside k known b inside' same
  obtain rfl := exact noClash
  refine ⟨indexed, fun other pair inside => ?_⟩
  rw [pushed] at inside
  split at inside
  · rename_i here
    rw [((ownTerms.paired word).concat offset word).2, List.mem_append,
      List.mem_singleton] at inside
    rcases inside with old | rfl
    · exact here ▸ ownTerms.own word pair old
    · exact ⟨here.symm, here ▸ member⟩
  · exact ownTerms.own other pair inside

theorem irsStorageAddDocuments_own {outcomes : Nat → WriteOutcome} {system system' : System}
    {documents terms : List Bytes} {status : IrsStorageStatus} (oneCase : OneCase terms)
    (among : ∀ term ∈ tokensOf documents, term ∈ terms)
    (bytes : ∀ term ∈ tokensOf documents, (∀ ch ∈ term, Admitted ch) ∧ term.length < 2 ^ 32)
    (ownTerms : OwnTerms terms system.storage.termOffsetDictionary)
    (run : irsStorageAddDocuments F outcomes system documents = .ok (status, system')) :
    OwnTerms terms system'.storage.termOffsetDictionary := by
  obtain ⟨written, assigned, writer, grown, storage, documents', assign, terms',
    rfl⟩ | ⟨grown, storage⟩ :=
    irsStorageAddDocuments_cases run
  · have named :=
      irsStorageAssignTermsInDocuments_among
        (by rw [documents']; exact fun term member => (bytes term member).1) assign
    rw [documents'] at named
    have start : OwnTerms terms written.storage.termOffsetDictionary := by
      rw [storage]
      exact ownTerms
    refine (foldlM_invariant
      (fun current : TermsWriter => (∃ chars, AtEnd current.channel current.world chars) ∧
      OwnTerms terms current.storage.termOffsetDictionary)
      ⟨⟨[], atEnd_open written.world written.storage.termsPath⟩, start⟩ ?_ terms').2
    rintro current visit next member ⟨⟨chars, atEnd⟩, ownTerms⟩ step
    rcases irsStoragePassTermsDocSignificancyDictionary_ok atEnd
      step with ⟨-, rfl⟩ | ⟨term, dictionary, isTerm, append, -, extended⟩
    · exact ⟨⟨chars, atEnd⟩, ownTerms⟩
    · have inside := named.visits visit member term isTerm
      rw [extended.storage]
      exact ⟨⟨_, extended.atEnd⟩, ownTerms.append oneCase (among term inside) (bytes term inside).1
        (bytes term inside).2 append⟩
  · rw [storage]
    exact ownTerms

theorem addBatches_own {outcomes : Nat → WriteOutcome} {path : Bytes} {world : World}
    {batches : List (List Bytes)} {terms : List Bytes} {run : Run} (oneCase : OneCase terms)
    (among : ∀ term ∈ tokensOf batches.flatten, term ∈ terms)
    (bytes : ∀ term ∈ tokensOf batches.flatten, (∀ ch ∈ term, Admitted ch) ∧ term.length < 2 ^ 32)
    (ran : addBatches F outcomes (freshSystem path world) batches = .ok run) :
    OwnTerms terms run.system.storage.termOffsetDictionary := by
  induction batches using List.reverseRecOn generalizing run with
  | nil =>
    cases ran
    exact ⟨indexed_freshDictionary, fun word pair member => by
      rw [show contents irsCharToIrsInt (freshSystem path world).storage.termOffsetDictionary.root
        word = [] from
        contents_freshDictionary word] at member
      cases member⟩
  | append_singleton batches batch ih =>
    obtain ⟨before, status, system', first, call, -, hSystem, -⟩ := addBatches_concat ran
    have tokens : tokensOf (batches ++ [batch]).flatten =
        tokensOf batches.flatten ++ tokensOf batch := by simp [tokensOf]
    rw [tokens] at among bytes
    rw [hSystem]
    exact irsStorageAddDocuments_own oneCase
      (fun term member => among term (List.mem_append_right _ member))
      (fun term member => bytes term (List.mem_append_right _ member))
      (ih (fun term member => among term (List.mem_append_left _ member))
        (fun term member => bytes term (List.mem_append_left _ member)) first) call

/-- Where no letter comes in both cases, the dictionary can be restored after every run. -/
theorem addBatches_restorable {outcomes : Nat → WriteOutcome} {path : Bytes} {world : World}
    {batches : List (List Bytes)} {run : Run} (oneCase : OneCase (tokensOf batches.flatten))
    (bytes : ∀ term ∈ tokensOf batches.flatten, (∀ ch ∈ term, Admitted ch) ∧ term.length < 2 ^ 32)
    (ran : addBatches F outcomes (freshSystem path world) batches = .ok run) :
    Restorable run.system.storage.termOffsetDictionary := by
  have ownTerms := addBatches_own oneCase (fun _ => id) bytes ran
  constructor
  · rintro ⟨word, values⟩ entry
    have present : word ∈ keys irsCharToIrsInt run.system.storage.termOffsetDictionary.root :=
      (mem_map_entries ownTerms.tidy).mp (List.mem_map_of_mem entry)
    obtain ⟨pair, rest, pairs, same, -⟩ := ownTerms.first present
    rw [((lists_entries ownTerms.tidy).mem word values).mp entry |>.1] at pairs
    simp only [pairs, List.head?_cons, Option.map_some, same]
  · have known : ∀ word ∈ (entries run.system.storage.termOffsetDictionary.root).map Prod.fst,
        word ∈ tokensOf batches.flatten := by
      intro word member
      obtain ⟨_, _, -, -, known⟩ := ownTerms.first ((mem_map_entries ownTerms.tidy).mp member)
      exact known
    exact unmixed_of_apart fun w hw a ha v hv => oneCase w (known w hw) a ha v (known v hv)

/-! ### Saved and loaded again -/

/-- A storage that is saved and loaded again answers every query with the same first offset. -/
theorem addBatches_restart {outcomes saving : Nat → WriteOutcome} {path : Bytes}
    {world saved : World} {batches : List (List Bytes)} {run : Run}
    (noDelete : ∀ term ∈ tokensOf batches.flatten, ∀ ch ∈ term, ch ≠ 0x7F)
    (ran : addBatches F outcomes (freshSystem path world) batches = .ok run)
    (restorable : Restorable run.system.storage.termOffsetDictionary)
    (save : irsStorageSave saving run.system = .ok (.ok, saved)) :
    ∃ loaded, irsStorageLoad (irsStorageInitialize path) saved = .ok (.ok, loaded) ∧
      loaded.termsSize = run.system.storage.termsSize ∧
      loaded.documentsSize = run.system.storage.documentsSize ∧
      ∀ query, (irsDictionaryGet loaded.termOffsetDictionary query).map (Option.map List.head?) =
        (irsDictionaryGet run.system.storage.termOffsetDictionary query).map
          (Option.map List.head?) := by
  have admitted : ∀ term ∈ tokensOf batches.flatten, ∀ ch ∈ term, Admitted ch :=
    fun term member ch inside => ⟨token_noNul member ch inside, noDelete term member ch inside⟩
  have held := addBatches_terms admitted ran
  obtain ⟨contents, small⟩ := irsStorageSave_ok save
  rw [addBatches_path ran] at contents
  obtain ⟨dictionary, appends, mapped, alike⟩ := restore_alike restorable held
    fun term member => ⟨token_nonempty member, admitted term member⟩
  have load := irsStorageLoad_saved contents small
  rw [show (irsStorageInitialize path).termOffsetDictionary = freshDictionary from rfl, appends,
    ok_bind] at load
  exact ⟨_, load, rfl, rfl, fun query => get_alike query mapped alike⟩

theorem addBatches_restart_a_b :
    ∃ run saved loaded, addBatches Ratio allWritten (freshSystem [] .empty) [[[97, 32, 98], [97]]] =
      .ok run ∧
      irsStorageSave allWritten run.system = .ok (.ok, saved) ∧
      irsStorageLoad (irsStorageInitialize []) saved = .ok (.ok, loaded) ∧
      loaded.termsSize = run.system.storage.termsSize := by
  have facts : (addBatches Ratio allWritten (freshSystem [] .empty) [[[97, 32, 98], [97]]] >>=
    fun run =>
      irsStorageSave allWritten run.system >>= fun save => .ok save.1) =
        .ok .ok := by decide +kernel
  obtain ⟨run, ran, facts⟩ := bind_ok.mp facts
  obtain ⟨⟨status, saved⟩, save, facts⟩ := bind_ok.mp facts
  obtain rfl : status = .ok := Except.ok.inj facts
  have tokens : tokensOf [[[97, 32, 98], [97]]].flatten = [[97], [98], [97]] := by decide +kernel
  have restorable : Restorable run.system.storage.termOffsetDictionary :=
    addBatches_restorable (by rw [tokens]; simp [OneCase, SameFold, tolower])
      (by rw [tokens]; simp [Admitted]) ran
  obtain ⟨loaded, load, size, -⟩ := addBatches_restart (by rw [tokens]; simp) ran restorable save
  exact ⟨run, saved, loaded, ran, save, load, size⟩

/-- After `ab1` and `ac`, and then `aB`, the load files `ab1` under `aB1`. -/
theorem restart_fails_aB :
    ∃ run saved loaded values, addBatches Ratio allWritten (freshSystem [] .empty)
      [[[97, 98, 49, 32, 97, 99]], [[97, 66]]] = .ok run ∧
      irsStorageSave allWritten run.system = .ok (.ok, saved) ∧
      irsStorageLoad (irsStorageInitialize []) saved = .ok (.ok, loaded) ∧
      irsDictionaryGet run.system.storage.termOffsetDictionary [97, 98, 49] = .ok (some values) ∧
      irsDictionaryGet loaded.termOffsetDictionary [97, 98, 49] = .ok none := by
  have facts : (addBatches Ratio allWritten (freshSystem [] .empty)
    [[[97, 98, 49, 32, 97, 99]], [[97, 66]]] >>= fun run =>
      irsStorageSave allWritten run.system >>= fun save =>
      irsStorageLoad (irsStorageInitialize []) save.2 >>= fun load =>
      irsDictionaryGet run.system.storage.termOffsetDictionary [97, 98, 49] >>= fun before =>
      irsDictionaryGet load.2.termOffsetDictionary [97, 98, 49] >>= fun after =>
        .ok (save.1, load.1, before.isSome, after.isSome)) =
          .ok (.ok, .ok, true, false) := by decide +kernel
  obtain ⟨run, ran, facts⟩ := bind_ok.mp facts
  obtain ⟨⟨status, saved⟩, save, facts⟩ := bind_ok.mp facts
  obtain ⟨⟨status', loaded⟩, load, facts⟩ := bind_ok.mp facts
  obtain ⟨before, first, facts⟩ := bind_ok.mp facts
  obtain ⟨after, second, facts⟩ := bind_ok.mp facts
  simp only [Except.ok.injEq, Prod.mk.injEq, Option.isSome_eq_false_iff,
    Option.isNone_iff_eq_none] at facts
  obtain ⟨rfl, rfl, found, rfl⟩ := facts
  obtain ⟨values, rfl⟩ := Option.isSome_iff_exists.mp found
  exact ⟨run, saved, loaded, values, ran, save, load, first, second⟩

end IrsMachine
