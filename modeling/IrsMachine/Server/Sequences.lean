import IrsMachine.Dictionary.Lookup
import IrsMachine.Server.Memory
import IrsMachine.Storage.Allocations
import IrsMachine.Storage.Batches
import IrsMachine.Storage.Records

/-!
# Queries of several terms

A query goes through its terms one by one, and stops at the first one whose record cannot be read.
It gives what the queries of the single terms give, and where one of these does not return it does
not return either.
-/

namespace IrsMachine
open Except Allocating

variable {allocates : UInt64 → Bool} {system : System} {term : Bytes} {item : Option (List Triple)}
  {terms before after : List Bytes} {list : List (Option (List Triple))}

/-! ### The command -/

def Allocating.irsMemoryGetDocuments (allocates : UInt64 → Bool) (system : System)
    (terms : List Bytes) :
    Except Fault (Bool × List (Option (List Triple))) := do
  let answer ← Allocating.irsStorageGetDocuments allocates system terms
  .ok (decide (answer.status = .ok), answer.documentsList)

def Allocating.IrsMemoryGet {D : Type} (allocates : UInt64 → Bool) (stof : Bytes → Option D)
    (system : System) (terms : List Bytes) : Except Fault (Option (List (DocumentMap D))) := do
  let (_, documentsWithSignificancies) ← Allocating.irsMemoryGetDocuments allocates system terms
  .ok (readTermsDocuments stof [] documentsWithSignificancies)

def Allocating.IrsMemoryGetDocumentsCommand {D : Type} (allocates : UInt64 → Bool)
    (stof : Bytes → Option D) :
    IrsMemoryJsonCommand System D :=
  fun system requestPayload status =>
    match requestPayload.getStrings with
    | .error _ => .ok { memory := system, status, payload := none }
    | .ok terms => do
      match ← Allocating.IrsMemoryGet allocates stof system terms with
      | none => .ok { memory := system, status, payload := none }
      | some termsDocuments =>
        match getDocumentsPayload terms termsDocuments with
        | none => .ok { memory := system, status, payload := none }
        | some payload => .ok { memory := system, status := irsTrue, payload := some payload }

/-- A command that returns does what it does without buffers. -/
theorem getDocumentsCommand_returned {D : Type} {stof : Bytes → Option D}
    {payload : IrsMemoryJsonPayload D} {status : IrsBool} {completion : Completion System D}
    (short : Short system.world)
    (run : Allocating.IrsMemoryGetDocumentsCommand allocates stof system payload status =
      .ok completion) :
    IrsMachine.IrsMemoryGetDocumentsCommand stof system payload status = .ok completion := by
  unfold Allocating.IrsMemoryGetDocumentsCommand at run
  unfold IrsMachine.IrsMemoryGetDocumentsCommand
  cases strings : payload.getStrings with
  | error fault =>
    rw [strings] at run
    exact run
  | ok terms =>
    rw [strings] at run
    obtain ⟨documents, get, run⟩ := bind_ok.mp run
    obtain ⟨_, memory, done⟩ := bind_ok.mp get
    obtain ⟨answer, query, dropped⟩ := bind_ok.mp memory
    cases dropped
    have same : IrsMemory.get stof system terms = .ok documents := by
      rw [IrsMemory.get, IrsMachine.irsMemoryGetDocuments,
        irsStorageGetDocuments_returned short query]
      exact done
    dsimp only
    rw [same]
    exact run

theorem getDocumentsCommand_memory {D : Type} {stof : Bytes → Option D}
    {payload : IrsMemoryJsonPayload D} {status : IrsBool} {completion : Completion System D}
    (run : Allocating.IrsMemoryGetDocumentsCommand allocates stof system payload status =
      .ok completion) :
    completion.memory = system := by
  unfold Allocating.IrsMemoryGetDocumentsCommand at run
  split at run
  · cases run
    rfl
  · obtain ⟨documents, -, run⟩ := bind_ok.mp run
    split at run
    · cases run
      rfl
    · split at run
      · cases run
        rfl
      · cases run
        rfl

/-! ### One term -/

/-- The term has no record, or one that is whole and fits. -/
def TermTaken (allocates : UInt64 → Bool) (system : System) (term : Bytes) : Prop :=
  termOffset system term = .ok none ∨ ∃ offset, termOffset system term = .ok (some offset) ∧
    RecordTaken allocates system.world system.storage.termsPath system.storage.documentsPath offset

/-- The lookup of the term stops the program, or a length in its record does. -/
def TermStops (allocates : UInt64 → Bool) (system : System) (term : Bytes) : Prop :=
  (∃ fault, termOffset system term = .error fault) ∨
    ∃ offset, termOffset system term = .ok (some offset) ∧
    RecordRefused allocates system.world system.storage.termsPath
      system.storage.documentsPath offset

/-- What the loop adds for a term; `none` is a record that cannot be read. -/
def termItem (allocates : UInt64 → Bool) (system : System) (term : Bytes) :
    Except Fault (Option (Option (List Triple))) := do
  match ← termOffset system term with
  | none => .ok (some none)
  | some offset =>
    let documents ← Allocating.irsStorageReadDocumentsByTerm allocates system.storage
      system.world offset
    .ok (documents.map some)

def Given (allocates : UInt64 → Bool) (system : System) (term : Bytes)
    (item : Option (List Triple)) : Prop :=
  termItem allocates system term = .ok (some item)

theorem getDocumentsLoop_item (allocates : UInt64 → Bool) (system : System) (term : Bytes)
    (answer : Answer) :
    ∃ consulted, ∀ terms, Allocating.getDocumentsLoop allocates system (term :: terms) answer =
      (termItem allocates system term >>= fun
        | none => .ok { status := .readError, documentsList := answer.documentsList, consulted }
        | some item => Allocating.getDocumentsLoop allocates system terms
            { status := answer.status, documentsList := answer.documentsList ++ [item],
              consulted }) := by
  unfold termItem termOffset
  cases get : irsDictionaryGet system.storage.termOffsetDictionary term with
  | error fault => exact ⟨[], fun terms => by rw [Allocating.getDocumentsLoop, get]; rfl⟩
  | ok found =>
    rw [ok_bind]
    cases head : firstOffset found with
    | error fault =>
      exact ⟨[], fun terms => by rw [Allocating.getDocumentsLoop, get, ok_bind, head]; rfl⟩
    | ok offset =>
      cases offset with
      | none =>
        refine ⟨answer.consulted, fun terms => ?_⟩
        rw [Allocating.getDocumentsLoop, get, ok_bind, head]
        rfl
      | some offset =>
        refine ⟨answer.consulted ++ [offset], fun terms => ?_⟩
        rw [Allocating.getDocumentsLoop, get, ok_bind, head, ok_bind, ok_bind]
        dsimp only
        rcases Allocating.irsStorageReadDocumentsByTerm allocates system.storage system.world
          offset with _ | _ | _ <;> rfl

/-- What the loop does for a term is said by its lookup and its record. -/
theorem termItem_cases (allocates : UInt64 → Bool) (system : System) (term : Bytes) :
    (TermTaken allocates system term ∧ ¬TermStops allocates system term ∧
      ∃ item, Given allocates system term item ∧
        (item = none ↔ termOffset system term = .ok none)) ∨
    (¬TermTaken allocates system term ∧ TermStops allocates system term ∧
      ∃ fault, termItem allocates system term = .error fault) ∨
    (¬TermTaken allocates system term ∧ ¬TermStops allocates system term ∧
      termItem allocates system term = .ok none) := by
  unfold TermTaken TermStops Given termItem
  rcases found : termOffset system term with fault | _ | offset
  · exact .inr (.inl ⟨by simp, by simp, fault, rfl⟩)
  · exact .inl ⟨by simp, by simp, none, rfl, by simp⟩
  have ends := irsStorageReadDocumentsByTerm_ends allocates system.storage system.world offset
  rw [ok_bind]
  dsimp only
  cases run : Allocating.irsStorageReadDocumentsByTerm allocates system.storage
    system.world offset with
  | error fault =>
    rw [run] at ends
    cases ends with
    | aborts short refused => exact .inr (.inl ⟨by simp [short], by simp [refused], .aborted, rfl⟩)
  | ok documents =>
    rw [run] at ends
    cases ends with
    | whole taken granted documents =>
      exact .inl ⟨by simp [taken], by simp [granted], some documents, rfl, by simp⟩
    | fails short granted => exact .inr (.inr ⟨by simp [short], by simp [granted], rfl⟩)

theorem termTaken_iff : TermTaken allocates system term ↔
    ∃ item, Given allocates system term item := by
  rcases termItem_cases allocates system term with ⟨taken, -, item, given, -⟩ | ⟨short, -, fault,
    failed⟩ | ⟨short, -, fails⟩
  · exact iff_of_true taken ⟨item, given⟩
  · exact iff_of_false short fun ⟨item, given⟩ => by cases failed.symm.trans given
  · exact iff_of_false short fun ⟨item, given⟩ => by cases fails.symm.trans given

theorem termStops_iff : TermStops allocates system term ↔
    ∃ fault, termItem allocates system term = .error fault := by
  rcases termItem_cases allocates system term with ⟨-, granted, item, given, -⟩ | ⟨-, stops,
    failed⟩ | ⟨-, granted, fails⟩
  · exact iff_of_false granted fun ⟨fault, failed⟩ => by cases failed.symm.trans given
  · exact iff_of_true stops failed
  · exact iff_of_false granted fun ⟨fault, failed⟩ => by cases failed.symm.trans fails

theorem Given.eq_none_iff (given : Given allocates system term item) : item = none ↔
    termOffset system term = .ok none := by
  rcases termItem_cases allocates system term with ⟨-, -, item', given', same⟩ | ⟨-, -, fault,
    failed⟩ | ⟨-, -, fails⟩
  · cases given.symm.trans given'
    exact same
  · cases failed.symm.trans given
  · cases fails.symm.trans given

/-! ### Several terms -/

/-- The terms that are served come first in the answer, whatever follows them. -/
theorem getDocumentsLoop_append (given : List.Forall₂ (Given allocates system) before list)
    (answer : Answer) :
    ∃ consulted, ∀ terms, Allocating.getDocumentsLoop allocates system (before ++ terms) answer =
      Allocating.getDocumentsLoop allocates system terms
        { status := answer.status, documentsList := answer.documentsList ++ list, consulted } := by
  induction given generalizing answer with
  | nil => exact ⟨answer.consulted, fun terms => by rw [List.append_nil]; rfl⟩
  | @cons term item before list first rest ih =>
    obtain ⟨consulted, step⟩ := getDocumentsLoop_item allocates system term answer
    obtain ⟨consulted', later⟩ :=
      ih { status := answer.status, documentsList := answer.documentsList ++ [item], consulted }
    refine ⟨consulted', fun terms => ?_⟩
    rw [List.cons_append, step, first, ok_bind]
    dsimp only
    rw [later, List.append_assoc, List.singleton_append]

theorem getDocuments_given (given : List.Forall₂ (Given allocates system) terms list) :
    ∃ answer, Allocating.irsStorageGetDocuments allocates system terms = .ok answer ∧
      answer.status = .ok ∧
      answer.documentsList = list := by
  obtain ⟨consulted, run⟩ :=
    getDocumentsLoop_append given { status := .ok, documentsList := [], consulted := [] }
  have whole := run []
  rw [List.append_nil] at whole
  exact ⟨_, whole, rfl, rfl⟩

theorem getDocuments_fails (given : List.Forall₂ (Given allocates system) before list)
    (unreadable : termItem allocates system term = .ok none) (after : List Bytes) :
    ∃ answer, Allocating.irsStorageGetDocuments allocates system (before ++ term :: after) =
      .ok answer ∧
      answer.status = .readError ∧ answer.documentsList = list := by
  obtain ⟨consulted, run⟩ :=
    getDocumentsLoop_append given { status := .ok, documentsList := [], consulted := [] }
  obtain ⟨consulted', step⟩ :=
    getDocumentsLoop_item allocates system term
      { status := .ok, documentsList := [] ++ list, consulted }
  refine ⟨_, (run _).trans ((step after).trans (by rw [unreadable]; rfl)), rfl, rfl⟩

theorem getDocuments_stops {fault : Fault}
    (given : List.Forall₂ (Given allocates system) before list)
    (stops : termItem allocates system term = .error fault) (after : List Bytes) :
    Allocating.irsStorageGetDocuments allocates system (before ++ term :: after) =
      .error fault := by
  obtain ⟨consulted, run⟩ :=
    getDocumentsLoop_append given { status := .ok, documentsList := [], consulted := [] }
  obtain ⟨consulted', step⟩ :=
    getDocumentsLoop_item allocates system term
      { status := .ok, documentsList := [] ++ list, consulted }
  exact (run _).trans ((step after).trans (by rw [stops]; rfl))

/-- All terms of a query are served, or there is a first one that is not. -/
theorem exists_given (allocates : UInt64 → Bool) (system : System) (terms : List Bytes) :
    (∃ list, List.Forall₂ (Given allocates system) terms list) ∨
      ∃ before term after list, terms = before ++ term :: after ∧
        List.Forall₂ (Given allocates system) before list ∧
        ∀ item, ¬Given allocates system term item := by
  induction terms with
  | nil => exact .inl ⟨[], .nil⟩
  | cons term terms ih =>
    by_cases here : ∃ item, Given allocates system term item
    · obtain ⟨item, here⟩ := here
      rcases ih with ⟨list, rest⟩ | ⟨before, failing, after, list, rfl, rest, fails⟩
      · exact .inl ⟨item :: list, .cons here rest⟩
      · exact .inr ⟨term :: before, failing, after, item :: list, rfl, .cons here rest, fails⟩
    · exact .inr ⟨[], term, terms, [], rfl, .nil, not_exists.mp here⟩

/-- A query that ends with `IRS_STORAGE_OK` served all its terms. -/
theorem given_of_ok {answer : Answer}
    (run : Allocating.irsStorageGetDocuments allocates system terms = .ok answer)
    (status : answer.status = .ok) :
    List.Forall₂ (Given allocates system) terms answer.documentsList := by
  rcases exists_given allocates system terms with ⟨list, given⟩ | ⟨before, term, after, list,
    rfl, given, fails⟩
  · obtain ⟨_, run', -, all⟩ := getDocuments_given given
    cases run.symm.trans run'
    rw [all]
    exact given
  · rcases here : termItem allocates system term with fault | _ | item
    · rw [getDocuments_stops given here] at run
      cases run
    · obtain ⟨_, run', failed, -⟩ := getDocuments_fails given here after
      cases run.symm.trans run'
      rw [status] at failed
      cases failed
    · exact absurd here (fails item)

/-! ### The queries of the single terms -/

def Serves (allocates : UInt64 → Bool) (system : System) (term : Bytes)
    (item : Option (List Triple)) : Prop :=
  ∃ answer, Allocating.irsStorageGetDocuments allocates system [term] = .ok answer ∧
    answer.status = .ok ∧
    answer.documentsList = [item]

theorem serves_iff : Serves allocates system term item ↔ Given allocates system term item := by
  constructor
  · intro ⟨answer, run, status, single⟩
    have given := given_of_ok run status
    rw [single] at given
    exact (List.forall₂_cons.mp given).1
  · exact fun given => getDocuments_given (.cons given .nil)

def Fails (allocates : UInt64 → Bool) (system : System) (term : Bytes) : Prop :=
  ∀ answer, Allocating.irsStorageGetDocuments allocates system [term] = .ok answer →
    answer.status ≠ .ok

theorem fails_iff : Fails allocates system term ↔ ∀ item, ¬Given allocates system term item := by
  constructor
  · intro fails item given
    obtain ⟨answer, run, status, -⟩ := serves_iff.mpr given
    exact fails answer run status
  · intro none answer run status
    obtain ⟨item, _, given, -, -⟩ := List.forall₂_cons_left_iff.mp (given_of_ok run status)
    exact none item given

/-! ### Sequences -/

/-- No term stops the program up to the first one that cannot be read. -/
def NothingStops (allocates : UInt64 → Bool) (system : System) (terms : List Bytes) : Prop :=
  ∀ before term after, terms = before ++ term :: after →
    (∀ earlier ∈ before, TermTaken allocates system earlier) →
    ¬TermStops allocates system term

/-- A query of two lists of terms, and the queries of the lists and of the single terms. -/
structure SequenceOfQueries (allocates : UInt64 → Bool) (system : System)
    (first second : List Bytes) : Prop where
  joins : ∀ one two, Allocating.irsStorageGetDocuments allocates system first = .ok one →
    one.status = .ok →
    Allocating.irsStorageGetDocuments allocates system second = .ok two → two.status = .ok →
      ∃ answer, Allocating.irsStorageGetDocuments allocates system (first ++ second) = .ok answer ∧
      answer.status = .ok ∧
        answer.documentsList = one.documentsList ++ two.documentsList ∧
        List.Forall₂ (fun term item => item = none ↔ termOffset system term = .ok none)
          (first ++ second) answer.documentsList
  stops : (∃ term ∈ first ++ second, Fails allocates system term) → ∃ before term after answer,
    first ++ second = before ++ term :: after ∧ Fails allocates system term ∧
    Allocating.irsStorageGetDocuments allocates system (first ++ second) = .ok answer ∧
    answer.status = .readError ∧
    List.Forall₂ (Serves allocates system) before answer.documentsList
  unchanged : ∀ (D : Type) (stof : Bytes → Option D) (status : IrsBool)
    (completion : Completion System D),
    Allocating.IrsMemoryGetDocumentsCommand allocates stof system
      (.ofStrings (first ++ second)) status = .ok completion →
      completion.memory = system

theorem joins_of_ok {first second : List Bytes} {one two : Answer}
    (run : Allocating.irsStorageGetDocuments allocates system first = .ok one)
    (status : one.status = .ok)
    (run' : Allocating.irsStorageGetDocuments allocates system second = .ok two)
    (status' : two.status = .ok) :
    ∃ answer, Allocating.irsStorageGetDocuments allocates system (first ++ second) = .ok answer ∧
      answer.status = .ok ∧
      answer.documentsList = one.documentsList ++ two.documentsList ∧
      List.Forall₂ (fun term item => item = none ↔ termOffset system term = .ok none)
        (first ++ second) answer.documentsList := by
  have given := List.rel_append (given_of_ok run status) (given_of_ok run' status')
  obtain ⟨answer, whole, ok', all⟩ := getDocuments_given given
  refine ⟨answer, whole, ok', all, ?_⟩
  rw [all]
  exact given.imp fun _ _ => Given.eq_none_iff

theorem exists_items (taken : ∀ term ∈ terms, TermTaken allocates system term) :
    ∃ list, List.Forall₂ (Given allocates system) terms list := by
  rcases exists_given allocates system terms with all | ⟨before, term, after, list, rfl, -, fails⟩
  · exact all
  · obtain ⟨item, given⟩ := termTaken_iff.mp (taken term (by simp))
    exact absurd given (fails item)

theorem stops_iff (terms : List Bytes) :
    ((∃ term ∈ terms, Fails allocates system term) →
      ∃ before term after answer, terms = before ++ term :: after ∧
      Fails allocates system term ∧ Allocating.irsStorageGetDocuments allocates system terms =
        .ok answer ∧
      answer.status = .readError ∧
      List.Forall₂ (Serves allocates system) before answer.documentsList) ↔
      NothingStops allocates system terms := by
  have same : Serves allocates system = Given allocates system :=
    funext₂ fun _ _ => propext serves_iff
  simp only [fails_iff, same]
  constructor
  · rintro ends before term after rfl taken stops
    obtain ⟨list, given⟩ := exists_items taken
    obtain ⟨fault, error⟩ := termStops_iff.mp stops
    have fails : ∀ item, ¬Given allocates system term item := fun item given => by
      rw [Given, error] at given
      cases given
    obtain ⟨_, _, _, answer, -, -, run, -⟩ := ends ⟨term, by simp, fails⟩
    rw [getDocuments_stops given error] at run
    cases run
  · rintro nothing ⟨failing, member, fails⟩
    rcases exists_given allocates system terms with ⟨list, given⟩ | ⟨before, term, after, list, rfl,
      given, fails'⟩
    · obtain ⟨i, inside, rfl⟩ := List.getElem_of_mem member
      exact absurd (given.get inside (given.length_eq ▸ inside)) (fails _)
    · have taken : ∀ earlier ∈ before, TermTaken allocates system earlier := by
        intro earlier inside
        obtain ⟨i, bound, rfl⟩ := List.getElem_of_mem inside
        exact termTaken_iff.mpr ⟨_, given.get bound (given.length_eq ▸ bound)⟩
      rcases here : termItem allocates system term with fault | _ | item
      · exact absurd (termStops_iff.mpr ⟨fault, here⟩) (nothing before term after rfl taken)
      · obtain ⟨answer, run, status, all⟩ := getDocuments_fails given here after
        exact ⟨before, term, after, answer, rfl, fails', run, status, all ▸ given⟩
      · exact absurd here (fails' item)

theorem sequenceOfQueries_of_nothingStops {first second : List Bytes}
    (nothing : NothingStops allocates system (first ++ second)) :
    SequenceOfQueries allocates system first second := by
  refine ⟨?_, (stops_iff _).mpr nothing, ?_⟩
  · intro one two run status run' status'
    exact joins_of_ok run status run' status'
  · intro D stof status completion run
    exact getDocumentsCommand_memory run

/-- A query of several terms is the sequence of the queries of each of them, exactly when nothing
stops the program up to the first term that cannot be read. -/
theorem sequenceOfQueries_iff (allocates : UInt64 → Bool) (system : System)
    (first second : List Bytes) :
    SequenceOfQueries allocates system first second ↔
      NothingStops allocates system (first ++ second) := by
  constructor
  · intro sequence
    exact (stops_iff _).mp sequence.stops
  · exact sequenceOfQueries_of_nothingStops

/-- An allocator that has a terabyte to give. -/
def belowTerabyte (size : UInt64) : Bool := decide (size < 1099511627776)

/-- The record of `a` cannot be read, and the byte `0x7F` before it cannot be looked up. -/
theorem sequenceOfQueries_fails_delete :
    ∃ run, addBatches Ratio allWritten (freshSystem [] .empty) [[[97]]] = .ok run ∧
      ¬SequenceOfQueries belowTerabyte run.system [[0x7F]] [[97]] := by
  have facts : (addBatches Ratio allWritten (freshSystem [] .empty) [[[97]]] >>= fun run =>
      Allocating.irsStorageGetDocuments belowTerabyte run.system [[97]] >>= fun answer =>
        .ok (answer.status,
          (Allocating.irsStorageGetDocuments belowTerabyte run.system [[0x7F], [97]]).toBool)) =
      .ok (.readError, false) := by decide +kernel
  obtain ⟨run, ran, facts⟩ := bind_ok.mp facts
  obtain ⟨answer, query, facts⟩ := bind_ok.mp facts
  simp only [Except.ok.injEq, Prod.mk.injEq] at facts
  obtain ⟨status, never⟩ := facts
  refine ⟨run, ran, fun sequence => ?_⟩
  have fails : Fails belowTerabyte run.system [97] := by
    intro other query'
    cases query.symm.trans query'
    rw [status]
    exact nofun
  obtain ⟨_, _, _, both, -, -, returns, -⟩ := sequence.stops ⟨[97], by simp, fails⟩
  have returns' : Allocating.irsStorageGetDocuments belowTerabyte run.system [[0x7F], [97]] =
      .ok both := returns
  rw [returns'] at never
  cases never

/-- After `aaa` and then `b cccccccc`, the length that is read for `b` ends in two letters `c`. -/
example : (addBatches Ratio allWritten (freshSystem [] .empty)
    [[[97, 97, 97]], [[98, 32, 99, 99, 99, 99, 99, 99, 99, 99]]] >>= fun run =>
      .ok (Allocating.irsStorageGetDocuments belowTerabyte run.system [[98]]).toBool) =
        .ok false := by
  decide +kernel

/-! ### Terms that can be looked up -/

theorem firstOffset_paired {values : List TermOffsetValue} (paired : Paired values) :
    ∃ offset, firstOffset (some values) = .ok offset := by
  rw [← paired]
  cases pairsOf values with
  | nil => exact ⟨none, rfl⟩
  | cons pair pairs => exact ⟨some pair.1, rfl⟩

/-- In a storage whose lists hold pairs, every term without the byte `0x7F` can be looked up. -/
theorem exists_termOffset {ok : UInt8 → Prop} (noNul : ∀ ch, ok ch → ch ≠ 0)
    (indexed : Indexed ok system.storage.termOffsetDictionary) (bytes : ∀ ch ∈ term, Admitted ch) :
    ∃ offset, termOffset system term = .ok offset := by
  obtain ⟨list, get, -, spec⟩ := get_spec indexed.toKept noNul bytes
  unfold termOffset
  rw [get, ok_bind]
  cases list with
  | none => exact ⟨none, rfl⟩
  | some values =>
    obtain ⟨-, word, ⟨stored, -⟩, -⟩ := (spec values).mp rfl
    exact firstOffset_paired (stored ▸ indexed.paired word)

theorem sequenceOfQueries_of_admitted {ok : UInt8 → Prop} {first second : List Bytes}
    (noNul : ∀ ch, ok ch → ch ≠ 0) (indexed : Indexed ok system.storage.termOffsetDictionary)
    (bytes : ∀ term ∈ first ++ second, ∀ ch ∈ term, Admitted ch)
    (granted : ∀ offset,
      ¬RecordRefused allocates system.world system.storage.termsPath system.storage.documentsPath
        offset) :
    SequenceOfQueries allocates system first second := by
  apply sequenceOfQueries_of_nothingStops
  rintro before term after split - (⟨fault, never⟩ | ⟨offset, -, refused⟩)
  · obtain ⟨offset, found⟩ := exists_termOffset noNul indexed (bytes term (by rw [split]; simp))
    rw [found] at never
    cases never
  · exact granted offset refused

end IrsMachine
