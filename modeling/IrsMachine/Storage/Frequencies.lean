import IrsMachine.Storage.Assign
import Mathlib.Algebra.Order.Field.Rat
import Mathlib.Data.Rat.Cast.Order
import Mathlib.Tactic.Linarith

/-!
# The cached reverse frequency

`terms_reverse_frequency_dictionary` stores one address for all terms, that of the variable
`reverse_frequency`. What is read behind it is the reverse frequency that was computed last.
-/

namespace IrsMachine
open IrsDictionaryNode Except Multimap Words

/-! ### Quotients -/

/-- The exact quotient of two numbers, as the floating-point division has it without rounding. -/
inductive ExactQuotient where
  | undefined
  | infinite
  | finite (value : ℚ)
  deriving DecidableEq

def exactRatio (documentsSize docWithTermOffsetsSize : UInt64) : ExactQuotient :=
  if docWithTermOffsetsSize = 0 then if documentsSize = 0 then .undefined else .infinite
  else .finite (documentsSize.toNat / docWithTermOffsetsSize.toNat)

class InjectiveLog (F : Type) [IrsFloat F] : Prop where
  injective : ∀ documentsSize size documentsSize' size',
    (irsStorageCalculateTermReverseFrequency documentsSize size : F) =
    irsStorageCalculateTermReverseFrequency documentsSize' size' ↔
      exactRatio documentsSize size = exactRatio documentsSize' size'

/-- Exact quotients for floating-point numbers, with the first term of the series for the
logarithm. -/
instance : IrsFloat ExactQuotient where
  ofUInt64 number := .finite number.toNat
  ofUInt32 number := .finite number.toNat
  div
    | .finite a, .finite b =>
      if b = 0 then if a = 0 then .undefined else .infinite else .finite (a / b)
    | _, _ => .undefined
  mul
    | .finite a, .finite b => .finite (a * b)
    | .infinite, .finite b => if b = 0 then .undefined else .infinite
    | .finite a, .infinite => if a = 0 then .undefined else .infinite
    | .infinite, .infinite => .infinite
    | _, _ => .undefined
  logf
    | .finite a => .finite (a - 1)
    | other => other
  le
    | .finite a, .finite b => decide (a ≤ b)
    | .finite _, .infinite => true
    | .infinite, .infinite => true
    | _, _ => false
  zero := .finite 0
  toStrFloat _ := irsChars "0.1"
  toStrInt := decimal

theorem reverseFrequency_exactQuotient (documentsSize size : UInt64) :
    (irsStorageCalculateTermReverseFrequency documentsSize size : ExactQuotient) =
      IrsFloat.logf (exactRatio documentsSize size) := by
  unfold irsStorageCalculateTermReverseFrequency exactRatio
  congr 1
  simp only [IrsFloat.div, IrsFloat.ofUInt64]
  have zero : ∀ number : UInt64, (number.toNat : ℚ) = 0 ↔ number = 0 := by
    intro number
    rw [Nat.cast_eq_zero, ← UInt64.toNat_inj]
    rfl
  simp only [zero]

instance : InjectiveLog ExactQuotient where
  injective documentsSize size documentsSize' size' := by
    rw [reverseFrequency_exactQuotient, reverseFrequency_exactQuotient]
    constructor
    · intro same
      cases one : exactRatio documentsSize size <;> cases two : exactRatio documentsSize' size' <;>
        rw [one, two] at same <;> simp_all [IrsFloat.logf]
    · intro same
      rw [same]

/-! ### The computation -/

variable {F : Type} [IrsFloat F]

def ownReverseFrequency (F : Type) [IrsFloat F] (documentOffsetMap : List (Bytes × UInt64))
    (term : Bytes) : F :=
  irsStorageCalculateTermReverseFrequency (listSize documentOffsetMap).toUInt64
    (docsNumber documentOffsetMap term)

/-- The step gets to the significancy, with what was entered for its term. -/
def Computes (documentOffsetMap : List (Bytes × UInt64)) (state : AssignState F)
    (occurrence : Occurrence) (entered : AssignState F) :
    Prop :=
  isAssigned state (IrsFloat.toStrInt (F := F) occurrence.1.2) occurrence.2 = .ok false ∧
    ∃ index, enterTerm documentOffsetMap state occurrence.2 = .ok (entered, index)

/-- At every step that gets to the significancy, the reverse frequency is that of the term. -/
def OwnFrequencies (F : Type) [IrsFloat F] (documentOffsetMap : List (Bytes × UInt64)) : Prop :=
  ∀ done occurrence rest (state entered : AssignState F),
    occurrences documentOffsetMap = done ++ occurrence :: rest →
    done.foldlM (assignOccurrence documentOffsetMap) assignInitialize = .ok state →
    Computes documentOffsetMap state occurrence entered →
    entered.reverseFrequency = some (ownReverseFrequency F documentOffsetMap occurrence.2)

/-! ### The term computed last -/

structure Traced (F : Type) where
  state : AssignState F
  computed : Option Bytes

def isComputed (state : AssignState F) (occurrence : Occurrence) : Bool :=
  match isAssigned state (IrsFloat.toStrInt (F := F) occurrence.1.2) occurrence.2,
    irsDictionaryGet state.termsReverseFrequency occurrence.2 with
  | .ok false, .ok none => true
  | _, _ => false

def tracedStep (documentOffsetMap : List (Bytes × UInt64)) (traced : Traced F)
    (occurrence : Occurrence) : Except Fault (Traced F) := do
  let state ← assignOccurrence documentOffsetMap traced.state occurrence
  .ok { state, computed := if isComputed traced.state occurrence then some occurrence.2
    else traced.computed }

def tracedInitialize : Traced F where
  state := assignInitialize
  computed := none

/-- Where a reverse frequency is taken from the cache, the term computed last is in as many
documents as its own. -/
def CacheFresh (F : Type) [IrsFloat F] (documentOffsetMap : List (Bytes × UInt64)) : Prop :=
  ∀ done occurrence rest (traced : Traced F) entered,
    occurrences documentOffsetMap = done ++ occurrence :: rest →
    done.foldlM (tracedStep documentOffsetMap) tracedInitialize = .ok traced →
    Computes documentOffsetMap traced.state occurrence entered →
    (∃ list, irsDictionaryGet traced.state.termsReverseFrequency occurrence.2 = .ok (some list)) →
    ∃ latest, traced.computed = some latest ∧
      exactRatio (listSize documentOffsetMap).toUInt64 (docsNumber documentOffsetMap latest) =
        exactRatio (listSize documentOffsetMap).toUInt64 (docsNumber documentOffsetMap occurrence.2)

section
variable {documentOffsetMap : List (Bytes × UInt64)} {state entered : AssignState F}
  {term : Bytes} {index : Nat}

omit [IrsFloat F] in
theorem assignDocDictionary_cell {number : Option UInt64}
    (run : assignDocDictionary state term number = .ok (entered, index)) :
    entered.reverseFrequency = state.reverseFrequency := by
  unfold assignDocDictionary at run
  obtain ⟨found, -, run⟩ := bind_ok.mp run
  cases found with
  | none =>
    obtain ⟨first, -, run⟩ := bind_ok.mp run
    obtain ⟨second, -, run⟩ := bind_ok.mp run
    cases number with
    | none => cases run
    | some number =>
      obtain ⟨third, -, run⟩ := bind_ok.mp run
      cases run
      rfl
  | some list =>
    obtain ⟨place, -, run⟩ := bind_ok.mp run
    cases run
    rfl

theorem assignSignificancy_cell {docOffset : UInt64} {docOffsetStr : Bytes}
    {documentTerms : List Bytes}
    (run : assignSignificancy state docOffset docOffsetStr documentTerms term index = .ok entered) :
    entered.reverseFrequency = state.reverseFrequency := by
  unfold assignSignificancy at run
  split at run
  · cases run
  · dsimp only at run
    split at run
    · cases run
      rfl
    · obtain ⟨one, -, run⟩ := bind_ok.mp run
      obtain ⟨two, -, run⟩ := bind_ok.mp run
      obtain ⟨three, -, run⟩ := bind_ok.mp run
      cases run
      rfl

/-- The reverse frequency of a term is computed, or taken from the cache. -/
theorem assignReverseFrequency_ok {middle : AssignState F} {number : Option UInt64}
    (run : assignReverseFrequency documentOffsetMap state term = .ok (middle, number)) :
    (irsDictionaryGet state.termsReverseFrequency term = .ok none ∧
      number = some (docsNumber documentOffsetMap term) ∧
      middle.reverseFrequency = some (ownReverseFrequency F documentOffsetMap term)) ∨
    ((∃ list, irsDictionaryGet state.termsReverseFrequency term = .ok (some list)) ∧ number = none ∧
      middle = state) := by
  unfold assignReverseFrequency at run
  obtain ⟨found, get, run⟩ := bind_ok.mp run
  cases found with
  | none =>
    obtain ⟨cache, -, run⟩ := bind_ok.mp run
    cases run
    exact .inl ⟨get, rfl, rfl⟩
  | some list =>
    cases run
    exact .inr ⟨⟨list, get⟩, rfl, rfl⟩

/-- The cell gets the reverse frequency of a term that is not cached, and is left alone
otherwise. -/
theorem enterTerm_cell (run : enterTerm documentOffsetMap state term = .ok (entered, index)) :
    (irsDictionaryGet state.termsReverseFrequency term = .ok none ∧
      entered.reverseFrequency = some (ownReverseFrequency F documentOffsetMap term)) ∨
    ((∃ list, irsDictionaryGet state.termsReverseFrequency term = .ok (some list)) ∧
      entered.reverseFrequency = state.reverseFrequency) := by
  unfold enterTerm at run
  obtain ⟨⟨middle, number⟩, frequency, run⟩ := bind_ok.mp run
  have same := assignDocDictionary_cell run
  rcases assignReverseFrequency_ok frequency with ⟨miss, -, own⟩ | ⟨hit, -, rfl⟩
  · exact .inl ⟨miss, same.trans own⟩
  · exact .inr ⟨hit, same⟩

theorem assignOccurrence_cell {state' : AssignState F} {occurrence : Occurrence}
    (run : assignOccurrence documentOffsetMap state occurrence = .ok state') :
    state'.reverseFrequency = if isComputed state occurrence then some
      (ownReverseFrequency F documentOffsetMap occurrence.2)
      else state.reverseFrequency := by
  unfold assignOccurrence at run
  rw [irsStorageAssignTerm_eq] at run
  obtain ⟨assigned, isAssigned', run⟩ := bind_ok.mp run
  unfold isComputed
  rw [isAssigned']
  cases assigned with
  | true =>
    cases run
    rw [if_neg]
    simp
  | false =>
    rw [if_neg Bool.false_ne_true] at run
    obtain ⟨⟨entered, index⟩, enter, run⟩ := bind_ok.mp run
    rw [assignSignificancy_cell run]
    rcases enterTerm_cell enter with ⟨get, same⟩ | ⟨⟨list, get⟩, same⟩
    · rw [get, if_pos rfl, same]
    · rw [get, if_neg Bool.false_ne_true, same]

/-- The cell holds the reverse frequency of the term computed last. -/
theorem tracedRun_cell {done : List Occurrence} {traced : Traced F}
    (run : done.foldlM (tracedStep documentOffsetMap) tracedInitialize = .ok traced) :
    traced.state.reverseFrequency =
      traced.computed.map (ownReverseFrequency F documentOffsetMap) := by
  refine foldlM_invariant (fun traced : Traced F =>
    traced.state.reverseFrequency = traced.computed.map (ownReverseFrequency F documentOffsetMap))
      rfl ?_ run
  intro traced occurrence traced' _ cell step
  unfold tracedStep at step
  obtain ⟨state', move, same⟩ := bind_ok.mp step
  cases same
  dsimp only
  rw [assignOccurrence_cell move, cell]
  split
  · rfl
  · rfl

/-- The trace follows the run. -/
theorem tracedRun_iff {done : List Occurrence} {start : Traced F} :
    done.foldlM (assignOccurrence documentOffsetMap) start.state = .ok state ↔
      ∃ traced, done.foldlM (tracedStep documentOffsetMap) start = .ok traced ∧
        traced.state = state := by
  induction done generalizing start with
  | nil =>
    constructor
    · rintro ⟨rfl⟩
      exact ⟨start, rfl, rfl⟩
    · rintro ⟨_, ⟨rfl⟩, rfl⟩
      rfl
  | cons occurrence done ih =>
    constructor
    · intro run
      obtain ⟨middle, step, rest⟩ := foldlM_cons_ok.mp run
      obtain ⟨next, step', state'⟩ : ∃ next,
        tracedStep documentOffsetMap start occurrence = .ok next ∧ next.state = middle := by
        unfold tracedStep
        rw [step, ok_bind]
        exact ⟨_, rfl, rfl⟩
      rw [← state'] at rest
      obtain ⟨traced, rest', same⟩ := ih.mp rest
      exact ⟨traced, foldlM_cons_ok.mpr ⟨next, step', rest'⟩, same⟩
    · rintro ⟨traced, run, same⟩
      obtain ⟨next, step, rest⟩ := foldlM_cons_ok.mp run
      obtain ⟨middle, step', nextIs⟩ := bind_ok.mp step
      cases nextIs
      exact foldlM_cons_ok.mpr ⟨middle, step', ih.mpr ⟨traced, rest, same⟩⟩

end

/-- The cached reverse frequencies are right exactly where the term computed last happens to be in
as many documents. -/
theorem ownFrequencies_iff [InjectiveLog F] (documentOffsetMap : List (Bytes × UInt64)) :
    OwnFrequencies F documentOffsetMap ↔ CacheFresh F documentOffsetMap := by
  constructor
  · rintro own done occurrence rest traced entered split run computes ⟨list, hit⟩
    have right := own done occurrence rest traced.state entered
      split (tracedRun_iff.mpr ⟨traced, run, rfl⟩) computes
    obtain ⟨-, index, enter⟩ := computes
    rcases enterTerm_cell enter with ⟨miss, -⟩ | ⟨-, kept⟩
    · cases hit.symm.trans miss
    · rw [kept, tracedRun_cell run] at right
      obtain ⟨latest, last, same⟩ := Option.map_eq_some_iff.mp right
      exact ⟨latest, last, (InjectiveLog.injective _ _ _ _).mp same⟩
  · intro fresh done occurrence rest state entered split run computes
    have start : (tracedInitialize : Traced F).state = assignInitialize := rfl
    rw [← start] at run
    obtain ⟨traced, traceRun, rfl⟩ := tracedRun_iff.mp run
    obtain ⟨-, index, enter⟩ := id computes
    rcases enterTerm_cell enter with ⟨-, own⟩ | ⟨hit, kept⟩
    · exact own
    · obtain ⟨latest, last, same⟩ :=
        fresh done occurrence rest traced entered split traceRun computes hit
      rw [kept, tracedRun_cell traceRun, last, Option.map_some]
      exact congrArg some ((InjectiveLog.injective _ _ _ _).mpr same)

/-- In the second `a b` both reverse frequencies come from the cache. The one computed last is that
of `b`, which is in as many documents as `a`. -/
theorem ownFrequencies_iff_a_b :
    OwnFrequencies ExactQuotient [([97, 32, 98], 0), ([97, 32, 98], 11)] := by
  apply (ownFrequencies_iff [([97, 32, 98], 0), ([97, 32, 98], 11)]).mpr
  rintro done occurrence rest traced entered split run - ⟨list, hit⟩
  have four : occurrences [([97, 32, 98], 0), ([97, 32, 98], 11)] =
      [(([97, 32, 98], 0), [97]), (([97, 32, 98], 0), [98]), (([97, 32, 98], 11), [97]),
        (([97, 32, 98], 11), [98])] := by
    decide +kernel
  rw [four] at split
  rcases done with _ | ⟨first, _ | ⟨second, _ | ⟨third, _ | ⟨fourth, more⟩⟩⟩⟩
  · cases split
    cases run
    have miss : irsDictionaryGet
        (tracedInitialize : Traced ExactQuotient).state.termsReverseFrequency [97] = .ok none := by
      decide +kernel
    cases hit.symm.trans miss
  · cases split
    have miss : ([(([97, 32, 98], 0), [97])].foldlM
      (tracedStep [([97, 32, 98], 0), ([97, 32, 98], 11)])
        (tracedInitialize : Traced ExactQuotient) >>= fun traced =>
          irsDictionaryGet traced.state.termsReverseFrequency [98]) = .ok none := by decide +kernel
    rw [run, ok_bind, hit] at miss
    cases miss
  · cases split
    have last : ([(([97, 32, 98], 0), [97]), (([97, 32, 98], 0), [98])].foldlM
        (tracedStep [([97, 32, 98], 0), ([97, 32, 98], 11)])
        (tracedInitialize : Traced ExactQuotient)).map Traced.computed =
          .ok (some [98]) := by decide +kernel
    rw [run] at last
    exact ⟨[98], Except.ok.inj last, by decide +kernel⟩
  · cases split
    have last : ([(([97, 32, 98], 0), [97]), (([97, 32, 98], 0), [98]),
      (([97, 32, 98], 11), [97])].foldlM
        (tracedStep [([97, 32, 98], 0), ([97, 32, 98], 11)])
        (tracedInitialize : Traced ExactQuotient)).map Traced.computed =
          .ok (some [98]) := by decide +kernel
    rw [run] at last
    exact ⟨[98], Except.ok.inj last, by decide +kernel⟩
  · simp at split

/-- In `a x` and `a`, the second document gets the reverse frequency of `x` for `a`. -/
theorem ownFrequencies_fails_a_x :
    ¬ OwnFrequencies ExactQuotient [([97, 32, 120], 0), ([97], 11)] := by
  intro own
  have facts : ([(([97, 32, 120], 0), [97]), (([97, 32, 120], 0), [120])].foldlM
    (assignOccurrence [([97, 32, 120], 0), ([97], 11)])
      (assignInitialize : AssignState ExactQuotient) >>= fun state =>
        isAssigned state (decimal 11) [97] >>= fun assigned =>
        enterTerm [([97, 32, 120], 0), ([97], 11)] state [97] >>= fun entered =>
          .ok (assigned, entered.1.reverseFrequency)) =
      .ok (false, some (.finite 1)) := by decide +kernel
  obtain ⟨state, run, facts⟩ := bind_ok.mp facts
  obtain ⟨assigned, isAssigned', facts⟩ := bind_ok.mp facts
  obtain ⟨⟨entered, index⟩, enter, facts⟩ := bind_ok.mp facts
  simp only [Except.ok.injEq, Prod.mk.injEq] at facts
  obtain ⟨rfl, used⟩ := facts
  have split : occurrences [([97, 32, 120], 0), ([97], 11)] =
      [(([97, 32, 120], 0), [97]), (([97, 32, 120], 0), [120])] ++ (([97], 11), [97]) :: [] := by
        decide +kernel
  have right := own _ _ _ state entered split run ⟨isAssigned', index, enter⟩
  have value : ownReverseFrequency ExactQuotient [([97, 32, 120], 0), ([97], 11)] [97] =
      .finite 0 := by decide +kernel
  rw [used, value] at right
  cases right

end IrsMachine
