import IrsMachine.Storage.Twins
import Mathlib.Analysis.SpecialFunctions.Log.Basic

/-!
# Exact arithmetic

With real numbers for the floating-point numbers, the frequencies are quotients of counts and
the reverse frequencies their logarithms. The counts are the sizes of lists, which are kept in
32 bits: where none of them wraps, all quotients are defined and in their range.
-/

namespace IrsMachine
open Except

noncomputable instance : IrsFloat ℝ where
  ofUInt64 number := number.toNat
  ofUInt32 number := number.toNat
  div a b := a / b
  mul a b := a * b
  logf := Real.log
  le a b := decide (a ≤ b)
  zero := 0
  toStrFloat _ := irsChars "0.1"
  toStrInt := decimal

/-! ### What it is for the arithmetic to be defined -/

/-- The logarithm of the quotient of the number of documents and this divisor is defined, and in
its range. -/
structure ReverseFrequencyDefined (documentOffsetMap : List (Bytes × UInt64)) (term : Bytes)
    (docWithTermOffsetsSize : UInt64) (reverseFrequency : ℝ) : Prop where
  positive : 1 ≤ docWithTermOffsetsSize.toNat
  bounded : docWithTermOffsetsSize.toNat ≤ documentOffsetMap.length
  quotient : 1 ≤ (documentOffsetMap.length : ℝ) / docWithTermOffsetsSize.toNat
  exact : reverseFrequency = Real.log (documentOffsetMap.length / docWithTermOffsetsSize.toNat)
  nonneg : 0 ≤ reverseFrequency
  zero_iff : reverseFrequency = 0 ↔ ∀ pair ∈ documentOffsetMap, term <:+: cString pair.1

/-- At every token, whatever the state: a reverse frequency that is computed is defined. -/
def ReverseFrequenciesDefined (documentOffsetMap : List (Bytes × UInt64)) : Prop :=
  ∀ pair term, (pair, term) ∈ occurrences documentOffsetMap →
    ∀ (state middle : AssignState ℝ) docWithTermOffsetsSize,
    assignReverseFrequency documentOffsetMap state term =
    .ok (middle, some docWithTermOffsetsSize) →
    ∃ reverseFrequency, middle.reverseFrequency = some reverseFrequency ∧
      ReverseFrequencyDefined documentOffsetMap term docWithTermOffsetsSize reverseFrequency

structure FrequencyDefined (documentTerms : List Bytes) (term : Bytes) : Prop where
  size : 1 ≤ (listSize documentTerms).toNat
  count : 1 ≤ (UInt64.ofNat (documentTerms.countP fun otherTerm => irsStrCmp term otherTerm)).toNat
  countSize : (UInt64.ofNat
    (documentTerms.countP fun otherTerm => irsStrCmp term otherTerm)).toNat ≤
      (listSize documentTerms).toNat
  positive : 0 < (irsStorageCalculateTermFrequency term documentTerms : ℝ)
  bounded : (irsStorageCalculateTermFrequency term documentTerms : ℝ) ≤ 1

def FrequenciesDefined (documentOffsetMap : List (Bytes × UInt64)) : Prop :=
  ∀ pair term, (pair, term) ∈ occurrences documentOffsetMap →
    FrequencyDefined (irsStorageGetDocumentTerms pair.1) term

variable {F : Type} [IrsFloat F] {documentOffsetMap : List (Bytes × UInt64)} {term : Bytes}

/-! ### Reverse frequencies -/

/-- At the first token there is nothing in the cache. -/
theorem assignReverseFrequency_assignInitialize (F : Type) [IrsFloat F]
    (documentOffsetMap : List (Bytes × UInt64)) {term : Bytes} (bytes : ∀ ch ∈ term, Admitted ch) :
    ∃ middle, assignReverseFrequency documentOffsetMap (assignInitialize : AssignState F) term =
      .ok (middle, some (docsNumber documentOffsetMap term)) := by
  obtain ⟨cache, append⟩ :=
    appendKey_total () (kept_freshDictionary : Kept Admitted freshDictionary) bytes
  have absent : irsDictionaryGet (assignInitialize : AssignState F).termsReverseFrequency term =
      .ok none := get_freshDictionary bytes
  have append' : appendKey (assignInitialize : AssignState F).termsReverseFrequency term () =
      .ok cache := append
  refine ⟨{ (assignInitialize : AssignState F) with
    termsReverseFrequency := cache
    reverseFrequency := some (ownReverseFrequency F documentOffsetMap term) }, ?_⟩
  simp only [assignReverseFrequency, absent, ok_bind, append']
  rfl

theorem docsWith_eq_length : docsWith documentOffsetMap term = documentOffsetMap.length ↔
    ∀ pair ∈ documentOffsetMap, irsStrFind pair.1 term = true := by
  rw [docsWith, irsStorageGetDocumentsWithTerm, List.length_map, List.length_filter_eq_length_iff]

theorem ownReverseFrequency_real (few : documentOffsetMap.length < 2 ^ 32) (term : Bytes) :
    ownReverseFrequency ℝ documentOffsetMap term =
      Real.log (documentOffsetMap.length / docsWith documentOffsetMap term) := by
  show Real.log (((listSize documentOffsetMap).toUInt64.toNat : ℝ)
    / ((docsNumber documentOffsetMap term).toNat : ℝ)) = _
  rw [toNat_listSize few, toNat_docsNumber few]

theorem reverseFrequencyDefined (few : documentOffsetMap.length < 2 ^ 32)
    (known : term ∈ tokensOf (documentOffsetMap.map Prod.fst)) :
    ReverseFrequencyDefined documentOffsetMap term (docsNumber documentOffsetMap term)
      (ownReverseFrequency ℝ documentOffsetMap term) := by
  have number := toNat_docsNumber few term
  have positive := docsWith_pos known
  have bounded := docsWith_le documentOffsetMap term
  have positive' : (0 : ℝ) < docsWith documentOffsetMap term := Nat.cast_pos.mpr positive
  have quotient : 1 ≤ (documentOffsetMap.length : ℝ) / docsWith documentOffsetMap term :=
    (one_le_div positive').mpr (Nat.cast_le.mpr bounded)
  have own : cString term = term := cString_of_noNul (token_noNul known)
  refine ⟨by rw [number]; exact positive, by rw [number]; exact bounded,
    by rw [number]; exact quotient, ?_, ?_, ?_⟩
  · rw [number, ownReverseFrequency_real few]
  · rw [ownReverseFrequency_real few]
    exact Real.log_nonneg quotient
  · have contained : (∀ pair ∈ documentOffsetMap, term <:+: cString pair.1) ↔
        docsWith documentOffsetMap term = documentOffsetMap.length := by
      rw [docsWith_eq_length]
      simp only [irsStrFind, own, decide_eq_true_eq]
    rw [contained, ownReverseFrequency_real few, Real.log_eq_zero]
    constructor
    · intro logZero
      -- of the three numbers without a logarithm other than zero, only one is not below it
      have one : (documentOffsetMap.length : ℝ) / docsWith documentOffsetMap term = 1 := by
        rcases logZero with zero | one | minus
        · linarith
        · exact one
        · linarith
      exact (Nat.cast_injective ((div_eq_one_iff_eq positive'.ne').mp one)).symm
    · intro all
      rw [all] at positive' ⊢
      exact Or.inr (Or.inl (div_self positive'.ne'))

/-! ### Frequencies -/

theorem frequencyDefined {document : Bytes} (member : term ∈ irsStorageGetDocumentTerms document)
    (few : (irsStorageGetDocumentTerms document).length < 2 ^ 32) :
    FrequencyDefined (irsStorageGetDocumentTerms document) term := by
  have sizeNat : (listSize (irsStorageGetDocumentTerms document)).toNat =
      (irsStorageGetDocumentTerms document).length :=
    UInt32.toNat_ofNat_of_lt' few
  have bound := List.countP_le_length (p := fun otherTerm => irsStrCmp term otherTerm)
    (l := irsStorageGetDocumentTerms document)
  obtain ⟨countNat, count⟩ := occurrences_counted member (few.trans (by decide))
  have value : (irsStorageCalculateTermFrequency term (irsStorageGetDocumentTerms document) : ℝ) =
      ((irsStorageGetDocumentTerms document).countP fun otherTerm => irsStrCmp term otherTerm : ℕ) /
        ((irsStorageGetDocumentTerms document).length : ℝ) := by
    rw [← countNat, ← sizeNat]
    rfl
  have size : (0 : ℝ) < (irsStorageGetDocumentTerms document).length :=
    Nat.cast_pos.mpr (count.trans_le bound)
  refine ⟨by omega, by omega, by omega, ?_, ?_⟩
  · rw [value]
    exact div_pos (Nat.cast_pos.mpr count) size
  · rw [value, div_le_one size]
    exact Nat.cast_le.mpr bound

/-! ### Sizes that wrap -/

theorem docsWith_replicate {pair : Bytes × UInt64} (contained : irsStrFind pair.1 term = true)
    (n : Nat) :
    docsWith (List.replicate n pair) term = n := by
  have length : (List.replicate n pair).length = n := List.length_replicate
  rw [docsWith_eq_length.mpr, length]
  intro other member
  rwa [List.eq_of_mem_replicate member]

def tokensA (n : Nat) : Bytes := (List.replicate n [97, 32]).flatten

theorem irsStorageGetDocumentTerms_tokensA (n : Nat) :
    irsStorageGetDocumentTerms (tokensA n) = List.replicate n [97] := by
  induction n with
  | zero => decide
  | succ n ih =>
    have split : irsStorageGetDocumentTerms (tokensA (n + 1)) = [97] :: irsStorageGetDocumentTerms
        (tokensA n) := by
      have string : cString (tokensA (n + 1)) = 97 :: 32 :: cString (tokensA n) := by
        rw [tokensA, List.replicate_succ, List.flatten_cons]
        rfl
      unfold irsStorageGetDocumentTerms strtok
      rw [string, List.splitOnP_cons_eq_if_modifyHead, if_neg (by decide),
        List.splitOnP_cons_eq_if_modifyHead, if_pos (by decide)]
      rfl
    rw [split, ih, List.replicate_succ]

/-- With `2 ^ 32` documents that contain the term, the divisor is zero; with `2 ^ 32` tokens, the
size of the list is. -/
theorem arithmetic_fails_wrap : ¬ReverseFrequenciesDefined (List.replicate (2 ^ 32) ([97], 0)) ∧
    ¬FrequenciesDefined [(tokensA (2 ^ 32), 0)] := by
  constructor
  · intro defined
    have member : (([97], 0), [97]) ∈ occurrences
        (List.replicate (2 ^ 32) (([97] : Bytes), (0 : UInt64))) :=
      mem_occurrences.mpr ⟨List.mem_replicate.mpr ⟨by decide, rfl⟩, by decide⟩
    have bytes : ∀ ch ∈ ([97] : Bytes), Admitted ch := by unfold Admitted; decide +kernel
    obtain ⟨middle, run⟩ :=
      assignReverseFrequency_assignInitialize ℝ
        (List.replicate (2 ^ 32) (([97] : Bytes), (0 : UInt64))) bytes
    obtain ⟨reverseFrequency, -, holds⟩ := defined _ _ member _ _ _ run
    have positive := holds.positive
    have length : docsWith (List.replicate (2 ^ 32) (([97] : Bytes), (0 : UInt64))) [97] = 2 ^ 32 :=
      docsWith_replicate (by decide) _
    unfold docsNumber listSize at positive
    rw [← docsWith, length] at positive
    exact absurd positive (by decide)
  · intro defined
    have terms := irsStorageGetDocumentTerms_tokensA (2 ^ 32)
    have member : ((tokensA (2 ^ 32), 0), [97]) ∈ occurrences [(tokensA (2 ^ 32), 0)] :=
      mem_occurrences.mpr
        ⟨List.mem_singleton.mpr rfl, by rw [terms]; exact List.mem_replicate.mpr ⟨by decide, rfl⟩⟩
    have size := (defined _ _ member).size
    rw [listSize, terms, List.length_replicate] at size
    exact absurd size (by decide)

/-! ### All steps -/

/-- The reverse frequencies are defined for fewer than `2 ^ 32` documents, the frequencies in a
document with fewer than `2 ^ 32` tokens. -/
theorem arithmetic_defined (documentOffsetMap : List (Bytes × UInt64)) :
    (documentOffsetMap.length < 2 ^ 32 → ReverseFrequenciesDefined documentOffsetMap) ∧
    ∀ pair ∈ documentOffsetMap, (irsStorageGetDocumentTerms pair.1).length < 2 ^ 32 →
      ∀ term ∈ irsStorageGetDocumentTerms pair.1,
        FrequencyDefined (irsStorageGetDocumentTerms pair.1) term := by
  constructor
  · intro few pair term member state middle number run
    obtain ⟨inMap, isToken⟩ := mem_occurrences.mp member
    have known : term ∈ tokensOf (documentOffsetMap.map Prod.fst) :=
      List.mem_flatMap.mpr ⟨pair.1, List.mem_map_of_mem inMap, isToken⟩
    rcases assignReverseFrequency_ok run with ⟨-, computed, own⟩ | ⟨-, cached, -⟩
    · cases computed
      exact ⟨_, own, reverseFrequencyDefined few known⟩
    · cases cached
  · exact fun pair _ few term isToken => frequencyDefined isToken few

/-- In `a b` and `a`, both terms. -/
theorem arithmetic_defined_a_b : ReverseFrequenciesDefined [([97, 32, 98], 0), ([97], 11)] ∧
    FrequencyDefined [[97], [98]] [98] := by
  have defined := arithmetic_defined [([97, 32, 98], 0), ([97], 11)]
  exact ⟨defined.1 (by decide), defined.2 ([97, 32, 98], 0) (by decide) (by decide)
    [98] (by decide)⟩

end IrsMachine
