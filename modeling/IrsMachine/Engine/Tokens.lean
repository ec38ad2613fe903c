import IrsMachine.Engine.Model
import IrsMachine.Library.Runs
import IrsMachine.Storage.Terms

/-!
# Terms and sentences in their document

`strtok` finds the runs between the delimiters that stand before the first zero in their string.
So the terms are cut at fewer characters than are written there. A sentence is looked for again by
its text, which may stand in an earlier sentence too.
-/

namespace IrsMachine
open Except Runs

def isOneOf (delim : Bytes) (ch : UInt8) : Bool := decide (ch ∈ delim)

theorem strtok_eq (string delim : Bytes) :
    strtok string delim = (runs (isOneOf (cString delim)) (cString string)).map Prod.snd :=
  (map_snd_runs _ _).symm

/-! ### Terms -/

/-- The characters that are written in the delimiter string of the terms. -/
def writtenDelimiters : Bytes := irsChars " ,.-()[]_"

/-- Those behind the zero in it. -/
def lostDelimiters : Bytes := irsChars "()[]_"

theorem irsStorageGetDocumentTerms_eq (document : Bytes) :
    irsStorageGetDocumentTerms document =
      (runs (isOneOf (irsChars " ,.-")) (cString document)).map Prod.snd :=
  strtok_eq _ _

theorem irsStorageGetDocumentShortTerms_eq (document : Bytes) :
    irsStorageGetDocumentShortTerms document =
      (irsStorageGetDocumentTerms document).filter fun term => decide (term.length ≤ 7) := by
  apply List.filter_congr
  intro term member
  obtain ⟨-, inside⟩ := strtok_part member
  rw [irsStrLen_of_noNul fun ch here => cString_noNul document ch (inside.subset here)]

theorem isOneOf_written (ch : UInt8) : isOneOf writtenDelimiters ch = true ↔
    isOneOf (irsChars " ,.-") ch = true ∨ ch ∈ lostDelimiters := by
  rw [isOneOf, isOneOf, decide_eq_true_eq, decide_eq_true_eq, ← List.mem_append]
  rfl

theorem isOneOf_lost : ∀ ch ∈ lostDelimiters, isOneOf (irsChars " ,.-") ch = false := by
  decide +kernel

theorem documentTerms_runs_iff (document : CString) :
    (∃ found, AllRuns (isOneOf writtenDelimiters) document.bytes found ∧
      irsStorageGetDocumentTerms document.bytes = found.map Prod.snd ∧
      irsStorageGetDocumentShortTerms document.bytes = (found.map Prod.snd).filter fun run =>
        decide (run.length ≤ 7)) ↔
    ∀ ch ∈ document.bytes, ch ∉ lostDelimiters := by
  rw [irsStorageGetDocumentShortTerms_eq, irsStorageGetDocumentTerms_eq,
    cString_of_noNul document.noNul]
  constructor
  · intro ⟨found, all, terms, _⟩ ch member lost
    have clean := isOneOf_lost ch lost
    -- the term that the character stands in would be one of the runs without it
    obtain ⟨before, after, split⟩ := List.append_of_mem member
    obtain ⟨start, left, right, maximal, -⟩ :=
      exists_run_of_clean before after (List.cons_ne_nil ch [])
      fun other here => List.mem_singleton.mp here ▸ clean
    rw [List.singleton_append, ← split] at maximal
    have term := List.mem_map_of_mem (f := Prod.snd) (((runs_allRuns _ _).maximal _ _).mpr maximal)
    rw [terms] at term
    obtain ⟨⟨start', run⟩, inside, same⟩ := List.mem_map.mp term
    have free := ((all.maximal start' run).mp inside).clean ch
      (by rw [show run = _ from same]; simp)
    rw [(isOneOf_written ch).mpr (.inr lost)] at free
    cases free
  · intro without
    have same : ∀ ch ∈ document.bytes,
        isOneOf (irsChars " ,.-") ch = isOneOf writtenDelimiters ch := by
      intro ch member
      rw [Bool.eq_iff_iff, isOneOf_written]
      simp [without ch member]
    refine ⟨_, runs_allRuns _ _, ?_⟩
    rw [runs_congr same]
    exact ⟨rfl, rfl⟩

/-- The term `a_b` is not cut. -/
theorem documentTerms_runs_fails :
    ¬∃ found, AllRuns (isOneOf writtenDelimiters) (irsChars "a_b") found ∧
      irsStorageGetDocumentTerms (irsChars "a_b") = found.map Prod.snd ∧
      irsStorageGetDocumentShortTerms (irsChars "a_b") = (found.map Prod.snd).filter fun run =>
        decide (run.length ≤ 7) := by
  intro ⟨found, all, terms, _⟩
  rw [all.eq_runs] at terms
  revert terms
  decide

/-! ### Sentences -/

theorem irsStorageGetDocumentSentences_eq (document : Bytes) :
    irsStorageGetDocumentSentences document =
      (runs (isOneOf (irsChars ".!?")) (cString document)).map Prod.snd :=
  strtok_eq _ _

/-- `strstr` points to the first occurrence. -/
theorem irsStrFindGet_eq_some {str substring : Bytes} {place : Nat} :
    irsStrFindGet str substring = some place ↔
      place ≤ (cString str).length ∧ cString substring <+: (cString str).drop place ∧
      ∀ earlier < place, ¬cString substring <+: (cString str).drop earlier := by
  rw [irsStrFindGet, List.find?_range_eq_some, List.mem_range, Nat.lt_succ_iff,
    List.isPrefixOf_iff_prefix]
  simp only [Bool.not_eq_true', ← Bool.not_eq_true, List.isPrefixOf_iff_prefix]
  exact and_left_comm

/-- A position that is not beyond the string does not wrap. -/
theorem irsStrFindPosition_iff {str substring : Bytes} {place : Nat}
    (fits : (cString str).length < 2 ^ 64) (within : place < (cString str).length) :
    (∃ position, irsStrFindPosition str substring = .ok position ∧ position.toNat = place + 1) ↔
      irsStrFindGet str substring = some place := by
  unfold irsStrFindPosition
  cases found : irsStrFindGet str substring with
  | none => simp
  | some place' =>
    have inside := (irsStrFindGet_eq_some.mp found).1
    constructor
    · intro ⟨position, same, number⟩
      cases same
      rw [UInt64.toNat_ofNat'] at number
      have : place' = place := by omega
      rw [this]
    · intro same
      cases same
      exact ⟨_, rfl, UInt64.toNat_ofNat_of_lt' (Nat.lt_of_le_of_lt within fits)⟩

/-- Each sentence is found where it stands, exactly when none of them occurs in an earlier one. -/
theorem sentencePlaces_iff (document : CString) :
    ∃ found, AllRuns (isOneOf (irsChars ".!?")) document.bytes found ∧
      irsStorageGetDocumentSentences document.bytes = found.map Prod.snd ∧
      ((∀ sentence ∈ found, ∃ position, irsStrFindPosition document.bytes sentence.2 =
        .ok position ∧ position.toNat = sentence.1 + 1) ↔
        (found.map Prod.snd).Pairwise fun earlier later => ¬later <:+: earlier) := by
  have all := runs_allRuns (isOneOf (irsChars ".!?")) document.bytes
  refine ⟨_, all, ?_, ?_⟩
  · rw [irsStorageGetDocumentSentences_eq, cString_of_noNul document.noNul]
  · rw [List.pairwise_map, all.pairwise_iff, forall₂_comm]
    refine forall₂_congr fun sentence member => ?_
    have maximal := (all.maximal _ _).mp member
    have first := maximal.isPrefix
    have length := first.length_le
    have nonempty := List.length_pos_of_ne_nil maximal.goesOn
    rw [List.length_drop] at length
    have text : cString document.bytes = document.bytes := cString_of_noNul document.noNul
    have text' : cString sentence.2 = sentence.2 :=
      cString_of_noNul fun ch inside =>
        document.noNul ch (List.drop_subset _ _ (first.subset inside))
    rw [irsStrFindPosition_iff (text.symm ▸ document.fits) (by rw [text]; omega),
      irsStrFindGet_eq_some, text, text']
    have earlier := all.occurs_before_iff member
    constructor
    · intro ⟨_, _, unseen⟩ other member' before occurs
      obtain ⟨place, before', here⟩ := earlier.mpr ⟨other, member', before, occurs⟩
      exact unseen place before' here
    · intro unseen
      refine ⟨by omega, first, fun place before here => ?_⟩
      obtain ⟨other, member', before', occurs⟩ := earlier.mp ⟨place, before, here⟩
      exact unseen other member' before' occurs

/-- The second sentence of `ab.b` is found in the first one. -/
theorem sentencePlaces_fails :
    ∃ found, AllRuns (isOneOf (irsChars ".!?")) (irsChars "ab.b") found ∧
      irsStorageGetDocumentSentences (irsChars "ab.b") = found.map Prod.snd ∧
      ¬∀ sentence ∈ found, ∃ position, irsStrFindPosition (irsChars "ab.b") sentence.2 =
        .ok position ∧ position.toNat = sentence.1 + 1 := by
  refine ⟨_, runs_allRuns _ _, by decide, fun places => ?_⟩
  obtain ⟨position, run, number⟩ := places (3, irsChars "b") (by decide)
  cases run
  cases number

end IrsMachine
