import IrsMachine.Engine.Tokens
import Mathlib.Algebra.Order.Ring.Rat
import Mathlib.Data.Rat.Floor

/-!
# Sentences in their part

The part of a document around a sentence ends at the first newline after its first character, so a
sentence that goes on behind a newline does not occur in its part. All others do, and their scores
are in range.
-/

namespace IrsMachine
open Except

/-- Exact arithmetic. -/
instance : ScoreFloat ℚ where
  ofUInt64 number := number.toNat
  one := 1
  sub := (· - ·)
  div := (· / ·)
  mul := (· * ·)
  toUInt64 number := UInt64.ofNat ⌊number⌋.toNat

/-! ### The loops -/

theorem partStart_le (document : Bytes) (place : Nat) : partStart document place ≤ place := by
  induction place with
  | zero => exact le_refl 0
  | succ place ih =>
    unfold partStart
    split
    · exact le_refl _
    · exact ih.trans (Nat.le_succ place)

theorem le_partEnd (place : Nat) (rest : Bytes) : place ≤ partEnd place rest := by
  induction rest generalizing place with
  | nil => exact le_refl _
  | cons ch rest ih =>
    unfold partEnd
    split
    · exact le_refl _
    · exact (Nat.le_succ place).trans (ih (place + 1))

/-- There is no newline before the end of a part, and one at it or nothing. -/
theorem partEnd_spec (document : Bytes) (place : Nat) (within : place ≤ document.length) :
    (∀ between, place ≤ between → between < partEnd place (document.drop place) →
      document[between]? ≠ some partSign) ∧
      (partEnd place (document.drop place) < document.length →
        document[partEnd place (document.drop place)]? = some partSign) := by
  induction left : document.drop place generalizing place with
  | nil =>
    rw [partEnd]
    rw [List.drop_eq_nil_iff] at left
    exact ⟨fun between _ _ => by omega, fun inside => by omega⟩
  | cons ch rest ih =>
    have here : document[place]? = some ch := by rw [← List.head?_drop, left, List.head?_cons]
    have inside : place < document.length := (List.getElem?_eq_some_iff.mp here).1
    have rest' : document.drop (place + 1) = rest := by
      rw [← List.drop_drop, left, List.drop_succ_cons, List.drop_zero]
    unfold partEnd
    split
    · rename_i isSign
      exact ⟨fun between _ _ => by omega, fun _ => by rw [here, isSign]⟩
    · rename_i notSign
      obtain ⟨free, boundary⟩ := ih (place + 1) inside rest'
      refine ⟨fun between behind before => ?_, boundary⟩
      rcases Nat.eq_or_lt_of_le behind with rfl | later
      · rw [here]
        exact fun same => notSign (Option.some.inj same)
      · exact free between later before

/-! ### The part -/

/-- The characters that are copied from a string with its terminating zero. -/
theorem cString_copy {string : Bytes} (noNul : ∀ ch ∈ string, ch ≠ 0) (start size : Nat) :
    cString (((string ++ [0]).drop start).take size) = (string.drop start).take size := by
  rcases Nat.le_total start string.length with within | beyond
  · have noNul' : ∀ ch ∈ (string.drop start).take size, decide (ch ≠ 0) = true := fun ch member =>
      decide_eq_true (noNul ch (List.drop_subset _ _ (List.take_subset _ _ member)))
    rw [List.drop_append_of_le_length within, List.take_append, cString,
      List.takeWhile_append_of_pos noNul']
    cases size - (string.drop start).length with
    | zero => simp
    | succ more => simp
  · rw [List.drop_eq_nil_iff.mpr beyond, List.drop_append, List.drop_eq_nil_iff.mpr beyond]
    cases start - string.length with
    | zero =>
      cases size with
      | zero => rfl
      | succ size => simp [cString]
    | succ more => simp [cString]

theorem exists_irsStrFindGet {str substring : Bytes} (occurs : cString substring <:+: cString str) :
    ∃ place, irsStrFindGet str substring = some place := by
  obtain ⟨before, after, split⟩ := occurs
  cases found : irsStrFindGet str substring with
  | some place => exact ⟨place, rfl⟩
  | none =>
    rw [irsStrFindGet, List.find?_range_eq_none] at found
    have length := congrArg List.length split
    simp only [List.length_append] at length
    have absent := found before.length (by omega)
    rw [← split, List.append_assoc, List.drop_left, List.isPrefixOf_iff_prefix.mpr
      (List.prefix_append _ _)] at absent
    cases absent

/-- A nonempty text without zeros that occurs in the document. -/
structure Occurs (document sentence : Bytes) : Prop where
  noNul : ∀ ch ∈ document, ch ≠ 0
  goesOn : sentence ≠ []
  occurs : sentence <:+: document

theorem Occurs.cString_eq {document sentence : Bytes} (occurs : Occurs document sentence) :
    cString document = document ∧ cString sentence = sentence :=
  ⟨cString_of_noNul occurs.noNul, cString_of_noNul fun ch member => occurs.noNul ch
    (occurs.occurs.subset member)⟩

/-- The copy holds the text if it goes on to the end of its first occurrence. -/
theorem infix_copy_iff {document sentence : Bytes} {isent start last : Nat}
    (here : sentence <+: document.drop isent)
    (first : ∀ earlier < isent, ¬sentence <+: document.drop earlier) (before : start ≤ isent)
    (behind : isent < last) :
    sentence <:+: (document.drop start).take (last - start + 1) ↔
      isent + sentence.length ≤ last + 1 := by
  constructor
  · intro ⟨left, right, split⟩
    have length := congrArg List.length split
    simp only [List.length_append, List.length_take] at length
    have there : sentence <+: document.drop (start + left.length) := by
      have copied := List.take_prefix (last - start + 1) (document.drop start)
      rw [← split, List.append_assoc] at copied
      obtain ⟨after, rest⟩ := copied
      rw [← List.drop_drop, ← rest, List.append_assoc, List.append_assoc, List.drop_left]
      exact List.prefix_append _ _
    have notEarlier := not_lt.mp fun earlier => first _ earlier there
    omega
  · intro short
    have inside : sentence <+: ((document.drop start).take (last - start + 1)).drop
        (isent - start) := by
      rw [List.drop_take, List.drop_drop, List.prefix_take_iff]
      constructor
      · rwa [show start + (isent - start) = isent by omega]
      · omega
    exact inside.isInfix.trans (List.drop_suffix _ _).isInfix

theorem irsStorageDefineDocumentPartWithSentence_ok {document sentence : Bytes}
    (occurs : Occurs document sentence) :
    ∃ docPart, irsStorageDefineDocumentPartWithSentence document sentence = .ok docPart ∧
      cString docPart <:+: document ∧
      (sentence <:+: cString docPart ↔ ∀ place, 0 < place → place + 1 < sentence.length →
        sentence[place]? ≠ some partSign) := by
  obtain ⟨text, text'⟩ := occurs.cString_eq
  obtain ⟨isent, found⟩ := exists_irsStrFindGet (text.symm ▸ text'.symm ▸ occurs.occurs)
  obtain ⟨within, here, first⟩ := irsStrFindGet_eq_some.mp found
  rw [text, text'] at here first
  rw [text] at within
  have nonempty := List.length_pos_of_ne_nil occurs.goesOn
  have fits := here.length_le
  rw [List.length_drop] at fits
  obtain ⟨free, boundary⟩ := partEnd_spec document (isent + 1) (by omega)
  have behind := le_partEnd (isent + 1) (document.drop (isent + 1))
  have before := partStart_le document isent
  unfold irsStorageDefineDocumentPartWithSentence
  rw [found]
  dsimp only
  rw [irsStrLen_of_noNul occurs.noNul, text, if_neg (by omega)]
  generalize partStart document isent = start at before ⊢
  generalize partEnd (isent + 1) (document.drop (isent + 1)) = last at free boundary behind ⊢
  refine ⟨_, rfl, ?_, ?_⟩
  · rw [cString_copy occurs.noNul]
    exact (List.take_prefix _ _).isInfix.trans (List.drop_suffix _ _).isInfix
  · rw [cString_copy occurs.noNul]
    rw [infix_copy_iff here first before behind]
    have same : ∀ place < sentence.length, sentence[place]? = document[isent + place]? := by
      intro place inside
      obtain ⟨after, rest⟩ := here
      rw [← List.getElem?_drop, ← rest, List.getElem?_append_left inside]
    constructor
    · intro short place later goesOn
      rw [same place (by omega)]
      exact free _ (by omega) (by omega)
    · intro free'
      by_contra long
      have sign := boundary (by omega)
      rw [show last = isent + (last - isent) by omega, ← same _ (by omega)] at sign
      exact free' _ (by omega) (by omega) sign

/-! ### Scores -/

theorem sentencePlace_range {text sentence : Bytes} (fits : (cString text).length < 2 ^ 64)
    (goesOn : cString sentence ≠ []) (occurs : cString sentence <:+: cString text) :
    ∃ place : ℚ, sentencePlace text sentence = .ok place ∧ 0 ≤ place ∧ place < 1 := by
  obtain ⟨found, run⟩ := exists_irsStrFindGet occurs
  obtain ⟨-, here, -⟩ := irsStrFindGet_eq_some.mp run
  have length := here.length_le
  have nonempty := List.length_pos_of_ne_nil goesOn
  rw [List.length_drop] at length
  obtain ⟨position, run', number⟩ := (irsStrFindPosition_iff fits (by omega)).mpr run
  have size : (UInt64.ofNat (irsStrLen text)).toNat = (cString text).length :=
    UInt64.toNat_ofNat_of_lt' fits
  unfold sentencePlace
  rw [run', ok_bind]
  refine ⟨1 - (position.toNat : ℚ) / (UInt64.ofNat (irsStrLen text)).toNat, rfl, ?_, ?_⟩
  · rw [size, number, sub_nonneg,
      div_le_one (by exact_mod_cast (by omega : 0 < (cString text).length))]
    exact_mod_cast (by omega : found + 1 ≤ (cString text).length)
  · rw [size, number, sub_lt_self_iff]
    apply div_pos
    · exact_mod_cast Nat.succ_pos found
    · exact_mod_cast (by omega : 0 < (cString text).length)

theorem score_range {posd posp : ℚ} (posdLow : 0 ≤ posd) (posdHigh : posd < 1) (pospLow : 0 ≤ posp)
    (pospHigh : posp < 1) :
    (ScoreFloat.toUInt64
      (ScoreFloat.mul (ScoreFloat.mul posd posp) (ScoreFloat.ofUInt64 10000 : ℚ))) < 10000 := by
  have product : posd * posp < 1 := mul_lt_one_of_nonneg_of_lt_one_left posdLow posdHigh pospHigh.le
  have small : posd * posp * 10000 < 10000 := by linarith
  have floor : ⌊posd * posp * 10000⌋.toNat < 10000 := by
    have bound : ⌊posd * posp * 10000⌋ < 10000 := Int.floor_lt.mpr (by exact_mod_cast small)
    have low : 0 ≤ ⌊posd * posp * 10000⌋ := Int.floor_nonneg.mpr (by positivity)
    omega
  have scale : (ScoreFloat.ofUInt64 10000 : ℚ) = 10000 := by
    show (((10000 : UInt64).toNat : ℕ) : ℚ) = 10000
    rw [show (10000 : UInt64).toNat = 10000 from rfl]
    norm_num
  rw [scale]
  show UInt64.ofNat ⌊posd * posp * 10000⌋.toNat < 10000
  rw [UInt64.lt_iff_toNat_lt, UInt64.toNat_ofNat_of_lt' (Nat.lt_trans floor (by decide))]
  exact floor

theorem irsDefineSentenceScore_ok {document sentence docPart : Bytes}
    (occurs : Occurs document sentence) (fits : document.length < 2 ^ 64)
    (run : irsStorageDefineDocumentPartWithSentence document sentence = .ok docPart)
    (inside : cString docPart <:+: document) (contains : sentence <:+: cString docPart) :
    (∃ posd : ℚ, irsStorageDefineDocumentSentencePosd document sentence = .ok posd ∧ 0 ≤ posd ∧
      posd < 1) ∧
      (∃ posp : ℚ, irsStorageDefineDocumentSentencePosp docPart sentence = .ok posp ∧ 0 ≤ posp ∧
        posp < 1) ∧
      ∃ score, irsDefineSentenceScore ℚ document sentence = .ok score ∧ score < 10000 := by
  obtain ⟨text, text'⟩ := occurs.cString_eq
  obtain ⟨posd, runD, posdLow, posdHigh⟩ :=
    sentencePlace_range (text.symm ▸ fits) (text'.symm ▸ occurs.goesOn)
    (text.symm ▸ text'.symm ▸ occurs.occurs)
  have fits' : (cString docPart).length < 2 ^ 64 := Nat.lt_of_le_of_lt inside.length_le fits
  obtain ⟨posp, runP, pospLow, pospHigh⟩ :=
    sentencePlace_range fits' (text'.symm ▸ occurs.goesOn) (text'.symm ▸ contains)
  refine ⟨⟨posd, runD, posdLow, posdHigh⟩, ⟨posp, runP, pospLow, pospHigh⟩, _, ?_,
    score_range posdLow posdHigh pospLow pospHigh⟩
  unfold irsDefineSentenceScore irsStorageDefineDocumentSentencePosd
    irsStorageDefineDocumentSentencePosp
  rw [runD, ok_bind, run, ok_bind, runP, ok_bind]

theorem occurs_sentence {document : CString} {sentence : Bytes}
    (member : sentence ∈ irsStorageGetDocumentSentences document.bytes) :
    Occurs document.bytes sentence := by
  obtain ⟨goesOn, inside⟩ := strtok_part member
  rw [cString_of_noNul document.noNul] at inside
  exact ⟨document.noNul, goesOn, inside⟩

/-- The part of a sentence holds it and its score is in range, exactly when there are newlines only
at its ends. -/
theorem sentences_inParts_iff (document : CString) :
    (∀ sentence ∈ irsStorageGetDocumentSentences document.bytes,
      ∃ docPart, irsStorageDefineDocumentPartWithSentence document.bytes sentence = .ok docPart ∧
        sentence <:+: cString docPart ∧
        (∃ posd : ℚ, irsStorageDefineDocumentSentencePosd document.bytes sentence = .ok posd ∧
          0 ≤ posd ∧ posd < 1) ∧
        (∃ posp : ℚ, irsStorageDefineDocumentSentencePosp docPart sentence = .ok posp ∧ 0 ≤ posp ∧
          posp < 1) ∧
        ∃ score, irsDefineSentenceScore ℚ document.bytes sentence = .ok score ∧ score < 10000) ↔
    ∀ sentence ∈ irsStorageGetDocumentSentences document.bytes, ∀ place, 0 < place →
    place + 1 < sentence.length →
      sentence[place]? ≠ some partSign := by
  refine forall₂_congr fun sentence member => ?_
  have occurs := occurs_sentence member
  obtain ⟨docPart, run, inside, contained⟩ := irsStorageDefineDocumentPartWithSentence_ok occurs
  rw [← contained]
  constructor
  · intro ⟨docPart', run', contains, _⟩
    rw [run] at run'
    cases run'
    exact contains
  · intro contains
    exact ⟨docPart, run, contains,
      irsDefineSentenceScore_ok occurs document.fits run inside contains⟩

/-- The part of the sentence of two lines ends with its first line. -/
theorem sentences_inParts_fails :
    irsChars "a\nb" ∈ irsStorageGetDocumentSentences (irsChars "a\nb") ∧
      ∃ docPart, irsStorageDefineDocumentPartWithSentence (irsChars "a\nb") (irsChars "a\nb") =
        .ok docPart ∧
        ¬irsChars "a\nb" <:+: cString docPart ∧
        irsDefineSentenceScore ℚ (irsChars "a\nb") (irsChars "a\nb") = .error .badPointer := by
  refine ⟨by decide, irsChars "a\n", by decide, by decide, ?_⟩
  rfl

end IrsMachine
