import IrsMachine.Engine.Alphabets
import IrsMachine.Library.Utf8

/-!
# Letters of more than one byte

A letter of an alphabet counts by its first byte. All accented Latin letters begin with the same two
or three bytes, so each of them counts for all letters of the alphabet that share its first byte.
-/

namespace IrsMachine
open Utf8

/-- What is counted for an alphabet: its letters, and for each character the other letters that
begin like it. -/
theorem letterMatches_encode {alphabet : List Char} (distinct : alphabet.Nodup)
    (document : List Char) :
    letterMatches (encode document) (alphabet.map String.utf8EncodeChar) =
      (document.countP fun ch => decide (ch ∈ alphabet)) + (document.map
        (lookalikes alphabet)).sum := by
  rw [← sum_count_lead distinct, letterMatches, List.map_map]
  rfl

theorem add_mod_eq_left_iff (letters others size : Nat) (positive : 0 < size) :
    (letters + others) % size = letters ↔ letters < size ∧ size ∣ others := by
  constructor
  · intro same
    have bound : letters < size := same ▸ Nat.mod_lt _ positive
    have split := Nat.div_add_mod (letters + others) size
    rw [same] at split
    exact ⟨bound, (letters + others) / size, by omega⟩
  · rintro ⟨bound, times, rfl⟩
    rw [Nat.add_mul_mod_self_left, Nat.mod_eq_of_lt bound]

theorem alphabetCounts_letters_iff (engine : IrsEngine) (document alphabet : List Char)
    (lang : Bytes) (place : Nat) (text : '\x00' ∉ document) (distinct : alphabet.Nodup)
    (stored : engine.langAlphabets[place]? = some (alphabet.map String.utf8EncodeChar, lang)) :
    (∃ count, (alphabetCounts engine (encode document))[place]? = some count ∧
      count.toNat = document.countP fun ch => decide (ch ∈ alphabet)) ↔
    (document.countP fun ch => decide (ch ∈ alphabet)) < 2 ^ 32 ∧
    2 ^ 32 ∣ (document.map (lookalikes alphabet)).sum := by
  have whole : (encode document).take (irsStrLen (encode document)) = encode document := by
    rw [take_irsStrLen, cString_of_noNul (encode_noNul text)]
  have read : (alphabetCounts engine (encode document))[place]? =
      some (alphabetCoincidences (encode document) (alphabet.map String.utf8EncodeChar) 0) := by
    rw [alphabetCounts, List.getElem?_map, stored, whole]
    rfl
  rw [← add_mod_eq_left_iff _ _ _ (by decide), ← letterMatches_encode distinct,
    ← toNat_alphabetCoincidences, read]
  simp only [Option.some.injEq, exists_eq_left']

/-- A document and an alphabet without accents. -/
theorem alphabetCounts_letters_iff_ao :
    (∃ count, (alphabetCounts ⟨[], [(['a', 'o'].map String.utf8EncodeChar, irsChars "English")]⟩
      (encode ['a', 'b', 'a']))[0]? = some count ∧
      count.toNat = ['a', 'b', 'a'].countP fun ch => decide (ch ∈ ['a', 'o'])) :=
  (alphabetCounts_letters_iff ⟨[], [(['a', 'o'].map String.utf8EncodeChar, irsChars "English")]⟩
    ['a', 'b', 'a'] ['a', 'o'] _ 0
    (by decide) (by decide) rfl).mpr (by decide)

/-- `è` counts as the letter `é`. -/
theorem alphabetCounts_letters_fails :
    ¬∃ count, (alphabetCounts ⟨[], [(['é'].map String.utf8EncodeChar, irsChars "French")]⟩
      (encode ['è']))[0]? = some count ∧
      count.toNat = ['è'].countP fun ch => decide (ch ∈ ['é']) := by
  intro ⟨count, here, number⟩
  revert number
  rw [← Option.some.inj here]
  decide

end IrsMachine
