import Mathlib.Algebra.BigOperators.Group.List.Basic
import Mathlib.Algebra.GroupWithZero.Nat
import Mathlib.Data.List.Count

/-!
# First bytes in UTF-8

The first byte of an encoded character does not occur anywhere else in an encoded text, but
characters share it: all that are written with the same first byte are taken for each other by
who reads no more of them.
-/

namespace Utf8
open String

def lead (ch : Char) : UInt8 := (utf8EncodeChar ch).headD 0

def encode (text : List Char) : List UInt8 := text.flatMap utf8EncodeChar

theorem isUTF8FirstByte_lead (ch : Char) : (lead ch).IsUTF8FirstByte := by
  obtain ⟨first, rest, split⟩ := List.exists_cons_of_ne_nil (utf8EncodeChar_ne_nil (c := ch))
  have here := UInt8.isUTF8FirstByte_getElem_zero_utf8EncodeChar (c := ch)
  simp only [split, List.getElem_cons_zero] at here
  rwa [lead, split, List.headD_cons]

/-- The bytes behind the first one are no first bytes. -/
theorem utf8EncodeChar_eq_cons (ch : Char) : ∃ rest, utf8EncodeChar ch = lead ch :: rest ∧
    ∀ byte ∈ rest, ¬byte.IsUTF8FirstByte := by
  obtain ⟨first, rest, split⟩ := List.exists_cons_of_ne_nil (utf8EncodeChar_ne_nil (c := ch))
  refine ⟨rest, by rw [lead, split, List.headD_cons], ?_⟩
  intro byte member
  obtain ⟨i, inside, here⟩ := List.getElem_of_mem member
  have inside' : i + 1 < (utf8EncodeChar ch).length := by rw [split, List.length_cons]; omega
  have later : ¬(utf8EncodeChar ch)[i + 1].IsUTF8FirstByte :=
    UInt8.isUTF8FirstByte_getElem_utf8EncodeChar.not.mpr (Nat.succ_ne_zero i)
  simp only [split, List.getElem_cons_succ, here] at later
  exact later

theorem count_utf8EncodeChar (ch other : Char) :
    (utf8EncodeChar ch).count (lead other) = if lead ch = lead other then 1 else 0 := by
  obtain ⟨rest, split, later⟩ := utf8EncodeChar_eq_cons ch
  have none : rest.count (lead other) = 0 :=
    List.count_eq_zero.mpr fun member => later _ member (isUTF8FirstByte_lead other)
  rw [split, List.count_cons, none, Nat.zero_add]
  simp only [beq_iff_eq]

theorem ofNat_ne_zero {n : Nat} (small : n % 256 ≠ 0) : UInt8.ofNat n ≠ 0 := by
  intro zero
  exact small (by rw [← UInt8.toNat_ofNat', zero]; rfl)

/-- Only the zero character is written with a zero byte. -/
theorem utf8EncodeChar_noNul {ch : Char} (notNul : ch ≠ '\x00') : ∀ byte ∈ utf8EncodeChar ch,
    byte ≠ 0 := by
  have positive : ch.val.toNat ≠ 0 := fun zero => notNul (Char.ext (UInt32.toNat_inj.mp zero))
  unfold utf8EncodeChar
  intro byte member
  dsimp only at member
  split_ifs at member
  all_goals
    simp only [List.mem_cons, List.not_mem_nil, or_false] at member
  · rw [member]
    exact ofNat_ne_zero (by omega)
  · rcases member with rfl | rfl
    all_goals exact ofNat_ne_zero (by omega)
  · rcases member with rfl | rfl | rfl
    all_goals exact ofNat_ne_zero (by omega)
  · rcases member with rfl | rfl | rfl | rfl
    all_goals exact ofNat_ne_zero (by omega)

theorem encode_noNul {text : List Char} (noNul : '\x00' ∉ text) :
    ∀ byte ∈ encode text, byte ≠ 0 := by
  intro byte member
  obtain ⟨ch, inside, here⟩ := List.mem_flatMap.mp member
  exact utf8EncodeChar_noNul (fun same => noNul (same ▸ inside)) byte here

/-! ### Characters with the same first byte -/

/-- How many other characters of `alphabet` begin with the first byte of `ch`. -/
def lookalikes (alphabet : List Char) (ch : Char) : Nat :=
  alphabet.countP fun letter => decide (letter ≠ ch ∧ lead ch = lead letter)

theorem countP_lead (alphabet : List Char) (ch : Char) :
    (alphabet.countP fun letter => decide (lead ch = lead letter)) =
      alphabet.count ch + lookalikes alphabet ch := by
  induction alphabet with
  | nil => rfl
  | cons letter alphabet ih =>
    unfold lookalikes at ih ⊢
    rw [List.countP_cons, List.count_cons, List.countP_cons, ih]
    by_cases same : letter = ch
    · simp [same]
      omega
    · simp [same]
      omega

theorem sum_count_utf8EncodeChar (alphabet : List Char) (ch : Char) :
    (alphabet.map fun letter => (utf8EncodeChar ch).count (lead letter)).sum =
      alphabet.count ch + lookalikes alphabet ch := by
  rw [← countP_lead]
  induction alphabet with
  | nil => rfl
  | cons letter alphabet ih =>
    rw [List.map_cons, List.sum_cons, ih, count_utf8EncodeChar, List.countP_cons, Nat.add_comm]
    simp only [decide_eq_true_eq]

/-- The first bytes of the letters occur in a text as often as the letters do, and what begins like
another letter. -/
theorem sum_count_lead {alphabet : List Char} (distinct : alphabet.Nodup) (text : List Char) :
    (alphabet.map fun letter => (encode text).count (lead letter)).sum =
      (text.countP fun ch => decide (ch ∈ alphabet)) + (text.map (lookalikes alphabet)).sum := by
  induction text with
  | nil => simp [encode]
  | cons ch text ih =>
    have split : (fun letter => (encode (ch :: text)).count (lead letter)) =
        fun letter => (utf8EncodeChar ch).count (lead letter) + (encode text).count
          (lead letter) := by
      funext letter
      rw [encode, List.flatMap_cons, List.count_append]
      rfl
    rw [split, List.sum_map_add, ih, sum_count_utf8EncodeChar, distinct.count, List.countP_cons,
      List.map_cons, List.sum_cons]
    simp only [decide_eq_true_eq]
    omega

end Utf8
