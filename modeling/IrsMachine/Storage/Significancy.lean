import IrsMachine.Library.Printing
import IrsMachine.Storage.Ratio
import Mathlib.Data.Rat.Floor

/-!
# The texts of the significancies

`irs_float_to_str_float` makes room for the digits of the integer part and for four characters
more, and prints with as many digits. That is enough, except for two kinds of small numbers.
-/

namespace IrsMachine
open Printing

structure StrBuffer where
  allocated : Nat
  text : Bytes

/-- There is a place for the terminating zero too. -/
def StrBuffer.Fits (buffer : StrBuffer) : Prop := buffer.text.length + 1 ≤ buffer.allocated

instance (buffer : StrBuffer) : Decidable buffer.Fits := inferInstanceAs (Decidable (_ ≤ _))

/-- `gcvt(number, ndigit, string)` is `sprintf(string, "%.*g", ndigit, number)`. -/
def gcvt (number : ℚ) (ndigit : Nat) : Bytes :=
  (printGeneral ndigit number).map fun ch => UInt8.ofNat ch.toNat

def mnemonicSize : Nat := 4

/-- `snprintf` of the integer part gives the number of its digits. -/
def irsFloatToStrFloat (number : ℚ) : StrBuffer :=
  let digitSize := (decimal (UInt64.ofNat ⌊number⌋₊)).length
  { allocated := digitSize + mnemonicSize + 1, text := gcvt number digitSize }

theorem length_decimal_eq (number : UInt64) :
    (decimal number).length = (Nat.toDigits 10 number.toNat).length := by
  rw [decimal, List.length_map]

theorem irsFloatToStrFloat_fits (number : ℚ) : (irsFloatToStrFloat number).Fits ↔
    (printGeneral (decimal (UInt64.ofNat ⌊number⌋₊)).length number).length ≤
      (decimal (UInt64.ofNat ⌊number⌋₊)).length + 4 := by
  unfold StrBuffer.Fits irsFloatToStrFloat gcvt mnemonicSize
  dsimp only
  rw [List.length_map]
  omega

theorem fits_small {number : ℚ} (positive : 0 < number) (small : number < 1) :
    (printGeneral 1 number).length ≤ 5 ↔ 19 / 2 * 10 ^ (-100 : ℤ) ≤ number ∧
      ¬(19 / 2 * 10 ^ (-5 : ℤ) ≤ number ∧ number < 19 / 2 * 10 ^ (-4 : ℤ)) := by
  have bound : ∀ k : ℤ, k ≤ (significand 1 number).2 ↔ 19 / 2 * (10 : ℚ) ^ (k - 1) ≤ number := by
    intro k
    rw [le_exponent_iff 1 positive le_rfl k, Nat.cast_one, show (10 : ℚ) ^ 1 - 1 / 2 =
      19 / 2 by norm_num]
  have most : (significand 1 number).2 ≤ 0 := by
    have notOne := (bound 1).not
    rw [show (1 : ℤ) - 1 = 0 by omega, zpow_zero] at notOne
    have := notOne.mpr (by linarith)
    omega
  have digits := Nat.length_toDigits_le_iff (b := 10) (n := (significand 1 number).2.natAbs)
    (k := 2) (by norm_num) (by norm_num)
  rw [← show (-99 : ℤ) - 1 = -100 by omega, ← show (-4 : ℤ) - 1 = -5 by omega, ← show (-3 : ℤ) - 1 =
    -4 by omega, ← not_le, ← bound, ← bound, ← bound, length_printGeneral_one positive most]
  generalize (significand 1 number).2 = exponent at most digits
  split_ifs with fixed zero
  · omega
  · omega
  · omega

/-- The text of a positive number fits unless it is below all numbers with an exponent of two
digits, or is printed with four zeros behind the point. -/
theorem irsFloatToStrFloat_fits_iff (number : ℚ) (positive : 0 < number)
    (inRange : number < 2 ^ 64) :
    (irsFloatToStrFloat number).Fits ↔ 19 / 2 * 10 ^ (-100 : ℤ) ≤ number ∧
      ¬(19 / 2 * 10 ^ (-5 : ℤ) ≤ number ∧ number < 19 / 2 * 10 ^ (-4 : ℤ)) := by
  have whole : (UInt64.ofNat ⌊number⌋₊).toNat = ⌊number⌋₊ := by
    apply UInt64.toNat_ofNat_of_lt'
    exact (Nat.floor_lt positive.le).mpr (by exact_mod_cast inRange)
  rw [irsFloatToStrFloat_fits, length_decimal_eq, whole]
  rcases lt_or_ge number 1 with small | large
  · rw [Nat.floor_eq_zero.mpr small]
    exact fits_small positive small
  · have some := Nat.length_toDigits_pos (b := 10) (n := ⌊number⌋₊)
    have low : 10 ^ ((Nat.toDigits 10 ⌊number⌋₊).length - 1) ≤ ⌊number⌋₊ := by
      by_cases single : (Nat.toDigits 10 ⌊number⌋₊).length = 1
      · rw [single]
        exact (Nat.le_floor_iff positive.le).mpr (by exact_mod_cast large)
      · have short :=
          Nat.length_toDigits_le_iff (b := 10) (n := ⌊number⌋₊)
            (k := (Nat.toDigits 10 ⌊number⌋₊).length - 1)
          (by norm_num) (by omega)
        exact not_lt.mp (short.not.mp (by omega))
    have high := (Nat.length_toDigits_le_iff (b := 10) (n := ⌊number⌋₊) (by norm_num) some).mp
      le_rfl
    refine iff_of_true (length_printGeneral_le some ?_ ?_) ⟨?_, fun between => ?_⟩
    · exact (Nat.le_floor_iff positive.le).mp low
    · exact (Nat.floor_lt positive.le).mp high
    · exact le_trans (by norm_num) large
    · exact absurd (large.trans_lt between.2) (by norm_num)

theorem irsFloatToStrFloat_fits_iff_half : (irsFloatToStrFloat (1 / 2)).Fits :=
  (irsFloatToStrFloat_fits_iff (1 / 2) (by norm_num) (by norm_num)).mpr (by norm_num)

/-- `0.0001` takes seven bytes and has six. -/
theorem fits_fails_small : ¬(irsFloatToStrFloat (1 / 8192)).Fits := by decide +kernel

end IrsMachine
