import Mathlib.Data.Int.Log
import Mathlib.Data.List.DropRight
import Mathlib.Algebra.Order.Floor.Semiring
import Mathlib.Algebra.Ring.Parity
import Mathlib.Tactic.IntervalCases
import Mathlib.Tactic.Linarith
import Mathlib.Tactic.NormNum
import Mathlib.Tactic.Ring

/-!
# Printing numbers

How the conversion `%.*g` of the C library prints a positive number: it rounds to so many
digits, looks at the exponent that is left, chooses one of two notations and drops the zeros at
the end.
-/

namespace Printing
variable {K : Type*} [Field K] [LinearOrder K] [IsStrictOrderedRing K] [FloorRing K]

/-- The nearest natural number. Of two that are equally near it is the even one. -/
def roundEven (x : K) : ℕ :=
  let low := ⌊x⌋₊
  if x - low < 1 / 2 then low
  else if 1 / 2 < x - low then low + 1
  else if low % 2 = 0 then low else low + 1

/-- The leading digits, as many as the precision, and the exponent of the first one. -/
def significand (precision : ℕ) (x : K) : ℕ × ℤ :=
  let exponent := Int.log 10 x
  let digits := roundEven (x / 10 ^ (exponent - (precision - 1 : ℕ)))
  -- rounding can give one digit more, and all of them but the first are zero then
  if digits = 10 ^ precision then (10 ^ (precision - 1), exponent + 1) else (digits, exponent)

/-- A fraction is printed without the zeros at its end, and not at all if nothing is left. -/
def pointed (whole fraction : List Char) : List Char :=
  match fraction.rdropWhile fun digit => digit == '0' with
  | [] => whole
  | fraction => whole ++ '.' :: fraction

def padded (width : ℕ) (number : ℕ) : List Char :=
  List.replicate (width - (Nat.toDigits 10 number).length) '0' ++ Nat.toDigits 10 number

def printFixed (decimals : ℕ) (x : K) : List Char :=
  let digits := padded (decimals + 1) (roundEven (x * 10 ^ decimals))
  pointed (digits.take (digits.length - decimals)) (digits.drop (digits.length - decimals))

def printExponent (digits : ℕ) (exponent : ℤ) : List Char :=
  pointed ((Nat.toDigits 10 digits).take 1) ((Nat.toDigits 10 digits).drop 1) ++
    'e' :: (if exponent < 0 then '-' else '+') :: padded 2 exponent.natAbs

/-- `%.*g`. The precision 0 is taken as 1. -/
def printGeneral (precision : ℕ) (x : K) : List Char :=
  let precision := max precision 1
  let (digits, exponent) := significand precision x
  if -4 ≤ exponent ∧ exponent < precision then printFixed (precision - 1 - exponent).toNat x
  else printExponent digits exponent

/-! ### Rounding -/

omit [IsStrictOrderedRing K] in
theorem roundEven_floor (x : K) : roundEven x = ⌊x⌋₊ ∨ roundEven x = ⌊x⌋₊ + 1 := by
  unfold roundEven
  dsimp only
  split_ifs <;> simp

omit [IsStrictOrderedRing K] in
theorem le_roundEven {x : K} {n : ℕ} (positive : 0 ≤ x) (least : n ≤ x) : n ≤ roundEven x := by
  have below := (Nat.le_floor_iff positive).mpr least
  rcases roundEven_floor x with low | high
  · omega
  · omega

omit [IsStrictOrderedRing K] in
theorem roundEven_le {x : K} {n : ℕ} (positive : 0 ≤ x) (most : x < n) : roundEven x ≤ n := by
  have above := (Nat.floor_lt positive).mpr most
  rcases roundEven_floor x with low | high
  · omega
  · omega

theorem succ_le_roundEven {x : K} {n : ℕ} (positive : 0 ≤ x) (more : (n : K) + 1 / 2 < x) :
    n + 1 ≤ roundEven x := by
  have high := Nat.lt_floor_add_one x
  have low := (Nat.le_floor_iff (n := n) positive).mpr (by linarith)
  rcases low.eq_or_lt with same | less
  · unfold roundEven
    dsimp only
    rw [← same] at high ⊢
    rw [if_neg (by linarith), if_pos (by linarith)]
  · rcases roundEven_floor x with rounded | rounded
    · omega
    · omega

/-- In the middle above an odd number it is rounded up. -/
theorem succ_le_roundEven_iff {x : K} {n : ℕ} (positive : 0 ≤ x) (odd : n % 2 = 1) :
    n + 1 ≤ roundEven x ↔ (n : K) + 1 / 2 ≤ x := by
  have low := Nat.floor_le positive
  have high := Nat.lt_floor_add_one x
  rcases lt_trichotomy ⌊x⌋₊ n with below | same | above
  · have : ((⌊x⌋₊ + 1 : ℕ) : K) ≤ n := Nat.cast_le.mpr below
    push_cast at this
    refine iff_of_false ?_ (by linarith)
    rcases roundEven_floor x with rounded | rounded
    · omega
    · omega
  · unfold roundEven
    dsimp only
    rw [same] at low high ⊢
    split_ifs with less more
    · exact iff_of_false (by omega) (by linarith)
    · exact iff_of_true le_rfl (by linarith)
    · omega
    · exact iff_of_true le_rfl (by linarith)
  · have : ((n + 1 : ℕ) : K) ≤ ⌊x⌋₊ := Nat.cast_le.mpr above
    push_cast at this
    refine iff_of_true ?_ (by linarith)
    rcases roundEven_floor x with rounded | rounded
    · omega
    · omega

/-! ### The exponent -/

theorem ten_zpow_pos (exponent : ℤ) : (0 : K) < 10 ^ exponent := zpow_pos (by norm_num) _

theorem scaled_bounds {x : K} {precision : ℕ} (positive : 0 < x) (digits : 1 ≤ precision) :
    (10 ^ (precision - 1) : ℕ) ≤ x / 10 ^ (Int.log 10 x - (precision - 1 : ℕ)) ∧
      x / 10 ^ (Int.log 10 x - (precision - 1 : ℕ)) < (10 ^ precision : ℕ) := by
  have low := Int.zpow_log_le_self (b := 10) (by norm_num) positive
  have high := Int.lt_zpow_succ_log_self (b := 10) (by norm_num) x
  have scale := ten_zpow_pos (K := K) (Int.log 10 x - (precision - 1 : ℕ))
  rw [le_div_iff₀ scale, div_lt_iff₀ scale]
  push_cast at low high ⊢
  rw [← zpow_natCast, ← zpow_natCast, ← zpow_add₀ (by norm_num), ← zpow_add₀ (by norm_num)]
  constructor
  · rwa [show ((precision - 1 : ℕ) : ℤ) + (Int.log 10 x - (precision - 1 : ℕ)) =
    Int.log 10 x by omega]
  · rwa [show (precision : ℤ) + (Int.log 10 x - (precision - 1 : ℕ)) = Int.log 10 x + 1 by omega]

theorem significand_digits {x : K} (precision : ℕ) (positive : 0 < x) (digits : 1 ≤ precision) :
    10 ^ (precision - 1) ≤ (significand precision x).1 ∧
    (significand precision x).1 < 10 ^ precision := by
  obtain ⟨low, high⟩ := scaled_bounds positive digits
  have above := div_pos positive (ten_zpow_pos (K := K) (Int.log 10 x - (precision - 1 : ℕ)))
  have least := le_roundEven above.le low
  have most := roundEven_le above.le high
  unfold significand
  dsimp only
  split_ifs with carry
  · exact ⟨le_rfl, Nat.pow_lt_pow_right (by norm_num) (by omega)⟩
  · exact ⟨least, lt_of_le_of_ne most carry⟩

theorem carries_iff {x : K} {precision : ℕ} (positive : 0 < x) (digits : 1 ≤ precision) :
    roundEven (x / 10 ^ (Int.log 10 x - (precision - 1 : ℕ))) = 10 ^ precision ↔
      ((10 : K) ^ precision - 1 / 2) * 10 ^ (Int.log 10 x + 1 - precision) ≤ x := by
  have above := div_pos positive (ten_zpow_pos (K := K) (Int.log 10 x - (precision - 1 : ℕ)))
  have most := roundEven_le above.le (scaled_bounds positive digits).2
  have even : 10 ^ precision % 2 = 0 := Nat.mod_eq_zero_of_dvd (dvd_pow (by norm_num) (by omega))
  have big : 1 ≤ 10 ^ precision := Nat.one_le_pow _ _ (by norm_num)
  have middle := succ_le_roundEven_iff (n := 10 ^ precision - 1) above.le (by omega)
  rw [Nat.sub_add_cancel big, Nat.cast_sub big, le_div_iff₀ (ten_zpow_pos _)] at middle
  push_cast at middle
  rw [show Int.log 10 x - ((precision - 1 : ℕ) : ℤ) = Int.log 10 x + 1 - precision by omega]
    at middle most ⊢
  rw [show (10 : K) ^ precision - 1 / 2 = 10 ^ precision - 1 + 1 / 2 by ring, ← middle]
  exact ⟨fun same => same.ge, fun least => le_antisymm most least⟩

/-- The exponent after rounding is at least `bound` from the middle below that power of ten on. -/
theorem le_exponent_iff {x : K} (precision : ℕ) (positive : 0 < x) (digits : 1 ≤ precision)
    (bound : ℤ) :
    bound ≤ (significand precision x).2 ↔
      ((10 : K) ^ precision - 1 / 2) * 10 ^ (bound - precision) ≤ x := by
  have low := Int.zpow_log_le_self (b := 10) (by norm_num) positive
  have high := Int.lt_zpow_succ_log_self (b := 10) (by norm_num) x
  push_cast at low high
  have ten : (1 : K) ≤ 10 := by norm_num
  have one : (1 : K) ≤ 10 ^ (precision - 1) := one_le_pow₀ ten
  have split : (10 : K) ^ precision = 10 ^ (precision - 1) * 10 := by
    rw [← pow_succ, Nat.sub_add_cancel digits]
  have half : (10 : K) ^ (precision - 1) ≤ 10 ^ precision - 1 / 2 := by
    rw [split]
    linarith
  have scaled : ∀ k : ℤ, (10 : K) ^ precision * 10 ^ (k - precision) = 10 ^ k := by
    intro k
    rw [← zpow_natCast, ← zpow_add₀ (by norm_num), add_sub_cancel]
  have mono : ∀ {a b : ℤ}, a ≤ b →
      ((10 : K) ^ precision - 1 / 2) * 10 ^ (a - precision) ≤ ((10 : K) ^ precision - 1 / 2) * 10 ^
        (b - precision) := by
    intro a b less
    exact mul_le_mul_of_nonneg_left (zpow_le_zpow_right₀ ten (by omega)) (by linarith)
  unfold significand
  dsimp only
  split_ifs with carry
  · rw [carries_iff positive digits] at carry
    constructor
    · intro less
      exact (mono less).trans carry
    · intro least
      by_contra larger
      have next := (mono (a := Int.log 10 x + 2) (by omega)).trans least
      have power : (10 : K) ^ (Int.log 10 x + 1) ≤ ((10 : K) ^ precision - 1 / 2) * 10 ^
          (Int.log 10 x + 2 - precision) := by
        calc (10 : K) ^ (Int.log 10 x + 1) = 10 ^ (precision - 1) * 10 ^
          (Int.log 10 x + 2 - precision) := by
              rw [← zpow_natCast, ← zpow_add₀ (by norm_num)]
              congr 1
              omega
          _ ≤ _ := mul_le_mul_of_nonneg_right half (ten_zpow_pos _).le
      linarith
  · rw [carries_iff positive digits, not_le] at carry
    constructor
    · intro less
      have below := mono less
      have smaller : ((10 : K) ^ precision - 1 / 2) * 10 ^ (Int.log 10 x - precision) ≤
          10 ^ Int.log 10 x := by
        rw [← scaled (Int.log 10 x)]
        exact mul_le_mul_of_nonneg_right (by linarith) (ten_zpow_pos _).le
      linarith
    · intro least
      by_contra larger
      have next := (mono (a := Int.log 10 x + 1) (by omega)).trans least
      linarith

/-! ### The length of the text -/

theorem length_toDigits {n width : ℕ} (least : 10 ^ (width - 1) ≤ n) (most : n < 10 ^ width)
    (positive : 0 < width) :
    (Nat.toDigits 10 n).length = width := by
  have upper := (Nat.length_toDigits_le_iff (b := 10) (by norm_num) positive).mpr most
  have some := Nat.length_toDigits_pos (b := 10) (n := n)
  by_contra different
  have lower := (Nat.length_toDigits_le_iff (b := 10) (n := n) (k := width - 1) (by norm_num)
    (by omega)).mp (by omega)
  omega

theorem length_padded (width number : ℕ) :
    (padded width number).length = max width (Nat.toDigits 10 number).length := by
  rw [padded, List.length_append, List.length_replicate]
  omega

theorem toDigits_ten_pow (n : ℕ) : Nat.toDigits 10 (10 ^ n) = '1' :: List.replicate n '0' := by
  induction n with
  | zero => rfl
  | succ n ih =>
    have big : 10 ≤ 10 ^ (n + 1) := Nat.le_self_pow (by omega) 10
    rw [Nat.toDigits_of_base_le (by norm_num) big, pow_succ, Nat.mul_div_cancel _ (by norm_num), ih,
      Nat.mul_mod_left, List.replicate_succ', List.cons_append]
    rfl

theorem pointed_nil (whole : List Char) : pointed whole [] = whole := rfl

theorem pointed_zeros (whole : List Char) (n : ℕ) :
    pointed whole (List.replicate n '0') = whole := by
  have none : (List.replicate n '0').rdropWhile (fun digit => digit == '0') = [] := by
    rw [List.rdropWhile_eq_nil_iff]
    simp
  rw [pointed, none]

theorem pointed_concat (whole fraction : List Char) {last : Char} (notZero : last ≠ '0') :
    pointed whole (fraction ++ [last]) = whole ++ '.' :: (fraction ++ [last]) := by
  have all : (fraction ++ [last]).rdropWhile (fun digit => digit == '0') = fraction ++ [last] :=
    List.rdropWhile_concat_neg _ _ _ (by simpa using notZero)
  rw [pointed, all]
  split
  · simp_all
  · rfl

theorem digitChar_ne_zero {n : ℕ} (positive : 1 ≤ n) (digit : n < 10) : n.digitChar ≠ '0' := by
  interval_cases n <;> decide

omit [IsStrictOrderedRing K] in
theorem length_printFixed_digit {x : K} {decimals : ℕ}
    (positive : 1 ≤ roundEven (x * 10 ^ decimals)) (digit : roundEven (x * 10 ^ decimals) < 10) :
    (printFixed decimals x).length = if decimals = 0 then 1 else decimals + 2 := by
  have notZero := digitChar_ne_zero positive digit
  have text : padded (decimals + 1) (roundEven (x * 10 ^ decimals)) =
      List.replicate decimals '0' ++ [(roundEven (x * 10 ^ decimals)).digitChar] := by
    rw [padded, Nat.toDigits_of_lt_base digit, List.length_singleton, Nat.add_sub_cancel]
  unfold printFixed
  rw [text]
  dsimp only
  rw [List.length_append, List.length_replicate, List.length_singleton, Nat.add_sub_cancel_left]
  cases decimals with
  | zero => rfl
  | succ decimals =>
    rw [List.replicate_succ, List.cons_append, List.take_succ_cons, List.take_zero,
      List.drop_succ_cons, List.drop_zero, pointed_concat _ _ notZero, if_neg (by omega)]
    simp only [List.length_append, List.length_cons, List.length_nil, List.length_replicate]
    omega

theorem length_printExponent {digits : ℕ} {exponent : ℤ}
    (leading : (1 ≤ digits ∧ digits < 10) ∨ ∃ n, digits = 10 ^ n) :
    (printExponent digits exponent).length =
      3 + max 2 (Nat.toDigits 10 exponent.natAbs).length := by
  have mantissa :
      (pointed ((Nat.toDigits 10 digits).take 1) ((Nat.toDigits 10 digits).drop 1)).length = 1 := by
    rcases leading with ⟨-, digit⟩ | ⟨n, rfl⟩
    · rw [Nat.toDigits_of_lt_base digit]
      rfl
    · rw [toDigits_ten_pow, List.take_succ_cons, List.take_zero, List.drop_succ_cons,
        List.drop_zero, pointed_zeros]
      rfl
  rw [printExponent, List.length_append, mantissa, List.length_cons, List.length_cons,
    length_padded]
  omega

/-- Numbers below 1, and with precision 1: one digit and its exponent. -/
theorem length_printGeneral_one {x : K} (positive : 0 < x) (small : (significand 1 x).2 ≤ 0) :
    (printGeneral 1 x).length =
      if -4 ≤ (significand 1 x).2 then if (significand 1 x).2 =
        0 then 1 else (significand 1 x).2.natAbs + 2
      else 3 + max 2 (Nat.toDigits 10 (significand 1 x).2.natAbs).length := by
  have digits := significand_digits 1 positive le_rfl
  have low := (le_exponent_iff 1 positive le_rfl (significand 1 x).2).mp le_rfl
  have high : ¬_ := (le_exponent_iff 1 positive le_rfl ((significand 1 x).2 + 1)).not.mp (by omega)
  unfold printGeneral
  dsimp only
  rw [max_self]
  generalize (significand 1 x).1 = leading at digits
  generalize (significand 1 x).2 = exponent at small low high
  by_cases fixed : -4 ≤ exponent
  · rw [if_pos ⟨fixed, by push_cast; omega⟩, if_pos fixed]
    have decimals : (((1 : ℕ) : ℤ) - 1 - exponent).toNat = exponent.natAbs := by omega
    have above : (0 : K) < 10 ^ exponent.natAbs := pow_pos (by norm_num) _
    have scale : ∀ k : ℤ, (10 : K) ^ (exponent + k) * 10 ^ exponent.natAbs = 10 ^ k := by
      intro k
      rw [← zpow_natCast, ← zpow_add₀ (by norm_num)]
      congr 1
      omega
    have scaled : (19 / 20 : K) ≤ x * 10 ^ exponent.natAbs := by
      calc (19 / 20 : K) = (10 ^ 1 - 1 / 2) * (10 ^ (exponent + -1) * 10 ^ exponent.natAbs) := by
            rw [scale]
            norm_num
        _ = (10 ^ 1 - 1 / 2) * 10 ^ (exponent - (1 : ℕ)) * 10 ^ exponent.natAbs := by
            rw [mul_assoc, Nat.cast_one, sub_eq_add_neg exponent]
        _ ≤ x * 10 ^ exponent.natAbs := mul_le_mul_of_nonneg_right low above.le
    have scaled' : x * 10 ^ exponent.natAbs < 19 / 2 := by
      calc x * 10 ^ exponent.natAbs < (10 ^ 1 - 1 / 2) * 10 ^
        (exponent + 1 - (1 : ℕ)) * 10 ^ exponent.natAbs :=
            mul_lt_mul_of_pos_right (not_le.mp high) above
        _ = (10 ^ 1 - 1 / 2) * (10 ^ (exponent + 0) * 10 ^ exponent.natAbs) := by
            rw [mul_assoc, Nat.cast_one, add_sub_cancel_right, add_zero]
        _ = 19 / 2 := by
            rw [scale]
            norm_num
    have least : 0 + 1 ≤ roundEven (x * 10 ^ exponent.natAbs) :=
      succ_le_roundEven (mul_pos positive above).le (by rw [Nat.cast_zero]; linarith)
    have most := succ_le_roundEven_iff (x := x * 10 ^ exponent.natAbs) (n := 9)
      (mul_pos positive above).le rfl
    have digit : roundEven (x * 10 ^ exponent.natAbs) < 10 := by
      rw [← not_le]
      refine most.not.mpr (not_le.mpr ?_)
      norm_num
      linarith
    rw [decimals, length_printFixed_digit least digit]
    simp only [Int.natAbs_eq_zero]
  · rw [if_neg (fun both => fixed both.1), if_neg fixed]
    exact length_printExponent (.inl ⟨by simpa using digits.1, by simpa using digits.2⟩)

theorem significand_whole {x : K} {precision : ℕ} (digits : 1 ≤ precision)
    (low : (10 ^ (precision - 1) : ℕ) ≤ x) (high : x < (10 ^ precision : ℕ)) :
    significand precision x =
      if roundEven x = 10 ^ precision then (10 ^ (precision - 1), (precision : ℤ))
        else (roundEven x, (precision : ℤ) - 1) := by
  have positive : 0 < x := lt_of_lt_of_le (Nat.cast_pos.mpr (pow_pos (by norm_num) _)) low
  push_cast at low high
  have least := (Int.zpow_le_iff_le_log (b := 10) (x := ((precision - 1 : ℕ) : ℤ))
    (by norm_num) positive).mp
    (by rw [zpow_natCast]; exact_mod_cast low)
  have most := (Int.lt_zpow_iff_log_lt (b := 10) (x := (precision : ℤ)) (by norm_num) positive).mp
    (by rw [zpow_natCast]; exact_mod_cast high)
  have exponent : Int.log 10 x = (precision : ℤ) - 1 := by omega
  unfold significand
  dsimp only
  rw [exponent, show (precision : ℤ) - 1 - ((precision - 1 : ℕ) : ℤ) = 0 by omega, zpow_zero,
    div_one, sub_add_cancel]

/-- A number of so many digits before the point takes at most four characters more. -/
theorem length_printGeneral_le {x : K} {precision : ℕ} (digits : 1 ≤ precision)
    (low : (10 ^ (precision - 1) : ℕ) ≤ x) (high : x < (10 ^ precision : ℕ)) :
    (printGeneral precision x).length ≤ precision + 4 := by
  have positive : 0 ≤ x := (Nat.cast_nonneg _).trans low
  have least := le_roundEven positive low
  have most := roundEven_le positive high
  unfold printGeneral
  dsimp only
  rw [max_eq_left digits, significand_whole digits low high]
  split_ifs with carry whole whole
  · exact absurd whole.2 (by simp)
  · rw [length_printExponent (.inr ⟨_, rfl⟩), Int.natAbs_natCast]
    have short := (Nat.length_toDigits_le_iff (b := 10) (n := precision) (by norm_num) digits).mpr
      (Nat.lt_pow_self (by norm_num))
    omega
  · have decimals : ((precision : ℤ) - 1 - ((precision : ℤ) - 1)).toNat = 0 := by omega
    have size : (Nat.toDigits 10 (roundEven x)).length = precision :=
      length_toDigits least (lt_of_le_of_ne most carry) digits
    rw [decimals]
    unfold printFixed
    dsimp only
    rw [pow_zero, mul_one, Nat.sub_zero, List.take_length, List.drop_length, pointed_nil,
      length_padded, size]
    omega
  · exact absurd ⟨by omega, by omega⟩ whole

end Printing
