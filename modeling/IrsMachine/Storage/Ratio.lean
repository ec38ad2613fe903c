import IrsMachine.Storage.Model
import Mathlib.Tactic.Positivity
import Mathlib.Tactic.Ring
import Mathlib.Algebra.Order.Ring.Int

/-!
# Floating-point numbers

What the storage relies on: a significancy is not positive exactly when every document
contains the term, and offsets below `2 ^ 53` are written with all their digits. The fractions
below are a model of it.
-/

namespace IrsMachine

def decimal (number : UInt64) : Bytes :=
  (Nat.toDigits 10 number.toNat).map fun ch => UInt8.ofNat ch.toNat

class LawfulIrsFloat (F : Type) [IrsFloat F] : Prop where
  significancy : ∀ (count : UInt64) (terms : UInt32) (documents docsWithTerm : UInt64),
    0 < count.toNat →
    count.toNat ≤ terms.toNat → 0 < docsWithTerm.toNat → docsWithTerm.toNat ≤ documents.toNat →
    (IrsFloat.le (IrsFloat.mul
      (IrsFloat.div (IrsFloat.ofUInt64 count) (IrsFloat.ofUInt32 terms : F))
      (IrsFloat.logf (IrsFloat.div (IrsFloat.ofUInt64 documents) (IrsFloat.ofUInt64 docsWithTerm))))
        IrsFloat.zero = true ↔
      docsWithTerm = documents)
  toStrInt : ∀ number : UInt64, number.toNat < 2 ^ 53 →
    IrsFloat.toStrInt (F := F) number = decimal number

/-- Fractions. The logarithm is taken to the third order of its series, and texts have one
digit, or all digits of the integer part. -/
structure Ratio where
  num : Int
  den : Nat

instance : IrsFloat Ratio where
  ofUInt64 number := ⟨number.toNat, 1⟩
  ofUInt32 number := ⟨number.toNat, 1⟩
  div a b := ⟨a.num * b.den, a.den * b.num.toNat⟩
  mul a b := ⟨a.num * b.num, a.den * b.den⟩
  logf a :=
    let p := a.num - a.den
    let q := a.num + a.den
    ⟨2 * p * (3 * q ^ 2 + p ^ 2), (3 * q ^ 3).toNat⟩
  le a b := decide (a.num * b.den ≤ b.num * a.den)
  zero := ⟨0, 1⟩
  toStrFloat a :=
    if a.num < a.den then irsChars "0." ++ decimal
      (UInt64.ofNat ((20 * a.num.toNat + a.den) / (2 * a.den)))
    else decimal (UInt64.ofNat ((2 * a.num.toNat + a.den) / (2 * a.den)))
  toStrInt := decimal

/-- What is read off the sign alone: a significancy is positive exactly when the reverse frequency
is, whatever the frequency of a term that does occur. -/
class SignedIrsFloat (F : Type) [IrsFloat F] : Prop where
  significancy : ∀ (count : UInt64) (terms : UInt32) (documents docsWithTerm : UInt64),
    0 < count.toNat →
    0 < docsWithTerm.toNat → docsWithTerm.toNat ≤ documents.toNat →
    (IrsFloat.le (IrsFloat.mul
      (IrsFloat.div (IrsFloat.ofUInt64 count) (IrsFloat.ofUInt32 terms : F))
      (IrsFloat.logf (IrsFloat.div (IrsFloat.ofUInt64 documents) (IrsFloat.ofUInt64 docsWithTerm))))
        IrsFloat.zero = true ↔
      docsWithTerm = documents)
  toStrInt : ∀ number : UInt64, number.toNat < 2 ^ 53 →
    IrsFloat.toStrInt (F := F) number = decimal number

instance : SignedIrsFloat Ratio where
  significancy := by
    intro count terms documents docsWithTerm positive present inside
    simp only [IrsFloat.le, IrsFloat.mul, IrsFloat.div, IrsFloat.ofUInt64, IrsFloat.ofUInt32,
      IrsFloat.logf, IrsFloat.zero, decide_eq_true_eq]
    rw [← UInt64.toNat_inj]
    generalize count.toNat = k at *
    generalize documents.toNat = n at *
    generalize docsWithTerm.toNat = c at *
    have scale : (0 : Int) < 2 * k * (3 * (n + c) ^ 2 + (n - c) ^ 2) := by positivity
    have form : (k : Int) * (1 : Nat) * (2 * (n * (1 : Nat) - (1 * (c : Int).toNat : Nat)) *
        (3 * (n * (1 : Nat) + (1 * (c : Int).toNat : Nat)) ^
          2 + (n * (1 : Nat) - (1 * (c : Int).toNat : Nat)) ^ 2)) * (1 : Nat) =
        (n - c) * (2 * k * (3 * (n + c) ^ 2 + (n - c) ^ 2)) := by
      simp only [Int.toNat_natCast, one_mul, Nat.cast_one, mul_one]
      ring
    rw [form, zero_mul]
    constructor
    · intro notPositive
      by_contra different
      exact absurd (Int.mul_pos (show (0 : Int) < n - c by omega) scale) (by omega)
    · rintro rfl
      rw [sub_self, zero_mul]
  toStrInt := fun _ _ => rfl

instance : LawfulIrsFloat Ratio where
  significancy count terms documents docsWithTerm positive _ :=
    SignedIrsFloat.significancy count terms documents docsWithTerm positive
  toStrInt := SignedIrsFloat.toStrInt

end IrsMachine
