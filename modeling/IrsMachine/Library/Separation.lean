import IrsMachine.Library.Lockstep
import Mathlib.Algebra.Order.Quantale
import Mathlib.Logic.Function.Basic
import Mathlib.Order.ConditionallyCompleteLattice.Indexed
import Mathlib.Order.CompletePartialOrder

/-!
# Separated parts of a memory

An assertion speaks of a part of a memory. The parts of a product of assertions are put together
from two that share no place, so assertions are a commutative quantale, and what is owed for the
whole is the residual of the quantale. A program on the memory refines a specification from one
assertion to another whatever else is in the memory, and this rest stays as it is.
-/

namespace Separation
open Except Quantale

variable {A V : Type}

abbrev Part (A V : Type) := A → Option V

namespace Part

def Apart (first second : Part A V) : Prop := ∀ place, first place = none ∨ second place = none

def join (first second : Part A V) : Part A V := fun place => (first place).or (second place)

def nothing : Part A V := fun _ => none

def single [DecidableEq A] (place : A) (value : V) : Part A V :=
  Function.update nothing place (some value)

variable {first second third : Part A V} {place : A} {value : V}

theorem Apart.symm (apart : Apart first second) : Apart second first :=
  fun place => (apart place).symm

theorem join_comm (apart : Apart first second) : join first second = join second first := by
  funext place
  rcases apart place with absent | absent <;> simp [join, absent]

theorem join_assoc : join (join first second) third = join first (join second third) :=
  funext fun _ => Option.or_assoc

theorem join_eq_none : join first second place = none ↔ first place = none ∧ second place = none :=
  Option.or_eq_none_iff

theorem apart_join : Apart (join first second) third ↔ Apart first third ∧ Apart second third := by
  simp only [Apart, join_eq_none]
  grind

theorem apart_nothing : Apart nothing first := fun _ => .inl rfl

theorem join_left (here : first place = some value) : join first second place = some value := by
  rw [join, here, Option.some_or]

section
variable [DecidableEq A]

theorem single_self : single place value place = some value := Function.update_self ..

theorem single_other {other : A} (different : other ≠ place) : single place value other = none :=
  Function.update_of_ne different ..

/-- A part is what it has at one of its places, and the rest. -/
theorem join_single :
    join (single place value) first = Function.update first place (some value) := by
  funext other
  by_cases here : other = place
  · rw [here, join, single_self, Function.update_self, Option.some_or]
  · rw [join, single_other here, Function.update_of_ne here, Option.none_or]

theorem apart_single (absent : first place = none) : Apart (single place value) first := by
  intro other
  by_cases here : other = place
  · exact .inr (here ▸ absent)
  · exact .inl (single_other here)

end

end Part

open Separation.Part

/-! ### Assertions -/

abbrev Assertion (A V : Type) := Part A V → Prop

namespace Assertion

/-- The parts that are put together from one of each. -/
instance : Mul (Assertion A V) :=
  ⟨fun P Q part => ∃ first second, Apart first second ∧ join first second = part ∧
    P first ∧ Q second⟩

instance : One (Assertion A V) := ⟨fun part => part = nothing⟩

variable {P Q R : Assertion A V} {part : Part A V}

theorem one_apply : (1 : Assertion A V) part ↔ part = nothing := Iff.rfl

theorem exists_apply {ι : Sort*} {P : ι → Assertion A V} : (⨆ i, P i) part ↔ ∃ i, P i part := by
  rw [iSup_apply, iSup_Prop_eq]

instance : CommMonoid (Assertion A V) where
  mul_assoc P Q R := by
    funext part
    apply propext
    constructor
    · intro holds
      obtain ⟨_, third, apart, whole, ⟨first, second, apart', rfl, one, two⟩, three⟩ := holds
      obtain ⟨outer, inner⟩ := apart_join.mp apart
      refine ⟨first, join second third, ?_, join_assoc ▸ whole, one, second, third, inner,
        rfl, two, three⟩
      exact (apart_join.mpr ⟨apart'.symm, outer.symm⟩).symm
    · intro holds
      obtain ⟨first, _, apart, whole, one, second, third, apart', rfl, two, three⟩ := holds
      obtain ⟨inner, outer⟩ := apart_join.mp apart.symm
      refine ⟨join first second, third, ?_, join_assoc ▸ whole,
        ⟨first, second, inner.symm, rfl, one, two⟩, three⟩
      exact apart_join.mpr ⟨outer.symm, apart'⟩
  mul_comm P Q := by
    funext part
    apply propext
    constructor
    all_goals
      intro holds
      obtain ⟨first, second, apart, whole, one, two⟩ := holds
      exact ⟨second, first, apart.symm, join_comm apart ▸ whole, two, one⟩
  one_mul P := by
    funext part
    apply propext
    constructor
    · intro holds
      obtain ⟨_, second, _, whole, rfl, two⟩ := holds
      exact whole ▸ two
    · intro holds
      exact ⟨nothing, part, apart_nothing, rfl, rfl, holds⟩
  mul_one P := by
    funext part
    apply propext
    constructor
    · intro holds
      obtain ⟨first, _, apart, whole, one, rfl⟩ := holds
      rw [join_comm apart] at whole
      exact whole ▸ one
    · intro holds
      exact ⟨part, nothing, apart_nothing.symm,
        (join_comm apart_nothing.symm).trans rfl, holds, rfl⟩

theorem exists_mul {ι : Sort*} {P : ι → Assertion A V} : (⨆ i, P i) * Q = ⨆ i, P i * Q := by
  funext part
  apply propext
  constructor
  · intro holds
    obtain ⟨first, second, apart, whole, one, two⟩ := holds
    obtain ⟨i, one⟩ := exists_apply.mp one
    exact exists_apply.mpr ⟨i, first, second, apart, whole, one, two⟩
  · intro holds
    obtain ⟨i, first, second, apart, whole, one, two⟩ := exists_apply.mp holds
    exact ⟨first, second, apart, whole, exists_apply.mpr ⟨i, one⟩, two⟩

theorem mul_exists {ι : Sort*} {P : ι → Assertion A V} : Q * (⨆ i, P i) = ⨆ i, Q * P i := by
  simp only [mul_comm Q, exists_mul]

instance : IsQuantale (Assertion A V) where
  sSup_mul_distrib s Q := by rw [sSup_eq_iSup, exists_mul]; simp only [exists_mul]
  mul_sSup_distrib Q s := by rw [sSup_eq_iSup, mul_exists]; simp only [mul_exists]

/-- There is nothing but this value at this place. -/
def contains [DecidableEq A] (place : A) (value : V) : Assertion A V :=
  fun part => part = single place value

theorem contains_mul [DecidableEq A] {place : A} {value : V} :
    (contains place value * P) part ↔
      part place = some value ∧ P (Function.update part place none) := by
  constructor
  · intro holds
    obtain ⟨_, second, apart, rfl, rfl, two⟩ := holds
    have absent : second place = none := (apart place).resolve_left fun none => by
      rw [single_self] at none
      cases none
    refine ⟨join_left single_self, ?_⟩
    rwa [join_single, Function.update_idem, ← absent, Function.update_eq_self]
  · intro holds
    obtain ⟨here, rest⟩ := holds
    refine ⟨single place value, Function.update part place none, ?_, ?_, rfl, rest⟩
    · exact apart_single (Function.update_self ..)
    · rw [join_single, Function.update_idem, ← here, Function.update_eq_self]

end Assertion
end Separation
