import Mathlib.Data.List.Forall2
import Mathlib.Order.BoundedOrder.Basic
import Mathlib.Order.Lattice

/-!
# The first maximum of a list

A running maximum that is replaced only by what is greater stays at the first place with the
greatest value. The second part is about lists that are put together from one piece for each of
some items: when every piece has at most one element, or every one at least one, there are as many
elements as items only if every piece is a single one.
-/

namespace FirstMaximum

variable {β : Type*}

theorem mem_take_of_getElem? {values : List β} {place other : Nat} {value : β}
    (here : values[place]? = some value) (before : place < other) :
    value ∈ values.take other :=
  List.mem_of_getElem? (i := place) (by rw [List.getElem?_take_of_lt before, here])

section
variable [LinearOrder β]

/-- No value before `place` reaches the one there, and no value exceeds it. -/
def IsFirstMaximum (values : List β) (place : Nat) : Prop :=
  ∃ best, values[place]? = some best ∧ (∀ value ∈ values, value ≤ best) ∧
    ∀ value ∈ values.take place, value < best

theorem IsFirstMaximum.lt_length {values : List β} {place : Nat}
    (first : IsFirstMaximum values place) : place < values.length := by
  obtain ⟨_, here, -⟩ := first
  exact (List.getElem?_eq_some_iff.mp here).1

theorem IsFirstMaximum.unique {values : List β} {place other : Nat}
    (first : IsFirstMaximum values place) (second : IsFirstMaximum values other) :
    place = other := by
  obtain ⟨best, here, greatest, earlier⟩ := first
  obtain ⟨best', here', greatest', earlier'⟩ := second
  rcases Nat.lt_trichotomy place other with before | same | after
  · have smaller := earlier' best (mem_take_of_getElem? here before)
    exact absurd (greatest best' (List.mem_of_getElem? here')) (not_le_of_gt smaller)
  · exact same
  · have smaller := earlier best' (mem_take_of_getElem? here' after)
    exact absurd (greatest' best (List.mem_of_getElem? here)) (not_le_of_gt smaller)

/-- The place of the running maximum, which starts with `best` at `bestPlace` and reads the values
from `place` on. -/
def runningPlace : List β → Nat → β → Nat → Nat
  | [], _, _, bestPlace => bestPlace
  | value :: values, place, best, bestPlace =>
    if best < value then runningPlace values (place + 1) value place else runningPlace values
      (place + 1) best bestPlace

/-- What holds of the values that were read holds at the end. -/
theorem runningPlace_spec (read : List β) {values : List β} {best : β} {bestPlace : Nat}
    (here : read[bestPlace]? = some best) (greatest : ∀ value ∈ read, value ≤ best)
    (earlier : ∀ value ∈ read.take bestPlace, value < best) :
    IsFirstMaximum (read ++ values) (runningPlace values read.length best bestPlace) := by
  induction values generalizing read best bestPlace with
  | nil =>
    rw [List.append_nil]
    exact ⟨best, here, greatest, earlier⟩
  | cons value values ih =>
    rw [List.append_cons, runningPlace]
    have length : (read ++ [value]).length = read.length + 1 := List.length_append
    split_ifs with greater
    · rw [← length]
      apply ih
      · exact List.getElem?_concat_length
      · intro other member
        rcases List.mem_append.mp member with old | new
        · exact (greatest other old).trans greater.le
        · exact (List.mem_singleton.mp new).le
      · intro other member
        rw [List.take_left] at member
        exact (greatest other member).trans_lt greater
    · have inside := (List.getElem?_eq_some_iff.mp here).1
      rw [← length]
      apply ih
      · rw [List.getElem?_append_left inside, here]
      · intro other member
        rcases List.mem_append.mp member with old | new
        · exact greatest other old
        · exact List.mem_singleton.mp new ▸ not_lt.mp greater
      · rw [List.take_append_of_le_length (Nat.le_of_lt inside)]
        exact earlier

/-- A running maximum may start below all values, at the first place. -/
theorem isFirstMaximum_runningPlace [OrderBot β] {values : List β} (nonempty : values ≠ []) :
    IsFirstMaximum values (runningPlace values 0 ⊥ 0) := by
  cases values with
  | nil => exact absurd rfl nonempty
  | cons value values =>
    have first : runningPlace (value :: values) 0 ⊥ 0 = runningPlace values 1 value 0 := by
      rw [runningPlace]
      split_ifs with greater
      · rfl
      · rw [not_bot_lt_iff.mp greater]
    rw [first]
    exact runningPlace_spec [value] rfl (by simp) (by simp)

theorem isFirstMaximum_iff [OrderBot β] {values : List β} (nonempty : values ≠ []) (place : Nat) :
    IsFirstMaximum values place ↔ place = runningPlace values 0 ⊥ 0 :=
  ⟨fun first => first.unique (isFirstMaximum_runningPlace nonempty),
    fun same => same ▸ isFirstMaximum_runningPlace nonempty⟩

/-- When all values are the same, the first is the first maximum. -/
theorem isFirstMaximum_zero {values : List β} {best : β} (nonempty : values ≠ [])
    (all : ∀ value ∈ values, value = best) :
    IsFirstMaximum values 0 := by
  cases values with
  | nil => exact absurd rfl nonempty
  | cons value values =>
    exact ⟨value, rfl, fun other member => by rw [all other member, all value List.mem_cons_self],
      by simp⟩

end

/-! ### One piece for each item -/

variable {ι α : Type*} {piece : ι → List α} {R : ι → α → Prop}

theorem forall₂_flatMap_of_single {items : List ι}
    (single : ∀ item ∈ items, ∃ x, piece item = [x] ∧ R item x) :
    List.Forall₂ R items (items.flatMap piece) := by
  induction items with
  | nil => exact .nil
  | cons item items ih =>
    obtain ⟨⟨x, here, related⟩, rest⟩ := List.forall_mem_cons.mp single
    rw [List.flatMap_cons, here, List.singleton_append]
    exact .cons related (ih rest)

theorem length_flatMap_le (items : List ι) (few : ∀ item, (piece item).length ≤ 1) :
    (items.flatMap piece).length ≤ items.length := by
  induction items with
  | nil => exact Nat.le_refl 0
  | cons item items ih =>
    have := few item
    rw [List.flatMap_cons, List.length_append, List.length_cons]
    omega

theorem le_length_flatMap (items : List ι) (some : ∀ item, 1 ≤ (piece item).length) :
    items.length ≤ (items.flatMap piece).length := by
  induction items with
  | nil => exact Nat.le_refl 0
  | cons item items ih =>
    have := some item
    rw [List.flatMap_cons, List.length_append, List.length_cons]
    omega

theorem forall₂_flatMap_iff {items : List ι}
    (even : (∀ item, (piece item).length ≤ 1) ∨ ∀ item, 1 ≤ (piece item).length) :
    List.Forall₂ R items (items.flatMap piece) ↔
      ∀ item ∈ items, ∃ x, piece item = [x] ∧ R item x := by
  refine ⟨fun related => ?_, forall₂_flatMap_of_single⟩
  induction items with
  | nil => exact nofun
  | cons item items ih =>
    have lengths := related.length_eq
    rw [List.flatMap_cons, List.length_append, List.length_cons] at lengths
    have one : (piece item).length = 1 := by
      rcases even with few | some
      · have := few item
        have := length_flatMap_le items few
        omega
      · have := some item
        have := le_length_flatMap items some
        omega
    obtain ⟨x, here⟩ := List.length_eq_one_iff.mp one
    rw [List.flatMap_cons, here, List.singleton_append, List.forall₂_cons] at related
    exact List.forall_mem_cons.mpr ⟨⟨x, here, related.1⟩, ih related.2⟩

end FirstMaximum
