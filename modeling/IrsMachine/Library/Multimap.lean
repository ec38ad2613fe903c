import Mathlib.Algebra.BigOperators.Group.List.Basic
import Mathlib.Data.List.Nodup
import Mathlib.Logic.Function.Basic

/-!
# Multimaps

The purpose of a dictionary: to every key the list of its values, in the order in which they
were pushed. A key without values is absent.
-/

namespace Multimap
variable {κ : Type*} {α : Type*} [DecidableEq κ]

def push (map : κ → List α) (key : κ) (value : α) : κ → List α :=
  Function.update map key (map key ++ [value])

def ofPairs (pairs : List (κ × α)) : κ → List α :=
  pairs.foldl (fun map pair => push map pair.1 pair.2) fun _ => []

@[simp] theorem push_self (map : κ → List α) (key : κ) (value : α) :
    push map key value key = map key ++ [value] := by
  simp [push]

theorem push_ne (map : κ → List α) {key other : κ} (value : α) (different : other ≠ key) :
    push map key value other = map other := by
  simp [push, different]

/-- Values that go behind a pushed one. -/
theorem ite_push (map : κ → List α) (key other : κ) (value : α) (values : List α) :
    (if other = key then push map key value key ++ values else push map key value other) =
      if other = key then map key ++ value :: values else map other := by
  split
  · rw [push_self, List.append_assoc, List.singleton_append]
  · rename_i different
    rw [push_ne _ _ different]

theorem foldl_push (pairs : List (κ × α)) (map : κ → List α) (key : κ) :
    pairs.foldl (fun map pair => push map pair.1 pair.2) map key =
      map key ++ (pairs.filter fun pair => decide (pair.1 = key)).map Prod.snd := by
  induction pairs generalizing map with
  | nil => simp
  | cons pair pairs ih =>
    rw [List.foldl_cons, ih]
    by_cases same : pair.1 = key
    · simp [same]
    · rw [push_ne _ _ (Ne.symm same)]
      simp [same]

theorem ofPairs_apply (pairs : List (κ × α)) (key : κ) :
    ofPairs pairs key = (pairs.filter fun pair => decide (pair.1 = key)).map Prod.snd := by
  simp [ofPairs, foldl_push]

theorem ofPairs_ne_nil {pairs : List (κ × α)} {key : κ} : ofPairs pairs key ≠ [] ↔
    key ∈ pairs.map Prod.fst := by
  simp [ofPairs_apply]

theorem ofPairs_concat (pairs : List (κ × α)) (pair : κ × α) :
    ofPairs (pairs ++ [pair]) = push (ofPairs pairs) pair.1 pair.2 := by
  simp [ofPairs]

/-! ### Lists of entries -/

structure Lists (entries : List (κ × List α)) (map : κ → List α) : Prop where
  nodup : (entries.map Prod.fst).Nodup
  mem : ∀ key values, (key, values) ∈ entries ↔ map key = values ∧ values ≠ []

theorem Lists.perm_cons {entries : List (κ × List α)} {map : κ → List α} {key : κ}
    (lists : Lists entries map) (present : map key ≠ []) :
    entries.Perm ((key, map key) :: entries.filter fun entry => decide (entry.1 ≠ key)) := by
  have nodup := lists.nodup.of_map
  rw [List.perm_ext_iff_of_nodup nodup (List.nodup_cons.mpr ⟨by simp, nodup.filter _⟩)]
  rintro ⟨other, values⟩
  by_cases same : other = key
  · subst same
    simp only [List.mem_cons, lists.mem, Prod.mk.injEq, true_and, List.mem_filter, ne_eq,
      not_true, decide_false, Bool.false_eq_true, and_false, or_false]
    exact ⟨fun ⟨here, _⟩ => here.symm, fun here => ⟨here.symm, here ▸ present⟩⟩
  · simp [same]

theorem Lists.filter_absent {entries : List (κ × List α)} {map : κ → List α} {key : κ}
    (lists : Lists entries map) (absent : map key = []) :
    entries.filter (fun entry => decide (entry.1 ≠ key)) = entries := by
  rw [List.filter_eq_self]
  rintro ⟨other, values⟩ member
  obtain ⟨here, present⟩ := (lists.mem other values).mp member
  have different : other ≠ key := by rintro rfl; exact present (here ▸ absent)
  simpa using different

theorem Lists.sum_split {M : Type*} [AddCommMonoid M] {f : List α → M} (empty : f [] = 0)
    {entries : List (κ × List α)} {map : κ → List α} (lists : Lists entries map) (key : κ) :
    (entries.map fun entry => f entry.2).sum =
      f (map key) + ((entries.filter fun entry => decide (entry.1 ≠ key)).map fun entry =>
        f entry.2).sum := by
  by_cases absent : map key = []
  · rw [lists.filter_absent absent, absent, empty, zero_add]
  · rw [((lists.perm_cons absent).map _).sum_eq, List.map_cons, List.sum_cons]

/-- What a change at one key adds to a sum over all values. -/
theorem Lists.sum_change {M : Type*} [AddCommMonoid M] {f : List α → M} (empty : f [] = 0)
    {entries entries' : List (κ × List α)} {map map' : κ → List α} {key : κ}
    (before : Lists entries map) (after : Lists entries' map')
    (same : ∀ other, other ≠ key → map' other = map other) :
    (entries'.map fun entry => f entry.2).sum + f (map key) =
      (entries.map fun entry => f entry.2).sum + f (map' key) := by
  have rest : (entries'.filter fun entry => decide (entry.1 ≠ key)).Perm
      (entries.filter fun entry => decide (entry.1 ≠ key)) := by
    rw [List.perm_ext_iff_of_nodup (after.nodup.of_map.filter _) (before.nodup.of_map.filter _)]
    rintro ⟨other, values⟩
    simp only [List.mem_filter, after.mem, before.mem, decide_eq_true_eq]
    apply and_congr_left
    intro different
    rw [same other different]
  rw [before.sum_split empty key, after.sum_split empty key, (rest.map _).sum_eq]
  exact add_right_comm _ _ _ |>.trans (by rw [add_comm (f (map' key)), add_right_comm])

end Multimap
