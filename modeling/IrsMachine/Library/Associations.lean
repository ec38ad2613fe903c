import Mathlib.Data.List.Nodup
import Mathlib.Data.List.Perm.Basic

/-!
# Maps as lists of pairs

A map with different keys, in any order. What is inserted under a key that is there is dropped.
-/

namespace Associations
universe u v
variable {K : Type u} {V : Type v} [BEq K] [LawfulBEq K]

abbrev keys (map : List (K × V)) : List K := map.map Prod.fst

def insert (map : List (K × V)) (key : K) (value : V) : List (K × V) :=
  if (map.lookup key).isSome then map else map ++ [(key, value)]

theorem mem_of_lookup {map : List (K × V)} {key : K} {value : V}
    (found : map.lookup key = some value) : (key, value) ∈ map := by
  obtain ⟨before, after, rfl, -⟩ := List.lookup_eq_some_iff.mp found
  simp

theorem lookup_isSome_iff {map : List (K × V)} {key : K} : (map.lookup key).isSome ↔
    key ∈ keys map := by
  rw [List.lookup_isSome_iff, List.mem_map]
  constructor
  · rintro ⟨pair, member, same⟩
    exact ⟨pair, member, (eq_of_beq same).symm⟩
  · rintro ⟨pair, member, rfl⟩
    exact ⟨pair, member, beq_self_eq_true _⟩

theorem lookup_of_mem {map : List (K × V)} {key : K} {value : V} (different : (keys map).Nodup)
    (member : (key, value) ∈ map) :
    map.lookup key = some value := by
  obtain ⟨before, after, rfl⟩ := List.append_of_mem member
  rw [List.lookup_eq_some_iff]
  refine ⟨before, after, rfl, fun pair inside => ?_⟩
  rw [keys, List.map_append, List.nodup_append] at different
  simpa using (different.2.2 pair.1 (List.mem_map_of_mem inside) key (by simp)).symm

/-- The order of the pairs does not matter. -/
theorem lookup_perm {map map' : List (K × V)} (different : (keys map).Nodup) (same : map.Perm map')
    (key : K) :
    map'.lookup key = map.lookup key := by
  cases found : map.lookup key with
  | some value =>
    exact lookup_of_mem ((same.map _).nodup different) (same.subset (mem_of_lookup found))
  | none =>
    by_contra present
    obtain ⟨value, found'⟩ := Option.ne_none_iff_exists'.mp present
    rw [lookup_of_mem different (same.symm.subset (mem_of_lookup found'))] at found
    cases found

theorem mem_keys_insert {map : List (K × V)} {key other : K} {value : V} :
    other ∈ keys (insert map key value) ↔ other ∈ keys map ∨ other = key := by
  unfold insert
  split
  · rename_i present
    rw [lookup_isSome_iff] at present
    constructor
    · exact .inl
    · rintro (member | rfl)
      · exact member
      · exact present
  · simp

/-! ### Inserting a list -/

variable {A : Type*} (name : A → K) (value : A → V)

theorem mem_keys_foldl_insert (items : List A) (map : List (K × V)) (other : K) :
    other ∈ keys (items.foldl (fun map item => insert map (name item) (value item)) map) ↔
      other ∈ keys map ∨ other ∈ items.map name := by
  induction items generalizing map with
  | nil => simp
  | cons item items ih =>
    rw [List.foldl_cons, ih, mem_keys_insert, List.map_cons, List.mem_cons, or_assoc]

end Associations
