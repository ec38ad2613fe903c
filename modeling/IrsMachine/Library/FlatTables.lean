import Mathlib.Data.List.AList
import Mathlib.Data.List.Infix

/-!
# Flat tables

A table of pairs of names can be kept under one name, the two names with a separator between
them. The text can be cut again where neither name has the separator; elsewhere two pairs may
share one entry. The second part is about tables that are filled from a list of entries.
-/

namespace FlatTables
variable {α : Type*} {separator : α}

/-! ### Two names as one -/

def joined (separator : α) (first second : List α) : List α := first ++ separator :: second

/-- Names without the separator can be read back, whatever they are taken for. -/
theorem joined_inj {first second before after : List α} (free : separator ∉ first)
    (free' : separator ∉ second)
    (same : joined separator first second = joined separator before after) :
    before = first ∧ after = second := by
  obtain ⟨one, -, two⟩ := (List.append_cons_inj_of_notMem free free').mp same
  exact ⟨one.symm, two.symm⟩

/-- A word without the separator does not reach over it. -/
theorem infix_joined_iff {word first second : List α} (free : separator ∉ word) :
    word <:+: joined separator first second ↔ word <:+: first ∨ word <:+: second := by
  have cut : ∀ {part : List α}, part <+: separator :: second → separator ∉ part → part = [] := by
    intro part isPrefix without
    rcases List.prefix_cons_iff.mp isPrefix with empty | ⟨rest, rfl, -⟩
    · exact empty
    · exact absurd List.mem_cons_self without
  rw [joined, List.infix_append_iff, List.infix_cons_iff]
  constructor
  · intro inside
    rcases inside with left | (front | right) | ⟨left, right, rfl, isSuffix, isPrefix⟩
    · exact .inl left
    · exact .inr (cut front free ▸ List.nil_infix)
    · exact .inr right
    · obtain rfl := cut isPrefix fun member => free (List.mem_append_right _ member)
      rw [List.append_nil]
      exact .inl isSuffix.isInfix
  · intro inside
    rcases inside with left | right
    · exact .inl left
    · exact .inr (.inl (.inr right))

/-! ### Filling a table -/

variable {K V : Type*} [DecidableEq K]

/-- What is inserted under a key that is there replaces what was there. -/
def fill (table : AList fun _ : K => V) (entries : List (K × V)) : AList fun _ : K => V :=
  entries.foldl (fun table entry => table.insert entry.1 entry.2) table

theorem mem_fill (entries : List (K × V)) (table : AList fun _ : K => V) (key : K) :
    key ∈ fill table entries ↔ key ∈ table ∨ key ∈ entries.map Prod.fst := by
  induction entries generalizing table with
  | nil => simp [fill]
  | cons entry entries ih =>
    rw [fill, List.foldl_cons, ← fill, ih, AList.mem_insert, List.map_cons, List.mem_cons,
      or_comm (a := key = entry.1), or_assoc]

/-- Every value comes from an entry. -/
theorem mem_of_lookup_fill {entries : List (K × V)} {table : AList fun _ : K => V} {key : K}
    {value : V} (found : (fill table entries).lookup key = some value) :
    (key, value) ∈ entries ∨ table.lookup key = some value := by
  induction entries generalizing table with
  | nil => exact .inr found
  | cons entry entries ih =>
    rcases ih found with later | here
    · exact .inl (List.mem_cons_of_mem _ later)
    · by_cases same : key = entry.1
      · subst same
        rw [AList.lookup_insert, Option.some.injEq] at here
        exact .inl (here ▸ List.mem_cons_self)
      · rw [AList.lookup_insert_ne same] at here
        exact .inr here

theorem exists_lookup_fill {entries : List (K × V)} {key : K} {value : V}
    (member : (key, value) ∈ entries) :
    ∃ other, (fill ∅ entries).lookup key = some other ∧ (key, other) ∈ entries := by
  have present : key ∈ fill ∅ entries :=
    (mem_fill entries ∅ key).mpr (.inr (List.mem_map_of_mem member))
  obtain ⟨other, found⟩ := Option.isSome_iff_exists.mp (AList.lookup_isSome.mpr present)
  rcases mem_of_lookup_fill found with inside | impossible
  · exact ⟨other, found, inside⟩
  · rw [AList.lookup_empty] at impossible
    cases impossible

/-- Entries with different keys are all there, once. -/
theorem keys_fill_perm {entries : List (K × V)} (different : (entries.map Prod.fst).Nodup) :
    (fill ∅ entries).keys.Perm (entries.map Prod.fst) := by
  refine (List.perm_ext_iff_of_nodup (AList.keys_nodup _) different).mpr ?_
  intro key
  rw [← AList.mem_keys, mem_fill]
  exact or_iff_right (AList.notMem_empty key)

end FlatTables
