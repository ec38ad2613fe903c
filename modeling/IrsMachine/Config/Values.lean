import IrsMachine.Config.Model
import IrsMachine.Library.Associations

/-!
# The values of a configuration

A slash may stand in the name of a group and in that of a key, so two pairs of names can have one
entry in the table. The values of the file come back exactly when this makes no difference.
-/

namespace IrsMachine
open FlatTables

namespace KeyFile
variable {keyFile : KeyFile} {group key : Bytes}

theorem mem_getKeys_iff : key ∈ keyFile.getKeys group ↔
    ∃ value, (key, value) ∈ keyFile.entriesOf group := by
  rw [getKeys, List.mem_map]
  exact ⟨fun ⟨entry, member, same⟩ => ⟨entry.2, same ▸ member⟩,
    fun ⟨value, member⟩ => ⟨_, member, rfl⟩⟩

theorem entriesOf_eq {entries : List (Bytes × Option Bytes)}
    (member : (group, entries) ∈ keyFile.groups) : keyFile.entriesOf group = entries := by
  rw [entriesOf, Associations.lookup_of_mem keyFile.groupsDiffer member, Option.getD_some]

theorem mem_getGroups_iff : group ∈ keyFile.getGroups ↔
    (group, keyFile.entriesOf group) ∈ keyFile.groups := by
  constructor
  · intro member
    obtain ⟨⟨_, entries⟩, inside, rfl⟩ := List.mem_map.mp member
    rw [entriesOf_eq inside]
    exact inside
  · exact List.mem_map_of_mem

/-- A group that has keys is there. -/
theorem mem_getGroups_of_mem_getKeys (member : key ∈ keyFile.getKeys group) :
    group ∈ keyFile.getGroups := by
  obtain ⟨value, inside⟩ := mem_getKeys_iff.mp member
  unfold entriesOf at inside
  cases found : keyFile.groups.lookup group with
  | none =>
    rw [found] at inside
    cases inside
  | some entries => exact List.mem_map_of_mem (Associations.mem_of_lookup found)

theorem nodup_getKeys (keyFile : KeyFile) (group : Bytes) : (keyFile.getKeys group).Nodup := by
  cases keys : keyFile.getKeys group with
  | nil => exact List.nodup_nil
  | cons key rest =>
    rw [← keys]
    have here : group ∈ keyFile.getGroups :=
      mem_getGroups_of_mem_getKeys (keys ▸ List.mem_cons_self)
    exact keyFile.keysDiffer _ (mem_getGroups_iff.mp here)

theorem noNul_names (member : key ∈ keyFile.getKeys group) : 0 ∉ group ∧ 0 ∉ key := by
  obtain ⟨value, inside⟩ := mem_getKeys_iff.mp member
  obtain ⟨one, all⟩ := keyFile.noNul _ (mem_getGroups_iff.mp (mem_getGroups_of_mem_getKeys member))
  exact ⟨one, all _ inside⟩

/-- A value belongs to a key. -/
theorem mem_getKeys_of_getString {value : Bytes}
    (found : keyFile.getString group key = some value) : key ∈ keyFile.getKeys group := by
  have here := Option.join_eq_some_iff.mp found
  exact mem_getKeys_iff.mpr ⟨_, Associations.mem_of_lookup here⟩

def names (keyFile : KeyFile) : List (Bytes × Bytes) :=
  keyFile.getGroups.flatMap fun group => (keyFile.getKeys group).map fun key => (group, key)

theorem mem_names_iff : (group, key) ∈ keyFile.names ↔ key ∈ keyFile.getKeys group := by
  simp only [names, List.mem_flatMap, List.mem_map, Prod.mk.injEq]
  constructor
  · intro ⟨_, _, _, member, same, same'⟩
    exact same ▸ same' ▸ member
  · intro member
    exact ⟨group, mem_getGroups_of_mem_getKeys member, key, member, rfl, rfl⟩

end KeyFile

/-! ### The table -/

theorem valueTableCreateHashKey_eq {group key : Bytes} (noNul : 0 ∉ group) (noNul' : 0 ∉ key) :
    valueTableCreateHashKey group key = joined slash group key := by
  rw [valueTableCreateHashKey, cString_of_zero_notMem noNul, cString_of_zero_notMem noNul']

theorem noNul_joined {first second : Bytes} (noNul : 0 ∉ first) (noNul' : 0 ∉ second) :
    0 ∉ joined slash first second :=
  zero_notMem_slash noNul noNul'

def tableEntries (keyFile : KeyFile) : List (Bytes × Option Bytes) :=
  keyFile.names.map fun name => (joined slash name.1 name.2, keyFile.getString name.1 name.2)

theorem irsConfigInitialize_eq (keyFile : KeyFile) :
    irsConfigInitialize (some keyFile) = some (fill ∅ (tableEntries keyFile)) := by
  have flat : tableEntries keyFile = keyFile.names.map fun name =>
      (valueTableCreateHashKey name.1 name.2, keyFile.getString name.1 name.2) := by
    refine List.map_congr_left fun name member => ?_
    obtain ⟨one, two⟩ := KeyFile.noNul_names (KeyFile.mem_names_iff.mp member)
    rw [valueTableCreateHashKey_eq one two]
  rw [flat, fill, List.foldl_map, KeyFile.names, List.foldl_flatMap]
  simp only [List.foldl_map]
  rfl

theorem mem_tableEntries_iff {keyFile : KeyFile} {hashKey : Bytes} {value : Option Bytes} :
    (hashKey, value) ∈ tableEntries keyFile ↔
      ∃ group key, key ∈ keyFile.getKeys group ∧ hashKey = joined slash group key ∧
        value = keyFile.getString group key := by
  simp only [tableEntries, List.mem_map, Prod.exists, KeyFile.mem_names_iff, Prod.mk.injEq]
  exact ⟨fun ⟨group, key, member, one, two⟩ => ⟨group, key, member, one.symm, two.symm⟩,
    fun ⟨group, key, member, one, two⟩ => ⟨group, key, member, one.symm, two.symm⟩⟩

/-! ### What comes back -/

/-- Wherever the text `group/key` of a value is cut at a slash, the file has the same value for the
two parts. -/
def CutsAgree (keyFile : KeyFile) : Prop :=
  ∀ group key value, keyFile.getString group key = some value →
    ∀ before after, joined slash group key = joined slash before after →
    keyFile.getString before after = some value

/-- A slash in no name is enough. -/
theorem cutsAgree_of_noSlash {keyFile : KeyFile}
    (free : ∀ name ∈ keyFile.names, slash ∉ name.1 ∧ slash ∉ name.2) : CutsAgree keyFile := by
  intro group key value found before after same
  obtain ⟨one, two⟩ :=
    free (group, key) (KeyFile.mem_names_iff.mpr (KeyFile.mem_getKeys_of_getString found))
  obtain ⟨rfl, rfl⟩ := joined_inj one two same
  exact found

/-- A lookup gives the value of some pair with the same text. -/
theorem lookup_table {keyFile : KeyFile} {group key : Bytes} {value : Option Bytes}
    (found : (fill ∅ (tableEntries keyFile)).lookup (joined slash group key) = some value) :
    ∃ other other', joined slash group key = joined slash other other' ∧
      value = keyFile.getString other other' := by
  rcases mem_of_lookup_fill found with inside | impossible
  · obtain ⟨other, other', -, same, rfl⟩ := mem_tableEntries_iff.mp inside
    exact ⟨other, other', same, rfl⟩
  · rw [AList.lookup_empty] at impossible
    cases impossible

theorem getValueString_eq_of_cutsAgree {keyFile : KeyFile} (agree : CutsAgree keyFile)
    {group key : Bytes} (noNul : 0 ∉ group) (noNul' : 0 ∉ key) :
    irsConfigGetValueString (fill ∅ (tableEntries keyFile)) group key =
      keyFile.getString group key := by
  rw [irsConfigGetValueString, valueTableCreateHashKey_eq noNul noNul']
  ext value
  constructor
  · intro found
    obtain ⟨other, other', same, value'⟩ := lookup_table (Option.join_eq_some_iff.mp found)
    exact agree other other' value value'.symm group key same.symm
  · intro given
    have member := mem_tableEntries_iff.mpr
      ⟨group, key, KeyFile.mem_getKeys_of_getString given, rfl, rfl⟩
    obtain ⟨stored, found, -⟩ := exists_lookup_fill member
    obtain ⟨other, other', same, rfl⟩ := lookup_table found
    rw [found, agree group key value given other other' same]
    rfl

/-- The configuration gives the values of the file, and null for every other pair of names, exactly
when no text can be cut into names with different values. -/
theorem irsConfigGetValueString_iff (keyFile : KeyFile) :
    ∃ config, irsConfigInitialize (some keyFile) = some config ∧
      ((∀ group key, 0 ∉ group → 0 ∉ key →
        irsConfigGetValueString config group key = keyFile.getString group key) ↔
          CutsAgree keyFile) := by
  refine ⟨_, irsConfigInitialize_eq keyFile, ?_, ?_⟩
  · intro faithful group key value found before after same
    obtain ⟨noNul, noNul'⟩ := KeyFile.noNul_names (KeyFile.mem_getKeys_of_getString found)
    have parts : 0 ∉ joined slash before after := same ▸ noNul_joined noNul noNul'
    have one : 0 ∉ before := fun member => parts (List.mem_append_left _ member)
    have two : 0 ∉ after :=
      fun member => parts (List.mem_append_right _ (List.mem_cons_of_mem _ member))
    rw [← faithful before after one two, ← found, ← faithful group key noNul noNul',
      irsConfigGetValueString, irsConfigGetValueString, valueTableCreateHashKey_eq one two,
      valueTableCreateHashKey_eq noNul noNul', same]
  · intro agree group key noNul noNul'
    exact getValueString_eq_of_cutsAgree agree noNul noNul'

/-- The key `c` of the group `a/b` is found as the key `b/c` of the group `a`, which is not
there. -/
theorem irsConfigGetValueString_fails_slash :
    ∃ keyFile config, keyFile.groups = [(irsChars "a/b", [(irsChars "c", some (irsChars "1"))])] ∧
      irsConfigInitialize (some keyFile) = some config ∧
      irsChars "b/c" ∉ keyFile.getKeys (irsChars "a") ∧
      irsConfigGetValueString config (irsChars "a") (irsChars "b/c") = some (irsChars "1") := by
  refine ⟨⟨[(irsChars "a/b", [(irsChars "c", some (irsChars "1"))])], by decide, by decide,
    by decide⟩, _, rfl, rfl, ?_, ?_⟩
  · decide
  · decide

end IrsMachine
