import IrsMachine.Config.Values

/-!
# The keys of a group

A key of the table is taken for a key of the group when the name of the group occurs anywhere in
it. The keys of other groups are not told apart there, and lose as many characters as if they were.
-/

namespace IrsMachine
open FlatTables

variable {keyFile : KeyFile} {group : Bytes} {elements : List Bytes}

def NoSlash (keyFile : KeyFile) : Prop := ∀ name ∈ keyFile.names, slash ∉ name.1 ∧ slash ∉ name.2

/-- The group is no part of the name of another group that has keys, nor of one of its keys. -/
def StandsApart (keyFile : KeyFile) (group : Bytes) : Prop :=
  ∀ name ∈ keyFile.names, name.1 ≠ group → ¬group <:+: name.1 ∧ ¬group <:+: name.2

/-! ### The names of the file -/

theorem KeyFile.nodup_names (keyFile : KeyFile) : keyFile.names.Nodup := by
  rw [names, List.nodup_flatMap]
  constructor
  · intro group _
    exact (nodup_getKeys keyFile group).map fun _ _ same => (Prod.mk.inj same).2
  · refine keyFile.groupsDiffer.imp ?_
    intro one other different name member member'
    obtain ⟨_, -, rfl⟩ := List.mem_map.mp member
    obtain ⟨_, -, same⟩ := List.mem_map.mp member'
    exact different (Prod.mk.inj same).1.symm

/-- The table has one key for each pair of names. -/
theorem keys_perm (noSlash : NoSlash keyFile) :
    (fill ∅ (tableEntries keyFile)).keys.Perm
      (keyFile.names.map fun name => joined slash name.1 name.2) := by
  have all : (tableEntries keyFile).map Prod.fst = keyFile.names.map fun name =>
    joined slash name.1 name.2 := by
    rw [tableEntries, List.map_map]
    rfl
  rw [← all]
  apply keys_fill_perm
  rw [all]
  refine List.Nodup.map_on ?_ keyFile.nodup_names
  intro name member other _ same
  obtain ⟨one, two⟩ := noSlash name member
  obtain ⟨one', two'⟩ := joined_inj one two same
  exact Prod.ext one'.symm two'.symm

theorem own_names_perm (keyFile : KeyFile) (group : Bytes) :
    ((keyFile.names.filter fun name => decide (name.1 = group)).map Prod.snd).Perm
      (keyFile.getKeys group) := by
  refine (List.perm_ext_iff_of_nodup ?_ (KeyFile.nodup_getKeys keyFile group)).mpr ?_
  · refine List.Nodup.map_on ?_ (keyFile.nodup_names.filter _)
    intro name member other member' same
    have one := of_decide_eq_true (List.mem_filter.mp member).2
    have two := of_decide_eq_true (List.mem_filter.mp member').2
    exact Prod.ext (one.trans two.symm) same
  · intro key
    simp only [List.mem_map, List.mem_filter, decide_eq_true_eq, Prod.exists]
    constructor
    · intro ⟨_, _, ⟨member, rfl⟩, rfl⟩
      exact KeyFile.mem_names_iff.mp member
    · intro member
      exact ⟨group, key, ⟨KeyFile.mem_names_iff.mpr member, rfl⟩, rfl⟩

/-! ### What the constructor pushes -/

theorem irsConfigGroup_eq (elements : List Bytes) (group : Bytes) :
    irsConfigGroup elements group =
      (elements.filter fun element => irsStrFind element group).map fun element =>
        (cString element).drop (group.length + 1) := by
  have pushes : ∀ mKeys : List Bytes, elements.foldl (fun mKeys element =>
      if irsStrFind element group then mKeys ++ [(cString element).drop (group.length + 1)]
        else mKeys) mKeys =
      mKeys ++ (elements.filter fun element => irsStrFind element group).map fun element =>
      (cString element).drop (group.length + 1) := by
    induction elements with
    | nil => simp
    | cons element elements ih =>
      intro mKeys
      rw [List.foldl_cons, ih]
      by_cases found : irsStrFind element group = true
      · rw [if_pos found, List.filter_cons, if_pos found, List.map_cons, List.append_assoc,
          List.singleton_append]
      · rw [if_neg found, List.filter_cons, if_neg found]
  rw [irsConfigGroup, pushes, List.nil_append]

theorem irsStrFind_joined {name : Bytes × Bytes} (free : slash ∉ group) (noNul : 0 ∉ group)
    (member : name ∈ keyFile.names) :
    irsStrFind (joined slash name.1 name.2) group = true ↔
      group <:+: name.1 ∨ group <:+: name.2 := by
  obtain ⟨one, two⟩ := KeyFile.noNul_names (KeyFile.mem_names_iff.mp member)
  rw [irsStrFind, cString_of_zero_notMem (noNul_joined one two), cString_of_zero_notMem noNul,
    decide_eq_true_eq, infix_joined_iff free]

/-- What is cut off the text of a pair of the group is the group and the slash. -/
theorem drop_joined {name : Bytes × Bytes} (member : name ∈ keyFile.names) :
    (cString (joined slash name.1 name.2)).drop (name.1.length + 1) = name.2 := by
  obtain ⟨one, two⟩ := KeyFile.noNul_names (KeyFile.mem_names_iff.mp member)
  rw [cString_of_zero_notMem (noNul_joined one two), joined, List.drop_append]
  simp

def taken (keyFile : KeyFile) (group : Bytes) : List (Bytes × Bytes) :=
  keyFile.names.filter fun name => irsStrFind (joined slash name.1 name.2) group

theorem irsConfigGroup_perm (group : Bytes)
    (order : elements.Perm (keyFile.names.map fun name => joined slash name.1 name.2)) :
    (irsConfigGroup elements group).Perm
      ((taken keyFile group).map fun name => (cString (joined slash name.1 name.2)).drop
        (group.length + 1)) := by
  rw [irsConfigGroup_eq]
  have same := (order.filter fun element => irsStrFind element group).map fun element =>
    (cString element).drop (group.length + 1)
  rw [List.filter_map, List.map_map] at same
  exact same

/-- The pairs of the group are among them. -/
theorem own_taken (free : slash ∉ group) (noNul : 0 ∉ group) :
    (taken keyFile group).filter (fun name => decide (name.1 = group)) =
      keyFile.names.filter fun name => decide (name.1 = group) := by
  rw [taken, List.filter_filter]
  refine List.filter_congr fun name member => ?_
  by_cases own : name.1 = group
  · rw [(irsStrFind_joined free noNul member).mpr (.inl (own ▸ List.infix_rfl)), Bool.and_true]
  · rw [decide_eq_false own, Bool.false_and]

theorem others_taken_eq_nil_iff (free : slash ∉ group) (noNul : 0 ∉ group) :
    (taken keyFile group).filter (fun name => !decide (name.1 = group)) = [] ↔
      StandsApart keyFile group := by
  rw [List.filter_eq_nil_iff]
  constructor
  · intro none name member other
    have notTaken : ¬irsStrFind (joined slash name.1 name.2) group = true := by
      intro found
      exact none name (List.mem_filter.mpr ⟨member, found⟩) (by rw [decide_eq_false other]; rfl)
    rw [irsStrFind_joined free noNul member] at notTaken
    exact not_or.mp notTaken
  · intro apart name inTaken other
    obtain ⟨member, found⟩ := List.mem_filter.mp inTaken
    have different : name.1 ≠ group := by simpa using other
    rcases (irsStrFind_joined free noNul member).mp found with inGroup | inKey
    · exact (apart name member different).1 inGroup
    · exact (apart name member different).2 inKey

/-! ### The listing -/

/-- Whatever the order of the table: the keys of the group are listed, each one once and nothing
else, exactly when the group is no part of another group's name or of another group's keys. -/
theorem irsConfigGroup_iff {keyFile : KeyFile} {config : IrsConfig} {group : Bytes}
    {elements : List Bytes} (loaded : irsConfigInitialize (some keyFile) = some config)
    (noSlash : NoSlash keyFile) (free : slash ∉ group) (noNul : 0 ∉ group)
    (order : elements.Perm config.keys) :
    (irsConfigGroup elements group).Perm (keyFile.getKeys group) ↔ StandsApart keyFile group := by
  rw [irsConfigInitialize_eq, Option.some.injEq] at loaded
  subst loaded
  have listing := irsConfigGroup_perm group (order.trans (keys_perm noSlash))
  have split := (List.filter_append_perm (fun name => decide (name.1 = group))
    (taken keyFile group)).map fun name : Bytes × Bytes =>
    (cString (joined slash name.1 name.2)).drop (group.length + 1)
  have own : (keyFile.names.filter fun name => decide (name.1 = group)).map
      (fun name : Bytes × Bytes => (cString (joined slash name.1 name.2)).drop (group.length + 1)) =
      (keyFile.names.filter fun name => decide (name.1 = group)).map Prod.snd := by
    refine List.map_congr_left fun name inside => ?_
    obtain ⟨member, same⟩ := List.mem_filter.mp inside
    rw [← of_decide_eq_true same, drop_joined member]
  rw [own_taken free noNul, List.map_append, own] at split
  have whole := listing.trans (split.symm.trans ((own_names_perm keyFile group).append_right _))
  rw [← others_taken_eq_nil_iff free noNul]
  constructor
  · intro right
    have lengths := (whole.symm.trans right).length_eq
    rw [List.length_append, List.length_map] at lengths
    exact List.length_eq_zero_iff.mp (by omega)
  · intro none
    rw [none, List.map_nil, List.append_nil] at whole
    exact whole

/-- Two groups with different keys. -/
theorem irsConfigGroup_iff_ab :
    ∃ keyFile config,
      keyFile.groups =
        [(irsChars "a", [(irsChars "x", some [49])]), (irsChars "b", [(irsChars "y", some [50])])] ∧
      irsConfigInitialize (some keyFile) = some config ∧
      (irsConfigGroup config.keys (irsChars "a")).Perm [irsChars "x"] := by
  refine ⟨⟨[(irsChars "a", [(irsChars "x", some [49])]),
    (irsChars "b", [(irsChars "y", some [50])])], by decide, by decide, by decide⟩, _, rfl, rfl, ?_⟩
  apply (irsConfigGroup_iff rfl (by unfold NoSlash; decide) (by decide) (by decide)
    (List.Perm.refl _)).mpr
  unfold StandsApart
  decide

/-- The key `a` of the group `b` is listed as a key of the group `a`. -/
theorem irsConfigGroup_fails_key :
    ∃ keyFile config,
      keyFile.groups =
        [(irsChars "a", [(irsChars "x", some [49])]), (irsChars "b", [(irsChars "a", some [50])])] ∧
      NoSlash keyFile ∧ irsConfigInitialize (some keyFile) = some config ∧
      irsConfigGroup config.keys (irsChars "a") = [irsChars "a", irsChars "x"] ∧
      ¬(irsConfigGroup config.keys (irsChars "a")).Perm (keyFile.getKeys (irsChars "a")) := by
  refine ⟨⟨[(irsChars "a", [(irsChars "x", some [49])]),
    (irsChars "b", [(irsChars "a", some [50])])], by decide, by decide, by decide⟩, _, rfl, ?_, rfl,
      by decide +kernel, by decide +kernel⟩
  unfold NoSlash
  decide

end IrsMachine
