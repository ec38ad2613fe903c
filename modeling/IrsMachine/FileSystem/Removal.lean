import IrsMachine.FileSystem.Model

/-!
# Removing a directory

Entries of a directory are all removed as files are: the test that should tell them apart is made
on the directory itself. So the removal ends at the first directory in it that is not empty.
-/

namespace IrsMachine
open NamedTrees Tree

variable {fs node : FsNode} {path name : Bytes} {entries : List (Bytes × FsNode)}

def Removable (node : FsNode) : Prop := ∀ inner, node = branch inner → inner = []

/-! ### Paths -/

theorem tmpPath_eq (noNul : 0 ∉ path) (good : EntryName name)
    (short : (path ++ slash :: name).length < maxPathLength) :
    tmpPath path name = path ++ slash :: name := by
  rw [tmpPath, cString_of_zero_notMem noNul, cString_of_zero_notMem good.2.1,
    List.take_of_length_le (by omega)]

theorem pathNames_slash (noNul : 0 ∉ path) (good : EntryName name) :
    pathNames (path ++ slash :: name) = pathNames path ++ [name] := by
  have whole : 0 ∉ path ++ slash :: name := zero_notMem_slash noNul good.2.1
  have single : name.splitOnP (fun ch => decide (ch = slash)) = [name] := by
    apply List.splitOnP_eq_singleton
    intro ch member
    exact decide_eq_false fun same => good.2.2 (same ▸ member)
  rw [pathNames, pathNames, cString_of_zero_notMem whole, cString_of_zero_notMem noNul,
    List.splitOnP_append_cons (p := fun ch => decide (ch = slash)) _ _ (decide_eq_true rfl), single,
    List.filter_append]
  simp [good.1]

theorem pathNames_tmpPath (noNul : 0 ∉ path) (good : EntryName name)
    (short : (path ++ slash :: name).length < maxPathLength) :
    pathNames (tmpPath path name) = pathNames path ++ [name] := by
  rw [tmpPath_eq noNul good short, pathNames_slash noNul good]

/-! ### One entry -/

theorem gRemove_removable (last : pathNames path ≠ [])
    (found : fs.find (pathNames path) = some node) (removable : Removable node) :
    gRemove fs path =
      (true, fs.remove (pathNames path).dropLast ((pathNames path).getLast last)) := by
  unfold gRemove
  rw [List.getLast?_eq_getLast_of_ne_nil last, found]
  cases node with
  | leaf content => rfl
  | branch inner =>
    obtain rfl := removable inner rfl
    rfl

theorem gRemove_full (found : fs.find (pathNames path) = some node) (full : ¬Removable node) :
    gRemove fs path = (false, fs) := by
  obtain ⟨inner, notEmpty⟩ := not_forall.mp full
  obtain ⟨rfl, nonempty⟩ := Classical.not_imp.mp notEmpty
  obtain ⟨entry, inner, rfl⟩ := List.exists_cons_of_ne_nil nonempty
  unfold gRemove
  rw [found]
  cases (pathNames path).getLast? with
  | none => rfl
  | some name => rfl

/-- The directory holds what the loop has not met yet. -/
structure Remaining (fs : FsNode) (path : Bytes) (entries : List (Bytes × FsNode)) : Prop where
  here : fs.find (pathNames path) = some (branch entries)
  different : (entries.map Prod.fst).Nodup
  names : ∀ entry ∈ entries, EntryName entry.1 ∧ (path ++ slash :: entry.1).length < maxPathLength

theorem Remaining.step (noNul : 0 ∉ path)
    (remaining : Remaining fs path ((name, node) :: entries)) :
    (Removable node → gRemove fs (tmpPath path name) = (true, fs.remove (pathNames path) name) ∧
        Remaining (fs.remove (pathNames path) name) path entries) ∧
      (¬Removable node → gRemove fs (tmpPath path name) = (false, fs)) := by
  obtain ⟨good, short⟩ := remaining.names _ List.mem_cons_self
  have reached := pathNames_tmpPath noNul good short
  have found : fs.find (pathNames (tmpPath path name)) = some node := by
    rw [reached, find_append, remaining.here, Option.bind_some, find_head]
  refine ⟨fun removable => ⟨?_, ?_⟩, fun full => gRemove_full found full⟩
  · have last : pathNames (tmpPath path name) ≠ [] := by
      rw [reached]
      exact List.concat_ne_nil _ _
    rw [gRemove_removable last found removable]
    simp only [reached, List.dropLast_concat, List.getLast_append_singleton]
  · obtain ⟨notIn, rest⟩ := List.nodup_cons.mp remaining.different
    refine ⟨?_, rest, fun other member => remaining.names other (List.mem_cons_of_mem _ member)⟩
    rw [find_remove remaining.here]
    have others : entries.filter (fun entry => decide (entry.1 ≠ name)) = entries := by
      rw [List.filter_eq_self]
      intro other member
      have inside : other.1 ∈ entries.map Prod.fst := List.mem_map_of_mem member
      exact decide_eq_true fun same => notIn (same ▸ inside)
    rw [List.filter_cons, if_neg (by simp), others]

/-! ### The loop -/

/-- The loop removes one entry after another, and ends at the first one that cannot be removed. -/
theorem rmdirLoop_spec (rmdir : FsNode → Bytes → Except Fault (Bool × FsNode)) (noNul : 0 ∉ path)
    (remaining : Remaining fs path entries) :
    ∃ ended after, rmdirLoop rmdir path (entries.map Prod.fst) fs = .ok (ended, after) ∧
      (ended = true ↔ ∀ entry ∈ entries, Removable entry.2) ∧
        (ended = true → after.find (pathNames path) = some (branch [])) ∧
      ∀ other, ¬pathNames path <+: other → ¬other <+: pathNames path →
      after.find other = fs.find other := by
  induction entries generalizing fs with
  | nil => exact ⟨true, fs, rfl, by simp, fun _ => remaining.here, fun _ _ _ => rfl⟩
  | cons first entries ih =>
    obtain ⟨name, node⟩ := first
    have isDirectory : irsFsIsfile fs path = true := by
      rw [irsFsIsfile, gFileTestIsDir, remaining.here]
    obtain ⟨removes, fails⟩ := remaining.step noNul
    rw [List.map_cons, rmdirLoop, if_pos isDirectory, irsFsRmfile, List.forall_mem_cons]
    by_cases removable : Removable node
    · obtain ⟨removed, rest⟩ := removes removable
      obtain ⟨ended, after, run, all, empty, others⟩ := ih rest
      rw [removed]
      refine ⟨ended, after, run, by rw [all, and_iff_right removable], empty, ?_⟩
      intro other ahead behind
      rw [others other ahead behind]
      exact find_remove_of_apart
        (fun isPrefix => ahead ((List.prefix_append _ _).trans isPrefix)) behind
    · rw [fails removable]
      exact ⟨false, fs, rfl, by simp [removable], nofun, fun _ _ _ => rfl⟩

theorem gRmdir_empty (last : pathNames path ≠ [])
    (found : fs.find (pathNames path) = some (branch [])) (rest : List Bytes) :
    (gRmdir fs path).2.find (pathNames path ++ rest) = none := by
  have split := List.dropLast_append_getLast last
  have removed : (gRmdir fs path).2 = fs.remove (pathNames path).dropLast
      ((pathNames path).getLast last) := by
    unfold gRmdir
    rw [List.getLast?_eq_getLast_of_ne_nil last, found]
  rw [← split] at found
  obtain ⟨parent, above, -⟩ := exists_branch found
  have nothing := find_removed above ((pathNames path).getLast last) rest
  rw [removed]
  rwa [← List.singleton_append, ← List.append_assoc, split] at nothing

theorem gRmdir_others (fs : FsNode) {other : List Bytes} (ahead : ¬pathNames path <+: other)
    (behind : ¬other <+: pathNames path) :
    (gRmdir fs path).2.find other = fs.find other := by
  unfold gRmdir
  split
  · rename_i name last _
    obtain ⟨names, split⟩ := List.getLast?_eq_some_iff.mp last
    rw [split] at ahead behind ⊢
    rw [List.dropLast_concat]
    exact find_remove_of_apart ahead fun isPrefix =>
      behind (isPrefix.trans (List.prefix_append _ _))
  · rfl

/-! ### The directory -/

section
variable (fuel : Nat) (noNul : 0 ∉ path) (here : fs.find (pathNames path) = some (branch entries))
  (proper : Proper EntryName (branch entries))
  (short : ∀ entry ∈ entries, (path ++ slash :: entry.1).length < maxPathLength)
include noNul here proper short

theorem irsFsRmdir_run :
    ∃ ended middle, irsFsRmdir (fuel + 1) fs path =
      .ok (ended, if ended then (gRmdir middle path).2 else middle) ∧
      (ended = true ↔ ∀ entry ∈ entries, Removable entry.2) ∧
        (ended = true → middle.find (pathNames path) = some (branch [])) ∧
      ∀ other, ¬pathNames path <+: other → ¬other <+: pathNames path →
      middle.find other = fs.find other := by
  have remaining : Remaining fs path entries := by
    cases proper with
    | branch different names _ =>
      exact ⟨here, different, fun entry member => ⟨names entry member, short entry member⟩⟩
  have isDirectory : irsFsIsdir fs path = true := by
    rw [irsFsIsdir, gFileTestIsDir, here]
  have listed : gDirReadNames fs path = entries.map Prod.fst := by
    rw [gDirReadNames, here]
  obtain ⟨ended, middle, run, spec⟩ := rmdirLoop_spec (irsFsRmdir fuel) noNul remaining
  refine ⟨ended, middle, ?_, spec⟩
  rw [irsFsRmdir, if_pos isDirectory, listed, run]
  cases ended with
  | true => rfl
  | false => rfl

/-- A directory tree is removed exactly when every directory right in it is empty. -/
theorem irsFsRmdir_iff (below : pathNames path ≠ []) :
    (∃ after, irsFsRmdir (fuel + 1) fs path = .ok (true, after) ∧
      ∀ rest, after.find (pathNames path ++ rest) = none) ↔
      ∀ entry ∈ entries, Removable entry.2 := by
  obtain ⟨ended, middle, run, all, empty, -⟩ := irsFsRmdir_run fuel noNul here proper short
  rw [run, ← all]
  cases ended with
  | true => exact iff_of_true ⟨_, rfl, gRmdir_empty below (empty rfl)⟩ rfl
  | false => exact iff_of_false (fun ⟨_, same, _⟩ => by cases same) nofun

/-- Whether the directory is removed or not, nothing changes elsewhere. -/
theorem irsFsRmdir_others {other : List Bytes} (ahead : ¬pathNames path <+: other)
    (behind : ¬other <+: pathNames path) :
    ∃ result after, irsFsRmdir (fuel + 1) fs path = .ok (result, after) ∧
      after.find other = fs.find other := by
  obtain ⟨ended, middle, run, -, -, others⟩ := irsFsRmdir_run fuel noNul here proper short
  refine ⟨ended, _, run, ?_⟩
  cases ended with
  | true => exact (gRmdir_others middle ahead behind).trans (others other ahead behind)
  | false => exact others other ahead behind

end

/-- A file and an empty directory in `db`. -/
theorem irsFsRmdir_iff_db :
    ∃ after, irsFsRmdir 2 (branch [([100, 98], branch [([116], leaf [1]), ([115], branch [])])])
      [100, 98] = .ok (true, after) ∧
      ∀ rest, after.find (pathNames [100, 98] ++ rest) = none := by
  have names : pathNames [100, 98] = [[100, 98]] := by decide
  refine (irsFsRmdir_iff 1 (by decide) (by rw [names, find_head]) ?_ ?_
    (by rw [names]; exact List.cons_ne_nil _ _)).mpr ?_
  · refine .branch (by decide) (by unfold EntryName; decide) ?_
    simp only [List.forall_mem_cons]
    exact ⟨.leaf _, .branch List.nodup_nil nofun nofun, nofun⟩
  · decide
  · simp only [List.forall_mem_cons]
    exact ⟨nofun, fun inner same => (branch.inj same).symm, nofun⟩

/-- The directory `s` in `db` holds a file: nothing is removed. -/
theorem irsFsRmdir_fails_nested :
    irsFsRmdir 3 (branch [([100, 98], branch [([115], branch [([116], leaf [1])])])]) [100, 98] =
      .ok (false, branch [([100, 98], branch [([115], branch [([116], leaf [1])])])]) := by
  rfl

end IrsMachine
