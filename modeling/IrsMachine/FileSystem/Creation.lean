import IrsMachine.FileSystem.Model

/-!
# Making a directory

`irs_fs_mkdirs` takes the result -1 for success: it tells of a failure when the directory was made,
and of success when it was not.
-/

namespace IrsMachine
open NamedTrees Tree

variable {fs after : FsNode} {path : Bytes}

/-- `g_mkdir_with_parents`; `false` is the result -1. -/
def gMkdirWithParents (fs : FsNode) (path : Bytes) : Bool × FsNode :=
  if cString path = [] then (false, fs)
  else
    match fs.makeBranches (pathNames path) with
    | none => (false, fs)
    | some made => (true, made)

def irsFsMkdirs (fs : FsNode) (path : Bytes) : Bool × FsNode :=
  let (made, fs) := gMkdirWithParents fs path
  (!made, fs)

/-- What every initialization does with a path: a directory that is not there is made. -/
def findOrMakeDirectory (fs : FsNode) (path : Bytes) : Bool × FsNode :=
  if irsFsIsdir fs path then (true, fs) else irsFsMkdirs fs path

/-! ### What is made -/

theorem irsFsIsdir_iff : irsFsIsdir fs path = true ↔
    ∃ entries, fs.find (pathNames path) = some (branch entries) := by
  unfold irsFsIsdir gFileTestIsDir
  split
  · rename_i entries here
    exact iff_of_true rfl ⟨entries, here⟩
  · rename_i elsewhere
    exact iff_of_false nofun fun ⟨entries, here⟩ => elsewhere entries here

/-- No file is on the way to the path. -/
def Free (fs : FsNode) (path : Bytes) : Prop :=
  cString path ≠ [] ∧ ∀ names content, names <+: pathNames path →
    fs.find names ≠ some (leaf content)

/-- Directories stay, and so does everything that is not one. -/
structure Grown (fs after : FsNode) : Prop where
  directories : ∀ names entries, fs.find names = some (branch entries) →
    ∃ entries', after.find names = some (branch entries')
  files : ∀ names content, after.find names = some (leaf content) ↔
    fs.find names = some (leaf content)

theorem Grown.refl (fs : FsNode) : Grown fs fs :=
  ⟨fun _ entries here => ⟨entries, here⟩, fun _ _ => Iff.rfl⟩

theorem Grown.trans {first second third : FsNode} (one : Grown first second)
    (two : Grown second third) : Grown first third where
  directories names entries here := by
    obtain ⟨middle, there⟩ := one.directories names entries here
    exact two.directories names middle there
  files names content := (two.files names content).trans (one.files names content)

theorem Grown.isdir (grown : Grown fs after) (here : irsFsIsdir fs path = true) :
    irsFsIsdir after path = true := by
  obtain ⟨entries, found⟩ := irsFsIsdir_iff.mp here
  exact irsFsIsdir_iff.mpr (grown.directories _ _ found)

theorem Grown.free (grown : Grown fs after) : Free after path ↔ Free fs path := by
  unfold Free
  simp only [ne_eq, grown.files]

theorem grown_makeBranches {names : List Bytes} (run : fs.makeBranches names = some after) :
    Grown fs after where
  directories other entries here := by
    by_cases onPath : other <+: names
    · exact find_made_of_prefix run onPath
    · exact ⟨entries, (find_made_of_apart run onPath).trans here⟩
  files other content := by
    by_cases onPath : other <+: names
    · obtain ⟨entries, there⟩ := find_made_of_prefix run onPath
      refine iff_of_false (fun file => ?_) fun file => ?_
      · rw [there] at file
        cases file
      · rw [makeBranches_eq_none.mpr ⟨other, content, onPath, file⟩] at run
        cases run
    · rw [find_made_of_apart run onPath]

/-! ### The three ways -/

theorem irsFsMkdirs_free (free : Free fs path) :
    ∃ after, irsFsMkdirs fs path = (false, after) ∧ irsFsIsdir after path = true ∧
      Grown fs after := by
  unfold irsFsMkdirs gMkdirWithParents
  rw [if_neg free.1]
  cases run : fs.makeBranches (pathNames path) with
  | none =>
    obtain ⟨names, content, onPath, found⟩ := makeBranches_eq_none.mp run
    exact absurd found (free.2 names content onPath)
  | some made => exact ⟨made, rfl, irsFsIsdir_iff.mpr (find_made run), grown_makeBranches run⟩

theorem irsFsMkdirs_notFree (notFree : ¬Free fs path) : irsFsMkdirs fs path = (true, fs) := by
  unfold irsFsMkdirs gMkdirWithParents
  split_ifs with empty
  · rfl
  · cases run : fs.makeBranches (pathNames path) with
    | none => rfl
    | some made =>
      have inTheWay : ∃ names content, names <+: pathNames path ∧
          fs.find names = some (leaf content) := by
        simpa [Free, empty] using notFree
      rw [makeBranches_eq_none.mpr inTheWay] at run
      cases run

/-- A directory that is not there, and that can be made. -/
def Missing (fs : FsNode) (path : Bytes) : Prop := Free fs path ∧ irsFsIsdir fs path = false

theorem Grown.missing (grown : Grown fs after) (missing : Missing after path) : Missing fs path :=
  ⟨grown.free.mp missing.1, Bool.eq_false_iff.mpr fun here => Bool.eq_false_iff.mp missing.2
    (grown.isdir here)⟩

/-- Only where the directory is made, the path is refused. -/
theorem findOrMakeDirectory_cases (fs : FsNode) (path : Bytes) :
    (¬Missing fs path ∧ findOrMakeDirectory fs path = (true, fs)) ∨
      (Missing fs path ∧ ∃ after, findOrMakeDirectory fs path = (false, after) ∧
        irsFsIsdir after path = true ∧ Grown fs after) := by
  unfold findOrMakeDirectory Missing
  by_cases here : irsFsIsdir fs path = true
  · rw [if_pos here]
    exact .inl ⟨fun missing => Bool.eq_false_iff.mp missing.2 here, rfl⟩
  · rw [if_neg here]
    by_cases free : Free fs path
    · exact .inr ⟨⟨free, Bool.eq_false_iff.mpr here⟩, irsFsMkdirs_free free⟩
    · exact .inl ⟨fun missing => free missing.1, irsFsMkdirs_notFree free⟩

end IrsMachine
