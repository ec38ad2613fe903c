import IrsMachine.Data.Types
import IrsMachine.Library.NamedTrees

/-!
# The file system

`irs_file_system` removes files and directories through `glib`. The file system is the tree of what
is below the directory at which paths begin.
-/

namespace IrsMachine
open NamedTrees Tree

abbrev FsNode := Tree Bytes Bytes

def EntryName (name : Bytes) : Prop := name ≠ [] ∧ 0 ∉ name ∧ slash ∉ name

def pathNames (path : Bytes) : List Bytes :=
  ((cString path).splitOnP fun ch => decide (ch = slash)).filter fun name => decide (name ≠ [])

/-! ### What `glib` does -/

def gFileTestIsDir (fs : FsNode) (path : Bytes) : Bool :=
  match fs.find (pathNames path) with
  | some (branch _) => true
  | _ => false

/-- `g_dir_open`, and `g_dir_read_name` until there is no more. -/
def gDirReadNames (fs : FsNode) (path : Bytes) : List Bytes :=
  match fs.find (pathNames path) with
  | some (branch entries) => entries.map Prod.fst
  | _ => []

/-- `false` is the result -1: nothing is there, or a directory that is not empty, or the directory
at which paths begin. -/
def gRemove (fs : FsNode) (path : Bytes) : Bool × FsNode :=
  match (pathNames path).getLast?, fs.find (pathNames path) with
  | some name, some (leaf _) => (true, fs.remove (pathNames path).dropLast name)
  | some name, some (branch []) => (true, fs.remove (pathNames path).dropLast name)
  | _, _ => (false, fs)

/-- A file is not removed. -/
def gRmdir (fs : FsNode) (path : Bytes) : Bool × FsNode :=
  match (pathNames path).getLast?, fs.find (pathNames path) with
  | some name, some (branch []) => (true, fs.remove (pathNames path).dropLast name)
  | _, _ => (false, fs)

/-! ### The functions -/

def maxPathLength : Nat := 1024

def irsFsIsdir (fs : FsNode) (path : Bytes) : Bool := gFileTestIsDir fs path

/-- The test is the one for a directory. -/
def irsFsIsfile (fs : FsNode) (path : Bytes) : Bool := gFileTestIsDir fs path

def irsFsRmfile (fs : FsNode) (path : Bytes) : Bool × FsNode := gRemove fs path

/-- `g_snprintf` with the format `%s/%s` keeps what fits in front of the terminating zero. -/
def tmpPath (path dir : Bytes) : Bytes :=
  (cString path ++ slash :: cString dir).take (maxPathLength - 1)

/-- The loop of `irs_fs_rmdir` over the names in the directory; `false` is a return from it. -/
def rmdirLoop (rmdir : FsNode → Bytes → Except Fault (Bool × FsNode)) (path : Bytes) : List Bytes →
    FsNode → Except Fault (Bool × FsNode)
  | [], fs => .ok (true, fs)
  | dir :: names, fs =>
    -- the file test is made on the directory, not on the entry
    if irsFsIsfile fs path then
      match irsFsRmfile fs (tmpPath path dir) with
      | (false, fs) => .ok (false, fs)
      | (true, fs) => rmdirLoop rmdir path names fs
    else if irsFsIsdir fs (tmpPath path dir) then do
      let (_, fs) ← rmdir fs (tmpPath path dir)
      rmdirLoop rmdir path names fs
    else rmdirLoop rmdir path names fs

/-- `fuel` bounds the depth of the recursion. -/
def irsFsRmdir : Nat → FsNode → Bytes → Except Fault (Bool × FsNode)
  | 0, _, _ => .error .endless
  | fuel + 1, fs, path =>
    if irsFsIsdir fs path then do
      let (ended, fs) ← rmdirLoop (irsFsRmdir fuel) path (gDirReadNames fs path) fs
      if ended then .ok (true, (gRmdir fs path).2) else .ok (false, fs)
    else .ok (false, fs)

end IrsMachine
