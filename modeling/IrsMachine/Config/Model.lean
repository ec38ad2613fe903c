import IrsMachine.Library.FlatTables
import IrsMachine.Storage.Model

/-!
# The configuration

`irs_config` reads a key file into one flat table, with the keys `group/key`. `IrsConfigGroup`
finds the keys of a group in this table again.
-/

namespace IrsMachine
open FlatTables

/-- A key file, as it was read: groups with different names, and in each of them different keys.
A value that cannot be read as a string is `none`. -/
structure KeyFile where
  groups : List (Bytes × List (Bytes × Option Bytes))
  groupsDiffer : (groups.map Prod.fst).Nodup
  keysDiffer : ∀ group ∈ groups, (group.2.map Prod.fst).Nodup
  noNul : ∀ group ∈ groups, 0 ∉ group.1 ∧ ∀ entry ∈ group.2, 0 ∉ entry.1

namespace KeyFile

def getGroups (keyFile : KeyFile) : List Bytes := keyFile.groups.map Prod.fst

/-- No entries, for a group that is not there. -/
def entriesOf (keyFile : KeyFile) (group : Bytes) : List (Bytes × Option Bytes) :=
  (keyFile.groups.lookup group).getD []

def getKeys (keyFile : KeyFile) (group : Bytes) : List Bytes :=
  (keyFile.entriesOf group).map Prod.fst

/-- Null is `none`: there is no such key, or its value cannot be read. -/
def getString (keyFile : KeyFile) (group key : Bytes) : Option Bytes :=
  ((keyFile.entriesOf group).lookup key).join

end KeyFile

/-- The hash table. A value can be null. -/
abbrev IrsConfig := AList fun _ : Bytes => Option Bytes

/-- `g_strdup_printf` with the format `%s/%s`. -/
def valueTableCreateHashKey (group key : Bytes) : Bytes :=
  joined slash (cString group) (cString key)

/-- `none` is a file that could not be loaded, and the result `IRS_FALSE`. -/
def irsConfigInitialize (keyFile : Option KeyFile) : Option IrsConfig := do
  let keyFile ← keyFile
  some (keyFile.getGroups.foldl (fun config group =>
    (keyFile.getKeys group).foldl (fun config key =>
      config.insert (valueTableCreateHashKey group key) (keyFile.getString group key)) config) ∅)

def irsConfigGetValueString (config : IrsConfig) (group key : Bytes) : Option Bytes :=
  (config.lookup (valueTableCreateHashKey group key)).join

/-- The constructor of `IrsConfigGroup`, with the keys of the table in some order: `m_keys`, which
`operator*` returns. -/
def irsConfigGroup (keys : List Bytes) (group : Bytes) : List Bytes :=
  keys.foldl (fun mKeys element =>
    if irsStrFind element group then mKeys ++ [(cString element).drop (group.length + 1)]
      else mKeys) []

end IrsMachine
