import IrsMachine.Data.Types
import IrsMachine.Library.LittleEndian
import Mathlib.Logic.Function.Basic

/-!
# Files and channels

The part of GLib's channels that the storage uses, over files that are plain byte sequences.
Opening for writing truncates the file, a write goes to the current position, a seek is
absolute. What the system does with each write is a parameter of the run.
-/

namespace IrsMachine

inductive IrsIoStatus where
  | error | normal | eof | again
  deriving DecidableEq, Repr

/-- How the system answers a write: the status it reports and the bytes it takes at most. -/
structure WriteOutcome where
  status : IrsIoStatus
  written : Nat

abbrev Path := Bytes

/-- The files, and the number of writes so far, which picks the answer to the next one. -/
structure World where
  files : Path → Option Bytes
  writes : Nat

def allWritten : Nat → WriteOutcome := fun _ => { status := .normal, written := 2 ^ 63 }

def World.empty : World := { files := fun _ => none, writes := 0 }

structure IrsIoChannel where
  path : Path
  position : Nat

def maxFileSize : Nat := 2 ^ 63 - 1

/-- `irs_io_new_channel` with the modes `w` and `w+`. -/
def irsIoNewChannelWrite (world : World) (path : Path) : IrsIoChannel × World :=
  ({ path, position := 0 }, { world with files := Function.update world.files path (some []) })

def irsIoNewChannelRead (world : World) (path : Path) : Option IrsIoChannel :=
  (world.files path).map fun _ => { path, position := 0 }

def overwrite (file : Bytes) (position : Nat) (chars : Bytes) : Bytes :=
  file.take position ++ chars ++ file.drop (position + chars.length)

structure Written where
  status : IrsIoStatus
  writtenBytes : Nat
  channel : IrsIoChannel
  world : World

/-- A write of nothing does nothing. -/
def irsIoChannelWriteChars (outcomes : Nat → WriteOutcome) (world : World) (channel : IrsIoChannel)
    (chars : Bytes) : Written :=
  if chars = [] then { status := .normal, writtenBytes := 0, channel, world }
  else
    let outcome := outcomes world.writes
    let writtenBytes := min outcome.written (min chars.length (maxFileSize - channel.position))
    let file := (world.files channel.path).getD []
    let contents := overwrite file channel.position (chars.take writtenBytes)
    { status := outcome.status, writtenBytes,
      channel := { channel with position := channel.position + writtenBytes },
      world := { files := Function.update world.files channel.path (some contents),
                 writes := world.writes + 1 } }

def Written.complete (write : Written) (size : Nat) : Bool :=
  decide (write.status = .normal ∧ write.writtenBytes = size)

structure ReadChars where
  status : IrsIoStatus
  chars : Bytes
  channel : Option IrsIoChannel

/-- A read gives the bytes there are, up to `count`. Without a channel it is an error. -/
def irsIoChannelReadChars (world : World) (channel : Option IrsIoChannel) (count : Nat) :
    ReadChars :=
  match channel with
  | none => { status := .error, chars := [], channel }
  | some open' =>
    if count = 0 then { status := .normal, chars := [], channel }
    else
      let chars := (((world.files open'.path).getD []).drop open'.position).take count
      { status := if chars = [] then .eof else .normal, chars,
        channel := some { open' with position := open'.position + chars.length } }

def ReadChars.complete (read : ReadChars) (size : Nat) : Bool :=
  decide (read.status = .normal ∧ read.chars.length = size)

/-- `irs_io_channel_seek` with `IRS_IO_SEEK_SET`. The offset is taken as signed, and a
negative one is refused. -/
def irsIoChannelSeek (channel : Option IrsIoChannel) (offset : UInt64) : Option IrsIoChannel :=
  channel.map fun open' => if offset.toNat <
    2 ^ 63 then { open' with position := offset.toNat } else open'

/-! ### Integers in memory -/

def uint64Chars (number : UInt64) : Bytes := LittleEndian.encode 8 number.toNat

def uint64OfChars (chars : Bytes) : UInt64 := UInt64.ofNat (LittleEndian.decode chars)

/-- An `irs_uint64` after a read put its first bytes there. -/
def uint64Overwrite (number : UInt64) (chars : Bytes) : UInt64 :=
  uint64OfChars (chars ++ (uint64Chars number).drop chars.length)

@[simp] theorem length_uint64Chars (number : UInt64) : (uint64Chars number).length = 8 :=
  LittleEndian.length_encode _ _

@[simp] theorem uint64OfChars_uint64Chars (number : UInt64) :
    uint64OfChars (uint64Chars number) = number := by
  rw [uint64OfChars, uint64Chars, LittleEndian.decode_encode_of_lt number.toNat_lt,
    UInt64.ofNat_toNat]

theorem uint64Overwrite_complete (number : UInt64) {chars : Bytes} (complete : chars.length = 8) :
    uint64Overwrite number chars = uint64OfChars chars := by
  rw [uint64Overwrite, List.drop_of_length_le (by simp [complete]), List.append_nil]

end IrsMachine
