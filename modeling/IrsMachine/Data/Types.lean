import Mathlib.Algebra.Group.Nat.Defs
import Mathlib.Data.List.TakeWhile

/-!
# Bytes, C strings and faults

A pointer to characters is the list of bytes it points to. The string functions
of the C library stop at the first zero byte, so they apply to any buffer.
-/

namespace IrsMachine

abbrev Bytes := List UInt8

/-- What stops a call that returns nothing: an access outside an array, a loop
without an end, a pointer read as something it does not point to, the read of an
unassigned variable, or `g_error`. -/
inductive Fault where
  | outOfBounds | endless | badPointer | unassigned | aborted
  deriving DecidableEq, Repr

def slash : UInt8 := 47

/-- `tolower` in the C locale. -/
def tolower (ch : UInt8) : UInt8 := if 65 ≤ ch ∧ ch ≤ 90 then ch + 32 else ch

/-- The characters of a buffer before its terminating zero. -/
def cString (buffer : Bytes) : Bytes := buffer.takeWhile (fun ch => decide (ch ≠ 0))

def irsStrLen (string : Bytes) : Nat := (cString string).length

def irsStrCmp (str other : Bytes) : Bool := decide (cString str = cString other)

/-- A string as a caller passes it: no zero byte inside, and shorter than the
address space. -/
structure CString where
  bytes : Bytes
  noNul : ∀ ch ∈ bytes, ch ≠ 0
  fits : bytes.length < 2 ^ 64

theorem cString_of_noNul {string : Bytes} (noNul : ∀ ch ∈ string, ch ≠ 0) :
    cString string = string := by
  rw [cString, List.takeWhile_eq_self_iff]
  simpa using noNul

theorem cString_of_zero_notMem {string : Bytes} (noNul : 0 ∉ string) : cString string = string :=
  cString_of_noNul fun _ member same => noNul (same ▸ member)

theorem zero_notMem_slash {first second : Bytes} (noNul : 0 ∉ first) (noNul' : 0 ∉ second) :
    0 ∉ first ++ slash :: second := by
  rw [List.mem_append, List.mem_cons]
  simp [noNul, noNul', slash]

theorem cString_noNul (buffer : Bytes) : ∀ ch ∈ cString buffer, ch ≠ 0 := by
  intro ch member
  simpa using List.mem_takeWhile_imp member

theorem take_irsStrLen (text : Bytes) : text.take (irsStrLen text) = cString text :=
  (List.prefix_iff_eq_take.mp (List.takeWhile_prefix _)).symm

theorem irsStrLen_of_noNul {string : Bytes} (noNul : ∀ ch ∈ string, ch ≠ 0) :
    irsStrLen string = string.length := by
  rw [irsStrLen, cString_of_noNul noNul]

theorem irsStrCmp_of_noNul {str other : Bytes} (first : ∀ ch ∈ str, ch ≠ 0)
    (second : ∀ ch ∈ other, ch ≠ 0) :
    irsStrCmp str other = true ↔ str = other := by
  simp [irsStrCmp, cString_of_noNul first, cString_of_noNul second]

end IrsMachine
