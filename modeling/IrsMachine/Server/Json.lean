import IrsMachine.Storage.Model

/-!
# JSON values

The part of `nlohmann::json` that the server uses. How texts are parsed and printed is the
library's own, as is the cast of a floating-point number to `size_t`.
-/

namespace IrsMachine

/-- `nlohmann::json`. The members of an object have different names. -/
inductive IrsMemoryJsonPayload (D : Type) where
  | null
  | boolean (value : Bool)
  | numberUnsigned (value : UInt64)
  | numberInteger (value : Int64)
  | numberFloat (value : D)
  | string (value : Bytes)
  | array (items : List (IrsMemoryJsonPayload D))
  | object (members : List (Bytes × IrsMemoryJsonPayload D))

/-- What keeps a call from returning: an exception that it does not catch, or something that
C++ leaves undefined. -/
inductive Escape where
  | exception | missingKey | endIterator | badCast
  | fault (fault : Fault)
  deriving DecidableEq, Repr

/-- `parse` throws on a malformed text and `dump` on a string that is not UTF-8: both give
`none`. So does the cast of a number that `size_t` cannot hold, which is undefined. -/
structure Nlohmann (D : Type) where
  parse : Bytes → Option (IrsMemoryJsonPayload D)
  dump : IrsMemoryJsonPayload D → Option Bytes
  toSize : D → Option UInt64

namespace IrsMemoryJsonPayload
variable {D : Type}

def isNull : IrsMemoryJsonPayload D → Bool
  | null => true
  | _ => false

def index (json : IrsMemoryJsonPayload D) (key : Bytes) : Except Escape (IrsMemoryJsonPayload D) :=
  match json with
  | object members =>
    match members.lookup key with
    | some member => .ok member
    | none => .error .missingKey
  | _ => .error .exception

def getString : IrsMemoryJsonPayload D → Except Escape Bytes
  | string value => .ok value
  | _ => .error .exception

def getSize (library : Nlohmann D) : IrsMemoryJsonPayload D → Except Escape UInt64
  | numberUnsigned value => .ok value
  | numberInteger value => .ok value.toUInt64
  | numberFloat value =>
    match library.toSize value with
    | some size => .ok size
    | none => .error .badCast
  | _ => .error .exception

def getStrings : IrsMemoryJsonPayload D → Except Escape (List Bytes)
  | array items => items.mapM getString
  | _ => .error .exception

def ofStrings (strings : List Bytes) : IrsMemoryJsonPayload D := array (strings.map string)

/-- A map becomes an object, whose members are in the order of their names. -/
def ofMap (members : List (Bytes × IrsMemoryJsonPayload D)) : IrsMemoryJsonPayload D :=
  object (members.mergeSort fun a b => decide (a.1 ≤ b.1))

end IrsMemoryJsonPayload

end IrsMachine
