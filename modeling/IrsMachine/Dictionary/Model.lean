import IrsMachine.Data.Types

/-!
# The dictionary

`irs_dictionary` is a prefix tree with compressed edges. A node owns the array of its
child pointers and the buffer of its edge label; its address is the path of child
indices that leads to it from the root.
-/

namespace IrsMachine

/-- The label is the first `offsetSize` bytes of the buffer `offset`. -/
structure IrsDictionaryNode (α : Type) where
  next : List (Option (IrsDictionaryNode α))
  offset : Option Bytes
  offsetSize : Nat
  dataList : Option (List α)

structure IrsDictionary (α : Type) where
  root : IrsDictionaryNode α
  size : UInt8
  irsCharToIrsInt : UInt8 → UInt8

abbrev Address := List Nat

variable {α : Type}

namespace IrsDictionaryNode

def label (node : IrsDictionaryNode α) : Bytes := (node.offset.getD []).take node.offsetSize

def setNext (node : IrsDictionaryNode α) (num : Nat) (child : IrsDictionaryNode α) :
    IrsDictionaryNode α :=
  { node with next := node.next.set num (some child) }

def nodeAt (node : IrsDictionaryNode α) : Address → Option (IrsDictionaryNode α)
  | [] => some node
  | num :: address =>
    match node.next[num]? with
    | some (some child) => child.nodeAt address
    | _ => none

def modifyAt (f : IrsDictionaryNode α → IrsDictionaryNode α) (node : IrsDictionaryNode α) :
    Address → IrsDictionaryNode α
  | [] => f node
  | num :: address =>
    match node.next[num]? with
    | some (some child) => node.setNext num (child.modifyAt f address)
    | _ => node

/-- `irs_list_push_back` on the data list, which is made first if there is none. -/
def pushBack (value : α) (node : IrsDictionaryNode α) : IrsDictionaryNode α :=
  { node with dataList := some (node.dataList.getD [] ++ [value]) }

end IrsDictionaryNode

open IrsDictionaryNode

def irsDictionaryNodeInitialize (size : UInt8) : IrsDictionaryNode α :=
  { next := List.replicate size.toNat none, offset := none, offsetSize := 0, dataList := none }

def irsDictionaryInitialize (size : UInt8) (irsCharToIrsInt : UInt8 → UInt8) : IrsDictionary α :=
  { root := irsDictionaryNodeInitialize size, size, irsCharToIrsInt }

/-- `_irs_dictionary_children_size`, as the storage and the engine define it. -/
def irsDictionaryChildrenSize : UInt8 :=
  let maxIrsChar := 255
  let minIrsChar := 1
  maxIrsChar - minIrsChar + 1

/-- `_irs_char_to_irs_int`. The sum is stored in eight bits. -/
def irsCharToIrsInt (ch : UInt8) : UInt8 := 128 + ch

/-! ### Appending -/

/-- The `for` loop of `irs_dictionary_append_to_node`: how many characters of the label
and of the rest of the string agree, in either case. -/
def matchLength : Bytes → Nat → Bytes → Nat
  | ch :: offset, offsetSize + 1, c :: rest =>
    if tolower ch = tolower c then matchLength offset offsetSize rest + 1 else 0
  | _, _, _ => 0

def leafNode (size : UInt8) (rest : Bytes) : IrsDictionaryNode α :=
  { irsDictionaryNodeInitialize size with offset := some rest, offsetSize := rest.length }

/-- The old node below a split: its label is copied from index `j` on. -/
def hangNode (moving : IrsDictionaryNode α) (offset : Bytes) (j : Nat) : IrsDictionaryNode α :=
  let size := moving.offsetSize - j
  { moving with offset := some ((offset.drop j).take size), offsetSize := size }

/-- The new node of a split. It takes over the old buffer, of which it uses `j` bytes. -/
def prefixNode (size : UInt8) (offset : Bytes) (j : Nat) : IrsDictionaryNode α :=
  { irsDictionaryNodeInitialize size with offset := some offset, offsetSize := j }

/-- What one iteration of the loop of `irs_dictionary_append_to_node` does at a node: it
stores a new leaf and leaves the loop, or it stores `child` (which is there already unless
an edge is split), moves to it and skips `advance` characters. -/
inductive Iteration (α : Type) where
  | leaf (num : Nat) (temp : IrsDictionaryNode α)
  | enter (num : Nat) (child : IrsDictionaryNode α) (advance : Nat)

def appendIteration (toInt : UInt8 → UInt8) (size : UInt8) (node : IrsDictionaryNode α) (c : UInt8)
    (cs : Bytes) :
    Except Fault (Iteration α) :=
  let num := (toInt c).toNat
  match node.next[num]? with
  | none => .error .outOfBounds
  | some none => .ok (.leaf num (leafNode size (c :: cs)))
  | some (some moving) =>
    match moving.offset with
    | none => .ok (.enter num moving 1)
    | some offset =>
      let j := matchLength offset moving.offsetSize (c :: cs)
      if j = moving.offsetSize then .ok (.enter num moving j)
      else
        match offset[j]? with
        | none => .error .outOfBounds
        | some ch =>
          let temp := prefixNode size offset j
          -- the slot of `temp` that receives the old node
          if (toInt ch).toNat < temp.next.length then
            .ok (.enter num (temp.setNext (toInt ch).toNat (hangNode moving offset j)) j)
          else .error .outOfBounds

/-- The loop of `irs_dictionary_append_to_node`: the tree below `node` afterwards and the
address of the node it ends at. -/
def appendLoop (toInt : UInt8 → UInt8) (size : UInt8) :
    Nat → IrsDictionaryNode α → Bytes → Except Fault (IrsDictionaryNode α × Address)
  | _, node, [] => .ok (node, [])
  | 0, _, _ :: _ => .error .endless
  | fuel + 1, node, c :: cs => do
    match ← appendIteration toInt size node c cs with
    | .leaf num temp => .ok (node.setNext num temp, [num])
    | .enter num child advance =>
      let (child, address) ← appendLoop toInt size fuel child ((c :: cs).drop advance)
      .ok (node.setNext num child, num :: address)

def irsDictionaryAppendToNode (dictionary : IrsDictionary α) (irsString : Bytes) (size : UInt32) :
    Except Fault (IrsDictionary α × Address) := do
  let (root, address) ← appendLoop dictionary.irsCharToIrsInt dictionary.size size.toNat
    dictionary.root
    (irsString.take size.toNat)
  .ok ({ dictionary with root }, address)

def irsDictionaryAppend (dictionary : IrsDictionary α) (irsString : Bytes) (size : UInt32)
    (value : α) :
    Except Fault (IrsDictionary α × Address) := do
  let (dictionary, address) ← irsDictionaryAppendToNode dictionary irsString size
  .ok ({ dictionary with root := dictionary.root.modifyAt (pushBack value) address }, address)

/-! ### Looking up -/

def irsDictionaryGetNextNode (dictionary : IrsDictionary α) (node : IrsDictionaryNode α)
    (ch : UInt8) :
    Except Fault (Option (IrsDictionaryNode α)) :=
  match node.next[(dictionary.irsCharToIrsInt ch).toNat]? with
  | none => .error .outOfBounds
  | some next => .ok next

def prefixLoop (dictionary : IrsDictionary α) (irsString : Bytes) (stringSize : Nat) :
    Nat → IrsDictionaryNode α → Nat → Except Fault (IrsDictionaryNode α × Nat)
  | fuel, node, i =>
    if i < stringSize then
      match fuel, irsString[i]? with
      | 0, _ => .error .endless
      | _, none => .error .outOfBounds
      | fuel + 1, some ch => do
        match ← irsDictionaryGetNextNode dictionary node ch with
        | some next => prefixLoop dictionary irsString stringSize fuel next (i + next.offsetSize)
        | none => .ok (node, i)
    else .ok (node, i)

/-- The length of the string is kept in 32 bits. -/
def irsDictionaryGetLastNodeFromNode (dictionary : IrsDictionary α) (irsString : Bytes) :
    Except Fault (Option (IrsDictionaryNode α)) := do
  let stringSize := (UInt32.ofNat (irsStrLen irsString)).toNat
  let (node, i) ← prefixLoop dictionary irsString stringSize stringSize dictionary.root 0
  if i = stringSize ∧
    irsStrCmp node.label (irsString.drop (stringSize - node.offsetSize)) then .ok (some node)
  else .ok none

def irsDictionaryIsIn (dictionary : IrsDictionary α) (irsString : Bytes) : Except Fault Bool := do
  let last ← irsDictionaryGetLastNodeFromNode dictionary irsString
  .ok (last.any fun node => node.dataList.isSome)

/-- `none` is the null pointer. -/
def irsDictionaryGet (dictionary : IrsDictionary α) (irsString : Bytes) :
    Except Fault (Option (List α)) := do
  let last ← irsDictionaryGetLastNodeFromNode dictionary irsString
  .ok (last.bind fun node => node.dataList)

/-! ### Visiting -/

-- The recursion of `_irs_dictionary_visit_down_node_from_node`; `i` is the index of its loop.
mutual
def visitDownNode : IrsDictionaryNode α → List (Address × IrsDictionaryNode α)
  | ⟨next, _, _, _⟩ => visitDownNext 0 next
def visitDownNext (i : Nat) : List (Option (IrsDictionaryNode α)) →
    List (Address × IrsDictionaryNode α)
  | [] => []
  | none :: rest => visitDownNext (i + 1) rest
  | some next :: rest =>
    ([i], next) :: (visitDownNode next).map (fun visit => (i :: visit.1, visit.2)) ++
      visitDownNext (i + 1) rest
end

mutual
def visitUpNode : IrsDictionaryNode α → List (Address × IrsDictionaryNode α)
  | ⟨next, _, _, _⟩ => visitUpNext 0 next
def visitUpNext (i : Nat) : List (Option (IrsDictionaryNode α)) →
    List (Address × IrsDictionaryNode α)
  | [] => []
  | none :: rest => visitUpNext (i + 1) rest
  | some next :: rest =>
    (visitUpNode next).map (fun visit => (i :: visit.1, visit.2)) ++
      ([i], next) :: visitUpNext (i + 1) rest
end

/-- The calls of `callable`, in order: each with a node and its address. -/
def irsDictionaryVisitDownNodes (dictionary : IrsDictionary α) :
    List (Address × IrsDictionaryNode α) :=
  visitDownNode dictionary.root

def irsDictionaryVisitUpNodes (dictionary : IrsDictionary α) :
    List (Address × IrsDictionaryNode α) :=
  visitUpNode dictionary.root

end IrsMachine
