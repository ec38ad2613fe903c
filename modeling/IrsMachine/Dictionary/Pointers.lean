import IrsMachine.Container.OwnedLists
import IrsMachine.Dictionary.Model

/-!
# The dictionary in memory

`irs_dictionary` as it runs on memory: nodes, their arrays of child pointers, the buffers of their
labels and their lists are blocks of their own, which are changed where they are and freed one by
one.
-/

namespace IrsMachine.Memory

variable {α σ : Type}

/-! ### Nodes -/

/-- `irs_mem_new` of an array of pointers, which is null where there is nothing in it. -/
def newPointers (size : UInt8) : MemoryM α (Option Nat) :=
  if size = 0 then pure none
  else do
    let next ← new (.pointers (List.replicate size.toNat none))
    pure (some next)

def irsDictionaryNodeInitialize (size : UInt8) : MemoryM α Nat := do
  let node ← new (.node { next := none, offset := none, offsetSize := 0, dataList := none })
  let next ← newPointers size
  changeNode (some node) fun fields => { fields with next }
  pure node

def irsDictionaryInitialize (size : UInt8) (irsCharToIrsInt : UInt8 → UInt8) : MemoryM α Nat := do
  let dictionary ← new (.dictionary { root := none, size, irsCharToIrsInt })
  let root ← irsDictionaryNodeInitialize size
  write (some dictionary) (.dictionary { root := some root, size, irsCharToIrsInt })
  pure dictionary

def irsDictionaryNodeDestroy (node : Option Nat) : MemoryM α Unit := do
  let fields ← readNode node
  let _ ← irsListDestroy fields.dataList
  changeNode node fun fields => { fields with dataList := none }
  free fields.next
  changeNode node fun fields => { fields with next := none }
  free fields.offset
  changeNode node fun fields => { fields with offset := none, offsetSize := 0 }
  free node

def getNext (node : Option Nat) (num : Nat) : MemoryM α (Option Nat) := do
  let fields ← readNode node
  let next ← readPointers fields.next
  match next[num]? with
  | none => throw .outOfBounds
  | some child => pure child

def setNext (node : Option Nat) (num : Nat) (child : Option Nat) : MemoryM α Unit := do
  let fields ← readNode node
  let next ← readPointers fields.next
  if num < next.length then write fields.next (.pointers (next.set num child))
    else throw .outOfBounds

def irsStrCpy (string : Bytes) (size : Nat) : MemoryM α Nat :=
  if string.length < size then throw .outOfBounds else new (.chars (string.take size ++ [0]))

def irsMemCpy (source : Option Nat) (size : Nat) : MemoryM α Bytes :=
  match source with
  | none => if size = 0 then pure [] else throw .badPointer
  | some _ => do
    let buffer ← readChars source
    if buffer.length < size then throw .outOfBounds else pure (buffer.take size)

/-! ### Appending -/

/-- The first branch of the loop of `irs_dictionary_append_to_node`: a new leaf for the rest of the
string. -/
def storeLeaf (size : UInt8) (node : Option Nat) (num : Nat) (rest : Bytes) : MemoryM α Nat := do
  let temp ← irsDictionaryNodeInitialize size
  setNext node num (some temp)
  changeNode (some temp) fun fields => { fields with offsetSize := rest.length }
  let copy ← irsStrCpy rest rest.length
  changeNode (some temp) fun fields => { fields with offset := some copy }
  pure temp

/-- The second branch, where the label of `moving` goes on after `j` characters: a new node takes
over its buffer, and `moving` gets a copy of the rest. -/
def splitChild (toInt : UInt8 → UInt8) (size : UInt8) (node : Option Nat)
    (num moving offset j : Nat) : MemoryM α Nat := do
  let fields ← readNode (some moving)
  let temp ← irsDictionaryNodeInitialize size
  setNext node num (some temp)
  changeNode (some temp) fun fields => { fields with offsetSize := j }
  changeNode (some temp) fun fields => { fields with offset := some offset }
  let buffer ← readChars (some offset)
  match buffer[j]? with
  | none => throw .outOfBounds
  | some ch => do
    setNext (some temp) (toInt ch).toNat (some moving)
    changeNode (some moving) fun fields => { fields with offsetSize := fields.offsetSize - j }
    let copy ← irsStrCpy (buffer.drop j) (fields.offsetSize - j)
    changeNode (some moving) fun fields => { fields with offset := some copy }
    pure temp

def appendLoop (toInt : UInt8 → UInt8) (size : UInt8) : Nat → Option Nat → Bytes →
    MemoryM α (Option Nat)
  | _, node, [] => pure node
  | 0, _, _ :: _ => throw .endless
  | fuel + 1, node, c :: cs => do
    match ← getNext node (toInt c).toNat with
    | none => do
      let temp ← storeLeaf size node (toInt c).toNat (c :: cs)
      pure (some temp)
    | some moving => do
      let fields ← readNode (some moving)
      match fields.offset with
      | none => appendLoop toInt size fuel (some moving) cs
      | some offset => do
        let buffer ← readChars (some offset)
        let j := matchLength buffer fields.offsetSize (c :: cs)
        if j = fields.offsetSize then appendLoop toInt size fuel (some moving) ((c :: cs).drop j)
        else do
          let temp ← splitChild toInt size node (toInt c).toNat moving offset j
          appendLoop toInt size fuel (some temp) ((c :: cs).drop j)

/-- The characters that the loop of an append reads. With a `size` beyond the string it reads on
behind it. -/
def readString (irsString : Bytes) (size : Nat) : MemoryM α Bytes :=
  if irsString.length < size then throw .outOfBounds else pure (irsString.take size)

/-- `irs_string_ptr` is freed again; what it points to is the string in the loop. -/
def irsDictionaryAppendToNode (dictionary : Option Nat) (irsString : Bytes) (size : UInt32) :
    MemoryM α (Option Nat) := do
  let fields ← readDictionary dictionary
  let irsStringPtr ← new (.string irsString)
  let rest ← readString irsString size.toNat
  let node ← appendLoop fields.irsCharToIrsInt fields.size size.toNat fields.root rest
  free (some irsStringPtr)
  pure node

def dataListOf (node : Option Nat) : MemoryM α Nat := do
  let fields ← readNode node
  match fields.dataList with
  | some list => pure list
  | none => do
    let list ← irsListInit
    changeNode node fun fields => { fields with dataList := some list }
    pure list

def irsDictionaryAppend (dictionary : Option Nat) (irsString : Bytes) (size : UInt32)
    (value : Option α) : MemoryM α (Option Nat) := do
  let node ← irsDictionaryAppendToNode dictionary irsString size
  let list ← dataListOf node
  let _ ← irsListPushBack (some list) value
  pure node

/-! ### Looking up -/

def irsDictionaryGetNextNode (dictionary : DictionaryFields) (node : Option Nat) (ch : UInt8) :
    MemoryM α (Option Nat) := do
  let fields ← readNode node
  match fields.next with
  | none => pure none
  | some _ => getNext node (dictionary.irsCharToIrsInt ch).toNat

def prefixLoop (dictionary : DictionaryFields) (irsString : Bytes) (stringSize : Nat) :
    Nat → Option Nat → Nat → MemoryM α (Option Nat × Nat)
  | fuel, node, i =>
    if i < stringSize then
      match fuel, irsString[i]? with
      | 0, _ => throw .endless
      | _, none => throw .outOfBounds
      | fuel + 1, some ch => do
        match ← irsDictionaryGetNextNode dictionary node ch with
        | some next => do
          let fields ← readNode (some next)
          prefixLoop dictionary irsString stringSize fuel (some next) (i + fields.offsetSize)
        | none => pure (node, i)
    else pure (node, i)

def irsDictionaryGetLastNodeFromNode (dictionary : Option Nat) (irsString : Bytes) :
    MemoryM α (Option Nat) := do
  let fields ← readDictionary dictionary
  let stringSize := (UInt32.ofNat (irsStrLen irsString)).toNat
  let (node, i) ← prefixLoop fields irsString stringSize stringSize fields.root 0
  if i = stringSize then do
    let last ← readNode node
    let label ← irsMemCpy last.offset last.offsetSize
    let str ← new (.chars (label ++ [0]))
    let copied ← readChars (some str)
    free (some str)
    pure (if irsStrCmp copied (irsString.drop (stringSize - last.offsetSize)) then node else none)
  else pure none

def irsDictionaryIsIn (dictionary : Option Nat) (irsString : Bytes) : MemoryM α Bool := do
  match ← irsDictionaryGetLastNodeFromNode dictionary irsString with
  | none => pure false
  | some last => do
    let fields ← readNode (some last)
    pure fields.dataList.isSome

def irsDictionaryGet (dictionary : Option Nat) (irsString : Bytes) : MemoryM α (Option Nat) := do
  match ← irsDictionaryGetLastNodeFromNode dictionary irsString with
  | none => pure none
  | some last => do
    let fields ← readNode (some last)
    pure fields.dataList

/-! ### Visiting -/

/-- The loop over the slots of a node passes over those that are empty. -/
def eachChild (node : Option Nat) (visit : Nat → σ → MemoryM α σ) (slots : List Nat) (dest : σ) :
    MemoryM α σ :=
  slots.foldlM (fun dest i => do
    match ← getNext node i with
    | none => pure dest
    | some next => visit next dest) dest

def visitDownNodeFromNode (callable : Nat → σ → MemoryM α σ) (size : UInt8) : Nat → Option Nat → σ →
    MemoryM α σ
  | 0, _, _ => throw .endless
  | fuel + 1, node, dest =>
    eachChild node (fun next dest => do
      let dest ← callable next dest
      visitDownNodeFromNode callable size fuel (some next) dest) (List.range size.toNat) dest

def visitUpNodeFromNode (callable : Nat → σ → MemoryM α σ) (size : UInt8) : Nat → Option Nat → σ →
    MemoryM α σ
  | 0, _, _ => throw .endless
  | fuel + 1, node, dest =>
    eachChild node (fun next dest => do
      let dest ← visitUpNodeFromNode callable size fuel (some next) dest
      callable next dest) (List.range size.toNat) dest

/-- No path in a tree of nodes is longer than the number of addresses that were given out. -/
def irsDictionaryVisitDownNodes (dictionary : Option Nat) (callable : Nat → σ → MemoryM α σ)
    (dest : σ) : MemoryM α σ := do
  let fields ← readDictionary dictionary
  let memory ← get
  visitDownNodeFromNode callable fields.size memory.fresh fields.root dest

def irsDictionaryVisitUpNodes (dictionary : Option Nat) (callable : Nat → σ → MemoryM α σ)
    (dest : σ) : MemoryM α σ := do
  let fields ← readDictionary dictionary
  let memory ← get
  visitUpNodeFromNode callable fields.size memory.fresh fields.root dest

def irsDictionaryDestroy (dictionary : Option Nat) : MemoryM α Bool :=
  match dictionary with
  | none => pure false
  | some _ => do
    irsDictionaryVisitUpNodes dictionary (fun node _ => irsDictionaryNodeDestroy (some node)) ()
    let fields ← readDictionary dictionary
    irsDictionaryNodeDestroy fields.root
    free dictionary
    pure true

end IrsMachine.Memory
