import IrsMachine.Container.Destruction
import IrsMachine.Library.Refinement

/-!
# Memory

What `irs_mem_new` gives out: the nodes of lists, and blocks of the other types. A block is read as
what it is, and only as long as it was not freed.
-/

namespace IrsMachine
open Except LinkedSegments Separation Assertion

/-! ### Blocks -/

structure NodeFields where
  (next offset : Option Nat)
  offsetSize : Nat
  dataList : Option Nat

structure DictionaryFields where
  root : Option Nat
  size : UInt8
  irsCharToIrsInt : UInt8 → UInt8

inductive Block where
  | node (fields : NodeFields)
  | pointers (next : List (Option Nat))
  | chars (buffer : Bytes)
  | string (irsString : Bytes)
  | list (list : IrsList)
  | dictionary (fields : DictionaryFields)

/-- The nodes of lists are kept apart from the other blocks. An address is given out once. -/
structure Memory (α : Type) where
  blocks : Nat → Option Block
  fresh : Nat
  unused : ∀ address, fresh ≤ address → blocks address = none
  nodes : Heap α

inductive Place where
  | block (address : Nat)
  | node (address : Nat)
  deriving DecidableEq

inductive Content (α : Type) where
  | block (block : Block)
  | node (node : IrsStructNode α)

variable {α β : Type}

def Memory.content (memory : Memory α) : Part Place (Content α)
  | .block address => (memory.blocks address).map .block
  | .node address => (memory.nodes.nodes address).map .node

instance : Places (Memory α) Place (Content α) := ⟨Memory.content⟩

abbrev MemoryM (α : Type) := StateT (Memory α) (Except Fault)

namespace Memory

/-- `irs_mem_new`, with what is put into the block. -/
def new (block : Block) : MemoryM α Nat := fun memory =>
  .ok (memory.fresh,
    { blocks := Function.update memory.blocks memory.fresh (some block)
      fresh := memory.fresh + 1
      unused := fun address beyond => by
        rw [Function.update_of_ne (by omega)]
        exact memory.unused address (by omega)
      nodes := memory.nodes })

def write (pointer : Option Nat) (block : Block) : MemoryM α Unit := fun memory =>
  match pointer with
  | none => .error .badPointer
  | some address =>
    match present : memory.blocks address with
    | none => .error .badPointer
    | some _ => .ok ((),
      { blocks := Function.update memory.blocks address (some block)
        fresh := memory.fresh
        unused := fun other beyond => by
          rw [Function.update_of_ne, memory.unused other beyond]
          rintro rfl
          rw [memory.unused other beyond] at present
          cases present
        nodes := memory.nodes })

def free (pointer : Option Nat) : MemoryM α Unit := fun memory =>
  match pointer with
  | none => .ok ((), memory)
  | some address =>
    match memory.blocks address with
    | none => .error .badPointer
    | some _ => .ok ((),
      { blocks := Function.update memory.blocks address none
        fresh := memory.fresh
        unused := fun other beyond => by
          by_cases same : other = address
          · rw [same, Function.update_self]
          · rw [Function.update_of_ne same, memory.unused other beyond]
        nodes := memory.nodes })

def readAs (view : Block → Option β) (pointer : Option Nat) : MemoryM α β := fun memory =>
  match (pointer.bind memory.blocks).bind view with
  | none => .error .badPointer
  | some value => .ok (value, memory)

def readNode (pointer : Option Nat) : MemoryM α NodeFields :=
  readAs (fun block => match block with | .node fields => some fields | _ => none) pointer

def readPointers (pointer : Option Nat) : MemoryM α (List (Option Nat)) :=
  readAs (fun block => match block with | .pointers next => some next | _ => none) pointer

def readChars (pointer : Option Nat) : MemoryM α Bytes :=
  readAs (fun block => match block with | .chars buffer => some buffer | _ => none) pointer

def readList (pointer : Option Nat) : MemoryM α IrsList :=
  readAs (fun block => match block with | .list list => some list | _ => none) pointer

def readDictionary (pointer : Option Nat) : MemoryM α DictionaryFields :=
  readAs (fun block => match block with | .dictionary fields => some fields | _ => none) pointer

def changeNode (pointer : Option Nat) (change : NodeFields → NodeFields) : MemoryM α Unit := do
  let fields ← readNode pointer
  write pointer (.node (change fields))

def onNodes (operation : Heap α → Except Fault (β × Heap α)) : MemoryM α β := fun memory => do
  let (result, nodes) ← operation memory.nodes
  .ok (result, { memory with nodes })

end Memory

abbrev blockAt (address : Nat) (block : Block) : Assertion Place (Content α) :=
  contains (.block address) (.block block)

/-! ### The steps on blocks -/

section
variable {γ γ' : Type} {address : Nat} {block block' : Block} {spec : Except Fault γ}
  {P : Assertion Place (Content α)}
  {R : γ → β → Assertion Place (Content α)}

theorem content_block {memory : Memory α}
    (here : content memory (.block address) = some (.block block)) :
    memory.blocks address = some block := by
  obtain ⟨_, here, same⟩ := Option.map_eq_some_iff.mp here
  cases same
  exact here

/-- A change of the blocks at one address. -/
theorem content_update {memory memory' : Memory α} {after : Option Block}
    {changed : Option (Content α)}
    (blocks : memory'.blocks = Function.update memory.blocks address after)
    (nodes : memory'.nodes = memory.nodes) (same : after.map .block = changed) :
    content memory' = Function.update (content memory) (.block address) changed := by
  funext place
  rw [← same]
  by_cases here : place = .block address
  · rw [here, Function.update_self]
    show (memory'.blocks address).map _ = _
    rw [blocks, Function.update_self]
  · rw [Function.update_of_ne here]
    cases place with
    | node other =>
      show (memory'.nodes.nodes other).map _ = _
      rw [nodes]
      rfl
    | block other =>
      show (memory'.blocks other).map _ = _
      rw [blocks, Function.update_of_ne (fun same => here (congrArg _ same))]
      rfl

theorem refines_new {next : Nat → MemoryM α β}
    (later : ∀ address, Refines (blockAt address block * P) spec (next address) R) :
    Refines P spec (Memory.new block >>= next) R := by
  refine Refines.create Place.block
    (fun memory => ⟨memory.fresh, _, rfl, ?_, content_update rfl rfl rfl⟩) later
  show (memory.blocks memory.fresh).map _ = none
  rw [memory.unused _ (le_refl _)]
  rfl

theorem refines_write {next : Unit → MemoryM α β}
    (later : Refines (blockAt address block' * P) spec (next ()) R) :
    Refines (blockAt address block * P) spec (Memory.write (some address) block' >>= next) R := by
  refine Refines.change (fun memory here => ?_) later
  have present := content_block here
  unfold Memory.write
  dsimp only
  split
  · rename_i absent
    rw [present] at absent
    cases absent
  · exact ⟨_, rfl, content_update rfl rfl rfl⟩

theorem refines_free {next : Unit → MemoryM α β} (later : Refines P spec (next ()) R) :
    Refines (blockAt address block * P) spec (Memory.free (some address) >>= next) R := by
  refine Refines.remove (fun memory here => ?_) later
  have present := content_block here
  unfold Memory.free
  dsimp only
  split
  · rename_i absent
    rw [present] at absent
    cases absent
  · exact ⟨_, rfl, content_update rfl rfl rfl⟩

theorem refines_readAs {δ : Type} {view : Block → Option δ} {value : δ} {next : δ → MemoryM α β}
    (seen : view block = some value)
    (later : Refines (blockAt address block * P) spec (next value) R) :
    Refines (blockAt address block * P) spec (Memory.readAs view (some address) >>= next) R := by
  refine Refines.change (fun memory here => ⟨memory, ?_, ?_⟩) later
  · have present := content_block here
    unfold Memory.readAs
    rw [Option.bind_some, present, Option.bind_some, seen]
  · rw [← here, Function.update_eq_self]

end

end IrsMachine
