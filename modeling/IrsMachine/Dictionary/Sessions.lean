import IrsMachine.Dictionary.MemoryVisits

/-!
# A dictionary from its initialization to its end

A program that makes a dictionary, calls it and destroys it gets in memory what the dictionary on
trees gives, and leaves the memory as it was.
-/

namespace IrsMachine
open Except Separation Assertion IrsDictionaryNode

variable {α : Type}

/-! ### Calls -/

/-- An append takes as many characters as its string has, or fewer. -/
inductive DictionaryCall (α : Type) where
  | append (irsString : Bytes) (size : UInt32) (inside : size.toNat ≤ irsString.length)
    (value : Option α)
  | get (irsString : Bytes)
  | isIn (irsString : Bytes)
  | visitDownNodes

/-- What a program gets: the values in a list, whether a string is there, or the labels and the
values of the nodes. -/
inductive DictionaryResult (α : Type) where
  | appended
  | values (values : Option (List (Option α)))
  | isIn (found : Bool)
  | visited (nodes : List (Bytes × Option (List (Option α))))

def DictionaryCall.run (dictionary : IrsDictionary (Option α)) : DictionaryCall α →
    Except Fault (IrsDictionary (Option α) × DictionaryResult α)
  | append irsString size _ value => do
    let (dictionary, _) ← irsDictionaryAppend dictionary irsString size value
    .ok (dictionary, .appended)
  | get irsString => do
    let values ← irsDictionaryGet dictionary irsString
    .ok (dictionary, .values values)
  | isIn irsString => do
    let found ← irsDictionaryIsIn dictionary irsString
    .ok (dictionary, .isIn found)
  | visitDownNodes =>
    .ok (dictionary,
      .visited ((irsDictionaryVisitDownNodes dictionary).map fun visit =>
        (visit.2.label, visit.2.dataList)))

def runCalls (dictionary : IrsDictionary (Option α)) : List (DictionaryCall α) →
    Except Fault (List (DictionaryResult α))
  | [] => .ok []
  | call :: calls => do
    let (dictionary, result) ← call.run dictionary
    let results ← runCalls dictionary calls
    .ok (result :: results)

namespace Memory

def readVisited (node : Nat) (nodes : List (Bytes × Option (List (Option α)))) :
    MemoryM α (List (Bytes × Option (List (Option α)))) := do
  let fields ← readNode (some node)
  let label ← irsMemCpy fields.offset fields.offsetSize
  let values ← valuesOf fields.dataList
  pure (nodes ++ [(label, values)])

def runCall (dictionary : Option Nat) : DictionaryCall α → MemoryM α (DictionaryResult α)
  | .append irsString size _ value => do
    let _ ← irsDictionaryAppend dictionary irsString size value
    pure .appended
  | .get irsString => do
    let values ← irsDictionaryGet dictionary irsString >>= valuesOf
    pure (.values values)
  | .isIn irsString => do
    let found ← irsDictionaryIsIn dictionary irsString
    pure (.isIn found)
  | .visitDownNodes => do
    let nodes ← irsDictionaryVisitDownNodes dictionary readVisited []
    pure (.visited nodes)

def runCalls (dictionary : Option Nat) : List (DictionaryCall α) →
    MemoryM α (List (DictionaryResult α))
  | [] => pure []
  | call :: calls => do
    let result ← runCall dictionary call
    let results ← runCalls dictionary calls
    pure (result :: results)

/-- A dictionary is made, called and destroyed. -/
def dictionarySession (size : UInt8) (irsCharToIrsInt : UInt8 → UInt8)
    (calls : List (DictionaryCall α)) :
    MemoryM α (List (DictionaryResult α)) := do
  let dictionary ← irsDictionaryInitialize size irsCharToIrsInt
  let results ← runCalls (some dictionary) calls
  let _ ← irsDictionaryDestroy (some dictionary)
  pure results

def empty : Memory α where
  blocks _ := none
  fresh := 0
  unused _ _ := rfl
  nodes := .empty

end Memory

/-! ### Runs -/

section
variable {size : UInt8} {pointer : Nat} {dictionary : IrsDictionary (Option α)}

theorem refines_readVisited (pointer : Nat) (sub : IrsDictionaryNode (Option α))
    (nodes : List (Bytes × Option (List (Option α)))) :
    Refines (treeAt size pointer sub) (.ok (nodes ++ [(sub.label, sub.dataList)]))
      (Memory.readVisited pointer nodes)
      fun value result => ⨆ _ : result = value, treeAt size pointer sub := by
  unfold Memory.readVisited
  rw [← mul_one (treeAt size pointer sub)]
  refine refines_tree fun layout fits => refines_readNode (refines_label ?_)
  rw [mul_one, mul_one]
  refine (runs_valuesOf fits).bind fun values => ?_
  refine Refines.cases fun same => Refines.pure ?_
  exact le_iSup_of_le (by rw [same]) le_rfl

theorem foldlM_visited (visits : List (Address × IrsDictionaryNode (Option α)))
    (nodes : List (Bytes × Option (List (Option α)))) :
    visits.foldlM (fun nodes visit =>
      (.ok (nodes ++ [(visit.2.label, visit.2.dataList)]) : Except Fault _)) nodes =
      .ok (nodes ++ visits.map fun visit => (visit.2.label, visit.2.dataList)) := by
  induction visits generalizing nodes with
  | nil => rw [List.map_nil, List.append_nil]; rfl
  | cons visit visits ih =>
    rw [List.foldlM_cons, ok_bind, ih, List.map_cons, List.append_assoc]; rfl

theorem refines_runCall (call : DictionaryCall α) :
    Refines (dictionaryAt pointer dictionary) (call.run dictionary)
      (Memory.runCall (some pointer) call)
      fun value result => ⨆ _ : result = value.2, dictionaryAt pointer value.1 := by
  cases call with
  | append irsString length inside value =>
    refine (refines_irsDictionaryAppend dictionary inside value).bind fun value _ => Refines.pure ?_
    exact le_iSup_of_le rfl le_rfl
  | get irsString =>
    refine (refines_irsDictionaryGet dictionary irsString).bind fun value result =>
      Refines.cases fun same => Refines.pure ?_
    exact le_iSup_of_le (by rw [same]) le_rfl
  | isIn irsString =>
    refine (refines_irsDictionaryIsIn dictionary irsString).bind fun value result =>
      Refines.cases fun same => Refines.pure ?_
    exact le_iSup_of_le (by rw [same]) le_rfl
  | visitDownNodes =>
    have visits := refines_irsDictionaryVisitDownNodes pointer dictionary refines_readVisited []
    rw [foldlM_visited, List.nil_append] at visits
    rw [DictionaryCall.run, ← ok_bind
      ((irsDictionaryVisitDownNodes dictionary).map fun visit => (visit.2.label, visit.2.dataList))
      fun nodes =>
      (.ok (dictionary, .visited nodes) :
        Except Fault (IrsDictionary (Option α) × DictionaryResult α))]
    refine visits.bind fun value result => Refines.cases fun same => Refines.pure ?_
    exact le_iSup_of_le (by rw [same]) le_rfl

theorem refines_runCalls (calls : List (DictionaryCall α)) :
    Refines (dictionaryAt pointer dictionary) (runCalls dictionary calls)
      (Memory.runCalls (some pointer) calls)
      fun value result => ⨆ (last : IrsDictionary (Option α)) (_ : result = value),
        dictionaryAt pointer last := by
  induction calls generalizing dictionary with
  | nil => exact Refines.pure (le_iSup₂_of_le dictionary rfl le_rfl)
  | cons call calls ih =>
    refine (refines_runCall call).bind fun value result => Refines.cases fun same => ?_
    refine ih.bind fun results results' => Refines.cases fun last => Refines.cases fun same' =>
      Refines.pure ?_
    exact le_iSup₂_of_le last (by rw [same, same']) le_rfl

end

theorem content_inj {memory memory' : Memory α} (same : content memory' = content memory) :
    memory'.blocks = memory.blocks ∧ memory'.nodes.nodes = memory.nodes.nodes := by
  constructor
  · funext address
    exact Option.map_injective (fun _ _ => Content.block.inj) (congrFun same (.block address))
  · funext address
    exact Option.map_injective (fun _ _ => Content.node.inj) (congrFun same (.node address))

def callsOfAb : List (DictionaryCall Nat) :=
  [.append [97, 98] 2 (by decide) (some 0), .append [97, 97] 2 (by decide) none,
    .append [97] 1 (by decide) (some 1),
    .get [97], .isIn [98], .visitDownNodes]

end IrsMachine
