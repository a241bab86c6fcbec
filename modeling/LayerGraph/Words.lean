import LayerGraph.Network.Compile
import LayerGraph.Network.Memory

/-!
# Machine words

Slots and elements are counted in machine words. Where overflow is checked, a sum or a product that
is no word stops the program; where it is not, the rest by `2 ^ 64` takes its place. A list of slots
has room for no more of them than a list can hold, and the program stops where one is asked to hold
more. Preparing a network and changing its batch count nothing. That memory runs out is left out.
-/

namespace LayerGraph

variable {α : Type}

/-- Machine words are below this bound. -/
def wordBound : Nat := Connection.indexBound

/-- What a sum or a product that is no word does: it stops the program, or its rest takes its
place. -/
inductive Overflow where
  | stops
  | wraps
deriving DecidableEq

namespace Overflow

def word (o : Overflow) (k : Nat) : Except Error Nat :=
  if k < wordBound then .ok k
  else
    match o with
    | .stops => .error (.overflow k)
    | .wraps => .ok (k % wordBound)

def add (o : Overflow) (x y : Except Error Nat) : Except Error Nat := do o.word ((← x) + (← y))

/-- The sum of counts, each of which is counted in words itself. -/
def sum (o : Overflow) (ks : List Nat) : Except Error Nat :=
  ks.foldl (fun total k => o.add total (o.word k)) (.ok 0)

end Overflow

namespace Lowering

/-- The most slots that a list can hold: a slot takes 24 bytes, and a list no more than
`2 ^ 63 - 1`. -/
def slotLimit : Nat := (Nat.pow 2 63 - 1) / 24

/-- The room for a node's slots once `slot` is read, which is grown if it ends before that. -/
def roomWith (o : Overflow) (room slot : Nat) : Except Error Nat := do
  if slot < room then return room
  let grown ← o.word (slot + 1)
  if slotLimit < grown then .error (.overflow grown)
  -- the rest of a sum that is no word is room for no slot
  else if grown ≤ slot then .error (.overflow slot)
  else return grown

/-- Make room for the slots that connections read, up to a name that no node has. -/
def makeRoom (o : Overflow) (nodes : List (Node α)) :
    List Connection → (rooms : List Nat) → Except Error Unit
  | [], _ => .ok ()
  | conn :: conns, rooms =>
    match resolve? nodes conn.name with
    | none => .ok ()
    | some producer => do
      let room ← roomWith o (rooms[producer]?.getD 0) conn.index
      makeRoom o nodes conns (rooms.set producer room)

/-- Make room for the slots that nodes read of each other. -/
def roomFor (o : Overflow) (nodes : List (Node α)) : Except Error Unit :=
  makeRoom o nodes (connections nodes) (List.replicate nodes.length 0)

variable [Zero α]

/-- The passes before readers are found. -/
def explicit (loss : Option String) (rules : List FusionRule) : Action (List (Node α)) Unit := do
  modify renameReserved
  modify wireDefaults
  modify splitActivations
  Action.update (addLoss loss)
  fuse rules

/-- Make all the room that lowering asks for: where readers are found, and where they are found anew
behind the fan-out nodes. A pass that fails is the last to ask. -/
def roomInLowering (o : Overflow) (loss : Option String) (rules : List FusionRule)
    (nodes : List (Node α)) : Except Error Unit :=
  match explicit loss rules nodes with
  | .error _ _ => .ok ()
  | .ok _ nodes => do
    roomFor o nodes
    match setOutputs nodes with
    | .error _ => return
    | .ok nodes => if (insertFanOut nodes).length ≠ nodes.length then roomFor o (insertFanOut nodes)

end Lowering

namespace Store

def keptInWords (o : Overflow) (s : Store α) : Except Error Nat :=
  o.sum ((s.entries.filter isKeptRoot).map (·.shape.size))

/-- What weights and optimizer state hold, if they are filled. -/
def filledInWords (o : Overflow) (s : Store α) : Except Error Nat :=
  if s.hasWeights then s.keptInWords o else .ok 0

/-- The elements that the current plan reserves. -/
def slotsInWords (o : Overflow) (s : Store α) : Except Error Nat := o.sum s.plan.capacities

def requestsInWords (o : Overflow) (s : Store α) (mode : RunMode) :
    Except Error (List (TensorRef × SlotRequest)) :=
  (s.planRequests mode).mapM fun r => do return (r.1, { r.2 with size := ← o.word r.2.size })

def fillWeightsInWords [Scalar α] (o : Overflow) (maxStep : Nat) : Action (Store α) Unit :=
  Action.update fun s => do
    if s.hasWeights then return s
    s.checkBudget (← o.add (s.keptInWords o) (s.slotsInWords o))
    return s.filled maxStep

def allocateInWords (o : Overflow) (mode : RunMode) : Action (Store α) Unit := do
  if (← get).mode = some mode then
    return
  modify fun s => if s.hasTensors then s.releaseTensors else s
  Action.update fun s => do
    let requests ← s.requestsInWords o mode
    let plan := SlotPlan.plan (requests.map (·.2)) s.optimize
    s.checkBudget (← o.add (s.filledInWords o) (o.sum plan.capacities))
    return s.allotted mode requests plan

end Store

namespace Network

def compileInWords [Zero α] (o : Overflow) (loss : Option String) : Action (Network α) Unit := do
  Action.read fun n =>
    if n.isCompiled || n.graph.isEmpty then .ok ()
    else Lowering.roomInLowering o loss n.fusionRules n.graph.nodes
  compile loss

def fillWeightsInWords [Scalar α] (o : Overflow) : Action (Network α) Unit := do
  if !(← get).isPrepared then throw .notPrepared
  onStore (Store.fillWeightsInWords o (← get).store.maxStep)

def allocateInWords (o : Overflow) (mode : RunMode) : Action (Network α) Unit := do
  if !(← get).isPrepared then throw .notPrepared
  onStore (Store.allocateInWords o mode)
  modify fun n => { n with mode := mode }

end Network

end LayerGraph
