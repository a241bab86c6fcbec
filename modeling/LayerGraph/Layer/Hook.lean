import LayerGraph.Store.Access

/-!
# Hooks

While a network runs, a layer's hooks read and write the buffers of their node by position: inputs
and outputs with their derivatives, weights, scratch tensors and the label. A hook may also leave
notes, which the network keeps for its caller.
-/

namespace LayerGraph

/-- A variable, and its derivative where the backward pass needs it. -/
structure Wire where
  value : TensorRef
  derivative : Option TensorRef
deriving DecidableEq

/-- The handles to everything a node reads or writes. -/
structure Handles where
  inputs : List Wire
  outputs : List Wire
  weights : List WeightRef
  tensors : List TensorRef
  label : Option TensorRef
deriving DecidableEq

def Handles.empty : Handles := ⟨[], [], [], [], none⟩

inductive Note (α : Type) where
  | text (value : String)
  | count (value : Nat)
  | flag (value : Bool)
  | tensor (value : Tensor α)

/-- The node that a hook runs for. -/
structure NodeView where
  name : String
  handles : Handles
  schedule : Schedule

structure HookState (α : Type) where
  store : Store α
  loss : α
  notes : List (Note α)

abbrev Hook (α β : Type) := ReaderT NodeView (Action (HookState α)) β

namespace Hook

variable {α β : Type}

def fail (fault : LayerFault) : Hook α β := do throw (.layer (← read).name fault)

def ofStore (p : Action (Store α) β) : Hook α β := fun _ =>
  Action.focus (·.store) (fun store s => { s with store := store }) p

def readStore (f : Store α → Except Error β) : Hook α β := ofStore (Action.read f)

/-- The element of one of the node's lists at a position. -/
def handle {γ : Type} (list : Handles → List γ) (what : Operand) (i : Nat) : Hook α γ := do
  match (list (← read).handles)[i]? with
  | some handle => return handle
  | none => fail (.missing what i)

def inputCount : Hook α Nat := do return (← read).handles.inputs.length

def outputCount : Hook α Nat := do return (← read).handles.outputs.length

/-- Whether the producer of input `i` takes its derivative. -/
def wantsDerivative (i : Nat) : Hook α Bool := do
  return ((← read).handles.inputs[i]?.bind (·.derivative)).isSome

def trainsWeight (i : Nat) : Hook α Bool := do
  match (← read).handles.weights[i]? with
  | some w => readStore (·.trains w)
  | none => return false

def note (n : Note α) : Hook α Unit := fun _ =>
  modify fun s => { s with notes := s.notes ++ [n] }

def recordLoss (loss : α) : Hook α Unit := fun _ => modify fun s => { s with loss := loss }

variable [Scalar α]

def input (i : Nat) : Hook α (Tensor α) := do
  let slot ← handle (·.inputs) .input i
  readStore (·.get slot.value)

def output (i : Nat) : Hook α (Tensor α) := do
  let slot ← handle (·.outputs) .output i
  readStore (·.get slot.value)

def writeOutput (i : Nat) (value : Tensor α) : Hook α Unit := do
  let slot ← handle (·.outputs) .output i
  ofStore (Store.write slot.value value)

/-- The derivative with respect to output `i`, which is zero if nobody passes one back. -/
def outputDerivative (i : Nat) : Hook α (Tensor α) := do
  let slot ← handle (·.outputs) .output i
  match slot.derivative with
  | some grad => readStore (·.get grad)
  | none => return .zeros (← readStore (·.shape slot.value))

/-- Store the derivative with respect to input `i`. It is dropped if the producer takes no part in
the backward pass. -/
def writeInputDerivative (i : Nat) (value : Tensor α) : Hook α Unit := do
  match (← handle (·.inputs) .input i).derivative with
  | some grad => ofStore (Store.write grad value)
  | none => return

def weight (i : Nat) : Hook α (Tensor α) := do
  let w ← handle (·.weights) .weight i
  readStore fun s => do s.get (← s.weight w).value

/-- Add to the gradient of weight `i`. -/
def addGradient (i : Nat) (value : Tensor α) : Hook α Unit := do
  let w ← handle (·.weights) .weight i
  match (← read).schedule.gradientStep with
  | some step => ofStore (Store.accumulate w step value)
  | none => return

def scratch (i : Nat) : Hook α (Tensor α) := do
  let id ← handle (·.tensors) .tensor i
  readStore (·.get id)

def writeScratch (i : Nat) (value : Tensor α) : Hook α Unit := do
  let id ← handle (·.tensors) .tensor i
  ofStore (Store.write id value)

def label : Hook α (Tensor α) := do
  match (← read).handles.label with
  | some id => readStore (·.get id)
  | none => fail .noLabel

end Hook

end LayerGraph
