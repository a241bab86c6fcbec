import LayerGraph.Initializer
import LayerGraph.Action
import LayerGraph.SlotPlan
import LayerGraph.Timeline

/-!
# The store of tensors

Nodes own no buffers. They hold handles to the entries of a store, and the store decides what backs
an entry: a persistent value for weights and optimizer state, a slot of the current plan for the
others, and the buffer of its source for an alias.
-/

namespace LayerGraph

/-- A position in the store's table of tensors. -/
abbrev TensorRef := Nat

/-- A position in the store's table of weights. -/
abbrev WeightRef := Nat

inductive Role where
  | weight
  | gradient
  | variable
  | derivative
  | temporary
  /-- Fed from outside. -/
  | external
  | optimizerState
deriving DecidableEq

def Role.isKept : Role → Bool
  | .weight | .optimizerState => true
  | _ => false

structure TensorRecord (α : Type) where
  name : String
  shape : Shape
  /-- Whether the first axis is the batch. -/
  batched : Bool
  initializer : Initializer α
  lifetime : Lifetime
  role : Role
  /-- The steps of use; those of an alias are kept with its source. -/
  steps : List Nat
  source : Option TensorRef
deriving DecidableEq

structure WeightRecord where
  name : String
  value : TensorRef
  gradient : Option TensorRef
  trainable : Bool
  /-- The steps at which nodes add to the gradient. -/
  gradientSteps : List Nat
  optimizerState : List TensorRef
deriving DecidableEq

structure Store (α : Type) where
  entries : List (TensorRecord α)
  weights : List WeightRecord
  /-- The values of weights and optimizer state. -/
  persistent : List (TensorRef × Tensor α)
  /-- What each slot of the plan holds, and whose value it is. -/
  slots : List (Option (TensorRef × Tensor α))
  slotOf : List (TensorRef × Nat)
  plan : SlotPlan
  /-- Steps below this one belong to the forward pass. -/
  forwardSteps : Nat
  /-- The last step of an iteration. -/
  maxStep : Nat
  optimize : Bool
  memoryLimit : Option Nat
  /-- The mode for which tensors are allocated. -/
  mode : Option RunMode
  hasWeights : Bool

namespace Store

variable {α : Type}

def empty (optimize : Bool) (memoryLimit : Option Nat) : Store α where
  entries := []
  weights := []
  persistent := []
  slots := []
  slotOf := []
  plan := .empty
  forwardSteps := 0
  maxStep := 0
  optimize := optimize
  memoryLimit := memoryLimit
  mode := none
  hasWeights := false

/-- Drop every request and every buffer. -/
def reset (s : Store α) : Store α :=
  { s with
    entries := [], weights := [], persistent := [], slots := [], slotOf := []
    plan := .empty, mode := none, hasWeights := false }

def setBounds (s : Store α) (forwardSteps maxStep : Nat) : Store α :=
  { s with forwardSteps := forwardSteps, maxStep := maxStep }

def entry (s : Store α) (id : TensorRef) : Except Error (TensorRecord α) :=
  match s.entries[id]? with
  | some entry => .ok entry
  | none => .error (.staleHandle id)

def weight (s : Store α) (w : WeightRef) : Except Error WeightRecord :=
  match s.weights[w]? with
  | some weight => .ok weight
  | none => .error (.staleHandle w)

/-- The entry whose buffer backs the tensor. -/
def root (s : Store α) (id : TensorRef) : Except Error TensorRef := do
  return (← s.entry id).source.getD id

def rootEntry (s : Store α) (id : TensorRef) : Except Error (TensorRecord α) := do
  s.entry (← s.root id)

def findTensor? (s : Store α) (name : String) : Option TensorRef :=
  s.entries.findIdx? (·.name == name)

def findWeight? (s : Store α) (name : String) : Option WeightRef :=
  s.weights.findIdx? (·.name == name)

def shape (s : Store α) (id : TensorRef) : Except Error Shape := do
  return (← s.rootEntry id).shape

/-- The first and the last step at which the buffer is used, over all its aliases. -/
def window (s : Store α) (id : TensorRef) : Except Error (Option (Nat × Nat)) := do
  let steps := (← s.rootEntry id).steps
  return match steps.min?, steps.max? with
    | some first, some last => some (first, last)
    | _, _ => none

def sameBuffer (s : Store α) (a b : TensorRef) : Except Error Bool := do
  return (← s.root a) = (← s.root b)

def sameSlot (s : Store α) (a b : TensorRef) : Except Error Bool := do
  match s.slotOf.lookup (← s.root a), s.slotOf.lookup (← s.root b) with
  | some i, some j => return i = j
  | _, _ => return false

def hasTensors (s : Store α) : Bool := s.mode.isSome

def slotCount (s : Store α) : Nat := s.plan.slotCount

/-- The elements the current plan reserves. -/
def slotElements (s : Store α) : Nat := s.plan.elements

/-- The elements of all weights and optimizer state. -/
def keptElements (s : Store α) : Nat :=
  (s.entries.filter fun e => e.source.isNone && e.role.isKept).foldr (·.shape.size + ·) 0

/-- Whether gradients are collected for the weight. -/
def trains (s : Store α) (w : WeightRef) : Except Error Bool := do
  let weight ← s.weight w
  return weight.trainable && weight.gradient.isSome

end Store

end LayerGraph
