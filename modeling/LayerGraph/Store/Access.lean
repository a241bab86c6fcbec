import LayerGraph.Store.Basic

/-!
# Access to values

A slot that its tensor has not written since another tensor used it reads as the tensor's initial
value. A written value has the shape of its entry.
-/

namespace LayerGraph

/-- A weight as it is handed to an update rule, which may change its value and its state. -/
structure WeightState (α : Type) where
  name : String
  value : Tensor α
  gradient : Tensor α
  state : List (Tensor α)

namespace Store

variable {α : Type} [Scalar α]

/-- What a slot holds for an entry: its last value, or its initial one. -/
def slotValue (held : Option (TensorRef × Tensor α)) (root : TensorRef) (e : TensorRecord α) :
    Tensor α :=
  match held with
  | some (owner, value) => if owner = root then value else e.initializer.fill root e.shape
  | none => e.initializer.fill root e.shape

protected def get (s : Store α) (id : TensorRef) : Except Error (Tensor α) := do
  let root ← s.root id
  let entry ← s.entry root
  if entry.role.isKept then
    match s.persistent.lookup root with
    | some value => return value
    | none => throw .notAllocated
  else
    match s.slotOf.lookup root with
    | some slot => return slotValue (s.slots.getD slot none) root entry
    | none => throw .notAllocated

/-- Replace the value under a key. -/
def hold (id : TensorRef) (value : Tensor α) (held : List (TensorRef × Tensor α)) :
    List (TensorRef × Tensor α) :=
  (id, value) :: held.filter (·.1 ≠ id)

protected def set (s : Store α) (id : TensorRef) (value : Tensor α) : Except Error (Store α) := do
  let root ← s.root id
  let entry ← s.entry root
  if value.shape ≠ entry.shape then
    throw (.shapeMismatch entry.name entry.shape value.shape)
  if entry.role.isKept then
    if s.hasWeights then
      return { s with persistent := hold root value s.persistent }
    else throw .notAllocated
  else
    match s.slotOf.lookup root with
    | some slot => return { s with slots := s.slots.set slot (some (root, value)) }
    | none => throw .notAllocated

def write (id : TensorRef) (value : Tensor α) : Action (Store α) Unit :=
  Action.update (·.set id value)

/-- The weight of this name; an unknown name is a misconfiguration. -/
def weightNamed (s : Store α) (name : String) : Except Error WeightRecord :=
  match s.findWeight? name with
  | some w => s.weight w
  | none => .error (.misconfigured (.unknownWeight name))

def valueNamed (s : Store α) (name : String) : Except Error (Tensor α) := do
  s.get (← s.weightNamed name).value

def gradientNamed (s : Store α) (name : String) : Except Error (Option (Tensor α)) := do
  match (← s.weightNamed name).gradient with
  | some id => return some (← s.get id)
  | none => return none

/-- Add a contribution made at `step` to the gradient of a weight. The first contribution of a pass
replaces what the buffer held. -/
def accumulate (w : WeightRef) (step : Nat) (contribution : Tensor α) :
    Action (Store α) Unit := do
  let weight ← Action.read (·.weight w)
  match weight.gradient with
  | none => return
  | some id =>
    if weight.gradientSteps.min? = some step then write id contribution
    else
      let sum ← Action.read fun s => do (← s.get id).add contribution
      write id sum

/-- Whether `step` is the last one that adds to the gradient of the weight. -/
def isLastGradientStep (s : Store α) (w : WeightRef) (step : Nat) : Except Error Bool := do
  return (← s.weight w).gradientSteps.max? = some step

/-- The weight, its gradient and its state, together with the handles to write back to. -/
def update? (s : Store α) (w : WeightRef) :
    Except Error (Option (WeightState α × TensorRef × List TensorRef)) := do
  let weight ← s.weight w
  match weight.gradient with
  | none => return none
  | some id =>
    let value ← s.get weight.value
    let gradient ← s.get id
    let state ← weight.optimizerState.mapM s.get
    return some (⟨weight.name, value, gradient, state⟩, weight.value, weight.optimizerState)

/-- Write an update back. State beyond what the weight has is dropped. -/
def writeBack (update : WeightState α) (value : TensorRef) (state : List TensorRef) :
    Action (Store α) Unit := do
  write value update.value
  (state.zip update.state).forM fun (id, tensor) => write id tensor

/-- Hand a weight with its gradient to an update rule, which has a state of its own, and store the
result. -/
def revise {τ : Type} (w : WeightRef)
    (rule : WeightState α → Action τ (WeightState α)) : Action (τ × Store α) Unit := do
  match ← Action.read fun s => s.2.update? w with
  | none => return
  | some (update, value, state) =>
    let updated ← Action.focus (·.1) (fun own s => (own, s.2)) (rule update)
    Action.focus (·.2) (fun store s => (s.1, store)) (writeBack updated value state)

end Store

end LayerGraph
