import LayerGraph.Store.Basic

/-!
# Requests

While a network is prepared its nodes register the tensors they use, each with the steps of use.
Names are unique in the table of tensors.
-/

namespace LayerGraph.Store

variable {α : Type}

def push (entry : TensorRecord α) : Action (Store α) TensorRef := fun s =>
  if s.entries.any (·.name == entry.name) then
    .error (.misconfigured (.requestedTwice entry.name)) s
  else .ok s.entries.length { s with entries := s.entries ++ [entry] }

/-- The buffer behind the tensor is also used at these steps. -/
def addSteps (id : TensorRef) (steps : List Nat) : Action (Store α) Unit :=
  Action.update fun s => do
    let root ← s.root id
    return { s with
      entries := s.entries.modify root fun e => { e with steps := e.steps ++ steps } }

/-- A tensor used at the given steps; one that is fed from outside or lives for the whole run is
used from the first step to the last. -/
def request (name : String) (shape : Shape) (initializer : Initializer α) (lifetime : Lifetime)
    (role : Role) (steps : List Nat) : Action (Store α) TensorRef := do
  let maxStep := (← get).maxStep
  push {
    name := name
    shape := shape
    batched := true
    initializer := initializer
    lifetime := lifetime
    role := role
    steps := if role = .external ∨ lifetime = .run then [0, maxStep] else steps
    source := none }

/-- A tensor that shares the buffer of `source`, whose window grows by the given steps. -/
def requestShared (source : TensorRef) (name : String) (steps : List Nat) :
    Action (Store α) TensorRef := do
  let root ← Action.read (·.root source)
  let entry ← Action.read (·.entry root)
  let id ← push { entry with name := name, steps := [], source := some root }
  addSteps id steps
  return id

/-- The weight of this name, which is registered if it is new. A weight is trainable as soon as one
of its users trains it. -/
def joinWeight (name : String) (shape : Shape) (initializer : Initializer α) (trainable : Bool) :
    Action (Store α) WeightRef := do
  match (← get).findWeight? name with
  | some w =>
    let weight ← Action.read (·.weight w)
    let existing ← Action.read (·.entry weight.value)
    if existing.shape ≠ shape then
      throw (.shapeMismatch name existing.shape shape)
    modify fun s => { s with
      weights := s.weights.modify w fun e => { e with trainable := e.trainable || trainable } }
    return w
  | none =>
    let value ← push {
      name := name
      shape := shape
      batched := false
      initializer := initializer
      lifetime := .run
      role := .weight
      steps := []
      source := none }
    modifyGet fun s => (s.weights.length, { s with
      weights := s.weights ++ [⟨name, value, none, trainable, [], []⟩] })

/-- The buffer that collects the gradient of a weight. -/
def gradientOf (w : WeightRef) (name : String) (shape : Shape) : Action (Store α) TensorRef := do
  let weight ← Action.read (·.weight w)
  match weight.gradient with
  | some gradient => return gradient
  | none =>
    let gradient ← push {
      name := name ++ ":grad"
      shape := shape
      batched := false
      initializer := .zeros
      lifetime := .backward
      role := .gradient
      steps := []
      source := none }
    modify fun s => { s with
      weights := s.weights.modify w fun e => { e with gradient := some gradient } }
    return gradient

/-- A weight used by a node at its forward step, and at its gradient step if it adds to the
gradient. The gradient is applied one step later at the latest. -/
def useWeight (name : String) (shape : Shape) (initializer : Initializer α) (trainable : Bool)
    (forwardStep : Nat) (gradientStep : Option Nat) : Action (Store α) WeightRef := do
  let w ← joinWeight name shape initializer trainable
  let weight ← Action.read (·.weight w)
  modify fun s => { s with
    entries := s.entries.modify weight.value fun e =>
      { e with steps := e.steps ++ [forwardStep] } }
  match gradientStep with
  | some step =>
    if weight.trainable then
      let gradient ← gradientOf w name shape
      modify fun s => { s with
        entries := s.entries.modify gradient fun e =>
          { e with steps := e.steps ++ [step, step + 1] }
        weights := s.weights.modify w fun e =>
          { e with gradientSteps := e.gradientSteps ++ [step] } }
  | none => pure ()
  return w

def pushState (w : WeightRef) (name : String) (shape : Shape) : Action (Store α) Unit := do
  let maxStep := (← get).maxStep
  let id ← push {
    name := name
    shape := shape
    batched := false
    initializer := .zeros
    lifetime := .run
    role := .optimizerState
    steps := [0, maxStep]
    source := none }
  modify fun s => { s with
    weights := s.weights.modify w fun e => { e with optimizerState := e.optimizerState ++ [id] } }

/-- Zero-filled optimizer state, of the shapes `shapes` gives for the weight's own shape, for every
trainable weight that has none yet. -/
def requestStates (shapes : Shape → List Shape) : Action (Store α) Unit := do
  (List.range (← get).weights.length).forM fun w => do
    let weight ← Action.read (·.weight w)
    if weight.trainable && weight.optimizerState.isEmpty then
      let entry ← Action.read (·.entry weight.value)
      (shapes entry.shape).zipIdx.forM fun (shape, i) =>
        pushState w (weight.name ++ ":opt" ++ toString i) shape

/-- Some trainable weight has less optimizer state than `shapes` asks for. -/
def lacksState (s : Store α) (shapes : Shape → List Shape) : Except Error Bool :=
  (s.weights.filter (·.trainable)).anyM fun weight => do
    return weight.optimizerState.length < (shapes (← s.entry weight.value).shape).length

end LayerGraph.Store
