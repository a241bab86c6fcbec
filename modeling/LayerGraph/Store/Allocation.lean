import LayerGraph.Store.Basic

/-!
# Allocation

Weights and optimizer state are filled at once and stay until they are released. The other tensors
get a slot each for the windows in which a mode uses them; without a backward pass the steps that
belong to it do not count.
-/

namespace LayerGraph

variable {α : Type}

namespace Store

/-- The batch axis of every batched tensor is set to `batch`. -/
def rebatch (batch : Nat) : Action (Store α) Unit :=
  Action.update fun s =>
    if s.hasTensors then .error (.resource .batchWhileAllocated)
    else .ok { s with
      entries := s.entries.map fun e =>
        if e.batched then { e with shape := e.shape.rebatch batch } else e }

def checkBudget (s : Store α) (elements : Nat) : Except Error Unit :=
  match s.memoryLimit with
  | some limit =>
    if limit < elements then .error (.resource (.overLimit elements limit)) else .ok ()
  | none => .ok ()

def isKeptRoot (e : TensorRecord α) : Bool := e.source.isNone && e.role.isKept

end Store

/-- An entry that stays in use up to the last step, if it is kept. -/
def TensorRecord.lasting (maxStep : Nat) (e : TensorRecord α) : TensorRecord α :=
  if Store.isKeptRoot e && !e.steps.contains maxStep then { e with steps := e.steps ++ [maxStep] }
  else e

namespace Store

/-- A store whose weights and optimizer state have their initial values. -/
def filled [Scalar α] (maxStep : Nat) (s : Store α) : Store α :=
  { s with
    persistent := s.entries.zipIdx.filterMap fun (e, id) =>
      if isKeptRoot e then some (id, e.initializer.fill id e.shape) else none
    entries := s.entries.map (·.lasting maxStep)
    hasWeights := true }

/-- Fill weights and optimizer state, which are in use up to `maxStep`. -/
def fillWeights [Scalar α] (maxStep : Nat) : Action (Store α) Unit :=
  Action.update fun s => do
    if s.hasWeights then return s
    s.checkBudget (s.keptElements + s.slotElements)
    return s.filled maxStep

def releaseWeights (s : Store α) : Store α :=
  { s with persistent := [], hasWeights := false }

def releaseTensors (s : Store α) : Store α :=
  { s with slots := [], slotOf := [], plan := .empty, mode := none }

/-- The steps of use that a mode runs. -/
def usedSteps (s : Store α) (mode : RunMode) (e : TensorRecord α) : List Nat :=
  match mode with
  | .train => e.steps
  | .inference => e.steps.filter (· < s.forwardSteps)

/-- The request of an entry for a slot; it has none if its buffer is elsewhere or never used. -/
def planRequest? (s : Store α) (mode : RunMode) (e : TensorRecord α) : Option SlotRequest :=
  if e.source.isSome || e.role.isKept then none
  else
    match (s.usedSteps mode e).min?, (s.usedSteps mode e).max? with
    | some first, some last =>
      some ⟨first, last, e.shape.size, e.role = .external ∨ e.lifetime = .run⟩
    | _, _ => none

def planRequests (s : Store α) (mode : RunMode) : List (TensorRef × SlotRequest) :=
  s.entries.zipIdx.filterMap fun (e, id) => (s.planRequest? mode e).map (id, ·)

/-- A store in which requests for a mode have the slots of a plan, all of them empty. -/
def allotted (mode : RunMode) (requests : List (TensorRef × SlotRequest)) (plan : SlotPlan)
    (s : Store α) : Store α :=
  { s with
    slots := List.replicate plan.slotCount none
    slotOf := (requests.map (·.1)).zip plan.slotOf
    plan := plan
    mode := some mode }

/-- Give every tensor that `mode` uses a slot. Slots of the other mode are released first. -/
def allocate (mode : RunMode) : Action (Store α) Unit := do
  if (← get).mode = some mode then
    return
  modify fun s => if s.hasTensors then s.releaseTensors else s
  Action.update fun s => do
    let requests := s.planRequests mode
    let plan := SlotPlan.plan (requests.map (·.2)) s.optimize
    let persistent := if s.hasWeights then s.keptElements else 0
    s.checkBudget (plan.elements + persistent)
    return s.allotted mode requests plan

end Store

end LayerGraph
