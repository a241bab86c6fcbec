import LayerGraph.Shape

/-!
# Causes of failure

An error names its cause; the wording is in one place, `Error.message`. Misconfigurations are found
while a graph is put together, structural errors while it is ordered, resource errors when buffers
are asked for.
-/

namespace LayerGraph

/-- Which kind of node a name was expected to select. -/
inductive Selection where
  | input
  | loss
deriving DecidableEq

def Selection.name : Selection → String
  | .input => "input"
  | .loss => "loss"

inductive Misconfiguration where
  | invalidConnection (text : String)
  | emptyName
  | requestedTwice (tensor : String)
  | fragmentNameUsed (fragment : String)
  | nothingToExtend
  | unknownNode (name : String)
  | addedAfter (first last : String)
  | noInputLayer
  | noOutputLayer
  | alreadyPrepared
  | notSelectable (name : String) (what : Selection)
  | unknownOwner (node owner : String)
  | emptyBatch
  | inputCount (expected actual : Nat)
  | labelCount (expected actual : Nat)
  | forwardMode
  | backwardMode
  | unknownWeight (name : String)
  | operandCount (node : String) (expected actual : Nat)
  | emptyInput (node : String)
  | emptyUnit (node : String)
  | noOperand (node : String)
  | unfusedKind (node : String)
  | unfusedLoss (node : String)
  | unknownLoss (kind : String)
  | secondLoss (kind existing : String)
  | terminalCount (kind : String) (found : Nat)
  | noFeature
  | rowWidth (expected actual : Nat)
  | sampleCount (inputs targets : Nat)
  | trainingInputs
  /-- A cause of a custom layer or of a caller's own step. -/
  | other (message : String)
deriving DecidableEq

/-- A connection text is echoed as it stands between single quotes. -/
def Misconfiguration.message : Misconfiguration → String
  | .invalidConnection text => "invalid connection '" ++ text ++ "'"
  | .emptyName => "node name must not be empty"
  | .requestedTwice tensor => s!"tensor {tensor} requested twice"
  | .fragmentNameUsed fragment => "prefix " ++ fragment ++ " is already used"
  | .nothingToExtend => "cannot extend an empty graph"
  | .unknownNode name => s!"unknown node {name}"
  | .addedAfter first last => s!"{first} is added after {last}"
  | .noInputLayer => "graph has no input layer"
  | .noOutputLayer => "graph has no output layer"
  | .alreadyPrepared => "graph is already initialized"
  | .notSelectable name what => s!"{name} is not a {what.name} node"
  | .unknownOwner node owner => s!"{node} shares weights with unknown node {owner}"
  | .emptyBatch => "batch size must be positive"
  | .inputCount expected actual => s!"expected {expected} inputs, got {actual}"
  | .labelCount expected actual => s!"expected {expected} labels, got {actual}"
  | .forwardMode => "training needs tensors allocated for training"
  | .backwardMode => "backwarding needs tensors allocated for training"
  | .unknownWeight name => s!"unknown weight {name}"
  | .operandCount node expected actual => s!"{node} expects {expected} input(s), got {actual}"
  | .emptyInput node => s!"{node}: input_shape must be positive"
  | .emptyUnit node => s!"{node}: unit must be positive"
  | .noOperand node => s!"{node} needs at least one input"
  | .unfusedKind node =>
    s!"{node}: cross entropy needs a softmax or sigmoid activation to fuse with"
  | .unfusedLoss node =>
    s!"{node}: cross entropy needs a softmax or sigmoid activation in front of it"
  | .unknownLoss kind => s!"unknown loss type {kind}"
  | .secondLoss kind existing => s!"loss {kind} given but {existing} is already a loss layer"
  | .terminalCount kind found =>
    s!"loss {kind} needs exactly one output node, found {found}"
  | .noFeature => "model needs at least one feature"
  | .rowWidth expected actual => s!"expected rows of {expected} values, got {actual}"
  | .sampleCount inputs targets =>
    s!"need matching non-empty inputs and targets, got {inputs} and {targets}"
  | .trainingInputs => "training needs exactly one input node"
  | .other message => message

/-- How a sorted order can fail the check that follows the sort. -/
inductive OrderFault where
  | incomplete
  | beforeInput (node producer : String)
  | firstNotInput
deriving DecidableEq

def OrderFault.message : OrderFault → String
  | .incomplete => "sorted order does not cover every node"
  | .beforeInput node producer => s!"{node} runs before its input {producer}"
  | .firstNotInput => "first node is not an input"

inductive ResourceFault where
  | overLimit (elements limit : Nat)
  | batchWhileAllocated
  | stateAfterWeights
  | missingState
deriving DecidableEq

def ResourceFault.message : ResourceFault → String
  | .overLimit elements limit =>
    s!"allocation of {elements} elements exceeds limit of {limit}"
  | .batchWhileAllocated => "cannot change batch size while tensors are allocated"
  | .stateAfterWeights => "optimizer variables must be requested before weights are allocated"
  | .missingState => "weights were allocated without the optimizer state momentum needs"

/-- What a hook can ask for by position. -/
inductive Operand where
  | input
  | output
  | weight
  | tensor
deriving DecidableEq

def Operand.name : Operand → String
  | .input => "input"
  | .output => "output"
  | .weight => "weight"
  | .tensor => "tensor"

inductive LayerFault where
  | missing (what : Operand) (index : Nat)
  | noLabel
  | noOutput (producer : String) (index : Nat)
  /-- A cause of a custom layer. -/
  | other (message : String)
deriving DecidableEq

def LayerFault.message : LayerFault → String
  | .missing what index => s!"no {what.name} {index}"
  | .noLabel => "no label requested"
  | .noOutput producer index => s!"{producer} has no output {index}"
  | .other message => message

inductive Error where
  | noLayers
  | misconfigured (fault : Misconfiguration)
  | duplicateName (name : String)
  | unknownInput (node input : String)
  | unreadSlot (node : String) (index : Nat)
  | cycle (node : String)
  | disconnected (node : String)
  | invalidOrder (fault : OrderFault)
  | shapeMismatch (node : String) (expected actual : Shape)
  | resource (fault : ResourceFault)
  | notCompiled
  | alreadyCompiled
  | notPrepared
  | notAllocated
  | layer (node : String) (fault : LayerFault)
  /-- A text is no description of what it should describe. -/
  | malformed
  /-- A kernel was given operands whose shapes do not fit. -/
  | incompatible (left right : Shape)
  /-- A handle names no tensor or weight of the store. -/
  | staleHandle (index : Nat)
  /-- A count is no machine word, or more than there can be room for. -/
  | overflow (count : Nat)
deriving DecidableEq

namespace Error

def message : Error → String
  | .noLayers => "Graph has no layers defined"
  | .misconfigured fault => "Invalid configuration: " ++ fault.message
  | .duplicateName name => s!"Duplicate node name: {name}"
  | .unknownInput node input => s!"Node {node} references unknown input {input}"
  | .unreadSlot node index => s!"Output {index} of node {node} is never consumed"
  | .cycle node => s!"Cycle detected at node {node}"
  | .disconnected node => s!"Node {node} is not reachable from any graph input"
  | .invalidOrder fault => "Compiled graph is invalid: " ++ fault.message
  | .shapeMismatch node expected actual =>
    s!"Shape mismatch at {node}: expected {expected.text}, got {actual.text}"
  | .resource fault => "Resource error: " ++ fault.message
  | .notCompiled => "Graph is not compiled"
  | .alreadyCompiled => "Graph is already compiled"
  | .notPrepared => "Graph is not initialized"
  | .notAllocated => "Tensors are not allocated"
  | .layer node fault => s!"Layer {node} failed: {fault.message}"
  | .malformed => "Text is not a valid description"
  | .incompatible left right => s!"Operands of shapes {left.text} and {right.text} do not fit"
  | .staleHandle index => s!"Handle {index} names no buffer"
  | .overflow count => s!"There is no room to count {count}"

/-- The errors that say that the connections cannot be ordered. -/
def isStructural : Error → Bool
  | .cycle _ | .disconnected _ | .invalidOrder _ => true
  | _ => false

end Error

end LayerGraph
