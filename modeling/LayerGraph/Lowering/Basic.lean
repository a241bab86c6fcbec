import LayerGraph.Lowering.Losses
import LayerGraph.Lowering.Outputs
import LayerGraph.Lowering.Wiring

/-!
# Lowering

What a user leaves implicit is made explicit before the graph is sorted. When a pass fails, the
nodes stay as the passes so far have left them.
-/

namespace LayerGraph.Lowering

variable {α : Type} [Zero α]

/-- All passes in order, with a loss of the given kind if there is one. -/
def lower (loss : Option String) (rules : List FusionRule) :
    Action (List (Node α)) Unit := do
  modify renameReserved
  modify wireDefaults
  modify splitActivations
  Action.update (addLoss loss)
  fuse rules
  Action.update setOutputs
  separateReaders

end LayerGraph.Lowering
