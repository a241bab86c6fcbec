import LayerGraph.Training
import LayerGraph.Sequential
import LayerGraph.Description.Reader
import LayerGraph.Description.Writer
import LayerGraph.Single
import LayerGraph.Proofs.Network.Lowered
import LayerGraph.Proofs.Network.Runs
import LayerGraph.Proofs.Layer.Dataflow
import LayerGraph.Proofs.Network.Gradients
import LayerGraph.Proofs.Network.Handover
import LayerGraph.Proofs.Network.Pass
import LayerGraph.Proofs.Network.Buffers
import LayerGraph.Proofs.Network.Handles
import LayerGraph.Proofs.Network.Overwriting
import LayerGraph.Proofs.Network.Sharing
import LayerGraph.Proofs.Network.Derivatives
import LayerGraph.Proofs.Store.Unshared
import LayerGraph.Proofs.Network.Backward
import LayerGraph.Proofs.Lockstep
import LayerGraph.Proofs.Network.Budget
import LayerGraph.Proofs.Network.Rebatch
import LayerGraph.Proofs.Network.Rebuilt
import LayerGraph.Proofs.Network.Iteration
import LayerGraph.Proofs.Network.Twins
import LayerGraph.Proofs.Network.Accesses
import LayerGraph.Proofs.Network.Dangling
import LayerGraph.Proofs.Network.Retained
import LayerGraph.Proofs.Network.Lifecycle
import LayerGraph.Proofs.Description
import LayerGraph.Proofs.Network.Beside
import LayerGraph.Proofs.Network.Optimized
import LayerGraph.Proofs.Network.Relay
import LayerGraph.Proofs.Network.Timeline
import LayerGraph.Proofs.NodeGraph.Sorting
import LayerGraph.Proofs.SlotPlan.Serves
import LayerGraph.Proofs.Network.Survey
import LayerGraph.Proofs.SlotPlan.SlotCount
import LayerGraph.Proofs.Store.Modes
import LayerGraph.Proofs.Network.Refused
import LayerGraph.Proofs.Network.Initial
import LayerGraph.Proofs.Network.Descent
import LayerGraph.Proofs.Network.MiniBatch
import LayerGraph.Proofs.Network.Growth
import LayerGraph.Proofs.Loss
import LayerGraph.Proofs.Lowering.Fused
import LayerGraph.Proofs.Network.Retry
import LayerGraph.Proofs.Tensor.Polynomial
import LayerGraph.Proofs.Layer.Adjoint
import LayerGraph.Proofs.Network.Solved
import LayerGraph.Proofs.Network.Moved
import LayerGraph.Proofs.Network.States
import LayerGraph.Proofs.Network.Aliases
import LayerGraph.Proofs.Network.Slots
import LayerGraph.Proofs.Sequential.Built
import LayerGraph.Proofs.Network.Rates
import LayerGraph.Proofs.Connection
import LayerGraph.Proofs.NodeGraph.Stable
import LayerGraph.Proofs.Network.Checked
import LayerGraph.Proofs.Network.Backpropagation
import LayerGraph.Proofs.Layer.Counterpart
import LayerGraph.Proofs.Network.Reordered
import LayerGraph.Proofs.Network.Malformed
import LayerGraph.Proofs.Network.Counted
