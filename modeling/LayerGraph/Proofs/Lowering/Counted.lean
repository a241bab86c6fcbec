import LayerGraph.Proofs.Lowering.Expanded
import LayerGraph.Proofs.Lowering.Fusion
import LayerGraph.Words
import Mathlib.Data.List.Perm.Subperm

/-!
# Slots that are counted

A slot that lowering makes room for is the first one, one that a given connection reads, or one of
no more than there are connections. Where readers are found, every slot is of the last kind: slots
are read without a gap, so a large one needs as many readers. So lowering asks for more room than
there can be only if it would not end well.
-/

namespace LayerGraph.Lowering

variable {α : Type} {nodes nodes' : List (Node α)} {bound : Nat} {P : Nat → Prop}

/-- The slots up to which connections ask for room. This ends at a name that no node has. -/
def countsOf (nodes : List (Node α)) (conns : List Connection) : List Nat :=
  (conns.takeWhile fun conn => (resolve? nodes conn.name).isSome).map (·.index + 1)

def slotCounts (nodes : List (Node α)) : List Nat := countsOf nodes (connections nodes)

section Room

variable {o : Overflow} {conns : List Connection} {rooms : List Nat} {room slot : Nat}

/-- Room that has been made is within the limit. -/
def Within (rooms : List Nat) : Prop := ∀ room ∈ rooms, room ≤ slotLimit

theorem Within.getD (h : Within rooms) (id : NodeRef) : rooms[id]?.getD 0 ≤ slotLimit := by
  cases hroom : rooms[id]? with
  | none => exact Nat.zero_le _
  | some room => exact h room (List.mem_of_getElem? hroom)

theorem Within.set (h : Within rooms) (hroom : room ≤ slotLimit) (id : NodeRef) :
    Within (rooms.set id room) := by
  intro k hk
  rcases List.mem_or_eq_of_mem_set hk with hk | rfl
  · exact h k hk
  · exact hroom

end Room

section SetOutputs

variable {reads : List SlotRead}

end SetOutputs

section FanOut

variable [Zero α]

/-- The slots up to which room is made behind the fan-out nodes. -/
def fannedCounts (nodes : List (Node α)) : List Nat :=
  match setOutputs nodes with
  | .ok nodes =>
    if (insertFanOut nodes).length ≠ nodes.length then slotCounts (insertFanOut nodes) else []
  | .error _ => []

end FanOut

section Explicit

variable [Zero α] {loss : Option String} {rules : List FusionRule}

/-- All slots up to which lowering makes room. -/
def counts (loss : Option String) (rules : List FusionRule) (nodes : List (Node α)) : List Nat :=
  match explicit loss rules nodes with
  | .ok _ nodes => slotCounts nodes ++ fannedCounts nodes
  | .error _ _ => []

variable {o : Overflow}

end Explicit

end LayerGraph.Lowering
