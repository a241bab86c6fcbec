import LayerGraph.Lowering.Names

/-!
# Losses

A loss can be appended to the only terminal of a graph. A loss behind an activation is fused with it
where a rule says so: the loss takes the fused kind and reads what the activation read, and the
activation is removed. A cross entropy that is left without an activation is an error.
-/

namespace LayerGraph.Lowering

variable {α : Type}

def connections (nodes : List (Node α)) : List Connection := nodes.flatMap (·.inputs)

/-- The names of the nodes that nobody reads. -/
def terminals (nodes : List (Node α)) : List String :=
  (nodes.map (·.name)).filter fun name => !(connections nodes).any (·.name == name)

def appendLoss [Zero α] (loss : String) (nodes : List (Node α)) :
    Except Error (List (Node α)) :=
  match Loss.ofName? loss with
  | none => .error (.misconfigured (.unknownLoss loss))
  | some kind =>
    match nodes.find? (·.isLoss) with
    | some existing => .error (.misconfigured (.secondLoss loss existing.name))
    | none =>
      match terminals nodes with
      | [terminal] =>
        .ok (nodes ++ [.ofLayer (.loss kind) (freshName kind.name (nodes.map (·.name)))
          [⟨terminal, 0⟩]])
      | found => .error (.misconfigured (.terminalCount loss found.length))

/-- Append a loss of the given kind; no kind and the empty kind ask for none. -/
def addLoss [Zero α] (loss : Option String) (nodes : List (Node α)) :
    Except Error (List (Node α)) :=
  match loss with
  | none => .ok nodes
  | some kind => if kind = "" then .ok nodes else appendLoss kind nodes

/-- How often the graph's inputs name a node. -/
def readCount (nodes : List (Node α)) (name : String) : Nat :=
  (connections nodes).countP (·.name == name)

/-- An activation to be fused into a loss: where it stands, the kind that stands for both, and what
the activation reads. -/
structure Fusion (n : Nat) where
  producer : Fin n
  fused : Loss
  source : Connection

/-- A loss is fused with its only producer, if that is an activation with one input that nobody else
reads and some rule is for the two. -/
def fusion? (rules : List FusionRule) (nodes : List (Node α)) (node : Node α)
    (kind : Loss) : Option (Fusion nodes.length) := do
  match node.inputs with
  | [input] =>
    let producer ← nodes.findFinIdx? (·.name == input.name)
    let f ← nodes[producer].layer.activation?
    let rule ← rules.find? fun rule => rule.activation = f ∧ rule.loss = kind
    match nodes[producer].inputs with
    | [source] =>
      if readCount nodes input.name = 1 then some ⟨producer, rule.fused, source⟩ else none
    | _ => none
  | _ => none

/-- Fuse the loss at position `i`, and say at which position it is afterwards. -/
def fuseAt (rules : List FusionRule) (nodes : List (Node α)) (i : Nat) (node : Node α)
    (kind : Loss) : List (Node α) × Nat :=
  match fusion? rules nodes node kind with
  | none => (nodes, i)
  | some fusion =>
    ((nodes.set i { node with layer := .loss fusion.fused, inputs := [fusion.source] }).eraseIdx
        fusion.producer,
      if fusion.producer < i then i - 1 else i)

theorem remaining_fuseAt (rules : List FusionRule) (nodes : List (Node α)) (i : Nat)
    (node : Node α) (kind : Loss) :
    (fuseAt rules nodes i node kind).1.length - (fuseAt rules nodes i node kind).2 ≤
      nodes.length - i := by
  unfold fuseAt
  split
  · simp
  · next fusion _ =>
    have := fusion.producer.isLt
    simp only [List.length_eraseIdx, List.length_set, this, if_true]
    split <;> omega

/-- Fuse the losses from position `i` on. -/
def fuseFrom (rules : List FusionRule) (i : Nat) (nodes : List (Node α)) :
    EStateM.Result Error (List (Node α)) Unit :=
  if hi : i < nodes.length then
    match nodes[i].layer.loss? with
    | none => fuseFrom rules (i + 1) nodes
    | some kind =>
      let fused := fuseAt rules nodes i nodes[i] kind
      if hf : fused.2 < fused.1.length then
        if fused.1[fused.2].layer.loss? = some .cross then
          .error (.misconfigured (.unfusedLoss fused.1[fused.2].name)) fused.1
        else fuseFrom rules (fused.2 + 1) fused.1
      else .ok () fused.1
  else .ok () nodes
termination_by nodes.length - i
decreasing_by
  · omega
  · have := remaining_fuseAt rules nodes i nodes[i] kind
    omega

def fuse (rules : List FusionRule) : Action (List (Node α)) Unit := fuseFrom rules 0

end LayerGraph.Lowering
