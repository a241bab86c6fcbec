import LayerGraph.Proofs.Lowering.Row
import LayerGraph.Proofs.Network.Growth
import LayerGraph.Proofs.Network.Preparable
import LayerGraph.Sequential

/-!
# Lowering sequential models

The nodes of a model stand in a row, and every pass of lowering keeps them in one: the activations
come in behind their layers, and the loss, if there is one, comes last or takes the place of the
last activation. Lowering is refused only for the loss.
-/

namespace LayerGraph

namespace Sequential

open Lowering

variable {α : Type} [Scalar α] {model : Sequential α}

section Nodes

theorem denseNode_name (layer : DenseLayer α) (i : Nat) :
    (denseNode layer i).name = "dense_" ++ toString i := rfl

/-- Every name is that of the input or that of a layer. -/
theorem name_of_mem_nodes {a : Node α} (ha : a ∈ model.nodes) :
    a.name = "features" ∨ ∃ i : Nat, a.name = "dense_" ++ toString i := by
  rcases List.mem_cons.mp ha with rfl | ha
  · exact .inl rfl
  · obtain ⟨⟨layer, i⟩, -, rfl⟩ := List.mem_map.mp ha
    exact .inr ⟨i, denseNode_name layer i⟩

/-- The characters of the names that a model gives. -/
theorem mem_of_mem_name {a : Node α} (ha : a ∈ model.nodes) {c : Char} (hc : c ∈ a.name.toList) :
    c ∈ "featuresdense_".toList ∨ c.isDigit = true := by
  rw [show "featuresdense_" = "features" ++ "dense_" from rfl, String.toList_append,
    List.mem_append]
  rcases name_of_mem_nodes ha with hname | ⟨i, hname⟩
  · exact .inl (.inl (hname ▸ hc))
  · rw [hname, String.toList_append, List.mem_append] at hc
    refine hc.imp .inr fun hc => ?_
    rw [show (toString i).toList = Nat.toDigits 10 i from Nat.toList_repr] at hc
    exact Nat.isDigit_of_mem_toDigits (by decide) (by decide) hc

theorem name_ne_empty {a : Node α} (ha : a ∈ model.nodes) : a.name ≠ "" := by
  rcases name_of_mem_nodes ha with hname | ⟨i, hname⟩
  · rw [hname]
    decide
  · rw [hname]
    exact fun h => absurd (String.append_eq_empty_iff.mp h).1 (by decide)

/-- The underscore tells the name of a layer from others. -/
theorem underscore_mem (i : Nat) : '_' ∈ ("dense_" ++ toString i).toList := by
  rw [String.toList_append]
  exact List.mem_append_left _ (by decide)

theorem name_not_reserved {a : Node α} (ha : a ∈ model.nodes) : a.name ∉ reservedNames := by
  rcases name_of_mem_nodes ha with hname | ⟨i, hname⟩
  · rw [hname]
    decide
  · rw [hname]
    exact fun hmem => (by decide : ∀ name ∈ reservedNames, '_' ∉ name.toList) _ hmem
      (underscore_mem i)

theorem nodup_names (model : Sequential α) : (model.nodes.map (·.name)).Nodup := by
  have hnames : (model.layers.zipIdx.map fun p => denseNode p.1 p.2).map (·.name) =
      (List.range model.layers.length).map fun i => "dense_" ++ toString i := by
    have hindices : model.layers.zipIdx.map Prod.snd = List.range model.layers.length := by
      rw [List.zipIdx_map_snd, List.range_eq_range']
    rw [← hindices, List.map_map, List.map_map]
    rfl
  rw [nodes, List.map_cons, List.nodup_cons]
  refine ⟨fun hmem => ?_, ?_⟩
  · rw [hnames] at hmem
    obtain ⟨i, -, heq⟩ := List.mem_map.mp hmem
    have hmark := underscore_mem i
    rw [heq] at hmark
    exact absurd hmark (by decide : '_' ∉ "features".toList)
  · rw [hnames]
    exact List.nodup_range.map fun i j h => toString_nat_injective
      ((String.append_right_inj _).mp h)

theorem inputs_of_dense {a : Node α} (ha : a ∈ model.layers.zipIdx.map fun p => denseNode p.1 p.2) :
    a.inputs = [] ∧ a.isSource = false := by
  obtain ⟨p, -, rfl⟩ := List.mem_map.mp ha
  exact ⟨rfl, rfl⟩

/-- The nodes of a model are wired in a row. -/
theorem row_nodes (model : Sequential α) : ∃ c, Row [] (wireDefaults model.nodes) c :=
  row_wireDefaults rfl fun _ => inputs_of_dense

theorem isLoss_nodes {a : Node α} (ha : a ∈ model.nodes) : a.isLoss = false := by
  rcases List.mem_cons.mp ha with rfl | ha
  · rfl
  · obtain ⟨p, -, rfl⟩ := List.mem_map.mp ha
    rfl

end Nodes

section Expand

/-- No name that is generated has been given. -/
theorem fresh_activations (model : Sequential α) : ∀ p ∈ splitting model.nodes,
    activationName (newName model.nodes p) ∉ (model.nodes.map (·.name)).map
      (newName model.nodes) := by
  have hslash : ∀ a ∈ model.nodes, '/' ∉ a.name.toList := fun a ha hmem =>
    (mem_of_mem_name ha hmem).elim (by decide) (by decide)
  exact fun p hp => not_generated_of_no_slash hslash (.activation hp)

theorem nodup_expand (model : Sequential α) : ((expand model.nodes).map (·.name)).Nodup :=
  (nodup_expand_iff (nodup_names model)).mpr (fresh_activations model)

theorem named_expand {b : Node α} (hb : b ∈ expand model.nodes) : b.name ≠ "" := by
  have hname : ∀ a ∈ model.nodes, newName model.nodes a.name = a.name := fun a ha =>
    newName_of_not_reserved (name_not_reserved ha)
  rcases List.mem_append.mp ((names_expand model.nodes).mem_iff.mp
    (List.mem_map_of_mem hb)) with hmem | hmem
  · obtain ⟨_, hold, heq⟩ := List.mem_map.mp hmem
    obtain ⟨a, ha, rfl⟩ := List.mem_map.mp hold
    rw [← heq, hname a ha]
    exact name_ne_empty ha
  · obtain ⟨_, hp, heq⟩ := List.mem_map.mp hmem
    obtain ⟨a, ha, -, rfl⟩ := mem_splitting.mp hp
    rw [← heq, hname a ha]
    exact activationName_ne_empty _

theorem own_expand {b : Node α} (hb : b ∈ expand model.nodes) : b.sharedFrom = none := by
  obtain ⟨a, ha, hform⟩ := mem_expand (nodup_names model) hb
  rcases hform with rfl | ⟨-, rfl⟩
  · obtain ⟨a', ha', heq⟩ :=
      List.mem_map.mp (wireDefaults_map (f := Node.sharedFrom) (fun _ _ => rfl) model.nodes ▸
      List.mem_map_of_mem (f := Node.sharedFrom) ha)
    have hown : a'.sharedFrom = none := by
      rcases List.mem_cons.mp ha' with rfl | ha'
      · rfl
      · obtain ⟨p, -, rfl⟩ := List.mem_map.mp ha'
        rfl
    rw [carried, ← heq, hown, Option.map_none]
  · rfl

/-- A layer with its activation behind it. -/
def denseLayers (layer : DenseLayer α) : List (Layer α) :=
  .fullyConnected layer.units layer.weight layer.bias :: if layer.activation = .none then []
    else [.activation layer.activation]

/-- The layers of a model. -/
def layerList (model : Sequential α) : List (Layer α) :=
  .input model.features.length :: model.layers.flatMap denseLayers

theorem layers_expand_nodes (model : Sequential α) :
    (expand model.nodes).map (·.layer) = model.layerList := by
  have hdense : ∀ (layer : DenseLayer α) (i : Nat), spread (denseNode layer i) =
      denseLayers layer := by
    intro layer i
    have hsplits : splits (denseNode layer i) = true ↔ ¬ layer.activation = .none := by
      simp [splits, denseNode, Node.ofLayer, Layer.activation?]
    rw [spread]
    by_cases h : layer.activation = .none
    · rw [if_neg (fun hs => hsplits.mp hs h), denseLayers, if_pos h]
      rfl
    · rw [if_pos (hsplits.mpr h), denseLayers, if_neg h]
      rfl
  rw [layers_expand (nodup_names model), nodes, List.flatMap_cons, List.flatMap_map, layerList]
  simp only [hdense]
  conv_rhs => rw [← List.zipIdx_map_fst 0 model.layers, List.flatMap_map]
  rfl

theorem isLoss_expand_nodes {b : Node α} (hb : b ∈ expand model.nodes) : b.isLoss = false :=
  isLoss_expand (fun _ => isLoss_nodes) b hb

end Expand

section Lower

/-- The kind of loss that a model asks for; no name and the empty name ask for none. -/
def lossKind (model : Sequential α) : Option Loss := (model.loss.filter (· ≠ "")).bind Loss.ofName?

/-- The loss that is asked for exists, and behind the last activation it is one that can run. -/
def LossAccepted (model : Sequential α) : Prop :=
  ∀ text, model.loss = some text → text ≠ "" → ∃ kind, Loss.ofName? text = some kind ∧
    (kind = .cross → ∃ last, model.layers.getLast? = some last ∧
      (last.activation = .softmax ∨ last.activation = .sigmoid))

/-- The layers that are left of `layers` when a loss of some kind is put behind them. -/
inductive Ended (layers : List (Layer α)) : Option Loss → List (Layer α) → Prop where
  | open_ : Ended layers none layers
  | loss {kind : Loss} (runs : kind ≠ .cross) : Ended layers (some kind) (layers ++ [.loss kind])
  | fused {front : List (Layer α)} {rule : FusionRule} (split : layers = front ++
      [.activation rule.activation]) (ruled : rule ∈ FusionRule.defaults) : Ended layers
      (some .cross) (front ++ [.loss rule.fused])

/-- What lowering makes of a model. -/
structure Lowered (model : Sequential α) (lowered : List (Node α)) : Prop where
  row : ∃ c, Row [] lowered c
  distinct : (lowered.map (·.name)).Nodup
  named : ∀ a ∈ lowered, a.name ≠ ""
  own : ∀ a ∈ lowered, a.sharedFrom = none
  layers : Ended model.layerList model.lossKind (lowered.map (·.layer))

/-- What a node is in a row, whatever is found out about it later. -/
def link (a : Node α) : String × List Connection × Layer α × Option String :=
  (a.name, a.inputs, a.layer, a.sharedFrom)

omit [Scalar α] in
theorem Lowered.congr {nodes nodes' : List (Node α)} (h : Lowered model nodes)
    (hsame : nodes'.map link = nodes.map link) : Lowered model nodes' := by
  have hmap : ∀ {β : Type} (f : String × List Connection × Layer α × Option String → β),
      nodes'.map (fun a => f (link a)) = nodes.map fun a => f (link a) := by
    intro β f
    have heq := congrArg (List.map f) hsame
    rwa [List.map_map, List.map_map] at heq
  have hnode : ∀ a ∈ nodes', ∃ b ∈ nodes, link a = link b := by
    intro a ha
    obtain ⟨b, hb, heq⟩ := List.mem_map.mp (hsame ▸ List.mem_map_of_mem ha)
    exact ⟨b, hb, heq.symm⟩
  obtain ⟨c, hrow⟩ := h.row
  refine ⟨⟨c, hrow.congr (hmap fun t => (t.1, t.2.1))⟩, (hmap fun t => t.1) ▸ h.distinct,
    fun a ha => ?_, fun a ha => ?_, (hmap fun t => t.2.2.1) ▸ h.layers⟩
  · obtain ⟨b, hb, heq⟩ := hnode a ha
    rw [show a.name = b.name from (Prod.mk.inj heq).1]
    exact h.named b hb
  · obtain ⟨b, hb, heq⟩ := hnode a ha
    rw [show a.sharedFrom = b.sharedFrom from congrArg (fun t => t.2.2.2) heq]
    exact h.own b hb

/-- Nodes that are laid in a row get their outputs. -/
theorem Lowered.exists_outputs {nodes : List (Node α)} (h : Lowered model nodes) : ∃ nodes',
    (do Action.update setOutputs; separateReaders : Action (List (Node α)) Unit) nodes =
      .ok () nodes' ∧ Lowered model nodes' := by
  obtain ⟨c, hrow⟩ := h.row
  obtain ⟨nodes', hrun, hset⟩ := hrow.exists_outputs h.distinct
  exact ⟨nodes', hrun, h.congr (setOutputs_map hset fun _ _ => rfl)⟩

/-- What a model ends with: its last layer, or the activation of that. -/
def lastLayer (last : DenseLayer α) : Layer α :=
  if last.activation = .none then .fullyConnected last.units last.weight last.bias
    else .activation last.activation

omit [Scalar α] in
theorem lastLayer_activation? (last : DenseLayer α) :
    (lastLayer last).activation? = if last.activation = .none then none
      else some last.activation := by
  unfold lastLayer
  split <;> rfl

theorem exists_last_expand {init : List (DenseLayer α)} {last : DenseLayer α}
    (hsplit : model.layers = init ++ [last]) :
    ∃ front p source, expand model.nodes = front ++ [p] ∧ p.inputs = [source] ∧
    p.layer = lastLayer last := by
  have hlayers := layers_expand_nodes model
  obtain ⟨c, hrow⟩ := row_nodes model
  obtain ⟨d, hrow⟩ := row_expand (nodup_names model) (fresh_activations model) hrow
  rcases List.eq_nil_or_concat' (expand model.nodes) with hnil | ⟨front, p, hexpand⟩
  · rw [hnil] at hlayers
    cases hlayers
  rw [hexpand] at hlayers hrow
  obtain ⟨hfront, -⟩ := row_concat_iff.mp hrow
  -- What stands last in the list of layers, behind others.
  obtain ⟨before, hlast⟩ : ∃ before, model.layerList = .input model.features.length :: before ++
      [lastLayer last] := by
    rw [layerList, hsplit, List.flatMap_append, List.flatMap_singleton, denseLayers, lastLayer]
    by_cases hnone : last.activation = .none
    · rw [if_pos hnone, if_pos hnone]
      exact ⟨_, rfl⟩
    · rw [if_neg hnone, if_neg hnone]
      exact ⟨_ ++ [_], by rw [List.cons_append, List.append_assoc]; rfl⟩
  rw [hlast, List.map_append, List.map_singleton] at hlayers
  obtain ⟨hfrontLayers, hp⟩ := List.append_inj' hlayers rfl
  rcases List.eq_nil_or_concat' front with rfl | ⟨front', b, rfl⟩
  · cases hfrontLayers
  · exact ⟨_, p, ⟨b.name, 0⟩, hexpand, (row_concat_iff.mp hfront).2, (List.cons.inj hp).1⟩

theorem lowered_expand (model : Sequential α) (hkind : model.lossKind = none) :
    Lowered model (expand model.nodes) := by
  obtain ⟨c, hrow⟩ := row_nodes model
  refine ⟨row_expand (nodup_names model) (fresh_activations model) hrow, nodup_expand model,
    fun _ => named_expand, fun _ => own_expand, ?_⟩
  rw [layers_expand_nodes, hkind]
  exact .open_

/-- The loss that is put behind a model. -/
def lossNode (model : Sequential α) (kind : Loss) (inputs : List Connection) : Node α :=
  .ofLayer (.loss kind) (freshName kind.name ((expand model.nodes).map (·.name))) inputs

theorem named_lossNode (model : Sequential α) (kind : Loss) (inputs : List Connection) :
    (model.lossNode kind inputs).name ≠ "" := by
  obtain ⟨j, hname⟩ := exists_freshName_eq kind.name ((expand model.nodes).map (·.name))
  rw [lossNode,
    show (Node.ofLayer (.loss kind : Layer α)
      (freshName kind.name ((expand model.nodes).map (·.name))) inputs).name =
    kind.name ++ toString j from hname]
  exact fun h => by cases kind <;> exact absurd (String.append_eq_empty_iff.mp h).1 (by decide)

/-- Nodes behind which a loss is put. -/
theorem nodup_concat_lossNode (model : Sequential α) (kind : Loss) (inputs : List Connection) :
    ((expand model.nodes ++ [model.lossNode kind inputs]).map (·.name)).Nodup := by
  rw [List.map_append, List.nodup_append]
  refine ⟨nodup_expand model, by simp, fun a ha b hb heq => ?_⟩
  rw [List.map_singleton, List.mem_singleton] at hb
  exact freshName_not_mem kind.name _ (by rw [heq, hb] at ha; exact ha)

/-- A loss of another kind than the incomplete one is not fused with anything. -/
theorem find?_of_ne_cross {kind : Loss} (hkind : kind ≠ .cross) (f : Activation) :
    FusionRule.defaults.find? (fun rule => rule.activation = f ∧ rule.loss = kind) = none := by
  refine List.find?_eq_none.mpr fun rule hrule hmatch => ?_
  rw [decide_eq_true_eq] at hmatch
  exact hkind (hmatch.2 ▸ (of_mem_defaults hrule).1)

/-- The nodes behind which a loss can be put, as they are found by fusing. -/
structure Closing (model : Sequential α) (kind : Loss) (front : List (Node α)) (p : Node α)
    (source : Connection) : Prop where
  expanded : expand model.nodes = front ++ [p]
  inputs : p.inputs = [source]
  row : Row [] (front ++ [p] ++ [model.lossNode kind [⟨p.name, 0⟩]])
    [⟨(model.lossNode kind [⟨p.name, 0⟩]).name, 0⟩]
  distinct : ((front ++ [p] ++ [model.lossNode kind [⟨p.name, 0⟩]]).map (·.name)).Nodup
  partner : partner? FusionRule.defaults (front ++ [p] ++ [model.lossNode kind [⟨p.name, 0⟩]])
    (model.lossNode kind [⟨p.name, 0⟩]) = (p.layer.activation?.bind
      fun f => FusionRule.defaults.find? fun rule => rule.activation = f ∧ rule.loss = kind).map
      fun rule => (p, rule.fused, source)

theorem exists_closing {init : List (DenseLayer α)} {last : DenseLayer α}
    (hsplit : model.layers = init ++ [last]) (kind : Loss) :
    ∃ front p source, Closing model kind front p source ∧ p.layer = lastLayer last := by
  obtain ⟨front, p, source, hexpand, hinputs, hlayer⟩ := exists_last_expand hsplit
  obtain ⟨c, hrow⟩ := row_nodes model
  obtain ⟨d, hrow⟩ := row_expand (nodup_names model) (fresh_activations model) hrow
  rw [hexpand] at hrow
  obtain ⟨hfront, rfl⟩ := row_concat_iff.mp hrow
  have hwhole : Row [] (front ++ [p] ++ [model.lossNode kind [⟨p.name, 0⟩]])
      [⟨(model.lossNode kind [⟨p.name, 0⟩]).name, 0⟩] :=
    row_concat_iff.mpr ⟨hrow, rfl⟩
  have hd := nodup_concat_lossNode model kind [⟨p.name, 0⟩]
  rw [hexpand] at hd
  exact ⟨front, p, source, ⟨hexpand, hinputs, hwhole, hd, hwhole.partner?_eq hd rfl hinputs⟩,
    hlayer⟩

namespace Closing

variable {kind : Loss} {front : List (Node α)} {p : Node α} {source : Connection}

theorem isLoss_eq_false (h : Closing model kind front p source) : ∀ a ∈ front ++ [p],
    a.isLoss = false := fun a ha =>
  isLoss_expand_nodes (by rw [h.expanded]; exact ha)

/-- The loss is appended to the expanded nodes. -/
theorem lower_apply {text : String} (h : Closing model kind front p source) (hne : text ≠ "")
    (hkind : Loss.ofName? text = some kind) :
    lower (some text) FusionRule.defaults model.nodes =
      (do
        fuse FusionRule.defaults
        Action.update setOutputs
        separateReaders : Action (List (Node α)) Unit)
        (front ++ [p] ++ [model.lossNode kind [⟨p.name, 0⟩]]) := by
  obtain ⟨hfront, -⟩ := row_concat_iff.mp h.row
  have hd := nodup_expand model
  rw [h.expanded] at hd
  have hadd := hfront.addLoss_eq hd h.isLoss_eq_false hne
  rw [hkind, ← h.expanded] at hadd
  have hstep : lower (some text) FusionRule.defaults model.nodes =
      ((do
        Action.update (addLoss (some text))
        fuse FusionRule.defaults
        Action.update setOutputs
        separateReaders) : Action (List (Node α)) Unit) (expand model.nodes) := rfl
  rw [hstep, Action.bind_of_ok (Action.update_of_ok hadd), ← h.expanded]
  rfl

/-- A loss that no rule is for stays as it is, unless it cannot run. -/
theorem fuse_of_unruled (h : Closing model kind front p source)
    (hrule : (p.layer.activation?.bind fun f => FusionRule.defaults.find?
      fun rule => rule.activation = f ∧ rule.loss = kind) = none) :
    fuse FusionRule.defaults (front ++ [p] ++ [model.lossNode kind [⟨p.name, 0⟩]]) =
      if kind = .cross
        then .error (.misconfigured (.unfusedLoss (model.lossNode kind [⟨p.name, 0⟩]).name))
        (front ++ [p] ++ [model.lossNode kind [⟨p.name, 0⟩]])
      else .ok () (front ++ [p] ++ [model.lossNode kind [⟨p.name, 0⟩]]) := by
  refine fuse_of_none h.isLoss_eq_false rfl ?_
  rw [h.partner, hrule, Option.map_none]

theorem lowered_of_unfused (h : Closing model kind front p source)
    (hkind : model.lossKind = some kind) (hruns : kind ≠ .cross) :
    Lowered model (front ++ [p] ++ [model.lossNode kind [⟨p.name, 0⟩]]) := by
  refine ⟨⟨_, h.row⟩, h.distinct, fun a ha => ?_, fun a ha => ?_, ?_⟩
  · rcases List.mem_append.mp ha with ha | ha
    · exact named_expand (h.expanded ▸ ha)
    · obtain rfl := List.mem_singleton.mp ha
      exact named_lossNode model kind _
  · rcases List.mem_append.mp ha with ha | ha
    · exact own_expand (h.expanded ▸ ha)
    · obtain rfl := List.mem_singleton.mp ha
      rfl
  · rw [List.map_append, ← h.expanded, layers_expand_nodes, hkind]
    exact .loss hruns

theorem lowered_of_fused {rule : FusionRule} (h : Closing model .cross front p source)
    (hkind : model.lossKind = some .cross) (hrule : rule ∈ FusionRule.defaults)
    (hp : p.layer = .activation rule.activation) :
    Lowered model
      (front ++ [fusedNode (model.lossNode .cross [⟨p.name, 0⟩]) rule.fused source]) := by
  obtain ⟨hfront, -⟩ := row_concat_iff.mp h.row
  obtain ⟨hfront, -⟩ := row_concat_iff.mp hfront
  rw [h.inputs] at hfront
  refine ⟨⟨_, row_concat_iff.mpr ⟨hfront, rfl⟩⟩, ?_, fun a ha => ?_, fun a ha => ?_, ?_⟩
  · have hd := h.distinct
    rw [List.map_append, List.map_append, List.append_assoc] at hd
    rw [List.map_append]
    exact hd.sublist ((List.sublist_append_right _ _).append_left _)
  · rcases List.mem_append.mp ha with ha | ha
    · exact named_expand (h.expanded ▸ List.mem_append_left _ ha)
    · obtain rfl := List.mem_singleton.mp ha
      exact named_lossNode model .cross [⟨p.name, 0⟩]
  · rcases List.mem_append.mp ha with ha | ha
    · exact own_expand (h.expanded ▸ List.mem_append_left _ ha)
    · obtain rfl := List.mem_singleton.mp ha
      rfl
  · have hlayers := layers_expand_nodes model
    rw [h.expanded, List.map_append, List.map_singleton, hp] at hlayers
    rw [List.map_append, hkind]
    exact .fused hlayers.symm hrule

end Closing

omit [Scalar α] in
theorem lossKind_of_ne_empty {text : String} (hloss : model.loss = some text) (hne : text ≠ "") :
    model.lossKind = Loss.ofName? text := by
  rw [lossKind, hloss, Option.filter_some, if_pos (by simpa using hne), Option.bind_some]

/-- Softmax and sigmoid have a rule. -/
theorem exists_rule {f : Activation} (h : f = .softmax ∨ f = .sigmoid) :
    ∃ rule ∈ FusionRule.defaults,
    FusionRule.defaults.find? (fun rule => rule.activation = f ∧ rule.loss = .cross) = some rule ∧
      rule.activation = f ∧ rule.fused ≠ .cross := by
  rcases h with rfl | rfl
  · exact ⟨⟨.softmax, .cross, .crossSoftmax⟩, by decide, rfl, rfl, by decide⟩
  · exact ⟨⟨.sigmoid, .cross, .crossSigmoid⟩, by decide, rfl, rfl, by decide⟩

/-- A model whose loss is accepted is lowered. -/
theorem exists_lower (hlayers : model.layers ≠ []) (h : model.LossAccepted) :
    ∃ lowered, lower model.loss FusionRule.defaults model.nodes = .ok () lowered ∧
    Lowered model lowered := by
  by_cases hasks : ∃ text, model.loss = some text ∧ text ≠ ""
  · obtain ⟨text, hloss, hne⟩ := hasks
    obtain ⟨kind, hname, hcross⟩ := h text hloss hne
    have hkind : model.lossKind = some kind := (lossKind_of_ne_empty hloss hne).trans hname
    obtain ⟨init, last, hsplit⟩ := (List.eq_nil_or_concat' model.layers).resolve_left hlayers
    obtain ⟨front, p, source, hclosing, hp⟩ := exists_closing hsplit kind
    obtain ⟨nodes, hfuse, hlowered⟩ : ∃ nodes,
        fuse FusionRule.defaults (front ++ [p] ++ [model.lossNode kind [⟨p.name, 0⟩]]) =
        .ok () nodes ∧ Lowered model nodes := by
      by_cases hruns : kind = .cross
      · subst hruns
        obtain ⟨last', hlast, hactivation⟩ := hcross rfl
        rw [hsplit, List.getLast?_concat, Option.some.injEq] at hlast
        subst hlast
        obtain ⟨rule, hmem, hfind, hsame, hruns⟩ := exists_rule hactivation
        have hlayer : p.layer = .activation rule.activation := by
          rw [hp, lastLayer, if_neg, hsame]
          rcases hactivation with h | h <;> simp [h]
        have hpartner := hclosing.partner
        rw [hlayer, show (Layer.activation rule.activation : Layer α).activation? =
          some rule.activation from rfl, Option.bind_some,
          hsame, hfind, Option.map_some] at hpartner
        have hp' : p.isLoss = false := hclosing.isLoss_eq_false p (by simp)
        exact ⟨_, fuse_of_some (fun a ha => hclosing.isLoss_eq_false a (List.mem_append_left _ ha))
          rfl hclosing.distinct hp' hruns hpartner, hclosing.lowered_of_fused hkind hmem hlayer⟩
      · have hrule : (p.layer.activation?.bind fun f => FusionRule.defaults.find?
            fun rule => rule.activation = f ∧ rule.loss = kind) =
            none := Option.bind_eq_none_iff.mpr fun f _ => find?_of_ne_cross hruns f
        have hfuse := hclosing.fuse_of_unruled hrule
        rw [if_neg hruns] at hfuse
        exact ⟨_, hfuse, hclosing.lowered_of_unfused hkind hruns⟩
    obtain ⟨lowered, houtputs, hlowered⟩ := hlowered.exists_outputs
    refine ⟨lowered, ?_, hlowered⟩
    rw [hloss, hclosing.lower_apply hne hname, Action.bind_of_ok hfuse]
    exact houtputs
  · -- Nothing is appended, and there is nothing to fuse.
    have hnone : model.loss = none ∨ model.loss = some "" := by
      cases hloss : model.loss with
      | none => exact .inl rfl
      | some text => exact .inr (congrArg some (not_not.mp fun hne => hasks ⟨text, hloss, hne⟩))
    have hadd : addLoss model.loss (expand model.nodes) = .ok (expand model.nodes) := by
      rcases hnone with hloss | hloss <;> rw [hloss] <;> rfl
    have hkind : model.lossKind = none := by
      rcases hnone with hloss | hloss <;> rw [lossKind, hloss] <;> rfl
    obtain ⟨lowered, houtputs, hlowered⟩ := (lowered_expand model hkind).exists_outputs
    refine ⟨lowered, ?_, hlowered⟩
    have hstep : lower model.loss FusionRule.defaults model.nodes =
        ((do
          Action.update (addLoss model.loss)
          fuse FusionRule.defaults
          Action.update setOutputs
          separateReaders) : Action (List (Node α)) Unit) (expand model.nodes) := rfl
    rw [hstep, Action.bind_of_ok (Action.update_of_ok hadd),
      Action.bind_of_ok (fuse_of_no_loss FusionRule.defaults fun _ => isLoss_expand_nodes)]
    exact houtputs

/-- A model that is lowered has a loss that is accepted. -/
theorem lossAccepted_of_lower {lowered : List (Node α)} {u : Unit} (hlayers : model.layers ≠ [])
    (h : lower model.loss FusionRule.defaults model.nodes = .ok u lowered) :
    model.LossAccepted := by
  intro text hloss hne
  rw [hloss] at h
  obtain ⟨init, last, hsplit⟩ := (List.eq_nil_or_concat' model.layers).resolve_left hlayers
  cases hname : Loss.ofName? text with
  | none =>
    obtain ⟨n₁, _, _, _, _, hadd, -⟩ := stages_of_lower h
    rw [addLoss, if_neg hne, appendLoss, hname] at hadd
    cases hadd
  | some kind =>
    refine ⟨kind, rfl, ?_⟩
    rintro rfl
    obtain ⟨front, p, source, hclosing, hp⟩ := exists_closing hsplit .cross
    refine ⟨last, by rw [hsplit, List.getLast?_concat], ?_⟩
    rw [hclosing.lower_apply hne hname] at h
    obtain ⟨_, _, hfuse, -⟩ := Action.bind_eq_ok_iff.mp h
    cases hrule : p.layer.activation?.bind fun f => FusionRule.defaults.find? fun rule =>
      rule.activation = f ∧ rule.loss = .cross with
    | none =>
      rw [hclosing.fuse_of_unruled hrule, if_pos rfl] at hfuse
      cases hfuse
    | some rule =>
      obtain ⟨f, hf, hfind⟩ := Option.bind_eq_some_iff.mp hrule
      rw [hp, lastLayer_activation?] at hf
      split at hf
      · cases hf
      · cases hf
        have hmatch := List.find?_some hfind
        rw [decide_eq_true_eq] at hmatch
        rw [← hmatch.1]
        exact (of_mem_defaults (List.mem_of_find?_eq_some hfind)).2

end Lower

end Sequential

end LayerGraph
