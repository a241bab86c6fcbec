import LayerGraph.Proofs.Network.Accepted
import LayerGraph.Proofs.Network.Shaped
import LayerGraph.Proofs.Network.Slots
import LayerGraph.Proofs.Network.Widths
import LayerGraph.Proofs.Sequential.Lowered

/-!
# Building sequential models

With the default fusion rules a model is built exactly if it has a feature and a layer, all its
layers have units, and its loss is one that can run behind the last activation. The network has a
node for each layer and each activation, two weights for each layer, and the shapes that the first
and the last width give.
-/

namespace LayerGraph.Sequential

open Lowering

variable {α : Type}

section Layers

variable {layers layers' behind : List (Layer α)} {kind? : Option Loss} {model : Sequential α}
  {layer : DenseLayer α}

/-- A layer with trained weights has two of them. -/
theorem length_flatMap_weightNames (h : ∀ l ∈ layers, l.isShipped = true) :
    (layers.flatMap Layer.weightNames).length = 2 * layers.countP (·.isTrained) := by
  have hone : ∀ l : Layer α, l.isShipped = true → l.weightNames.length = if l.isTrained
      then 2 else 0 := by
    intro l hl
    cases l <;> first | rfl | cases hl
  induction layers with
  | nil => rfl
  | cons l layers ih =>
    obtain ⟨hl, hlayers⟩ := List.forall_mem_cons.mp h
    rw [List.flatMap_cons, List.length_append, hone l hl, ih hlayers, List.countP_cons]
    split <;> omega

namespace Ended

theorem length_eq (h : Ended layers kind? layers') :
    layers'.length + (if kind? = some .cross then 1 else 0) =
    layers.length + if kind?.isSome then 1 else 0 := by
  cases h with
  | open_ => rfl
  | loss runs => simp [runs]
  | fused split => simp [split]

theorem countP_isTrained (h : Ended layers kind? layers') :
    layers'.countP (·.isTrained) = layers.countP (·.isTrained) := by
  cases h with
  | open_ => rfl
  | loss => simp [Layer.isTrained]
  | fused split => simp [split, Layer.isTrained]

theorem foldl_widthFrom (h : Ended layers kind? layers') (width : Nat) :
    layers'.foldl Layer.widthFrom width = layers.foldl Layer.widthFrom width := by
  cases h with
  | open_ => rfl
  | loss => rw [List.foldl_append]; rfl
  | fused split => rw [split, List.foldl_append, List.foldl_append]; rfl

/-- The input stays in front, and whatever takes one input still does. -/
theorem behind_input {width : Nat} (h : Ended (.input width :: behind) kind? layers')
    (hbehind : ∀ l ∈ behind, l.Takes 1) :
    ∃ behind', layers' = .input width :: behind' ∧ ∀ l ∈ behind', l.Takes 1 := by
  have hloss : ∀ {front : List (Layer α)} {kind : Loss}, kind ≠ .cross → (∀ l ∈ front, l.Takes 1) →
      ∀ l ∈ front ++ [.loss kind], l.Takes 1 := by
    intro front kind hkind hfront l hl
    rcases List.mem_append.mp hl with hl | hl
    · exact hfront l hl
    · obtain rfl := List.mem_singleton.mp hl
      exact .loss hkind
  cases h with
  | open_ => exact ⟨behind, rfl, hbehind⟩
  | loss runs => exact ⟨_, rfl, hloss runs hbehind⟩
  | @fused front rule split ruled =>
    obtain ⟨front, rfl, hfront⟩ : ∃ front', front = .input width :: front' ∧ behind = front' ++
        [.activation rule.activation] := by
      rcases List.cons_eq_append_iff.mp split with ⟨-, heq⟩ | ⟨front', rfl, heq⟩
      · cases heq
      · exact ⟨front', rfl, heq⟩
    exact ⟨_, rfl,
      hloss ((by decide : ∀ rule ∈ FusionRule.defaults, rule.fused ≠ .cross) rule ruled) fun l hl =>
      hbehind l (hfront ▸ List.mem_append_left _ hl)⟩

theorem mem_of_isTrained (h : Ended layers kind? layers') {l : Layer α} (hl : l ∈ layers)
    (htrained : l.isTrained = true) : l ∈ layers' := by
  cases h with
  | open_ => exact hl
  | loss => exact List.mem_append_left _ hl
  | fused split =>
    rw [split, List.mem_append, List.mem_singleton] at hl
    rcases hl with hl | rfl
    · exact List.mem_append_left _ hl
    · cases htrained

end Ended

theorem length_layerList (model : Sequential α) : model.layerList.length =
    1 + model.layers.length + model.layers.countP (fun layer => layer.activation ≠ .none) := by
  rw [layerList, List.length_cons]
  induction model.layers with
  | nil => rfl
  | cons layer layers ih =>
    rw [List.flatMap_cons, List.length_append, List.length_cons, List.countP_cons, denseLayers]
    by_cases h : layer.activation = .none
    · rw [if_pos h, if_neg (by simpa using h)]
      simp only [List.length_cons, List.length_nil]
      omega
    · rw [if_neg h, if_pos (by simpa using h)]
      simp only [List.length_cons, List.length_nil]
      omega

theorem countP_isTrained_layerList (model : Sequential α) : model.layerList.countP (·.isTrained) =
    model.layers.length := by
  rw [layerList, List.countP_cons]
  induction model.layers with
  | nil => rfl
  | cons layer layers ih =>
    have hone : (denseLayers layer).countP (·.isTrained) = 1 := by
      unfold denseLayers
      split <;> rfl
    rw [List.flatMap_cons, List.countP_append, hone, List.length_cons]
    omega

/-- The width at the end is that of the last layer. -/
theorem foldl_widthFrom_layerList {last : DenseLayer α} (h : model.layers.getLast? = some last)
    (width : Nat) : model.layerList.foldl Layer.widthFrom width = last.units := by
  obtain ⟨init, hsplit⟩ := List.getLast?_eq_some_iff.mp h
  have hlast : ∀ w, (denseLayers last).foldl Layer.widthFrom w = last.units := by
    intro w
    unfold denseLayers
    split <;> rfl
  rw [layerList, List.foldl_cons, hsplit, List.flatMap_append, List.flatMap_singleton,
    List.foldl_append, hlast]

theorem takes_denseLayers (hunits : 0 < layer.units) : ∀ l ∈ denseLayers layer, l.Takes 1 := by
  intro l hl
  rcases List.mem_cons.mp hl with rfl | hl
  · exact .fullyConnected hunits.ne' _ _
  · split at hl
    · cases hl
    · obtain rfl := List.mem_singleton.mp hl
      exact .activation _

end Layers

section Asked

variable {model : Sequential α}

/-- The loss that a model asks for, in lower case; no name and the empty name ask for none. -/
def asked (model : Sequential α) : Option String := (model.loss.filter (· ≠ "")).map String.toLower

/-- What a model has to be like to be built. -/
structure WellFormed (model : Sequential α) : Prop where
  features : model.features ≠ []
  layers : model.layers ≠ []
  units : ∀ layer ∈ model.layers, 0 < layer.units
  loss : ∀ name, model.asked = some name → name ∈ ["mse", "cross", "cross_softmax",
    "cross_sigmoid"] ∧ (name = "cross" → ∃ last, model.layers.getLast? = some last ∧
    (last.activation = .softmax ∨ last.activation = .sigmoid))

theorem ofName?_eq_some_iff {text : String} {kind : Loss} : Loss.ofName? text = some kind ↔
    text.toLower = kind.name := by
  unfold Loss.ofName?
  generalize text.toLower = name
  constructor
  · intro h
    have hname := List.find?_some h
    exact (beq_iff_eq.mp hname).symm
  · rintro rfl
    cases kind <;> rfl

theorem exists_ofName?_iff {text : String} : (∃ kind, Loss.ofName? text = some kind) ↔
    text.toLower ∈ ["mse", "cross", "cross_softmax", "cross_sigmoid"] := by
  have hnames : ["mse", "cross", "cross_softmax", "cross_sigmoid"] = Loss.all.map Loss.name := rfl
  have hall : ∀ kind, kind ∈ Loss.all := by
    intro kind
    cases kind <;> decide
  simp only [ofName?_eq_some_iff, hnames, List.mem_map, hall, true_and]
  exact exists_congr fun _ => eq_comm

theorem lossKind_eq_cross_iff : model.lossKind = some .cross ↔ model.asked = some "cross" := by
  unfold lossKind asked
  cases model.loss.filter (· ≠ "") with
  | none => simp
  | some text =>
    rw [Option.bind_some, ofName?_eq_some_iff, Option.map_some, Option.some.injEq]
    rfl

theorem asked_eq_some_iff {name : String} : model.asked = some name ↔
    ∃ text, model.loss = some text ∧ text ≠ "" ∧ text.toLower = name := by
  simp [asked, Option.filter_eq_some_iff, and_assoc]

theorem lossAccepted_iff : model.LossAccepted ↔
    ∀ name, model.asked = some name → name ∈ ["mse", "cross", "cross_softmax", "cross_sigmoid"] ∧
      (name = "cross" → ∃ last, model.layers.getLast? = some last ∧
        (last.activation = .softmax ∨ last.activation = .sigmoid)) := by
  constructor
  · intro h name hname
    obtain ⟨text, hloss, hne, rfl⟩ := asked_eq_some_iff.mp hname
    obtain ⟨kind, hkind, hcross⟩ := h text hloss hne
    refine ⟨exists_ofName?_iff.mp ⟨kind, hkind⟩, fun heq => hcross ?_⟩
    have hsame := ofName?_eq_some_iff.mpr (show text.toLower = Loss.name .cross from heq)
    rw [hkind] at hsame
    exact Option.some.inj hsame
  · intro h text hloss hne
    obtain ⟨hmem, hcross⟩ := h _ (asked_eq_some_iff.mpr ⟨text, hloss, hne, rfl⟩)
    obtain ⟨kind, hkind⟩ := exists_ofName?_iff.mpr hmem
    exact ⟨kind, hkind,
      fun heq => hcross ((ofName?_eq_some_iff.mp hkind).trans (congrArg Loss.name heq))⟩

theorem isSome_lossKind (h : model.LossAccepted) : model.lossKind.isSome = model.asked.isSome := by
  unfold lossKind asked
  cases hloss : model.loss.filter (· ≠ "") with
  | none => rfl
  | some text =>
    obtain ⟨hloss, hne⟩ := Option.filter_eq_some_iff.mp hloss
    obtain ⟨kind, hkind, -⟩ := h text hloss (by simpa using hne)
    rw [Option.bind_some, hkind]
    rfl

end Asked

section Rows

variable {model : Sequential α} {n n₁ : Network α}

/-- Lowered nodes start with the input, and each of the others has one input, as its layer takes
it. -/
theorem Lowered.split {nodes : List (Node α)} (h : Lowered model nodes)
    (hunits : ∀ layer ∈ model.layers, 0 < layer.units) :
    ∃ first rest, nodes = first :: rest ∧ first.inputs = [] ∧
      first.layer = .input model.features.length ∧
      ∀ a ∈ rest, a.layer.Takes 1 ∧ ∃ name, a.inputs = [⟨name, 0⟩] := by
  have htakes : ∀ l ∈ model.layers.flatMap denseLayers, l.Takes 1 := by
    intro l hl
    obtain ⟨layer, hlayer, hl⟩ := List.mem_flatMap.mp hl
    exact takes_denseLayers (hunits layer hlayer) l hl
  obtain ⟨behind, hlayers, hbehind⟩ := h.layers.behind_input htakes
  obtain ⟨first, rest, rfl, hfirst, hrest⟩ := List.map_eq_cons_iff.mp hlayers
  obtain ⟨c, hrow⟩ := h.row
  obtain - | ⟨hinputs, hrow⟩ := hrow
  refine ⟨first, rest, rfl, hinputs, hfirst, fun a ha => ⟨hbehind _ ?_, hrow.inputs_eq a ha⟩⟩
  rw [← hrest]
  exact List.mem_map_of_mem ha

theorem Lowered.preparable {nodes : List (Node α)} (h : Lowered model nodes)
    (hfeatures : model.features ≠ []) (hunits : ∀ layer ∈ model.layers, 0 < layer.units) :
    Network.Preparable nodes := by
  obtain ⟨first, rest, rfl, hinputs, hlayer, hrest⟩ := h.split hunits
  refine ⟨h.own, ?_, ?_⟩
  · rintro a ha c hc
    rcases List.mem_cons.mp ha with rfl | ha
    · rw [hinputs] at hc
      cases hc
    · obtain ⟨-, name, heq⟩ := hrest a ha
      rw [heq, List.mem_singleton] at hc
      rw [hc]
  · intro a ha
    rcases List.mem_cons.mp ha with rfl | ha
    · rw [hinputs, hlayer]
      exact .input fun hzero => hfeatures (List.length_eq_zero_iff.mp hzero)
    · obtain ⟨htakes, name, heq⟩ := hrest a ha
      rw [heq]
      exact htakes

/-- A layer without units is not prepared. -/
theorem units_of_prepare {u : Unit} (hlowered : Lowered model n₁.graph.nodes)
    (hdrawn : Network.Drawn n₁) (hp : Network.prepare [] [] n₁ = .ok u n) : ∀ layer ∈ model.layers,
      0 < layer.units := by
  intro layer hlayer
  have hmem : (.fullyConnected layer.units layer.weight layer.bias : Layer α) ∈ model.layerList :=
    List.mem_cons_of_mem _ (List.mem_flatMap.mpr ⟨layer, hlayer, List.mem_cons_self ..⟩)
  obtain ⟨a, ha, heq⟩ := List.mem_map.mp (hlowered.layers.mem_of_isTrained hmem rfl)
  obtain ⟨shapes, hshaped⟩ := Network.shaped_of_prepare hdrawn hp
  obtain ⟨p, hp⟩ := List.getElem?_of_mem ha
  obtain ⟨ins, declared, hdeclare, -⟩ := hshaped.accepts p a hp
  rw [heq] at hdeclare
  obtain ⟨_, hdeclaration, -⟩ := except_bind_eq_ok_iff.mp hdeclare
  obtain ⟨_, -, hdeclaration⟩ := except_bind_eq_ok_iff.mp hdeclaration
  by_contra hzero
  rw [if_pos (Nat.eq_zero_of_not_pos hzero)] at hdeclaration
  cases hdeclaration

/-- What is promised of the network that is built from a model. -/
structure Built (model : Sequential α) (n : Network α) : Prop where
  compiled : n.isCompiled = true
  prepared : n.isPrepared = true
  /-- A node for the input, each layer, each activation and the loss, but a cross entropy takes the
  place of the last activation. -/
  size : n.graph.size = 1 + model.layers.length + model.layers.countP
    (fun layer => layer.activation ≠ .none) + (if model.asked.isSome then 1 else 0) -
      if model.asked = some "cross" then 1 else 0
  weights : n.store.weights.length = 2 * model.layers.length
  trained : (n.graph.nodes.filter (·.layer.isTrained)).map (·.tensors.weights.length) =
    List.replicate model.layers.length 2
  inputShapes : n.inputShapes = .ok [⟨max model.settings.batchSize 1, model.features.length⟩]
  outputShapes : ∀ last, model.layers.getLast? = some last → n.outputShapes =
    .ok [⟨max model.settings.batchSize 1, last.units⟩]

/-- The first of the nodes is the only graph input, and the last of them the only terminal. -/
theorem faces_of_prepare {asks : (Shape → List Shape) → Prop} {u : Unit}
    (hlowered : Lowered model n.graph.nodes) (hunits : ∀ layer ∈ model.layers, 0 < layer.units)
    (hprepared : Network.Prepared asks n) (hp : Network.prepare [] [] n₁ = .ok u n) :
    n.inputShapes = .ok [⟨n.batchSize, model.features.length⟩] ∧
      ∀ last, model.layers.getLast? = some last → n.outputShapes =
        .ok [⟨n.batchSize, last.units⟩] := by
  obtain ⟨hinputs, -, houtputs⟩ := Network.faces_of_prepare hp
  have hperm := Network.sortedNodes_perm hprepared.registered.compiled.ordered.perm
  have hwired := hprepared.registered.compiled.wired
  obtain ⟨first, rest, hnodes, hnone, hfirst, hrest⟩ := hlowered.split hunits
  have hplain : ∀ a ∈ n.graph.nodes, a.layer ≠ .multiout := by
    intro a ha hmultiout
    rw [hnodes] at ha
    rcases List.mem_cons.mp ha with rfl | ha
    · rw [hfirst] at hmultiout
      cases hmultiout
    · obtain ⟨htakes, -⟩ := hrest a ha
      rw [hmultiout] at htakes
      cases htakes
  obtain ⟨c, hrow⟩ := hlowered.row
  constructor
  · have hsources : n.graph.nodes.filter (·.isSource) = [first] := by
      rw [hnodes, List.filter_cons_of_pos (by rw [Node.isSource, hfirst]; rfl),
        List.filter_eq_nil_iff.mpr]
      intro a ha
      rw [Node.isSource, (hrest a ha).1.isSource_eq_false]
      exact Bool.false_ne_true
    have hsorted : n.graph.sortedNodes.filter (·.isSource) = [first] :=
      List.perm_singleton.mp (by rw [← hsources]; exact hperm.filter _)
    have hmem : first ∈ n.graph.nodes := hnodes ▸ List.mem_cons_self ..
    have hcarries : Network.Carries n ⟨first.name, 0⟩ (first.layer.widthFrom 0) :=
      hprepared.carries hmem (by simp [hnone])
    obtain ⟨y, hy, hshape⟩ := hprepared.outputs_eq hmem (hplain first hmem) hcarries
    rw [hsorted, List.filterMap_cons, hy] at hinputs
    rw [Network.inputShapes, hinputs]
    rw [hfirst] at hshape
    exact except_mapM_eq_ok_iff.mpr (.cons hshape .nil)
  · intro last hlast
    obtain ⟨front, l, hsplit⟩ :=
      (List.eq_nil_or_concat' n.graph.nodes).resolve_left (by simp [hnodes])
    have hterminals : n.graph.nodes.filter (·.isTerminal) = [l] := by
      have hlt := fun a ha k => hwired.lt_iff_reads (a := a) ha k
      rw [hsplit] at hrow hlt ⊢
      exact hrow.filter_isTerminal (hsplit ▸ hlowered.distinct) hlt
    have hsorted : n.graph.sortedNodes.filter (·.isTerminal) = [l] :=
      List.perm_singleton.mp (by rw [← hterminals]; exact hperm.filter _)
    have hmem : l ∈ n.graph.nodes := hsplit ▸ List.mem_append_right _ (List.mem_singleton_self l)
    obtain rfl : c = [⟨l.name, 0⟩] := (row_concat_iff.mp (hsplit ▸ hrow)).2
    have hend : Network.Carries n ⟨l.name, 0⟩
        ((n.graph.nodes.map (·.layer)).foldl Layer.widthFrom 0) :=
      hprepared.carries_of_row hrow (List.Subset.refl _) (by simp) _ (List.mem_singleton_self _)
    rw [hlowered.layers.foldl_widthFrom, foldl_widthFrom_layerList hlast] at hend
    obtain ⟨y, hy, hshape⟩ := hprepared.outputs_eq hmem (hplain l hmem) hend
    rw [hsorted, List.flatMap_singleton, hy] at houtputs
    rw [Network.outputShapes, houtputs]
    exact except_mapM_eq_ok_iff.mpr (.cons hshape .nil)

/-- Every node whose weights are trained has two of them. -/
theorem trained_of_prepare {asks : (Shape → List Shape) → Prop}
    (hlowered : Lowered model n.graph.nodes) (hprepared : Network.Prepared asks n) :
    (n.graph.nodes.filter (·.layer.isTrained)).map (·.tensors.weights.length) =
      List.replicate model.layers.length 2 := by
  have hcount : n.graph.nodes.countP (·.layer.isTrained) = model.layers.length := by
    rw [← countP_isTrained_layerList, ← hlowered.layers.countP_isTrained, List.countP_map]
    rfl
  refine List.eq_replicate_iff.mpr ⟨?_, fun k hk => ?_⟩
  · rw [List.length_map, ← List.countP_eq_length_filter, hcount]
  · obtain ⟨a, ha, rfl⟩ := List.mem_map.mp hk
    obtain ⟨ha, htrained⟩ := List.mem_filter.mp ha
    obtain ⟨p, hp⟩ := List.getElem?_of_mem ha
    have hfits := (hprepared.registered.holds_of_node hp).fits
    generalize a.tensors = handles at hfits
    generalize a.layer = layer at hfits htrained
    cases hfits with
    | fullyConnected => rfl
    | input | activation | addition | multiout | identity | loss => cases htrained

end Rows

variable [Scalar α] {model : Sequential α} {n n₁ : Network α}

section Compile

/-- The nodes of a model, as a network that is to be compiled. -/
def drawing (model : Sequential α) : Network α :=
  { Network.ofSettings model.settings with graph := ⟨model.nodes, []⟩ }

omit [Scalar α] in
/-- Nodes that have names are taken in as they are where no name stands for another. -/
theorem grown_of_named {nodes before : List (Node α)} (hgraph : n.graph = ⟨before, []⟩)
    (haliases : n.aliases = []) (hnamed : ∀ a ∈ nodes, a.name ≠ "") : n.grown nodes =
      { n with graph := ⟨before ++ nodes, []⟩ } := by
  induction nodes generalizing n before with
  | nil => rw [Network.grown_nil, List.append_nil, ← hgraph]
  | cons a nodes ih =>
    obtain ⟨ha, hnodes⟩ := List.forall_mem_cons.mp hnamed
    have hadopted : n.adopted a = a := by
      rw [Network.adopted, Network.nameNode, if_neg ha, Network.resolveAliases]
      simp [Network.meaning, haliases]
    have hgraph' : (n.grownBy a).graph = ⟨before ++ [a], []⟩ := by
      change (⟨n.graph.nodes ++ [n.adopted a], []⟩ : NodeGraph (Node α)) = _
      rw [hadopted, hgraph]
    rw [Network.grown_cons, ih hgraph' haliases hnodes, List.append_assoc]
    rfl

/-- The nodes of a model have names of their own, so all of them are added. -/
theorem forM_add_nodes (model : Sequential α) :
    model.nodes.forM Network.add (.ofSettings model.settings) = .ok ⟨⟩ model.drawing := by
  have hgrown : ∀ nodes ⊆ model.nodes, (Network.ofSettings model.settings : Network α).grown nodes =
      { Network.ofSettings model.settings with graph := ⟨nodes, []⟩ } := fun nodes hsub =>
    grown_of_named (n := .ofSettings model.settings) rfl rfl fun a ha => name_ne_empty (hsub ha)
  have hopen : (Network.ofSettings model.settings : Network α).isCompiled = false := rfl
  rcases Network.forM_add hopen with hrun | ⟨before, a, rest, hsplit, -, hknown⟩
  · rw [hrun, hgrown _ (List.Subset.refl _)]
    rfl
  · rw [hgrown before (hsplit ▸ List.subset_append_left _ _)] at hknown
    have hd := nodup_names model
    rw [hsplit, List.map_append, List.map_cons, List.nodup_append] at hd
    exact absurd rfl (hd.2.2 a.name hknown a.name (by simp))

theorem build_eq_ok_iff : model.build = .ok n ↔ model.features ≠ [] ∧ model.layers ≠ [] ∧
    ∃ n₁, Network.compile model.loss model.drawing = .ok ⟨⟩ n₁ ∧
    Network.prepare [] [] n₁ = .ok ⟨⟩ n := by
  unfold build
  by_cases hfeatures : model.features = []
  · simp [hfeatures]
  by_cases hlayers : model.layers = []
  · simp [hfeatures, hlayers]
  rw [if_neg (by simpa using hfeatures), if_neg (by simpa using hlayers)]
  dsimp only
  rw [Action.bind_of_ok (forM_add_nodes model)]
  cases hcompile : Network.compile model.loss model.drawing with
  | error e n₁ => simp [Action.bind_of_error hcompile]
  | ok u n₁ =>
    rw [Action.bind_of_ok hcompile]
    cases hprepare : Network.prepare [] [] n₁ with
    | error e n₂ => simp [hprepare]
    | ok u n₂ => simp [hfeatures, hlayers, hprepare]

theorem draft_drawing (model : Sequential α) : Network.Draft model.drawing := by
  refine (Network.draft_ofSettings model.settings).withGraph fun a ha => ?_
  rcases List.mem_cons.mp ha with rfl | ha
  · exact ⟨rfl, rfl⟩
  · obtain ⟨p, -, rfl⟩ := List.mem_map.mp ha
    exact ⟨rfl, rfl⟩

variable (hrules : model.settings.fusionRules = FusionRule.defaults)
include hrules

/-- A well-formed model is compiled. -/
theorem exists_compile (h : WellFormed model) : ∃ n₁, Network.compile model.loss model.drawing =
    .ok ⟨⟩ n₁ := by
  obtain ⟨lowered, hlower, hlowered⟩ := exists_lower h.layers (lossAccepted_iff.mpr h.loss)
  obtain ⟨first, rest, rfl, -, hfirst, -⟩ := hlowered.split h.units
  obtain ⟨c, hrow⟩ := hlowered.row
  have hsource : first.isSource = true := by
    rw [Node.isSource, hfirst]
    rfl
  have hlower' : lower model.loss model.drawing.fusionRules model.drawing.graph.nodes =
      .ok () (first :: rest) := by
    rw [← hlower, ← hrules]
    rfl
  rw [Network.compile_apply model.loss rfl (List.cons_ne_nil _ _),
    Action.bind_of_ok (Network.lowerNodes_of_lower hlower' hlowered.distinct hlowered.named)]
  exact Network.exists_settle_of_lower hlower hlowered.distinct (List.cons_ne_nil _ _)
    (hrow.acyclic hlowered.distinct) (hrow.reachable hsource)

/-- A model that is compiled asks for a loss that can run, and its nodes are in a row. -/
theorem lowered_of_compile {u : Unit} (hlayers : model.layers ≠ [])
    (hc : Network.compile model.loss model.drawing = .ok u n₁) :
    model.LossAccepted ∧ Lowered model n₁.graph.nodes := by
  obtain ⟨u', nodes, hlower, -, hwires, hident⟩ := Network.nodes_of_compile hc
  rw [show model.drawing.fusionRules = FusionRule.defaults from hrules] at hlower
  have hloss := lossAccepted_of_lower hlayers hlower
  obtain ⟨nodes', hlower', hlowered⟩ := exists_lower hlayers hloss
  obtain rfl : nodes = nodes' := by
    have heq := hlower.symm.trans hlower'
    cases heq
    rfl
  refine ⟨hloss, hlowered.congr ?_⟩
  have hpair : ∀ xs : List (Node α), xs.map link = ((xs.map wires).zip (xs.map ident)).map fun t =>
      (t.1.1, t.1.2.1, t.2.2.1, t.2.2.2.2) := by
    intro xs
    rw [List.zip_map', List.map_map]
    rfl
  rw [hpair, hpair, hwires, hident]

/-- What is built from a model is as promised, and the model was well-formed. -/
theorem built_of_build (h : model.build = .ok n) : WellFormed model ∧ Built model n := by
  obtain ⟨hfeatures, hlayers, n₁, hc, hp⟩ := build_eq_ok_iff.mp h
  obtain ⟨hloss, hlowered⟩ := lowered_of_compile hrules hlayers hc
  have hdrawn := Network.drawn_of_compile (draft_drawing model) hc
  have hunits := units_of_prepare hlowered hdrawn hp
  have hprepared : Network.Prepared (fun _ => True) n := Network.prepared_of_prepare hdrawn hp
  have hlowered' : Lowered model n.graph.nodes := by
    have hdesign := congrArg (List.map fun d => (d.1.1, d.1.2.1, d.2.1, d.2.2.2.1))
      (Network.settling_of_prepare hdrawn hp).design
    rw [List.map_map, List.map_map] at hdesign
    exact hlowered.congr hdesign
  obtain ⟨hinputs, houtputs⟩ := faces_of_prepare hlowered' hunits hprepared hp
  obtain ⟨n₂, hp', hweights⟩ := Network.exists_prepare hdrawn (hlowered.preparable hfeatures hunits)
  obtain rfl : n = n₂ := by
    have heq := hp.symm.trans hp'
    cases heq
    rfl
  have hbatch : n.batchSize = max model.settings.batchSize 1 :=
    (Network.batchSize_of_prepare hdrawn hp).trans (Network.batchSize_of_compile hc)
  rw [hbatch] at hinputs houtputs
  refine ⟨⟨hfeatures, hlayers, hunits, lossAccepted_iff.mp hloss⟩, hprepared.closed,
    hprepared.prepared, ?_, ?_, trained_of_prepare hlowered' hprepared, hinputs, houtputs⟩
  · have hlength := hlowered'.layers.length_eq
    rw [isSome_lossKind hloss, length_layerList, List.length_map] at hlength
    simp only [lossKind_eq_cross_iff] at hlength
    rw [← hlength, NodeGraph.size, Nat.add_sub_cancel_right]
  · have hshipped : ∀ l ∈ n₁.graph.nodes.map (·.layer), l.isShipped = true := by
      intro l hl
      obtain ⟨a, ha, rfl⟩ := List.mem_map.mp hl
      obtain ⟨p, hp⟩ := List.getElem?_of_mem ha
      exact hdrawn.compiled.shipped p a hp
    rw [hweights, ← List.flatMap_map, length_flatMap_weightNames hshipped,
      hlowered.layers.countP_isTrained, countP_isTrained_layerList]

theorem exists_build (h : WellFormed model) : ∃ n, model.build = .ok n := by
  obtain ⟨n₁, hc⟩ := exists_compile hrules h
  have hdrawn := Network.drawn_of_compile (draft_drawing model) hc
  have hlowered := (lowered_of_compile hrules h.layers hc).2
  obtain ⟨n, hp, -⟩ := Network.exists_prepare hdrawn (hlowered.preparable h.features h.units)
  exact ⟨n, build_eq_ok_iff.mpr ⟨h.features, h.layers, n₁, hc, hp⟩⟩

/-- With the default rules exactly the well-formed models are built, and all of them as promised. -/
theorem build_spec : ((∃ n, model.build = .ok n) ↔ WellFormed model) ∧
    ∀ n, model.build = .ok n → Built model n :=
  ⟨⟨fun ⟨_, h⟩ => (built_of_build hrules h).1, exists_build hrules⟩,
    fun _ h => (built_of_build hrules h).2⟩

end Compile

/-- Two layers behind two features, and a cross entropy that is fused with the last activation. -/
def classifier : Sequential Float32 :=
  (((ofSize 2).dense 3 .relu).dense 1 .sigmoid).withLoss "Cross"

/-- It has an input, two layers, one activation and a loss, four weights, and an output of width
one. -/
theorem classifier_built : classifier.settings.fusionRules = FusionRule.defaults ∧
    WellFormed classifier ∧ ∃ n, classifier.build = .ok n ∧ n.graph.size = 5 ∧
    n.store.weights.length = 4 ∧ n.outputShapes = .ok [⟨1, 1⟩] := by
  have hasked : classifier.asked = some "cross" := by cbv
  have hwell : WellFormed classifier := by
    refine ⟨by decide, by decide, by decide, fun name hname => ?_⟩
    obtain rfl := Option.some.inj (hasked.symm.trans hname)
    exact ⟨by decide, fun _ => ⟨_, rfl, .inr rfl⟩⟩
  obtain ⟨hiff, hbuilt⟩ : ((∃ n, classifier.build = .ok n) ↔ WellFormed classifier) ∧ ∀ n,
      classifier.build = .ok n → Built classifier n :=
    build_spec rfl
  obtain ⟨n, hn⟩ := hiff.mpr hwell
  have hpromise := hbuilt n hn
  refine ⟨rfl, hwell, n, hn, ?_, hpromise.weights, hpromise.outputShapes _ rfl⟩
  rw [hpromise.size, hasked]
  rfl

end LayerGraph.Sequential
