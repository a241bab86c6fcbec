import LayerGraph.Proofs.Network.Initial
import LayerGraph.Proofs.Network.MiniBatch
import LayerGraph.Proofs.Network.Reflected

/-!
# Fixed initial values

Where no node shares its weights with another one and nothing is drawn at random, weights start from
what their nodes ask for, whatever their place in a network.
-/

namespace LayerGraph

open Network

variable {α : Type}

/-- What does not draw at random does not depend on the seed. -/
theorem Initializer.fill_eq [Scalar α] {init : Initializer α} (h : init.isRandom = false)
    (seed seed' : Nat) (shape : Shape) : init.fill seed shape = init.fill seed' shape := by
  cases init with
  | zeros | ones | constant => rfl
  | uniform | normal | xavierUniform => cases h

/-- The weights of the layer start from values that are not drawn at random. -/
def Layer.isDeterministic : Layer α → Bool
  | fullyConnected _ weight bias => !weight.isRandom && !bias.isRandom
  | custom _ => false
  | _ => true

/-- The node has its weights to itself, and they start from values that are not drawn at random. -/
structure Node.IsFixed (a : Node α) : Prop where
  own : a.sharedFrom = none
  deterministic : a.layer.isDeterministic = true

theorem Node.IsFixed.initials {a : Node α} (h : a.IsFixed) :
    ∀ p ∈ a.initials, p.2.isRandom = false := by
  have hlayer := h.deterministic
  unfold Node.initials
  cases ha : a.layer with
  | fullyConnected units weight bias =>
    rw [ha] at hlayer
    simpa [Layer.isDeterministic] using hlayer
  | input | activation | addition | multiout | identity | loss | custom => exact nofun

theorem inherited_isFixed [Zero α] : Lowering.Inherited (Node.IsFixed (α := α)) where
  same a b hl _ hs h := by
    refine ⟨?_, hl ▸ h.deterministic⟩
    rw [h.own] at hs
    exact Option.not_isSome_iff_eq_none.mp (by rw [hs]; exact Bool.false_ne_true)
  made layer name inputs hship htrained := by
    refine ⟨rfl, ?_⟩
    change layer.isDeterministic = true
    cases layer with
    | input | activation | addition | multiout | identity | loss => rfl
    | fullyConnected => cases htrained
    | custom => cases hship
  fused _ _ h := ⟨h.own, rfl⟩

namespace Network

variable [Scalar α] {d n₀ n n' m m' : Network α} {loss : Option String}
  {inputs labels : List String} {u : Unit}

theorem isFixed_of_compile (hcompile : compile loss n = .ok u n')
    (h : ∀ a ∈ n.graph.nodes, a.IsFixed) : ∀ a ∈ n'.graph.nodes, a.IsFixed := by
  obtain ⟨_, nodes, hl, -, -, hident⟩ := nodes_of_compile hcompile
  have hlower := inherited_isFixed.keeps_lower loss n.fusionRules n.graph.nodes h
  rw [Action.after_of_ok hl] at hlower
  refine Lowering.all_of_map_eq (f := Lowering.ident) (fun a b heq ha => ?_) hident hlower
  simp only [Lowering.ident, Prod.mk.injEq] at heq
  exact ⟨heq.2.2.2 ▸ ha.own, heq.2.1 ▸ ha.deterministic⟩

omit [Scalar α] in
theorem isFixed_of_tasks {g g' : NodeGraph (Node α)} (ht : SameTasks g g')
    (h : ∀ a ∈ g.nodes, a.IsFixed) : ∀ a ∈ g'.nodes, a.IsFixed := by
  refine Lowering.all_of_map_eq (f := Node.task) (fun a b heq ha => ?_) ht.tasks h
  simp only [Node.task, design, Prod.mk.injEq] at heq
  exact ⟨heq.1.2.2.2.1 ▸ ha.own, heq.1.2.1 ▸ ha.deterministic⟩

/-- Weights that no node shares start from what their nodes ask for. -/
theorem starts_own {u' : Unit} (hd : Draft d) (hbuild : build loss inputs labels d = .ok u n₀)
    (hcalls : Relation.ReflTransGen Call n₀ n) (hempty : n.store.hasWeights = false)
    (hfill : fillWeights n = .ok u' n') (hown : ∀ a ∈ n.graph.nodes, a.sharedFrom = none)
    {a : Node α} (ha : a ∈ n.graph.nodes) :
    List.Forall₂ (fun w (p : String × Initializer α) => StartsAs n'.store w p.2) a.tensors.weights
      a.initials := by
  obtain ⟨hstarts, hprep⟩ := starts_of_calls hd hbuild hcalls
  have hreg := hprep.registered
  have hperm := hreg.compiled.ordered.perm
  have howner : ∀ a ∈ n.graph.nodes, a.owner = a.name :=
    fun a ha => by rw [Node.owner, hown a ha]; rfl
  have hstore : n'.store = n.store.filled n.store.maxStep := by
    rcases Store.fillWeights_eq_ok_iff.mp (store_of_fillWeights hfill) with ⟨hfilled,
      -⟩ | ⟨-, -, heq⟩
    · rw [hempty] at hfilled
      cases hfilled
    · exact heq
  obtain ⟨p, hp⟩ := List.getElem?_of_mem ha
  have hnames := (hreg.holds_of_node hp).weights
  cases hlayer : a.layer with
  | fullyConnected units weight bias =>
    have hfull : a.layer.isFullyConnected = true := by rw [hlayer]; rfl
    have hsorted := fun {b : Node α} => (sortedNodes_perm hperm).mem_iff (a := b)
    obtain ⟨before, f, after, units', weight', bias', hsplit, hf, hfo, -, hweight, hbias⟩ :=
      exists_first_of_owner ⟨a, hsorted.mpr ha, hfull, rfl⟩
    have hmem : f ∈ n.graph.nodes := hsorted.mp (by rw [hsplit]; simp)
    rw [howner a ha, howner f hmem] at hfo
    obtain rfl : a = f := Lowering.node_eq_of_name hreg.compiled.wired.distinct ha hmem hfo.symm
    rw [hlayer] at hf
    cases hf
    rw [hlayer] at hnames
    rw [Node.initials, hlayer]
    generalize a.tensors.weights = ws at hnames
    obtain - | ⟨hw, - | ⟨hb, ⟨⟩⟩⟩ := hnames
    rw [hstore]
    exact .cons (startsAs_of_filled hstarts hreg.registry hw hweight _)
      (.cons (startsAs_of_filled hstarts hreg.registry hb hbias _) .nil)
  | input | activation | addition | multiout | identity | loss | custom =>
    rw [hlayer] at hnames
    rw [Node.initials, hlayer]
    generalize a.tensors.weights = ws at hnames
    obtain ⟨⟩ := hnames
    exact .nil

/-- Nodes of one name hold the same in their weights. -/
def SameWeights (n m : Network α) : Prop :=
  ∀ a ∈ n.graph.nodes, ∀ b ∈ m.graph.nodes, b.name = a.name →
    List.Forall₂ (fun w w' => m.store.reader.weight w' = n.store.reader.weight w) a.tensors.weights
      b.tensors.weights

/-- What a weight starts from can be read once weights are filled, and has the shape of the
weight. -/
theorem Prepared.weight_eq_of_startsAs {asks : (Shape → List Shape) → Prop} (h : Prepared asks n)
    (hfilled : n.store.hasWeights = true) {w : WeightRef} {shape : Shape} {init : Initializer α}
    (hw : n.store.HasWeight w shape) (hstarts : StartsAs n.store w init) :
    ∃ seed, n.store.reader.weight w = .ok (init.fill seed shape) := by
  have hreg := h.registered.registry
  obtain ⟨r, seed, shape', hr, hvalue⟩ := hstarts
  obtain ⟨r', e, hr', he, -, rfl⟩ := hw
  obtain rfl : r = r' := Option.some.inj (hr.symm.trans hr')
  obtain ⟨e', he', hrole⟩ := hreg.value w r hr
  obtain rfl : e = e' := Option.some.inj (he.symm.trans he')
  obtain ⟨v, hv, hshape⟩ :=
    (Store.Held.refl h.loaded).get (Store.buffered_of_kept hreg he (by rw [hrole]; rfl) hfilled)
  obtain rfl := Except.ok.inj (hvalue.symm.trans hv)
  rw [Initializer.shape_fill] at hshape
  refine ⟨seed, ?_⟩
  rw [← hshape, ← hvalue]
  change (do n.store.get (← n.store.weight w).value) = _
  rw [Store.weight_eq_ok_iff.mpr hr]
  rfl

end Network

end LayerGraph
