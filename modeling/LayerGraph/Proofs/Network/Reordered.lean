import LayerGraph.Proofs.Network.Fixed
import LayerGraph.Proofs.Network.Handed
import LayerGraph.Proofs.Network.Named
import LayerGraph.Proofs.Network.Widths
import LayerGraph.Proofs.Tensor.Sum

/-!
# Nodes in any order

Where every node says what it reads, shares no weights and starts from values that are not drawn at
random, the order in which the nodes were added does not matter: a network can be built from them in
one order if it can be in another, and networks built in two orders run alike as far as names can
tell.
-/

namespace LayerGraph

open Network

variable {α τ : Type}

/-- What is fed to a node fits if it has the shape of the node's tensors. -/
theorem Node.fed_fits_iff {x t : String → Tensor α} {s : Store α} {batch width : Nat}
    (hreg : Store.Registry batch s) {a : Node α} (hf : Fits s a.layer a.tensors)
    (hout : ∀ y ∈ a.tensors.outputs, s.HasWidth y.value width)
    (hlabel : ∀ l, a.tensors.label = some l → s.HasWidth l width) :
    (∀ w ∈ a.fed x t, s.shape w.1 = .ok w.2.shape) ↔
      (a.isSource = true ∨ a.isLoss = true → (if a.isSource then x a.name else t a.name).shape =
        ⟨batch, width⟩) := by
  have hshape : ∀ w ∈ a.fed x t, s.shape w.1 = .ok ⟨batch, width⟩ := by
    intro w hw
    rcases Node.mem_fed_iff.mp hw with ⟨-, y, hy, rfl⟩ | ⟨l, hl, rfl⟩
    · exact (hout y hy).shape hreg
    · exact (hlabel l hl).shape hreg
  constructor
  · intro hall hfed
    obtain ⟨w, hw⟩ : ∃ w, w ∈ a.fed x t := by
      rcases hfed with hs | hl
      · obtain ⟨-, y, hy⟩ := hf.faces.1 hs
        exact ⟨_, Node.mem_fed_iff.mpr (.inl ⟨hs, y, by simp [hy], rfl⟩)⟩
      · obtain ⟨l, hl⟩ := Option.isSome_iff_exists.mp (hf.faces.2.trans hl)
        exact ⟨_, Node.mem_fed_iff.mpr (.inr ⟨l, hl, rfl⟩)⟩
    rw [← Node.snd_of_fed hf hw]
    exact Except.ok.inj ((hall w hw).symm.trans (hshape w hw))
  · intro hall w hw
    have hfed : a.isSource = true ∨ a.isLoss = true :=
      (Node.mem_fed_iff.mp hw).imp (·.1) fun ⟨l, hl, _⟩ =>
      hf.faces.2.symm.trans (by rw [hl]; rfl)
    rw [hshape w hw, Node.snd_of_fed hf hw, hall hfed]

/-- Networks that cannot be told apart by names. What is fed by name is fed to both or to neither;
then both run forward, nodes of one name put out the same, and the losses add up to the same; and
backward passes after that, which leave weights as they are, hand over the same gradient under each
name. -/
structure Network.RunsByName [Scalar α] (n n' : Network α) : Prop where
  feeds : ∀ x t, (∃ m, feedNamed x t n = .ok () m) ↔ ∃ m', feedNamed x t n' = .ok () m'
  forward : ∀ x t m m' training, feedNamed x t n = .ok () m → feedNamed x t n' = .ok () m' →
    training = false ∨ n.store.mode = some .train → ∃ outputs seen k outputs' seen' k',
      Network.forward training m = .ok outputs k ∧ forwardSeen training m = .ok seen k ∧
      Network.forward training m' = .ok outputs' k' ∧ forwardSeen training m' = .ok seen' k' ∧
      seen'.Perm seen ∧ k'.loss = k.loss
  backward : ∀ x t m m' outputs outputs' k k', feedNamed x t n = .ok () m →
    feedNamed x t n' = .ok () m' →
    Network.forward true m = .ok outputs k → Network.forward true m' = .ok outputs' k' →
    ∀ {τ : Type} (rule : String → WeightState α → Action τ (WeightState α)) (own : τ),
      (∀ name old own new own', rule name old own = .ok new own' → new.value = old.value) →
      ((∀ name, Store.KeepsShapes (fun _ => True) (rule name)) →
        (∃ s, Network.backward (handOver rule) ((own, []), k) = .ok () s) ∧
          ∃ s, Network.backward (handOver rule) ((own, []), k') = .ok () s) ∧
      ∀ own₁ own₁' log log' l l', Network.backward (handOver rule) ((own, []), k) =
        .ok () ((own₁, log), l) →
        Network.backward (handOver rule) ((own, []), k') = .ok () ((own₁', log'), l') →
        (gradientsIn log').Perm (gradientsIn log)

namespace Reflects

section Shapes

variable {g g' : NodeGraph (Node α)} {s s' : Store α} {batch : Nat} {π : Equiv.Perm Nat}
  {σ : Nat → Equiv.Perm Nat} (h : Reflects g g' s s' batch π σ) {x t : String → Tensor α}
include h

/-- What counterparts are fed is fed to tensors of the same shapes. -/
theorem fed_fits_iff {p : Nat} {a b : Node α} (ha : g.nodes[p]? = some a)
    (hb : g'.nodes[π p]? = some b) :
    (∀ w ∈ a.fed x t, s.shape w.1 = .ok w.2.shape) ↔ ∀ w ∈ b.fed x t,
      s'.shape w.1 = .ok w.2.shape := by
  obtain ⟨hf, hf'⟩ := h.fits ha hb
  obtain ⟨⟨width, hout, hout', hlabel⟩, -⟩ := h.counterpart ha hb
  have hlayer := h.layer_eq ha hb
  have hlabels : a.tensors.label.isSome = b.tensors.label.isSome :=
    hf.faces.2.trans hf'.faces.2.symm
  have hwidth : ∀ l, a.tensors.label = some l → s.HasWidth l width := fun l hl => by
    obtain ⟨l', hl'⟩ := Option.isSome_iff_exists.mp (hlabels.symm.trans (by rw [hl]; rfl))
    exact (hlabel l l' hl hl').1
  have hwidth' : ∀ l', b.tensors.label = some l' → s'.HasWidth l' width := fun l' hl' => by
    obtain ⟨l, hl⟩ := Option.isSome_iff_exists.mp (hlabels.trans (by rw [hl']; rfl))
    exact (hlabel l l' hl hl').2
  rw [Node.fed_fits_iff h.registered.registry hf (fun y hy => (hout y hy).value) hwidth,
    Node.fed_fits_iff h.registered'.registry (hlayer ▸ hf') (fun y hy => (hout' y hy).value)
      hwidth', Node.isSource, Node.isSource, Node.isLoss, Node.isLoss, hlayer, h.name_eq ha hb]

end Shapes

section Run

variable [Scalar α] {n n' : Network α} {π : Equiv.Perm Nat} {σ : Nat → Equiv.Perm Nat}
  (h : Reflects n.graph n'.graph n.store n'.store n.batchSize π σ)
  {asks : (Shape → List Shape) → Prop} {mode : RunMode} (hr : Ready asks mode n)
  (hr' : Ready asks mode n') (he : Exposed n) (he' : Exposed n') {x t : String → Tensor α}
include h hr hr' he he'

theorem feedNamed_iff : (∃ m, feedNamed x t n = .ok () m) ↔ ∃ m', feedNamed x t n' = .ok () m' := by
  rw [hr.feedNamed_iff he, hr'.feedNamed_iff he']
  exact h.forall_iff fun p a b ha hb => h.fed_fits_iff ha hb

/-- Networks of the same weights that are fed by name start from the same. -/
theorem sameStart (hw : SameWeights n n') :
    SameStart n.graph n'.graph π (n.namedReader x t) (n'.namedReader x t) := by
  have hreg := hr.prepared.registered
  have hreg' := hr'.prepared.registered
  refine ⟨fun p a b ha hb hs y hy y' hy' => ?_, fun p a b l l' ha hb hl hl' => ?_,
    fun p a b ha hb => ?_⟩
  · have hs' : b.isSource = true := by rw [Node.isSource, h.layer_eq ha hb]; exact hs
    rw [he.value_of_fed hreg ha (w := (y.value, x a.name))
      (Node.mem_fed_iff.mpr (.inl ⟨hs, y, hy, rfl⟩)),
      he'.value_of_fed hreg' hb (w := (y'.value, x b.name))
        (Node.mem_fed_iff.mpr (.inl ⟨hs', y', hy', rfl⟩)), h.name_eq ha hb]
  · rw [he.value_of_fed hreg ha (w := (l, t a.name)) (Node.mem_fed_iff.mpr (.inr ⟨l, hl, rfl⟩)),
      he'.value_of_fed hreg' hb (w := (l', t b.name)) (Node.mem_fed_iff.mpr (.inr ⟨l', hl', rfl⟩)),
      h.name_eq ha hb]
  · rw [weight_namedReader, weight_namedReader]
    exact hw a (List.mem_of_getElem? ha) b (List.mem_of_getElem? hb) (h.name_eq ha hb)

variable (hw : SameWeights n n') (hcomm : ∀ x y : α, x + y = y + x)
  (hassoc : ∀ x y z : α, x + y + z = x + (y + z))
include hw hcomm hassoc

section Ran

variable {k k' : Network α} {r r' : Reader α} (hk : Ran asks mode x t n k r)
  (hk' : Ran asks mode x t n' k' r')
include hk hk'

/-- Nodes of one name put out the same, and the losses add up to the same. -/
theorem ran_alike : (n'.graph.nodes.map (·.putOut r')).Perm (n.graph.nodes.map (·.putOut r)) ∧
    k'.loss = k.loss := by
  have hreg := hr.prepared.registered
  have hreg' := hr'.prepared.registered
  have hs := solved_of_dataflow hreg ⟨fun _ _ => rfl, fun _ _ _ hw => hw⟩ hk.data
  have hs' := solved_of_dataflow hreg' ⟨fun _ _ => rfl, fun _ _ _ hw => hw⟩ hk'.data
  have hstart := h.sameStart hr hr' he he' hw (x := x) (t := t)
  refine ⟨h.perm_map fun p a b ha hb => ?_, ?_⟩
  · unfold Node.putOut
    rw [h.name_eq ha hb, except_mapM_of_forall₂
      (List.forall₂_iff_get.mpr ⟨(h.counts p a b ha hb).symm, fun i hi hi' => ?_⟩)]
    exact h.value_eq_of_runs hstart hs hs' ha hb _ (List.getElem_mem _) _ (List.getElem_mem _)
  · have hlosses := h.losses_perm hstart hs hs' hk.losses hk'.losses
    exact Scalar.sum_perm hcomm hassoc
      ((List.map_perm_map_iff (Option.some_injective α)).mp hlosses)

/-- Backward passes that leave weights as they are hand over the same gradient under each name. -/
theorem handed_alike (hmode : mode = .train) (hown : ∀ a ∈ n.graph.nodes, a.sharedFrom = none)
    (hown' : ∀ a ∈ n'.graph.nodes, a.sharedFrom = none) (hapart : n.store.StatesApart)
    (hapart' : n'.store.StatesApart) {rule : String → WeightState α → Action τ (WeightState α)}
    (hleaves : ∀ name old own new own', rule name old own = .ok new own' → new.value = old.value)
    {own own₁ own₁' : τ} {log log' : List (Handover α)} {l l' : Network α}
    (hrun : backward (handOver rule) ((own, []), k) = .ok () ((own₁, log), l))
    (hrun' : backward (handOver rule) ((own, []), k') = .ok () ((own₁', log'), l')) :
    (gradientsIn log').Perm (gradientsIn log) := by
  subst hmode
  have hreg := hr.prepared.registered
  have hreg' := hr'.prepared.registered
  have hs := solved_of_dataflow hreg ⟨fun _ _ => rfl, fun _ _ _ hw => hw⟩ hk.data
  have hs' := solved_of_dataflow hreg' ⟨fun _ _ => rfl, fun _ _ _ hw => hw⟩ hk'.data
  obtain ⟨given, record, t₁, hback, hlog, hreplaces⟩ := hk.handsOver hreg hapart hleaves hrun
  obtain ⟨given', record', t₁', hback', hlog', hreplaces'⟩ :=
    hk'.handsOver hreg' hapart' hleaves hrun'
  refine gradientsIn_perm h (fun p i a b w w' ha hb htrains hw₁ hw₁' => ?_) hreplaces hreplaces'
    hlog hlog' hk.framed hk'.framed
  exact h.given_eq hown hown' (h.sameStart hr hr' he he' hw (x := x) (t := t)) hs hs'
    (hk.readsShapes hreg) (hk'.readsShapes hreg').shape hback hback' hcomm hassoc
      ha hb htrains hw₁ hw₁'

end Ran

omit hw in
/-- Networks of the same weights whose graphs mirror each other cannot be told apart by names. -/
theorem runsByName (hallocated : n.store.mode = some mode) (hw : SameWeights n n')
    (hown : ∀ a ∈ n.graph.nodes, a.sharedFrom = none)
    (hown' : ∀ a ∈ n'.graph.nodes, a.sharedFrom = none) (hapart : n.store.StatesApart)
    (hapart' : n'.store.StatesApart) (hasks : asks = fun _ => True) : RunsByName n n' := by
  subst hasks
  refine ⟨fun x t => h.feedNamed_iff hr hr' he he', fun x t m m' training hfeed hfeed' hmode => ?_,
    fun x t m m' outputs outputs' k k' hfeed hfeed' hrun hrun' τ rule own hleaves => ?_⟩
  · have hmode : training = false ∨ mode = .train :=
      hmode.imp_right fun htrain => Option.some.inj (hallocated.symm.trans htrain)
    obtain ⟨outputs, k, seen, r, hrun, hseen, hk, hput⟩ := hr.exists_ran he hfeed hmode
    obtain ⟨outputs', k', seen', r', hrun', hseen', hk', hput'⟩ := hr'.exists_ran he' hfeed' hmode
    obtain ⟨hnodes, hloss⟩ := h.ran_alike hr hr' he he' hw hcomm hassoc hk hk'
    refine ⟨outputs, seen, k, outputs', seen', k', hrun, hseen, hrun', hseen', ?_, hloss⟩
    exact (List.map_perm_map_iff fun _ _ => Except.ok.inj).mp ((hput'.trans hnodes).trans hput.symm)
  · -- A run in training has been allocated for it.
    obtain rfl : mode = .train := by
      obtain ⟨-, hm, -, hgraph⟩ := hr.fedNamed he hfeed
      obtain ⟨_, _, hready, hrun⟩ := Action.bind_eq_ok_iff.mp hrun
      obtain ⟨-, rfl⟩ := Action.read_eq_ok_iff.mp hready
      obtain ⟨_, _, hget, hrun⟩ := Action.bind_eq_ok_iff.mp hrun
      cases hget
      obtain ⟨hguard, -⟩ := Action.guard_eq_ok_iff.mp hrun
      rw [hm.prepared.mode _ hm.allocated] at hguard
      cases mode with
      | train => rfl
      | inference => exact absurd ⟨rfl, rfl⟩ hguard
    obtain ⟨_, _, -, r, hran, -, hk, -⟩ := hr.exists_ran he hfeed (.inr rfl)
    cases hrun.symm.trans hran
    obtain ⟨_, _, -, r', hran', -, hk', -⟩ := hr'.exists_ran he' hfeed' (.inr rfl)
    cases hrun'.symm.trans hran'
    exact ⟨fun hrule => ⟨hk.exists_backward hrule own, hk'.exists_backward hrule own⟩,
      fun own₁ own₁' log log' l l' hback hback' => h.handed_alike hr hr' he he' hw hcomm hassoc hk
        hk' rfl hown hown' hapart hapart' hleaves hback hback'⟩

end Run

end Reflects

namespace Network

variable [Scalar α] {d d' n₀ n₀' n n' m m' : Network α} {loss : Option String} {u u' : Unit}

section Build

variable (hd : Draft d) (hd' : Draft d') (hrules : d'.fusionRules = d.fusionRules)
  (hbatch : d'.batchSize = d.batchSize) (hperm : d'.graph.nodes.Perm d.graph.nodes)
  (hexplicit : Lowering.Explicit d.graph.nodes) (hfixed : ∀ a ∈ d.graph.nodes, a.IsFixed)
include hd hd' hrules hbatch hperm hexplicit hfixed

/-- What can be built in one order can be built in another. -/
theorem exists_build_of_perm (hbuild : build loss [] [] d = .ok u n₀) :
    ∃ n₀', build loss [] [] d' = .ok () n₀' := by
  obtain ⟨_, m₀, hcompile, hprepare⟩ := Action.bind_eq_ok_iff.mp hbuild
  obtain ⟨m₀', hcompile'⟩ := exists_mirrored_compile hd'.open_ hrules hexplicit hperm hcompile
  obtain ⟨π, σ, hm⟩ := exists_mirrors_of_compile hrules hexplicit hperm hcompile hcompile'
  have hdrawn := drawn_of_compile hd hcompile
  have hdrawn' := drawn_of_compile hd' hcompile'
  obtain ⟨shapes, hshaped⟩ := shaped_of_prepare hdrawn hprepare
  have hshaped' := hshaped.mirrored hm hdrawn.compiled.wired hdrawn'.compiled.wired
  have hsize : m₀.batchSize = m₀'.batchSize := by
    rw [batchSize_of_compile hcompile, batchSize_of_compile hcompile', hbatch]
  rw [hsize] at hshaped'
  have hown : ∀ a ∈ m₀'.graph.nodes, a.sharedFrom = none := fun a ha =>
    (isFixed_of_compile hcompile' (fun a ha => hfixed a (hperm.mem_iff.mp ha)) a ha).own
  obtain ⟨n₀', hprepare'⟩ := exists_prepare_of_shaped hdrawn' hown hshaped'
  exact ⟨n₀', (Action.bind_of_ok hcompile').trans hprepare'⟩

/-- What is built in two orders mirrors each other, and its weights belong to one node each and
start from fixed values. -/
theorem exists_reflects_of_build (hbuild : build loss [] [] d = .ok u n₀)
    (hbuild' : build loss [] [] d' = .ok u' n₀') :
    (∃ π σ, Reflects n₀.graph n₀'.graph n₀.store n₀'.store d.batchSize π σ) ∧
      (Exposed n₀ ∧ Exposed n₀') ∧
      (∀ a ∈ n₀.graph.nodes, a.IsFixed) ∧ ∀ a ∈ n₀'.graph.nodes, a.IsFixed := by
  obtain ⟨_, m₀, hcompile, hprepare⟩ := Action.bind_eq_ok_iff.mp hbuild
  obtain ⟨_, m₀', hcompile', hprepare'⟩ := Action.bind_eq_ok_iff.mp hbuild'
  obtain ⟨π, σ, hm⟩ := exists_mirrors_of_compile hrules hexplicit hperm hcompile hcompile'
  obtain ⟨hreg, hsettling, hsettled⟩ := settled_of_prepare (drawn_of_compile hd hcompile) hprepare
  obtain ⟨hreg', hsettling', hsettled'⟩ :=
    settled_of_prepare (drawn_of_compile hd' hcompile') hprepare'
  rw [batchSize_of_compile hcompile] at hreg hsettled
  rw [batchSize_of_compile hcompile', hbatch] at hreg' hsettled'
  obtain ⟨hinputs, hlabels, -⟩ := faces_of_prepare hprepare
  obtain ⟨hinputs', hlabels', -⟩ := faces_of_prepare hprepare'
  have hfixed_of : ∀ {m n : Network α}, Settling m.graph n.graph →
      (∀ a ∈ m.graph.nodes, a.IsFixed) → ∀ a ∈ n.graph.nodes, a.IsFixed :=
    fun hsettling => Lowering.all_of_map_eq (f := design) (fun a b heq ha => by
      simp only [design, Prod.mk.injEq] at heq
      exact ⟨heq.2.2.2.1 ▸ ha.own, heq.2.1 ▸ ha.deterministic⟩) hsettling.design
  exact ⟨⟨π, σ, .of_settled (hm.of_design hsettling.design hsettling'.design) hreg
      hreg' hsettled hsettled'⟩,
    ⟨⟨hinputs, hlabels⟩, ⟨hinputs', hlabels'⟩⟩,
    hfixed_of hsettling (isFixed_of_compile hcompile hfixed),
    hfixed_of hsettling' (isFixed_of_compile hcompile' fun a ha => hfixed a (hperm.mem_iff.mp ha))⟩

end Build

theorem exists_store_of_fillWeights (h : fillWeights n = .ok u n') :
    ∃ s, n' = { n with store := s } := by
  obtain ⟨_, _, hget, h⟩ := Action.bind_eq_ok_iff.mp h
  cases hget
  obtain ⟨-, h⟩ := Action.guard_eq_ok_iff.mp h
  obtain ⟨_, _, hget, h⟩ := Action.bind_eq_ok_iff.mp h
  cases hget
  obtain ⟨s, -, rfl⟩ := Action.focus_eq_ok_iff.mp h
  exact ⟨s, rfl⟩

/-- Weights that are filled in networks which mirror each other hold the same, if nothing is drawn
at random. -/
theorem sameWeights_of_starts {asks : (Shape → List Shape) → Prop} {batch : Nat}
    {π : Equiv.Perm Nat} {σ : Nat → Equiv.Perm Nat}
    (h : Reflects n.graph n'.graph n.store n'.store batch π σ) (hp : Prepared asks n)
    (hp' : Prepared asks n') (hfilled : n.store.hasWeights = true)
    (hfilled' : n'.store.hasWeights = true) (hfixed : ∀ a ∈ n.graph.nodes, a.IsFixed)
    (hstarts : ∀ a ∈ n.graph.nodes,
      List.Forall₂ (fun w p => StartsAs n.store w p.2) a.tensors.weights a.initials)
    (hstarts' : ∀ a ∈ n'.graph.nodes,
      List.Forall₂ (fun w p => StartsAs n'.store w p.2) a.tensors.weights a.initials) :
    SameWeights n n' := by
  intro a ha b hb hname
  obtain ⟨p, hpa⟩ := List.getElem?_of_mem ha
  obtain ⟨b', hpb, -⟩ := h.exists_node hpa
  obtain rfl : b = b' := Lowering.node_eq_of_name h.registered'.compiled.wired.distinct hb
    (List.mem_of_getElem? hpb) (hname.trans (h.name_eq hpa hpb).symm)
  have hinitials : b.initials = a.initials := by
    unfold Node.initials
    rw [Node.owner, Node.owner, h.name_eq hpa hpb, h.layer_eq hpa hpb, h.sharedFrom_eq hpa hpb]
  have hfrom := hstarts a ha
  have hfrom' := hstarts' b hb
  rw [hinitials] at hfrom'
  obtain ⟨-, hweights⟩ := h.counterpart hpa hpb
  refine List.forall₂_iff_get.mpr ⟨hweights.length_eq, fun i hi hi' => ?_⟩
  obtain ⟨shape, hw, hw'⟩ := (List.forall₂_iff_get.mp hweights).2 i hi hi'
  have hlt : i < a.initials.length := hfrom.length_eq ▸ hi
  obtain ⟨seed, hvalue⟩ :=
    hp.weight_eq_of_startsAs hfilled hw ((List.forall₂_iff_get.mp hfrom).2 i hi hlt)
  obtain ⟨seed', hvalue'⟩ :=
    hp'.weight_eq_of_startsAs hfilled' hw' ((List.forall₂_iff_get.mp hfrom').2 i hi' hlt)
  rw [hvalue, hvalue',
    Initializer.fill_eq ((hfixed a ha).initials _ (List.get_mem a.initials ⟨i, hlt⟩)) seed' seed]

/-- The order in which nodes were added does not matter if each of them says what it reads, shares
no weights and draws nothing at random. A network can be built from them in one order if it can be
in another, whatever loss is appended. Then weights that are filled hold the same under each name,
and as long as they do, the networks cannot be told apart by names once both can run. -/
theorem indistinguishable_of_perm (hd : Draft d) (hd' : Draft d')
    (hrules : d'.fusionRules = d.fusionRules) (hbatch : d'.batchSize = d.batchSize)
    (hperm : d'.graph.nodes.Perm d.graph.nodes) (hexplicit : Lowering.Explicit d.graph.nodes)
    (hfixed : ∀ a ∈ d.graph.nodes, a.IsFixed) (hcomm : ∀ x y : α, x + y = y + x)
    (hassoc : ∀ x y z : α, x + y + z = x + (y + z)) (loss : Option String) :
    ((∃ n₀, build loss [] [] d = .ok () n₀) ↔ ∃ n₀', build loss [] [] d' = .ok () n₀') ∧
      ∀ n₀ n₀' n n', build loss [] [] d = .ok () n₀ → build loss [] [] d' = .ok () n₀' →
        Relation.ReflTransGen Call n₀ n → Relation.ReflTransGen Call n₀' n' →
        n'.batchSize = n.batchSize →
        (∀ m m', n.store.hasWeights = false → n'.store.hasWeights = false →
          fillWeights n = .ok () m → fillWeights n' = .ok () m' → SameWeights m m') ∧
        (n.checkReady = .ok () → n'.checkReady = .ok () → n'.store.mode = n.store.mode →
          SameWeights n n' → RunsByName n n') := by
  refine ⟨⟨fun ⟨_, hbuild⟩ => exists_build_of_perm hd hd' hrules hbatch hperm hexplicit hfixed
      hbuild, fun ⟨_, hbuild'⟩ =>
    exists_build_of_perm hd' hd hrules.symm hbatch.symm hperm.symm (hexplicit.perm hperm)
      (fun a ha => hfixed a (hperm.mem_iff.mp ha)) hbuild'⟩,
      fun n₀ n₀' n n' hbuild hbuild' hcalls hcalls' hsize => ?_⟩
  obtain ⟨⟨π, σ, hreflects⟩, ⟨hexposed, hexposed'⟩, hown, hown'⟩ :=
    exists_reflects_of_build hd hd' hrules hbatch hperm hexplicit hfixed hbuild hbuild'
  -- What calls make of a network that was built has its tasks.
  have hdescends : ∀ {d n₀ n : Network α}, Draft d → build loss [] [] d = .ok () n₀ →
      Relation.ReflTransGen Call n₀ n →
      Descends n.batchSize n₀ n := by
    intro d n₀ n hd hbuild hcalls
    obtain ⟨_, m₀, hcompile, hprepare⟩ := Action.bind_eq_ok_iff.mp hbuild
    exact (descends_refl (drawn_of_compile hd hcompile) hprepare n.batchSize).of_calls hcalls
  have hmirrors : ∀ {n n'}, Relation.ReflTransGen Call n₀ n → Relation.ReflTransGen Call n₀' n' →
      n'.batchSize = n.batchSize →
      Reflects n.graph n'.graph n.store n'.store n.batchSize π σ := by
    intro n n' hcalls hcalls' hsize
    have hn := hdescends hd hbuild hcalls
    have hn' := hdescends hd' hbuild' hcalls'
    exact hreflects.of_tasks hn.sameTasks hn'.sameTasks
      (hn.sound.prepared hn.alike.prepared).registered
      (hsize ▸ (hn'.sound.prepared hn'.alike.prepared).registered)
  have hn := hdescends hd hbuild hcalls
  have hn' := hdescends hd' hbuild' hcalls'
  have hfix := isFixed_of_tasks hn.sameTasks hown
  have hfix' := isFixed_of_tasks hn'.sameTasks hown'
  refine ⟨fun m m' hempty hempty' hfill hfill' => ?_, fun hready hready' hmode hweights => ?_⟩
  · obtain ⟨s, rfl⟩ := exists_store_of_fillWeights hfill
    obtain ⟨s', rfl⟩ := exists_store_of_fillWeights hfill'
    have hm := hcalls.tail (Action.after_of_ok hfill ▸ Call.fillWeights)
    have hm' := hcalls'.tail (Action.after_of_ok hfill' ▸ Call.fillWeights)
    have hdm := hdescends hd hbuild hm
    have hdm' := hdescends hd' hbuild' hm'
    exact sameWeights_of_starts (hmirrors hm hm' hsize) (hdm.sound.prepared hdm.alike.prepared)
      (hdm'.sound.prepared hdm'.alike.prepared) (hasWeights_of_fillWeights hfill)
        (hasWeights_of_fillWeights hfill') hfix (fun a ha => starts_own hd hbuild hcalls hempty
          hfill (fun a ha => (hfix a ha).own) ha) fun a ha => starts_own hd' hbuild' hcalls' hempty'
          hfill' (fun a ha => (hfix' a ha).own) ha
  · obtain ⟨mode, hallocated, hr⟩ := (hn.sound.prepared hn.alike.prepared).ready hready
    obtain ⟨mode', hallocated', hr'⟩ := (hn'.sound.prepared hn'.alike.prepared).ready hready'
    obtain rfl : mode = mode' :=
      Option.some.inj (hallocated.symm.trans (hmode.symm.trans hallocated'))
    exact (hmirrors hcalls hcalls' hsize).runsByName hr hr'
      (hexposed.of_tasks hn.sameTasks hn.alike.inputs hn.alike.labels)
      (hexposed'.of_tasks hn'.sameTasks hn'.alike.inputs hn'.alike.labels) hcomm
        hassoc hallocated hweights (fun a ha => (hfix a ha).own) (fun a ha => (hfix' a ha).own)
          hn.states.apart hn'.states.apart rfl

/-- A layer that reads the sum of two graph inputs, and a loss. -/
def summing : List (Node ℚ) :=
  [.ofLayer (.input 1) "x" [], .ofLayer (.input 1) "z" [],
    .ofLayer .addition "s" [⟨"x", 0⟩, ⟨"z", 0⟩],
    .ofLayer (.fullyConnected 1 (.constant 2) .ones) "y" [⟨"s", 0⟩],
    .ofLayer (.loss .mse) "e" [⟨"y", 0⟩]]

/-- A network of these nodes. -/
def drafted (nodes : List (Node ℚ)) : Network ℚ :=
  { (ofSettings ⟨1, true, none, []⟩ : Network ℚ) with graph := ⟨nodes, []⟩ }

theorem explicit_summing : Lowering.Explicit summing := by
  refine ⟨by decide, fun a ha => ?_, fun a ha => ?_, fun a ha => ?_⟩ <;> revert a <;> decide

theorem fixed_summing : ∀ a ∈ summing, a.IsFixed :=
  fun a ha => ⟨by revert a; decide, by revert a; decide⟩

theorem draft_drafted {nodes : List (Node ℚ)} (h : nodes.Perm summing) : Draft (drafted nodes) := by
  have hplain : Lowering.AllPlain summing := fun a ha => ⟨by revert a; decide, by revert a; decide⟩
  have hall : Lowering.AllPlain nodes := fun a ha => hplain a (h.subset ha)
  exact { draft_ofSettings ⟨1, true, none, []⟩ with plain := hall }

/-- A graph that compiling makes, with its order. -/
def drawnUp (nodes : List (Node ℚ)) (order : List NodeRef) : Network ℚ :=
  { drafted nodes with
    graph := ⟨nodes, order⟩
    store := (Store.empty true none).setBounds 5 8
    isCompiled := true }

/-- What compiling makes of the nodes in this order. -/
def summingCompiled : Network ℚ :=
  drawnUp [
    { Node.ofLayer (.input 1) "x" [] with outputs := [[⟨"s", 0⟩]], schedule := .oneWay 0 },
    { Node.ofLayer (.input 1) "z" [] with outputs := [[⟨"s", 1⟩]], schedule := .oneWay 1 },
    { Node.ofLayer .addition "s" [⟨"x", 0⟩, ⟨"z", 0⟩] with
      outputs := [[⟨"y", 0⟩]]
      schedule := .oneWay 2 },
    { Node.ofLayer (.fullyConnected 1 (.constant 2) .ones) "y" [⟨"s", 0⟩] with
      outputs := [[⟨"e", 0⟩]], schedule := .bothWays 3 1 5, collectsGradients := true },
    { Node.ofLayer (.loss .mse) "e" [⟨"y", 0⟩] with
      schedule := .bothWays 4 0 5, passesDerivatives := true, bufferUse := .view }] [0, 1, 2, 3, 4]

/-- What it makes of them in the opposite order, where the second graph input comes first. -/
def turnedCompiled : Network ℚ :=
  drawnUp [
    { Node.ofLayer (.loss .mse) "e" [⟨"y", 0⟩] with
      schedule := .bothWays 4 0 5, passesDerivatives := true, bufferUse := .view },
    { Node.ofLayer (.fullyConnected 1 (.constant 2) .ones) "y" [⟨"s", 0⟩] with
      outputs := [[⟨"e", 0⟩]], schedule := .bothWays 3 1 5, collectsGradients := true },
    { Node.ofLayer .addition "s" [⟨"x", 0⟩, ⟨"z", 0⟩] with
      outputs := [[⟨"y", 0⟩]]
      schedule := .oneWay 2 },
    { Node.ofLayer (.input 1) "z" [] with outputs := [[⟨"s", 1⟩]], schedule := .oneWay 0 },
    { Node.ofLayer (.input 1) "x" [] with
      outputs := [[⟨"s", 0⟩]]
      schedule := .oneWay 1 }] [3, 4, 2, 1, 0]

theorem compile_summing : compile none (drafted summing) = .ok () summingCompiled := by cbv

theorem compile_turned : compile none (drafted summing.reverse) = .ok () turnedCompiled := by cbv

/-- A compiled network that is prepared and allocated for training. -/
def started (n : Network ℚ) : Network ℚ := (allocate .train).after ((prepare [] []).after n)

/-- What it comes to once its weights are filled. -/
def running (n : Network ℚ) : Network ℚ := fillWeights.after (started n)

theorem called_started (n : Network ℚ) :
    Relation.ReflTransGen Call ((prepare [] []).after n) (started n) := .single (.allocate .train)

theorem called_running (n : Network ℚ) :
    Relation.ReflTransGen Call ((prepare [] []).after n) (running n) :=
  (called_started n).tail .fillWeights

/-- Both start with empty weights, can be filled and fed, and can run then. -/
theorem summing_started : ∀ n ∈ [summingCompiled, turnedCompiled],
    (prepare [] []).endsWell n = true ∧
    (started n).store.hasWeights = false ∧ (started n).batchSize = 1 ∧
    (fillWeights : Action (Network ℚ) Unit).endsWell (started n) = true ∧
    (running n).checkReady = .ok () ∧
    (running n).store.mode = some .train ∧ (running n).batchSize = 1 ∧
    (feedNamed (fun name => .ofFn ⟨1, 1⟩ fun _ _ => if name = "x" then 3 else 4) fun _ => .ofFn
      ⟨1, 1⟩ fun _ _ => 1).endsWell (running n) = true := by
  decide +kernel

theorem turned_indistinguishable :
    build none [] [] (drafted summing) = .ok () ((prepare [] []).after summingCompiled) ∧
    build none [] [] (drafted summing.reverse) = .ok () ((prepare [] []).after turnedCompiled) ∧
    RunsByName (running summingCompiled) (running turnedCompiled) ∧
    ∃ x t m, feedNamed x t (running summingCompiled) = .ok () m := by
  obtain ⟨hprepare, hempty, hbatch, hfill, hready, hmode, hsize, hfeed⟩ :=
    summing_started summingCompiled (by simp)
  obtain ⟨hprepare', hempty', hbatch', hfill', hready', hmode', hsize', -⟩ :=
    summing_started turnedCompiled (by simp)
  have hperm : summing.reverse.Perm summing := summing.reverse_perm
  have hbuild : build none [] [] (drafted summing) =
      .ok () ((prepare [] []).after summingCompiled) :=
    (Action.bind_of_ok compile_summing).trans (Action.eq_ok_of_endsWell hprepare)
  have hbuild' : build none [] [] (drafted summing.reverse) =
      .ok () ((prepare [] []).after turnedCompiled) :=
    (Action.bind_of_ok compile_turned).trans (Action.eq_ok_of_endsWell hprepare')
  obtain ⟨-, hall⟩ := indistinguishable_of_perm (draft_drafted (.refl _)) (draft_drafted hperm) rfl
    rfl hperm explicit_summing fixed_summing add_comm add_assoc none
  have hweights : SameWeights (running summingCompiled) (running turnedCompiled) :=
    (hall _ _ (started summingCompiled) (started turnedCompiled) hbuild hbuild' (called_started _)
      (called_started _) (hbatch'.trans hbatch.symm)).1 _ _ hempty hempty'
      (Action.eq_ok_of_endsWell hfill) (Action.eq_ok_of_endsWell hfill')
  have hruns : RunsByName (running summingCompiled) (running turnedCompiled) :=
    (hall _ _ (running summingCompiled) (running turnedCompiled) hbuild hbuild' (called_running _)
      (called_running _) (hsize'.trans hsize.symm)).2 hready hready'
      (hmode'.trans hmode.symm) hweights
  exact ⟨hbuild, hbuild', hruns, _, _, _, Action.eq_ok_of_endsWell hfeed⟩

end Network

end LayerGraph
