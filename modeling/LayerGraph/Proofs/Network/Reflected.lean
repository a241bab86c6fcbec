import LayerGraph.Proofs.Layer.Counterpart
import LayerGraph.Proofs.Network.Sharing
import LayerGraph.Proofs.Network.Shaped
import LayerGraph.Proofs.Network.Solved

/-!
# Runs of mirrored graphs

Graphs that mirror each other run alike from memories that hold the same for counterparts:
counterparts put out the same, find the same losses, pass the same back and give the same to
gradients. Only the outputs of a multiout node may stand in another order, and all of these are
equal.
-/

namespace LayerGraph

open Network

variable {α : Type}

/-- The designs of the nodes say which graphs mirror each other. -/
theorem Counterparts.of_design {g g' k k' : NodeGraph (Node α)} {π : Equiv.Perm Nat}
    {σ : Nat → Equiv.Perm Nat} (h : Counterparts g g' π σ)
    (hdesign : k.nodes.map design = g.nodes.map design)
    (hdesign' : k'.nodes.map design = g'.nodes.map design) : Counterparts k k' π σ := by
  have hident : ∀ {g k : NodeGraph (Node α)}, k.nodes.map design = g.nodes.map design → ∀ p : Nat,
      (k.nodes[p]?).map Lowering.ident = (g.nodes[p]?).map Lowering.ident := by
    intro g k hdesign p
    have hall :=
      congrArg (fun ds => (ds[p]?).map fun d => (d.1.1, d.2.1, d.2.2.1, d.2.2.2.1)) hdesign
    simp only [List.getElem?_map, Option.map_map] at hall
    exact hall
  refine ⟨fun p => ?_, fun q => (h.fixed q).imp_right ?_, fun p i q k => ?_⟩
  · rw [hident hdesign', hident hdesign]
    exact h.node p
  · rintro ⟨a, ha, hlayer⟩
    obtain ⟨b, hb, heq⟩ := getElem?_of_map_eq hdesign.symm ha
    simp only [design, Prod.mk.injEq] at heq
    exact ⟨b, hb, heq.2.1.trans hlayer⟩
  · rw [readsSlot_iff_of_wires (wires_of_design hdesign),
      readsSlot_iff_of_wires (wires_of_design hdesign')]
    exact h.reads p i q k

/-- Registered graphs that mirror each other, in which counterparts have as many outputs. -/
structure Reflects (g g' : NodeGraph (Node α)) (s s' : Store α) (batch : Nat) (π : Equiv.Perm Nat)
    (σ : Nat → Equiv.Perm Nat) : Prop extends Counterparts g g' π σ where
  registered : Registered g s batch g.order
  registered' : Registered g' s' batch g'.order
  counts : ∀ (p : Nat) (a b : Node α), g.nodes[p]? = some a → g'.nodes[π p]? = some b →
    b.tensors.outputs.length = a.tensors.outputs.length

/-- The nodes in a list read nothing but nodes in the list. -/
def Closed (g : NodeGraph (Node α)) (done : List NodeRef) : Prop :=
  ∀ p ∈ done, ∀ i q k, ReadsSlot g p i q k → q ∈ done

section Closed

variable {g : NodeGraph (Node α)} {done rest : List NodeRef}

/-- What stands before a place in the order reads nothing behind it. -/
theorem closed_of_split (ho : Ordered g) (hsplit : g.order = done ++ rest) : Closed g done := by
  intro p hp i q k hread
  have hlt := ho.before _ _ _ _ hread
  have hplace : ∀ {x}, x ∈ done ↔ place g x < done.length := by
    intro x
    unfold place
    rw [hsplit]
    constructor
    · exact fun hx => List.idxOf_append_of_mem hx ▸ List.idxOf_lt_length_of_mem hx
    · intro hx
      by_contra hnot
      rw [List.idxOf_append_of_notMem hnot] at hx
      omega
  exact hplace.mpr (Nat.lt_trans hlt (hplace.mp hp))

end Closed

/-- All results of a node are equal. -/
theorem Layer.results_uniform [Scalar α] {s : Store α} {layer : Layer α} {handles : Handles}
    (hf : Fits s layer handles) {r : Reader α} {vs : List (Tensor α)}
    (h : layer.results handles r = .ok vs) : ∀ v ∈ vs, ∀ v' ∈ vs, v' = v := by
  by_cases hview : layer.reuse = .view
  · obtain ⟨_, u, -, -, hall⟩ := Layer.results_of_view hf hview h
    exact fun v hv v' hv' => (hall v' hv').trans (hall v hv).symm
  · have hlength := Layer.length_of_results hf h
    split at hlength
    · rw [hlength]
      exact nofun
    · have hone : handles.outputs.length = 1 := by
        cases hf with
        | multiout => exact absurd rfl hview
        | input | fullyConnected | activation | addition | identity | loss => rfl
      obtain ⟨u, rfl⟩ := List.length_eq_one_iff.mp (hlength.trans hone)
      exact fun v hv v' hv' => (List.mem_singleton.mp hv').trans (List.mem_singleton.mp hv).symm

namespace Reflects

variable {g g' : NodeGraph (Node α)} {s s' : Store α} {batch : Nat} {π : Equiv.Perm Nat}
  {σ : Nat → Equiv.Perm Nat}

theorem of_settled (hm : Counterparts g g' π σ) (hreg : Registered g s batch g.order)
    (hreg' : Registered g' s' batch g'.order)
    (h : ∀ (p : Nat) (a : Node α), g.nodes[p]? = some a → a.Settled s batch)
    (h' : ∀ (p : Nat) (a : Node α), g'.nodes[p]? = some a → a.Settled s' batch) :
    Reflects g g' s s' batch π σ := by
  refine ⟨hm, hreg, hreg', fun p a b ha hb => ?_⟩
  have hlayer := hm.layer_eq ha hb
  by_cases hmulti : a.layer = .multiout
  · rw [(h p a ha).length_outputs hmulti, (h' _ b hb).length_outputs (hlayer.trans hmulti),
      hm.length_outputs hreg.compiled.wired hreg'.compiled.wired ha hb]
  · rw [Network.length_outputs (hreg.holds_of_node ha).fits hmulti,
      Network.length_outputs (hreg'.holds_of_node hb).fits (hlayer ▸ hmulti)]

/-- The tasks of the nodes say which graphs reflect each other, once all is registered. -/
theorem of_tasks (h : Reflects g g' s s' batch π σ) {k k' : NodeGraph (Node α)} {t t' : Store α}
    {batch' : Nat} (htasks : SameTasks g k) (htasks' : SameTasks g' k')
    (hreg : Registered k t batch' k.order) (hreg' : Registered k' t' batch' k'.order) :
    Reflects k k' t t' batch' π σ := by
  have hdesign : ∀ {g k : NodeGraph (Node α)}, SameTasks g k → k.nodes.map design =
      g.nodes.map design := by
    intro g k ht
    have hall := congrArg (List.map Prod.fst) ht.tasks
    rwa [List.map_map, List.map_map] at hall
  refine ⟨h.of_design (hdesign htasks) (hdesign htasks'), hreg, hreg', fun p a b ha hb => ?_⟩
  obtain ⟨a₀, ha₀, heq⟩ := htasks.symm.node ha
  obtain ⟨b₀, hb₀, heq'⟩ := htasks'.symm.node hb
  rw [← (layer_of_task heq).2.1, ← (layer_of_task heq').2.1]
  exact h.counts p a₀ b₀ ha₀ hb₀

variable (h : Reflects g g' s s' batch π σ)
include h

section Node

variable {p : Nat} {a b : Node α} (ha : g.nodes[p]? = some a) (hb : g'.nodes[π p]? = some b)
include ha hb

theorem fits : Fits s a.layer a.tensors ∧ Fits s' a.layer b.tensors :=
  ⟨(h.registered.holds_of_node ha).fits, h.layer_eq ha hb ▸ (h.registered'.holds_of_node hb).fits⟩

theorem length_wires : b.tensors.inputs.length = a.tensors.inputs.length := by
  rw [(h.registered.linked_of_node ha).length, (h.registered'.linked_of_node hb).length,
    h.length_inputs h.registered.compiled.wired h.registered'.compiled.wired ha hb]

/-- The inputs of counterparts are outputs of counterparts. -/
theorem forall₂_inputs {R : Wire → Wire → Prop}
    (hR : ∀ (i q k : Nat) (c d : Node α) (x x' : Wire), ReadsSlot g p i q k → g.nodes[q]? = some c →
      g'.nodes[π q]? = some d → c.tensors.outputs[k]? = some x →
      d.tensors.outputs[σ q k]? = some x' → R x x') :
    List.Forall₂ R a.tensors.inputs b.tensors.inputs := by
  refine List.forall₂_iff_get.mpr ⟨(h.length_wires ha hb).symm, fun i hi hi' => ?_⟩
  obtain ⟨q, k, hread, c, hc, hx⟩ := h.registered.exists_producer ha (List.getElem?_eq_getElem hi)
  obtain ⟨q', k', hread', d, hd, hx'⟩ :=
    h.registered'.exists_producer hb (List.getElem?_eq_getElem hi')
  obtain ⟨rfl, rfl⟩ := ((h.reads ..).mp hread).unique hread'
  exact hR i q k c d _ _ hread hc hd hx hx'

end Node

/-- The outputs of counterparts are as wide. -/
theorem sameWidth_of_outputs {p : Nat} {a b : Node α} (ha : g.nodes[p]? = some a)
    (hb : g'.nodes[π p]? = some b) :
    ∀ y ∈ a.tensors.outputs, ∀ y' ∈ b.tensors.outputs, SameWidth s s' y y' := by
  induction hplace : place g p using Nat.strongRecOn generalizing p a b with
  | ind bound ih =>
    have hinputs : List.Forall₂ (SameWidth s s') a.tensors.inputs b.tensors.inputs :=
      h.forall₂_inputs ha hb fun i q k c d x x' hread hc hd hx hx' =>
        ih _ (hplace ▸ h.registered.compiled.ordered.before _ _ _ _ hread) hc hd rfl x
          (List.mem_of_getElem? hx) x' (List.mem_of_getElem? hx')
    obtain ⟨⟨width, hone, hone', -⟩, -⟩ := (h.fits ha hb).1.counterpart (h.fits ha hb).2 hinputs
    exact fun y hy y' hy' => ⟨width, hone y hy, hone' y' hy'⟩

section Shapes

variable {p : Nat} {a b : Node α} (ha : g.nodes[p]? = some a) (hb : g'.nodes[π p]? = some b)
include ha hb

/-- The tensors of counterparts have the same shapes. -/
theorem counterpart : (∃ width, (∀ y ∈ a.tensors.outputs, s.WireFits y width) ∧
    (∀ y ∈ b.tensors.outputs, s'.WireFits y width) ∧
      ∀ l l', a.tensors.label = some l → b.tensors.label = some l' → s.HasWidth l width ∧
      s'.HasWidth l' width) ∧ List.Forall₂ (fun w w' => ∃ shape, s.HasWeight w shape ∧
      s'.HasWeight w' shape) a.tensors.weights b.tensors.weights :=
  (h.fits ha hb).1.counterpart (h.fits ha hb).2 <| h.forall₂_inputs ha hb
    fun _ _ _ _ _ x x' _ hc hd hx hx' =>
    h.sameWidth_of_outputs hc hd x (List.mem_of_getElem? hx) x' (List.mem_of_getElem? hx')

end Shapes

end Reflects

/-- Memories from which two graphs run that hold the same for counterparts: what is fed, the labels
and the weights. -/
structure SameStart (g g' : NodeGraph (Node α)) (π : Equiv.Perm Nat) (r r' : Reader α) : Prop where
  source : ∀ (p : Nat) (a b : Node α), g.nodes[p]? = some a → g'.nodes[π p]? = some b →
    a.isSource = true → ∀ y ∈ a.tensors.outputs, ∀ y' ∈ b.tensors.outputs,
    r'.value y'.value = r.value y.value
  label : ∀ (p : Nat) (a b : Node α) (l l' : TensorRef), g.nodes[p]? = some a →
    g'.nodes[π p]? = some b →
    a.tensors.label = some l → b.tensors.label = some l' → r'.value l' = r.value l
  weight : ∀ (p : Nat) (a b : Node α), g.nodes[p]? = some a → g'.nodes[π p]? = some b →
    List.Forall₂ (fun w w' => r'.weight w' = r.weight w) a.tensors.weights b.tensors.weights

/-- What a backward pass is to read of a memory has the shape of its tensor. -/
structure ReadsShapes [Scalar α] (g : NodeGraph (Node α)) (s : Store α) (r : Reader α) : Prop where
  shape : r.shape = s.shape
  value : ∀ id v, NeededBackward g g.size id → r.value id = .ok v → s.shape id = .ok v.shape
  weight : ∀ w v shape, s.HasWeight w shape → r.weight w = .ok v → v.shape = shape

/-- The outputs of two nodes are given the same derivatives, in whatever order, and these have the
shapes of the outputs. -/
def SameDerivatives [Scalar α] (s : Store α) (r r' : Reader α) (a b : Node α) : Prop :=
  ∃ ds ds', a.tensors.outputs.mapM r.derivative = .ok ds ∧
    b.tensors.outputs.mapM r'.derivative = .ok ds' ∧ ds'.Perm ds ∧
    ∀ w ∈ a.tensors.outputs.zip ds, s.shape w.1.value = .ok w.2.shape

/-- The slots that a node has outputs for are those that are read, if any are. -/
theorem Registered.lt_length_iff {g : NodeGraph (Node α)} {s : Store α} {batch : Nat}
    (h : Registered g s batch g.order) {q k : Nat} {b : Node α} (hb : g.nodes[q]? = some b)
    (hread : b.isTerminal = false) : k < b.tensors.outputs.length ↔ ∃ r i, ReadsSlot g r i q k := by
  refine ⟨fun hk => h.exists_reader hb (List.getElem?_eq_getElem hk) hread, ?_⟩
  rintro ⟨r, i, hr⟩
  obtain ⟨c, hc⟩ := hr.reader
  obtain ⟨y, hy, -⟩ := (h.linked_of_node hc).wire i q k b hr hb
  exact (List.getElem?_eq_some_iff.mp hy).1

/-- A node that takes part is given derivatives by those that read it, unless it is fed. -/
theorem Registered.takes_of_participates {g : NodeGraph (Node α)} {s : Store α} {batch : Nat}
    (h : Registered g s batch g.order) {p : Nat} {a : Node α} (ha : g.nodes[p]? = some a)
    (hpart : a.participates = true) :
    ∀ y ∈ a.tensors.outputs, y.derivative.isSome = (!a.isTerminal && !a.isSource) := by
  intro y hy
  rw [((h.holds_of_node ha).outputs y hy).takes, hpart, Bool.true_and]

theorem Reader.derivative_of_none [Scalar α] {s : Store α} {r : Reader α}
    {batch width : Nat} {y : Wire} (hreg : Store.Registry batch s) (hshape : r.shape = s.shape)
    (hy : s.WireFits y width) (hnone : y.derivative.isSome = false) : r.derivative y =
      .ok (.zeros ⟨batch, width⟩) := by
  unfold Reader.derivative
  rw [Option.isSome_eq_false_iff, Option.isNone_iff_eq_none] at hnone
  rw [hnone]
  dsimp only
  rw [hshape, hy.value.shape hreg]
  rfl

/-- What a node has passed back to an input is the derivative of the output that it reads there. -/
theorem Returned.derivative_eq [Scalar α] {g : NodeGraph (Node α)} {s : Store α} {batch : Nat}
    {r t : Reader α} {given : WeightRef → List (Tensor α)}
    (hback : Returned g r g.order.reverse t given) (h : Registered g s batch g.order) {p i : Nat}
    {a : Node α} {dxs : List (Tensor α)} {x : Wire} {dx : Tensor α} (ha : g.nodes[p]? = some a)
    (hpasses : a.passesDerivatives = true) (hdxs : a.layer.derivatives a.tensors t = .ok dxs)
    (hx : a.tensors.inputs[i]? = some x) (hdx : dxs[i]? = some dx)
    (hsome : x.derivative.isSome = true) : t.derivative x = .ok dx := by
  obtain ⟨d, hd⟩ := Option.isSome_iff_exists.mp hsome
  obtain ⟨dxs', hdxs', hvalues⟩ :=
    hback.passed p (List.mem_reverse.mpr (h.mem_order ha)) a ha hpasses
  obtain rfl := Except.ok.inj (hdxs.symm.trans hdxs')
  unfold Reader.derivative
  rw [hd]
  refine hvalues (d, dx) (List.mem_filterMap.mpr ⟨(x, dx), ?_, by rw [hd]; rfl⟩)
  exact List.mem_of_getElem? (List.getElem?_zip_eq_some.mpr ⟨hx, hdx⟩)

theorem except_mapM_const {ε β γ : Type} {f : β → Except ε γ} {xs : List β} {c : γ}
    (h : ∀ x ∈ xs, f x = .ok c) : xs.mapM f = .ok (List.replicate xs.length c) := by
  induction xs with
  | nil => rfl
  | cons x xs ih =>
    rw [List.mapM_cons, h x List.mem_cons_self, ih fun y hy => h y (List.mem_cons_of_mem x hy)]
    rfl

namespace Reflects

variable [Scalar α] {g g' : NodeGraph (Node α)} {s s' : Store α} {batch : Nat} {π : Equiv.Perm Nat}
  {σ : Nat → Equiv.Perm Nat} (h : Reflects g g' s s' batch π σ) {r₀ r₀' r r' : Reader α}
include h

/-- Counterparts are given the same derivatives if their slots are. -/
theorem sameDerivatives_of_slots {p : Nat} {a b : Node α} (ha : g.nodes[p]? = some a)
    (hb : g'.nodes[π p]? = some b) (hopen : a.isTerminal = false) {t t' : Reader α}
    (hslot : ∀ k y y', a.tensors.outputs[k]? = some y → b.tensors.outputs[σ p k]? = some y' →
      ∃ d, t.derivative y = .ok d ∧ t'.derivative y' = .ok d ∧ s.shape y.value = .ok d.shape) :
    SameDerivatives s t t' a b := by
  have hlt : ∀ k, k < a.tensors.outputs.length ↔ σ p k < b.tensors.outputs.length := by
    intro k
    rw [h.registered.lt_length_iff ha hopen, h.registered'.lt_length_iff hb
      ((h.isTerminal_eq h.registered.compiled.wired h.registered'.compiled.wired ha hb).trans
        hopen)]
    constructor
    · rintro ⟨q, i, hr⟩
      exact ⟨_, i, (h.reads ..).mp hr⟩
    · rintro ⟨q, i, hr⟩
      refine ⟨π.symm q, i, (h.reads ..).mpr ?_⟩
      rwa [Equiv.apply_symm_apply]
  have hat : ∀ {k y}, a.tensors.outputs[k]? = some y → ∃ y' d, b.tensors.outputs[σ p k]? = some y' ∧
      t.derivative y = .ok d ∧ t'.derivative y' = .ok d ∧ s.shape y.value = .ok d.shape := by
    intro k y hy
    have hy' := List.getElem?_eq_getElem ((hlt k).mp (List.getElem?_eq_some_iff.mp hy).1)
    obtain ⟨d, hd⟩ := hslot k y _ hy hy'
    exact ⟨_, d, hy', hd⟩
  obtain ⟨ds, hds⟩ : ∃ ds, a.tensors.outputs.mapM t.derivative = .ok ds :=
    except_mapM_exists fun y hy => by
    obtain ⟨k, hk⟩ := List.getElem?_of_mem hy
    obtain ⟨-, d, -, hd, -⟩ := hat hk
    exact ⟨d, hd⟩
  obtain ⟨ds', hds'⟩ : ∃ ds', b.tensors.outputs.mapM t'.derivative = .ok ds' :=
    except_mapM_exists fun y' hy' => by
    obtain ⟨k', hk'⟩ := List.getElem?_of_mem hy'
    obtain ⟨k, rfl⟩ := (σ p).surjective k'
    have hy := List.getElem?_eq_getElem ((hlt k).mpr (List.getElem?_eq_some_iff.mp hk').1)
    obtain ⟨d, -, hd, -⟩ := hslot k _ y' hy hk'
    exact ⟨d, hd⟩
  have hlength := except_mapM_length hds
  have hlength' := except_mapM_length hds'
  refine ⟨ds, ds', hds, hds', perm_of_positions (σ p) fun k => ?_, fun w hw => ?_⟩
  · by_cases hk : k < a.tensors.outputs.length
    · obtain ⟨y', d, hy', hd, hd', -⟩ := hat (List.getElem?_eq_getElem hk)
      obtain ⟨e, he, hget⟩ := except_mapM_getElem? hds (List.getElem?_eq_getElem hk)
      obtain ⟨e', he', hget'⟩ := except_mapM_getElem? hds' hy'
      rw [he, he', Except.ok.inj (hget.symm.trans hd), Except.ok.inj (hget'.symm.trans hd')]
    · have hnot := (not_congr (hlt k)).mp hk
      have hnone : ds[k]? = none := List.getElem?_eq_none_iff.mpr (by omega)
      have hnone' : ds'[σ p k]? = none := List.getElem?_eq_none_iff.mpr (by omega)
      rw [hnone, hnone']
  · obtain ⟨k, hk⟩ := List.getElem?_of_mem hw
    obtain ⟨hy, hdk⟩ := List.getElem?_zip_eq_some.mp hk
    obtain ⟨-, d, -, hd, -, hshape⟩ := hat hy
    obtain ⟨e, he, hget⟩ := except_mapM_getElem? hds hy
    obtain rfl := Option.some.inj (he.symm.trans hdk)
    rwa [Except.ok.inj (hget.symm.trans hd)]

section Forward

variable (hstart : SameStart g g' π r₀ r₀')
include hstart

/-- Counterparts that have run, together with all that they depend on, have put out the same. -/
theorem value_eq {done done' : List NodeRef} (hs : Solved g (fun _ r => r) r₀ done r)
    (hs' : Solved g' (fun _ r => r) r₀' done' r') (hclosed : Closed g done)
    (hclosed' : Closed g' done') {p : NodeRef} (hp : p ∈ done) (hp' : π p ∈ done') {a b : Node α}
    (ha : g.nodes[p]? = some a) (hb : g'.nodes[π p]? = some b) :
    ∀ y ∈ a.tensors.outputs, ∀ y' ∈ b.tensors.outputs, r'.value y'.value = r.value y.value := by
  induction hplace : place g p using Nat.strongRecOn generalizing p a b with
  | ind bound ih =>
    intro y hy y' hy'
    obtain ⟨hf, hf'⟩ := h.fits ha hb
    have hlayer := h.layer_eq ha hb
    cases hsource : a.isSource with
    | true =>
      rw [hs.source h.registered ha hsource hy,
        hs'.source h.registered' hb (by rw [Node.isSource, hlayer]; exact hsource) hy']
      exact hstart.source p a b ha hb hsource y hy y' hy'
    | false =>
      obtain ⟨vs, hvs, -⟩ := hs.results p hp a ha
      have hsame : b.layer.results b.tensors r' = .ok vs := by
        rw [hlayer, ← hvs]
        refine Layer.results_counterpart hf hf' ?_ ?_ (h.counts p a b ha hb)
        · exact h.forall₂_inputs ha hb fun i q k c d x x' hread hc hd hx hx' =>
            ih _ (hplace ▸ h.registered.compiled.ordered.before _ _ _ _ hread)
              (hclosed p hp _ _ _ hread) (hclosed' _ hp' _ _ _ ((h.reads ..).mp hread)) hc hd rfl x
                (List.mem_of_getElem? hx) x' (List.mem_of_getElem? hx')
        · rw [hs.weight, hs'.weight]
          exact hstart.weight p a b ha hb
      have hlength := Layer.length_of_results hf hvs
      rw [show a.layer.isSource = false from hsource, if_neg Bool.false_ne_true] at hlength
      obtain ⟨k, hk⟩ := List.getElem?_of_mem hy
      obtain ⟨k', hk'⟩ := List.getElem?_of_mem hy'
      have hlt := (List.getElem?_eq_some_iff.mp hk).1
      have hlt' := (List.getElem?_eq_some_iff.mp hk').1
      rw [h.counts p a b ha hb] at hlt'
      rw [hs.value_of_results hp ha hvs hk (List.getElem?_eq_getElem (hlength ▸ hlt)),
        hs'.value_of_results hp' hb hsame hk' (List.getElem?_eq_getElem (hlength ▸ hlt')),
        Layer.results_uniform hf hvs _ (List.getElem_mem _) _ (List.getElem_mem _)]

/-- All counterparts put out the same in full runs. -/
theorem value_eq_of_runs (hs : Solved g (fun _ r => r) r₀ g.order r)
    (hs' : Solved g' (fun _ r => r) r₀' g'.order r') {p : NodeRef} {a b : Node α}
    (ha : g.nodes[p]? = some a) (hb : g'.nodes[π p]? = some b) :
    ∀ y ∈ a.tensors.outputs, ∀ y' ∈ b.tensors.outputs, r'.value y'.value = r.value y.value :=
  h.value_eq hstart hs hs' (closed_of_split h.registered.compiled.ordered (List.append_nil _).symm)
    (closed_of_split h.registered'.compiled.ordered (List.append_nil _).symm)
      (h.registered.mem_order ha) (h.registered'.mem_order hb) ha hb

/-- Full runs find the same losses. -/
theorem losses_perm (hs : Solved g (fun _ r => r) r₀ g.order r)
    (hs' : Solved g' (fun _ r => r) r₀' g'.order r') {found found' : List (Option α)}
    (hfound : lossesIn g r = .ok found) (hfound' : lossesIn g' r' = .ok found') :
    found'.Perm found := by
  have hof : ∀ {g : NodeGraph (Node α)} {r : Reader α} {found : List (Option α)},
      lossesIn g r = .ok found →
      ((g.nodes.map fun a => (a.isLoss, a.layer.lossOf a.tensors r)).filter (·.1)).map (·.2) =
      found.map .ok := by
    intro g r found hfound
    rw [List.filter_map, List.map_map]
    exact List.forall₂_eq_eq_eq ▸ (List.forall₂_map_right_iff.mpr (List.forall₂_map_left_iff.mpr
        (except_mapM_eq_ok_iff.mp hfound)))
  have hperm : (g'.nodes.map fun b => (b.isLoss, b.layer.lossOf b.tensors r')).Perm
      (g.nodes.map fun a => (a.isLoss, a.layer.lossOf a.tensors r)) :=
        h.perm_map fun p a b ha hb => by
      obtain ⟨hf, hf'⟩ := h.fits ha hb
      have hlayer := h.layer_eq ha hb
      refine Prod.ext (by rw [Node.isLoss, Node.isLoss, hlayer]) ?_
      rw [hlayer]
      refine Layer.lossOf_counterpart hf hf' ?_ fun l l' hl hl' => ?_
      · exact h.forall₂_inputs ha hb fun _ _ _ c d x x' _ hc hd hx hx' =>
          h.value_eq_of_runs hstart hs hs' hc hd x (List.mem_of_getElem? hx) x'
            (List.mem_of_getElem? hx')
      · rw [hs.label h.registered ha hl, hs'.label h.registered' hb hl']
        exact hstart.label p a b l l' ha hb hl hl'
  have hlosses := (hperm.filter (·.1)).map (·.2)
  rw [hof hfound, hof hfound'] at hlosses
  exact (List.map_perm_map_iff fun _ _ => Except.ok.inj).mp hlosses

end Forward

section Backward

variable (hstart : SameStart g g' π r₀ r₀') (hs : Solved g (fun _ r => r) r₀ g.order r)
  (hs' : Solved g' (fun _ r => r) r₀' g'.order r') (hread : ReadsShapes g s r)
  (hread' : r'.shape = s'.shape) {t t' : Reader α} {given given' : WeightRef → List (Tensor α)}
  (hback : Returned g r g.order.reverse t given)
  (hback' : Returned g' r' g'.order.reverse t' given')
include hstart hs hs' hback hback'

section Kept

variable {p : Nat} {a b : Node α} (ha : g.nodes[p]? = some a) (hb : g'.nodes[π p]? = some b)
include ha hb

/-- What counterparts have put out is still the same when derivatives have been passed back. -/
theorem value_eq_of_returned : ∀ y ∈ a.tensors.outputs, ∀ y' ∈ b.tensors.outputs,
    t'.value y'.value = t.value y.value := by
  intro y hy y' hy'
  obtain ⟨k, hk⟩ := List.getElem?_of_mem hy
  obtain ⟨k', hk'⟩ := List.getElem?_of_mem hy'
  rw [hback.rest y.value fun q j hd => value_ne_derivative h.registered ⟨a, ha, hk⟩ hd rfl,
    hback'.rest y'.value fun q j hd => value_ne_derivative h.registered' ⟨b, hb, hk'⟩ hd rfl]
  exact h.value_eq_of_runs hstart hs hs' ha hb y hy y' hy'

theorem inputs_eq_of_returned :
    List.Forall₂ (fun x x' => t'.value x'.value = t.value x.value) a.tensors.inputs
      b.tensors.inputs :=
  h.forall₂_inputs ha hb fun _ _ _ _ _ x x' _ hc hd hx hx' => h.value_eq_of_returned hstart hs
    hs' hback hback' hc hd x (List.mem_of_getElem? hx) x' (List.mem_of_getElem? hx')

omit h in
theorem weights_eq_of_returned :
    List.Forall₂ (fun w w' => t'.weight w' = t.weight w) a.tensors.weights b.tensors.weights := by
  rw [hback.weight, hback'.weight, hs.weight, hs'.weight]
  exact hstart.weight p a b ha hb

theorem label_eq_of_returned {l l' : TensorRef} (hl : a.tensors.label = some l)
    (hl' : b.tensors.label = some l') : t'.value l' = t.value l := by
  rw [hback.rest l fun q j hd => label_ne_derivative h.registered ha hl hd rfl,
    hback'.rest l' fun q j hd => label_ne_derivative h.registered' hb hl' hd rfl,
    hs.label h.registered ha hl, hs'.label h.registered' hb hl']
  exact hstart.label p a b l l' ha hb hl hl'

end Kept

include hread

variable (hcomm : ∀ x y : α, x + y = y + x) (hassoc : ∀ x y z : α, x + y + z = x + (y + z))
include hcomm hassoc

/-- Counterparts that are given the same derivatives pass the same back. -/
theorem passed_eq {p : Nat} {a b : Node α} (ha : g.nodes[p]? = some a)
    (hb : g'.nodes[π p]? = some b) (hpasses : a.passesDerivatives = true)
    (hds : SameDerivatives s t t' a b) :
    ∃ dxs, a.layer.derivatives a.tensors t = .ok dxs ∧ b.layer.derivatives b.tensors t' = .ok dxs ∧
      ∀ w ∈ a.tensors.inputs.zip dxs, s.shape w.1.value = .ok w.2.shape := by
  obtain ⟨hf, hf'⟩ := h.fits ha hb
  obtain ⟨ds, ds', hds, hds', hperm, hshape⟩ := hds
  obtain ⟨dxs, hdxs, -⟩ :=
    hback.passed p (List.mem_reverse.mpr (h.registered.mem_order ha)) a ha hpasses
  obtain ⟨⟨width, hwidth, -⟩, -⟩ := h.counterpart ha hb
  have hlength := except_mapM_length hds
  have hall : ∀ d ∈ ds, d.shape = ⟨batch, width⟩ := by
    intro d hd
    obtain ⟨k, hk⟩ := List.getElem?_of_mem hd
    have hlt := hlength ▸ (List.getElem?_eq_some_iff.mp hk).1
    have hw := hshape (a.tensors.outputs[k], d)
      (List.mem_of_getElem? (List.getElem?_zip_eq_some.mpr ⟨List.getElem?_eq_getElem hlt, hk⟩))
    rw [(hwidth _ (List.getElem_mem hlt)).value.shape h.registered.registry] at hw
    exact (Except.ok.inj hw).symm
  refine ⟨dxs, hdxs, ?_, Layer.shape_of_derivatives h.registered.registry hf (fun w hw v hv => ?_)
    (fun hneeds y hy v hv => ?_) (fun l v hl hv => ?_) (fun y hy d hd => ?_) hdxs⟩
  · rw [h.layer_eq ha hb, ← hdxs]
    exact Layer.derivatives_counterpart hf hf' hds hds' hperm hcomm hassoc hall
      (h.length_wires ha hb) (weights_eq_of_returned hstart hs hs' hback hback' ha hb)
        (h.value_eq_of_returned hstart hs hs' hback hback' ha hb)
      fun l l' hl hl' => h.label_eq_of_returned hstart hs hs' hback hback' ha hb hl hl'
  · obtain ⟨shape, hshape⟩ := hf.weight hw
    rw [hback.weight] at hv
    rwa [hread.weight w v shape hshape hv]
  · obtain ⟨k, hk⟩ := List.getElem?_of_mem hy
    rw [hback.rest y.value fun q j hd => value_ne_derivative h.registered ⟨a, ha, hk⟩ hd rfl] at hv
    exact hread.value _ v
      (.value ha hk (.inr ⟨a, ha, hneeds, hpasses, place_lt h.registered.compiled.ordered.perm ha⟩))
        hv
  · rw [hback.rest l fun q j hd => label_ne_derivative h.registered ha hl hd rfl] at hv
    exact hread.value _ v (.label ha hl) hv
  · obtain ⟨k, hk⟩ := List.getElem?_of_mem hy
    obtain ⟨d', hd', hget⟩ := except_mapM_getElem? hds hk
    obtain rfl := Except.ok.inj (hget.symm.trans hd)
    exact hshape (y, d') (List.mem_of_getElem? (List.getElem?_zip_eq_some.mpr ⟨hk, hd'⟩))

include hread'

/-- Counterparts that take part are given the same derivatives. -/
theorem sameDerivatives {p : Nat} {a b : Node α} (ha : g.nodes[p]? = some a)
    (hb : g'.nodes[π p]? = some b) (hpart : a.participates = true) :
    SameDerivatives s t t' a b := by
  have hc := h.registered.compiled
  have hc' := h.registered'.compiled
  induction hplace : g.size - place g p using Nat.strongRecOn generalizing p a b with
  | ind bound ih =>
    have hpart' := (h.participates_eq hc.toScheduled hc'.toScheduled ha hb).trans hpart
    have hterminal := h.isTerminal_eq hc.wired hc'.wired ha hb
    have hsource : b.isSource = a.isSource := by rw [Node.isSource, Node.isSource, h.layer_eq ha hb]
    have htakes := h.registered.takes_of_participates ha hpart
    have htakes' := h.registered'.takes_of_participates hb hpart'
    rw [hterminal, hsource] at htakes'
    cases hany : !a.isTerminal && !a.isSource with
    | false =>
      -- Nobody passes anything back, so all derivatives are zero.
      rw [hany] at htakes htakes'
      obtain ⟨⟨width, hwidth, hwidth', -⟩, -⟩ := h.counterpart ha hb
      refine ⟨_, _, except_mapM_const fun y hy => Reader.derivative_of_none h.registered.registry
          (hback.shape.trans hread.shape) (hwidth y hy) (htakes y hy),
        except_mapM_const fun y hy => Reader.derivative_of_none h.registered'.registry
          (hback'.shape.trans hread') (hwidth' y hy) (htakes' y hy), by rw [h.counts p a b ha hb],
          fun w hw => ?_⟩
      obtain ⟨hy, hd⟩ := List.of_mem_zip hw
      rw [(hwidth _ hy).value.shape h.registered.registry, List.eq_of_mem_replicate hd]
      rfl
    | true =>
      rw [hany] at htakes htakes'
      have hopen : a.isTerminal = false := by simpa using ((Bool.and_eq_true ..).mp hany).1
      refine h.sameDerivatives_of_slots ha hb hopen fun k y y' hy hy' => ?_
      -- The derivative at a slot is what the reader of the slot has passed back.
      obtain ⟨q, i, hr⟩ := h.registered.exists_reader ha hy hopen
      have hr' := (h.reads ..).mp hr
      obtain ⟨c, hcq⟩ := hr.reader
      obtain ⟨d, hdq⟩ := hr'.reader
      have hpasses := hc.passes_of_reads hr hcq ha hpart
      have hlt := hc.ordered.before _ _ _ _ hr
      have hbound := place_lt hc.ordered.perm hcq
      obtain ⟨dxs, hdxs, hdxs', hshape⟩ :=
        h.passed_eq hstart hs hs' hread hback hback' hcomm hassoc hcq hdq hpasses
        (ih (g.size - place g q) (by omega) hcq hdq (Node.participates_of_passes hpasses) rfl)
      have hin := h.registered.input_of_reads hr hcq ⟨a, ha, hy⟩
      have hin' := h.registered'.input_of_reads hr' hdq ⟨b, hb, hy'⟩
      obtain ⟨dx, hdx⟩ : ∃ dx, dxs[i]? = some dx := ⟨_, List.getElem?_eq_getElem
        (Layer.length_of_derivatives (h.fits hcq hdq).1 hdxs ▸
          (List.getElem?_eq_some_iff.mp hin).1)⟩
      have hpasses' := (h.passesDerivatives_eq hc.toScheduled hc'.toScheduled hcq hdq).trans hpasses
      exact ⟨dx, hback.derivative_eq h.registered hcq hpasses hdxs hin hdx
        (htakes y (List.mem_of_getElem? hy)),
        hback'.derivative_eq h.registered' hdq hpasses' hdxs' hin' hdx
          (htakes' y' (List.mem_of_getElem? hy')),
        hshape (y, dx) (List.mem_of_getElem? (List.getElem?_zip_eq_some.mpr ⟨hin, hdx⟩))⟩

end Backward

end Reflects

end LayerGraph
