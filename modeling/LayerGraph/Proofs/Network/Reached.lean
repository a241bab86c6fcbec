import LayerGraph.Network.Memory
import LayerGraph.Proofs.Layer.Writes
import LayerGraph.Proofs.Network.Prepared
import LayerGraph.Proofs.Store.Reworked

/-!
# Networks that can be reached

A network is reached from settings by any calls in any order, whether they end well or fail.
Whatever was called, it is a draft, or compiled but not prepared, or prepared with a store that fits
it.
-/

namespace LayerGraph

variable {α : Type}

/-- What the registration of a node depends on. -/
def Node.core (a : Node α) := (design a, a.bufferUse, a.tensors)

section Core

variable {a b : Node α} (h : a.core = b.core)
include h

/-- What a hook sees of a node. -/
theorem view_of_core : a.view = b.view ∧ a.layer = b.layer := by
  simp only [Node.core, design, wires, Prod.mk.injEq] at h
  obtain ⟨⟨⟨hname, -, -⟩, hlayer, -, -, hschedule, -, -⟩, -, htensors⟩ := h
  exact ⟨by rw [Node.view, Node.view, hname, hschedule, htensors], hlayer⟩

/-- Whether a node has a part in the backward pass, and which. -/
theorem part_of_core : a.participates = b.participates ∧ a.collectsGradients = b.collectsGradients ∧
    a.passesDerivatives = b.passesDerivatives := by
  simp only [Node.core, design, Prod.mk.injEq] at h
  obtain ⟨⟨-, -, -, -, -, hpasses, hcollects⟩, -⟩ := h
  exact ⟨by rw [Node.participates, Node.participates, hpasses, hcollects], hcollects, hpasses⟩

end Core

theorem Node.Holds.of_core {s : Store α} {size : Nat} {a b : Node α} (h : a.Holds s size)
    (heq : b.core = a.core) : b.Holds s size := by
  obtain ⟨_, _, _, _, _, _, _, _, _, _, _, _, _, _, _⟩ := a
  obtain ⟨_, _, _, _, _, _, _, _, _, _, _, _, _, _, _⟩ := b
  simp only [Node.core, design, wires, Prod.mk.injEq] at heq
  obtain ⟨⟨⟨rfl, rfl, rfl⟩, rfl, rfl, rfl, rfl, rfl, rfl⟩, rfl, rfl⟩ := heq
  refine ⟨h.fits, h.reads, h.returns, fun y hy => ?_, h.slots, h.label, h.weights, h.uses⟩
  have ho := h.outputs y hy
  exact ⟨ho.source, ho.writes, ho.own, ho.shares, ho.takes, ho.taken, ho.sharesDerivative,
    ho.ownDerivative⟩

section Core

variable {g g' : NodeGraph (Node α)} (ho : g'.order = g.order)
  (h : g'.nodes.map Node.core = g.nodes.map Node.core)
include ho h

omit ho in
theorem design_of_core : g'.nodes.map design = g.nodes.map design := by
  have := congrArg (List.map (·.1)) h
  rwa [List.map_map, List.map_map] at this

omit ho in
theorem gather_of_core {β : Type} {f : Node α → List β} {done : List NodeRef}
    (hf : ∀ a b : Node α, a.core = b.core → f a = f b) : gather g' done f = gather g done f := by
  refine gather_congr fun p _ => ?_
  have hp : (g'.nodes.map Node.core)[p]? = (g.nodes.map Node.core)[p]? := by rw [h]
  rw [List.getElem?_map, List.getElem?_map] at hp
  cases ha : g'.nodes[p]? with
  | none =>
    rw [ha] at hp
    rw [Option.map_eq_none_iff.mp hp.symm]
  | some a =>
    rw [ha] at hp
    obtain ⟨b, hb, hab⟩ := Option.map_eq_some_iff.mp hp.symm
    rw [hb]
    exact congrArg some (hf a b hab.symm)

theorem Compiled.of_core (hg : Compiled g) : Compiled g' := by
  refine hg.of_design ho (design_of_core h) fun p a a' ha ha' => .inl ?_
  obtain ⟨b, hb, heq⟩ := getElem?_of_map_eq h ha'
  rw [ha] at hb
  cases hb
  exact (congrArg (·.2.1) heq).symm

/-- A graph whose nodes have kept what they have registered. -/
theorem Registered.of_core {s : Store α} {batch : Nat} {done : List NodeRef}
    (hr : Registered g s batch done) : Registered g' s batch done := by
  have hsize : g'.size = g.size := by simpa [NodeGraph.size] using congrArg List.length h
  have howned : ownedBy g' done = ownedBy g done :=
    gather_of_core h fun a b hab => congrArg (fun c => Handles.owned c.2.2) hab
  have huses : usesOf g' done = usesOf g done := by
    funext w
    refine gather_of_core h fun a b hab => ?_
    simp only [Node.core, design, Prod.mk.injEq] at hab
    unfold Network.collectSteps Network.collectStep
    rw [hab.2.2, hab.1.2.2.2.2.2.2, hab.1.2.2.2.2.1]
  refine ⟨hr.compiled.of_core ho h, hr.registry, by rw [huses]; exact hr.collected, ?_, ?_,
    by rw [howned]; exact hr.nodup, by rw [howned]; exact hr.bound, by
      rw [hsize]; exact hr.forwardSteps,
    by rw [lastStep_of_design ho (design_of_core h)]; exact hr.maxStep⟩
  · intro p hp a ha
    obtain ⟨b, hb, heq⟩ := getElem?_of_map_eq h ha
    rw [hsize]
    exact (hr.holds p hp b hb).of_core heq.symm
  · intro p hp a ha
    obtain ⟨b, hb, heq⟩ := getElem?_of_map_eq h ha
    have hlink := hr.linked p hp b hb
    simp only [Node.core, design, wires, Prod.mk.injEq] at heq
    refine ⟨by rw [← heq.2.2, ← heq.1.1.2.1]; exact hlink.length, fun i q k c hread hc => ?_⟩
    obtain ⟨c', hc', hceq⟩ := getElem?_of_map_eq h hc
    have htensors : c'.tensors = c.tensors := congrArg (·.2.2) hceq
    rw [← heq.2.2, ← htensors]
    exact hlink.wire i q k c' (hread.of_wires (wires_of_design (design_of_core h))) hc'

end Core

theorem Registered.reworked {g : NodeGraph (Node α)} {s s' : Store α} {batch batch' : Nat}
    {asks : (Shape → List Shape) → Prop} {done : List NodeRef} (h : Registered g s batch done)
    (hs : Store.Reworked asks batch' s s') :
    Registered g s' batch' done where
  compiled := h.compiled
  registry := hs.registry
  collected := h.collected.reworked hs
  holds p hp a ha := (h.holds p hp a ha).later hs.later
  linked := h.linked
  nodup := h.nodup
  bound id hid := Nat.lt_of_lt_of_le (h.bound id hid) hs.later.length_le
  forwardSteps := hs.forwardSteps.trans h.forwardSteps
  maxStep := hs.later.maxStep.trans h.maxStep

namespace Network

variable {n n' : Network α} {asks : (Shape → List Shape) → Prop}

theorem Faces.of_core {g : NodeGraph (Node α)} (h : Faces n)
    (hg : g.nodes.map Node.core = n.graph.nodes.map Node.core) : Faces { n with graph := g } := by
  have hnode : ∀ {p : Nat} {a : Node α}, n.graph.nodes[p]? = some a →
      ∃ b, g.nodes[p]? = some b ∧ b.core = a.core := by
    intro p a ha
    obtain ⟨b, hb, heq⟩ := getElem?_of_map_eq hg.symm ha
    exact ⟨b, hb, heq⟩
  refine ⟨fun id hid => ?_, fun id hid => ?_, fun id hid => ?_⟩
  · obtain ⟨p, a, y, ha, hs, hy, hid⟩ := h.inputs id hid
    obtain ⟨b, hb, heq⟩ := hnode ha
    simp only [Node.core, design, Prod.mk.injEq] at heq
    refine ⟨p, b, y, hb, ?_, by rw [heq.2.2]; exact hy, hid⟩
    unfold Node.isSource
    rw [heq.1.2.1]
    exact hs
  · obtain ⟨p, a, ha, hl⟩ := h.labels id hid
    obtain ⟨b, hb, heq⟩ := hnode ha
    exact ⟨p, b, hb, by rw [show b.tensors = a.tensors from congrArg (·.2.2) heq]; exact hl⟩
  · obtain ⟨p, a, y, ha, ht, hy, hid⟩ := h.outputs id hid
    obtain ⟨b, hb, heq⟩ := hnode ha
    simp only [Node.core, design, wires, Prod.mk.injEq] at heq
    refine ⟨p, b, y, hb, ?_, by rw [heq.2.2]; exact hy, hid⟩
    unfold Node.isTerminal
    rw [heq.1.1.2.2]
    exact ht

theorem Prepared.withGraph (h : Prepared asks n) {g : NodeGraph (Node α)}
    (ho : g.order = n.graph.order) (hg : g.nodes.map Node.core = n.graph.nodes.map Node.core) :
    Prepared asks { n with graph := g } where
  closed := h.closed
  prepared := h.prepared
  batch := h.batch
  registered := by
    have := h.registered.of_core ho hg
    rw [← ho] at this
    exact this
  faces := h.faces.of_core hg
  allocated := h.allocated
  loaded := h.loaded
  asked := h.asked
  mode := h.mode

theorem Prepared.withStore (h : Prepared asks n) {s : Store α} {batch : Nat} {mode : RunMode}
    {optimize : Bool} (hs : Store.Reworked asks batch n.store s) (hb : 0 < batch)
    (hmode : ∀ m, s.mode = some m → mode = m) :
    Prepared asks { n with
      store := s, batchSize := batch, mode := mode, optimizeMemory := optimize } where
  closed := h.closed
  prepared := h.prepared
  batch := hb
  registered := h.registered.reworked hs
  faces := ⟨h.faces.inputs, h.faces.labels, h.faces.outputs⟩
  allocated := hs.allocated
  loaded := hs.loaded
  asked := hs.asked h.asked
  mode := hmode

/-- What every network that is reached is. -/
def Sound (asks : (Shape → List Shape) → Prop) (n : Network α) : Prop :=
  Draft n ∨ Drawn n ∨ Prepared asks n

/-- A network that is reached by what can be called, where optimizer state is only asked for in the
shapes that `asks` allows. A rule for weights may have a state of its own. -/
inductive Reached [Scalar α] (asks : (Shape → List Shape) → Prop) : Network α → Prop where
  | settings (settings : NetworkSettings) : Reached asks (ofSettings settings)
  | add {n : Network α} (node : Node α) (plain : node.IsPlain) (h : Reached asks n) :
      Reached asks ((add node).after n)
  | extend {n : Network α} (nodes : List (Node α)) (fragment : String)
      (plain : ∀ node ∈ nodes, node.IsPlain) (h : Reached asks n) :
      Reached asks ((extend nodes fragment).after n)
  | compile {n : Network α} (loss : Option String) (h : Reached asks n) :
      Reached asks ((compile loss).after n)
  | prepare {n : Network α} (inputs labels : List String) (h : Reached asks n) :
      Reached asks ((prepare inputs labels).after n)
  | allocate {n : Network α} (mode : RunMode) (h : Reached asks n) :
      Reached asks ((allocate mode).after n)
  | fillWeights {n : Network α} (h : Reached asks n) : Reached asks (fillWeights.after n)
  | releaseTensors {n : Network α} (weightsToo : Bool) (h : Reached asks n) :
      Reached asks (releaseTensors weightsToo n)
  | releaseWeights {n : Network α} (h : Reached asks n) : Reached asks (releaseWeights n)
  | setOptimize {n : Network α} (enable : Bool) (h : Reached asks n) :
      Reached asks (setOptimize enable n)
  | requestStates {n : Network α} (shapes : Shape → List Shape) (asked : asks shapes)
      (h : Reached asks n) : Reached asks ((requestStates shapes).after n)
  | rebatch {n : Network α} (batch : Nat) (h : Reached asks n) : Reached asks
      ((rebatch batch).after n)
  | write {n : Network α} (id : TensorRef) (value : Tensor α) (h : Reached asks n) :
      Reached asks ((onStore (Store.write id value)).after n)
  | feed {n : Network α} (inputs labels : List (Tensor α)) (h : Reached asks n) :
      Reached asks ((feed inputs labels).after n)
  | forward {n : Network α} (training : Bool) (h : Reached asks n) :
      Reached asks ((forward training).after n)
  | backward {n : Network α} {τ : Type} (own : τ)
      (rule : String → WeightState α → Action τ (WeightState α)) (h : Reached asks n) :
      Reached asks ((backward fun node => do let _ ← applyComplete node (rule node.name)).after
        (own, n)).2
  | applyGradients {n : Network α} {τ : Type} (own : τ) (name : String)
      (rule : WeightState α → Action τ (WeightState α)) (h : Reached asks n) :
      Reached asks ((applyGradients name rule).after (own, n)).2

section Blank

/-- Nothing can be written to a blank store. -/
theorem writable_of_isBlank {s₀ : Store α} (h : s₀.IsBlank) : Store.Writable (· = s₀) := by
  rintro s id v s' rfl hs
  obtain ⟨e, he, -⟩ := Store.set_eq_ok hs
  obtain ⟨⟨e₀, he₀⟩, -⟩ := Store.backing_eq_some_iff.mp he
  rw [h.entries] at he₀
  cases he₀

/-- A network of which nothing is registered. -/
def Bare (n : Network α) : Prop := Draft n ∨ Drawn n

theorem Bare.isBlank (h : Bare n) : n.store.IsBlank := h.elim (·.blank) (·.blank)

theorem Bare.unprepared (h : Bare n) : n.isPrepared = false :=
  h.elim (·.unprepared) (·.unprepared)

theorem Bare.sound (h : Bare n) : Sound asks n := h.elim .inl fun h => .inr (.inl h)

theorem Sound.cases (h : Sound asks n) : Bare n ∨ Prepared asks n :=
  h.elim (fun h => .inl (.inl h)) fun h => h.elim (fun h => .inl (.inr h)) .inr

/-- Another blank store with the same bounds, and another batch, do no harm. -/
theorem Bare.withStore (h : Bare n) {s : Store α} {batch : Nat} (hs : s.IsBlank)
    (hf : s.forwardSteps = n.store.forwardSteps) (hm : s.maxStep = n.store.maxStep) (hb : 0 < batch)
    (optimize : Bool) (mode : RunMode) :
    Bare { n with
      store := s, batchSize := batch, optimizeMemory := optimize, mode := mode } := by
  rcases h with h | h
  · exact .inl ⟨h.open_, h.unprepared, h.plain, hs, hb⟩
  · exact .inr ⟨h.closed, h.unprepared, h.compiled, hs, hf.trans h.forwardSteps,
      hm.trans h.maxStep, hb⟩

theorem Bare.batch (h : Bare n) : 0 < n.batchSize := h.elim (·.batch) (·.batch)

theorem Bare.checkReady (h : Bare n) : ∃ e, checkReady n = .error e := by
  unfold Network.checkReady
  split
  · exact ⟨_, rfl⟩
  · rw [h.unprepared]
    exact ⟨_, rfl⟩

end Blank

end Network

end LayerGraph
