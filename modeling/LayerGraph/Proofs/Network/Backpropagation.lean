import LayerGraph.Proofs.Network.MiniBatch
import LayerGraph.Proofs.Network.Rates

/-!
# Backpropagation

What a backward pass hands over is the gradient of the loss: where a weight is moved a little for
the nodes that train it, the loss changes by the products of the entries of the gradient and of the
move. That is said with polynomials, so nothing is a limit, and it holds whether buffers are shared
or not.
-/

namespace LayerGraph

open Network Polynomial

variable {τ : Type}

/-- A run depends on what nodes see while the weights are those it starts from. -/
theorem dataflow_congr {α : Type} [Scalar α] {g : NodeGraph (Node α)}
    {see see' : Node α → Reader α → Reader α} {r₀ : Reader α}
    (h : ∀ a r, r.weight = r₀.weight → see a r = see' a r) : dataflow g see r₀ =
      dataflow g see' r₀ := by
  have hall : ∀ (nodes : List NodeRef) (r : Reader α), r.weight = r₀.weight →
      nodes.foldlM (flowNode g see) r = nodes.foldlM (flowNode g see') r := by
    intro nodes
    induction nodes with
    | nil => exact fun _ _ => rfl
    | cons p rest ih =>
      intro r hr
      have hnode : flowNode g see r p = flowNode g see' r p := by
        unfold flowNode
        split
        · rfl
        · rw [h _ r hr]
      rw [List.foldlM_cons, List.foldlM_cons, hnode]
      cases hstep : flowNode g see' r p with
      | error e => rfl
      | ok r' =>
        refine ih r' ?_
        unfold flowNode at hstep
        split at hstep
        · cases hstep
        · obtain ⟨vs, -, heq⟩ := except_bind_eq_ok_iff.mp hstep
          cases heq
          exact Reader.weight_setAll.trans hr
  exact hall g.order r₀ rfl

namespace Network

variable {n n₀ n₁ n' d : Network ℚ} {asks : (Shape → List Shape) → Prop} {w : WeightRef}

/-- The sum of all losses of a forward run in which the nodes that train see the weight `w` moved by
`e` times `c`, and all others see it as it is. -/
def lossMoved (n : Network ℚ) (w : WeightRef) (c : Tensor ℚ) (e : ℚ) : Except Error ℚ := do
  let r ← dataflow n.graph (moving w c e) n.store.reader
  return Scalar.sum (← lossesIn n.graph r).reduceOption

/-- A network that can run has everything that a forward run is to find. -/
theorem Ready.exists_stocked (h : Ready asks .train n) :
    ∃ W T, Stocked n.graph n.store W T n.store.reader := by
  have hreg := h.prepared.registered
  have hget : ∀ {id shape}, n.store.Buffered id shape → ∃ v, n.store.get id = .ok v ∧
      v.shape = shape := fun hb =>
    (Store.Held.refl h.prepared.loaded).get hb
  have hexternal : ∀ {p : Nat} {a : Node ℚ} {id : TensorRef} {width : Nat},
      n.graph.nodes[p]? = some a → n.store.IsExternal id →
      n.store.HasWidth id width → ∃ v, n.store.get id = .ok v ∧ n.store.shape id = .ok v.shape := by
    intro p a id width ha hext hw
    obtain ⟨v, hv, hshape⟩ :=
      hget (h.buffered_of_external (Nat.lt_of_le_of_lt (Nat.zero_le _) (h.forward_lt ha)) hext hw)
    exact ⟨v, hv, by rw [hw.shape hreg.registry, hshape]⟩
  have hweight : ∀ v, ∃ t : Tensor ℚ, ∀ shape, n.store.HasWeight v shape →
      n.store.reader.weight v = .ok t ∧ t.shape = shape := by
    intro v
    by_cases hv : ∃ shape, n.store.HasWeight v shape
    · obtain ⟨shape, hv⟩ := hv
      obtain ⟨r, e, hr, he, -, rfl⟩ := id hv
      obtain ⟨e', he', hrole⟩ := hreg.registry.value v r hr
      obtain rfl : e = e' := Option.some.inj (he.symm.trans he')
      obtain ⟨t, ht, hshape⟩ :=
        hget (Store.buffered_of_kept hreg.registry he (by rw [hrole]; rfl) h.filled)
      refine ⟨t, fun shape' hv' => ⟨?_, hshape.trans (hv.unique hv')⟩⟩
      change (do n.store.get (← n.store.weight v).value) = _
      rw [Store.weight_eq_ok_iff.mpr hr, except_ok_bind, ht]
    · exact ⟨.zeros ⟨0, 0⟩, fun shape hv' => absurd ⟨shape, hv'⟩ hv⟩
  have htarget : ∀ l, ∃ t : Tensor ℚ, ∀ (p : Nat) (a : Node ℚ), n.graph.nodes[p]? = some a →
      a.tensors.label = some l →
      n.store.reader.value l = .ok t ∧ n.store.shape l = .ok t.shape := by
    intro l
    by_cases hl : ∃ (p : Nat) (a : Node ℚ), n.graph.nodes[p]? = some a ∧ a.tensors.label = some l
    · obtain ⟨p, a, ha, hl⟩ := hl
      have hold := hreg.holds_of_node ha
      obtain ⟨width, hw⟩ := hold.fits.label hl
      obtain ⟨t, ht, hshape⟩ := hexternal ha (hold.label l hl) hw
      exact ⟨t, fun _ _ _ _ => ⟨ht, hshape⟩⟩
    · exact ⟨.zeros ⟨0, 0⟩, fun p a ha hl' => absurd ⟨p, a, ha, hl'⟩ hl⟩
  choose W hW using hweight
  choose T hT using htarget
  refine ⟨W, T, rfl, hW, fun p a l ha hl => hT l p a ha hl, fun p a ha hsource y hy => ?_⟩
  have hold := hreg.holds_of_node ha
  obtain ⟨width, hw⟩ := hold.fits.output hy
  exact hexternal ha ((hold.outputs y hy).source hsource) hw.value

section Gradient

variable (h : Ready asks .train n) (hpoly : ∀ a ∈ n.graph.nodes, a.layer.isPolynomial = true)
  (hterminal : ∀ a ∈ n.graph.nodes, a.isLoss = true → a.isTerminal = true) {r : Reader ℚ}
  (hdata : dataflow n.graph (fun _ r => r) n.store.reader = .ok r)
  {given : WeightRef → List (Tensor ℚ)} (hgiven : backflow n.graph r = .ok given)
include h hpoly hterminal hdata hgiven

/-- The runs in which a weight is moved, beside the backward pass of the one in which it is not. -/
theorem Ready.exists_course {c : Tensor ℚ} (hw : n.store.HasWeight w c.shape) : ∃ W T R P r',
    Course n.graph n.store n.batchSize W T w c n.store.reader R P r' given ∧
      (∀ e, dataflow n.graph (moving w c e) n.store.reader = .ok (R e)) ∧ R 0 = r := by
  have hreg := h.prepared.registered
  have hpoly' : ∀ (p : Nat) (a : Node ℚ), n.graph.nodes[p]? = some a →
      a.layer.isPolynomial = true :=
    fun p a ha => hpoly a (List.mem_of_getElem? ha)
  obtain ⟨W, T, hstock⟩ := h.exists_stocked
  choose R hR using fun e => exists_run_moved hreg hstock hw hpoly' e
  obtain ⟨P, hP⟩ := exists_traces hreg hstock hw hpoly' fun e => (hR e).2.1
  have hzero : R 0 = r := by
    have hsame : dataflow n.graph (moving w c 0) n.store.reader = dataflow n.graph
        (fun _ r => r) n.store.reader :=
      dataflow_congr fun a r hr => moving_zero hstock hw hr a
    exact Except.ok.inj ((hR 0).1.symm.trans (hsame.trans hdata))
  rw [← hzero] at hgiven
  obtain ⟨r', hreturned⟩ := returned_of_backflow hreg hgiven
  exact ⟨W, T, R, P, r', ⟨hreg, hstock, hw, hpoly',
      fun p a ha => hterminal a (List.mem_of_getElem? ha), fun e => (hR e).2.1,
    hP, hreturned⟩, fun e => (hR e).1, hzero⟩

/-- The gradient that a pass gives to a weight says how the loss changes wherever the weight is
moved. -/
theorem Ready.exists_rate {found : List ℚ} (hfound : lossesIn n.graph r = .ok (found.map some))
    {G : Tensor ℚ} (hG : gradientOf given w = .ok G) {c : Tensor ℚ}
    (hw : n.store.HasWeight w c.shape) : ∃ L : ℚ[X],
      (∀ e, n.lossMoved w c e = .ok (L.eval e)) ∧ L.eval 0 = Scalar.sum found ∧
      L.coeff 1 = G.dot c := by
  obtain ⟨W, T, R, P, r', hcourse, hruns, hzero⟩ := h.exists_course hpoly hterminal hdata hgiven hw
  obtain ⟨t, ts, hts⟩ : ∃ t ts, given w = t :: ts := by
    unfold gradientOf at hG
    split at hG
    · cases hG
    · exact ⟨_, _, ‹_›⟩
  obtain ⟨G', L, hG', hloss, hrate⟩ := hcourse.exists_gradient hts
  obtain rfl := Except.ok.inj (hG.symm.trans hG')
  refine ⟨L, fun e => ?_, ?_, hrate⟩
  · obtain ⟨found', hfound', hsum⟩ := hloss e
    rw [lossMoved, hruns e, except_ok_bind, hfound', except_ok_bind, hsum]
    rfl
  · obtain ⟨found', hfound', hsum⟩ := hloss 0
    rw [hzero, hfound] at hfound'
    rw [← hsum, ← Except.ok.inj hfound']
    simp [List.reduceOption]

end Gradient

/-- A backward pass that leaves weights as they are hands over every weight that is trained once,
with the gradient of the loss: the rate at which the loss changes where the weight is moved along a
tensor for the nodes that train it is the sum of the entrywise products of the gradient and the
tensor. -/
theorem gradient_of_backward {loss : Option String} {inputs labels : List String}
    {u : Unit} (hd : Draft d) (hbuild : build loss inputs labels d = .ok u n₀)
    (hcalls : Relation.ReflTransGen Call n₀ n) (hready : n.checkReady = .ok ())
    (htrain : n.store.mode = some .train) (hpoly : ∀ a ∈ n.graph.nodes, a.layer.isPolynomial = true)
    (hterminal : ∀ a ∈ n.graph.nodes, a.isLoss = true → a.isTerminal = true)
    (rule : String → WeightState ℚ → Action τ (WeightState ℚ))
    (hleaves : ∀ name old own new own', rule name old own = .ok new own' → new.value = old.value)
    (own : τ) : ∃ outputs n₁, forward true n = .ok outputs n₁ ∧
      ((∀ name, Store.KeepsShapes (fun _ => True) (rule name)) →
        ∃ own' log n₂, backward (handOver rule) ((own, []), n₁) = .ok () ((own', log), n₂)) ∧
      ∀ own' log n₂, backward (handOver rule) ((own, []), n₁) = .ok () ((own', log), n₂) →
        ∀ (w : WeightRef) r, n.store.weights[w]? = some r → trainers n.graph w ≠ [] →
          ∃ handed, log.filter (·.update.name = r.name) = [handed] ∧
            ∀ c : Tensor ℚ, n.store.HasWeight w c.shape → ∃ L : ℚ[X],
              (∀ e, n.lossMoved w c e = .ok (L.eval e)) ∧
              n₁.loss = L.eval 0 ∧ L.coeff 1 = handed.update.gradient.dot c := by
  obtain ⟨_, m₀, hcompile, hprepare⟩ := Action.bind_eq_ok_iff.mp hbuild
  have hdesc := (descends_refl (drawn_of_compile hd hcompile) hprepare n.batchSize).of_calls hcalls
  obtain ⟨mode, hallocated, h⟩ := (hdesc.sound.prepared hdesc.alike.prepared).ready hready
  obtain rfl : mode = .train := Option.some.inj (hallocated.symm.trans htrain)
  have hstart : n.store.Agrees (NeededForward n.graph .train 0) n.store.reader :=
    ⟨fun _ _ => rfl, rfl, rfl⟩
  obtain ⟨outputs, n₁, r, hforward, h₁, hframed, -, hdata, -, hlosses, hagrees⟩ :=
    h.exists_flow hstart (.inr rfl)
  have htasks := hframed.sameTasks
  have hapart : n₁.store.StatesApart := by
    unfold Store.StatesApart
    rw [hframed.layout.weights]
    exact hdesc.states.apart
  refine ⟨outputs, n₁, hforward, fun hrule => ?_, fun own' log n₂ hrun w r₀ hr₀ htrained => ?_⟩
  · obtain ⟨⟨own', log⟩, n₂, hrun, -⟩ := h₁.exists_backward
      (fun node Q hQ => keeps_applyComplete_visit hQ node (recorded (rule node.name) node.name))
      (fun n p a hn ha => (hn.returns_applyComplete ha
        (keepsShapes_recorded (hrule a.name) a.name)).bind
        fun _ _ => Action.returns_pure trivial) (own, [])
    exact ⟨own', log, n₂, hrun⟩
  · obtain ⟨seen, hseen⟩ := h₁.exists_statesSeen
    have hagrees₁ : n₁.store.Agrees (NeededBackward n₁.graph n₁.graph.size) r := by
      rw [htasks.size]
      exact (hagrees rfl).mono fun id hid => htasks.neededBackward hid
    obtain ⟨given, record, hgiven, hlog, hreplaces⟩ :=
      h₁.handsOver hapart hleaves hagrees₁ (statesSeen_eq_ok_iff.mp hseen).2 hrun
    rw [backflow_of_tasks htasks] at hgiven
    rw [← trainers_of_tasks htasks] at htrained
    have hr₁ : n₁.store.weights[w]? = some r₀ := by rw [hframed.layout.weights]; exact hr₀
    -- The weight is handed over once, and what is handed over is in the record.
    have hend := h₁.midway.run (s := ((own, []), n₁)) (backward_eq_ok hrun)
    obtain ⟨-, -, handed, -, -, -, -, -, honce, -⟩ := hend.handed w r₀ hr₁ rfl (by
      rwa [List.nil_append,
        show (passage (handOver rule) n₁.graph.order.reverse ((own, []), n₁)).map (·.1) =
        n₁.graph.order.reverse from nodes_passage _ _ _])
    obtain ⟨p, hp, rfl⟩ := List.mem_map.mp ((hreplaces.trained w).mpr htrained)
    obtain ⟨hname, -, hgradient⟩ := hreplaces.handed p hp
    obtain ⟨entry, hentry, hupdate⟩ := List.mem_map.mp (hlog ▸ List.mem_map_of_mem hp)
    have hsame : entry = handed := List.mem_singleton.mp
      (honce ▸ List.mem_filter.mpr ⟨hentry,
        decide_eq_true (by rw [hupdate, hname, weightName_eq hr₁])⟩)
    refine ⟨handed, honce, fun c hw => ?_⟩
    obtain ⟨L, hmoved, hzero, hrate⟩ :=
      h.exists_rate hpoly hterminal hdata hgiven hlosses hgradient hw
    exact ⟨L, hmoved, hzero.symm, by rw [hrate, ← hsame, hupdate]⟩

/-- A layer that trains its weight and one that reads it and has the same weight, but is frozen. The
loss sees the sum of the two. -/
def braided : Network ℚ :=
  (add (.ofLayer (.loss .mse) "e" [⟨"s", 0⟩])).after
    ((add (.ofLayer .addition "s" [⟨"m", 1⟩, ⟨"z", 0⟩])).after
      ((add { Node.ofLayer (.fullyConnected 1 .zeros .zeros) "z" [⟨"m", 0⟩] with
          trainable := false
          sharedFrom := some "y" }).after
        ((add (.ofLayer .multiout "m" [⟨"y", 0⟩])).after
          ((add (.ofLayer (.fullyConnected 1 (.constant (1 / 2)) .zeros) "y" [⟨"x", 0⟩])).after
            ((add (.ofLayer (.input 1) "x" [])).after (ofSettings ⟨1, true, none, []⟩))))))

theorem draft_braided : Draft braided :=
  keeps_draft_add (Node.isPlain_ofLayer rfl _ _) _ (keeps_draft_add (Node.isPlain_ofLayer rfl _ _) _
    (keeps_draft_add ⟨rfl, rfl⟩ _ (keeps_draft_add (Node.isPlain_ofLayer rfl _ _) _
      (keeps_draft_add (Node.isPlain_ofLayer rfl _ _) _
        (keeps_draft_add (Node.isPlain_ofLayer rfl _ _) _ (draft_ofSettings _))))))

/-- What compiling makes of it. -/
def braidedCompiled : Network ℚ :=
  { (ofSettings ⟨1, true, none, []⟩ : Network ℚ) with
    graph := ⟨[
      { Node.ofLayer (.input 1) "x" [] with outputs := [[⟨"y", 0⟩]] },
      { Node.ofLayer (.fullyConnected 1 (.constant (1 / 2)) .zeros) "y" [⟨"x", 0⟩] with
        outputs := [[⟨"m", 0⟩]], schedule := .bothWays 1 4 6, collectsGradients := true },
      { Node.ofLayer .multiout "m" [⟨"y", 0⟩] with
        outputs := [[⟨"z", 0⟩], [⟨"s", 0⟩]]
        schedule := .bothWays 2 3 6
        passesDerivatives := true
        bufferUse := .view },
      { Node.ofLayer (.fullyConnected 1 .zeros .zeros) "z" [⟨"m", 0⟩] with
        trainable := false
        sharedFrom := some "y"
        outputs := [[⟨"s", 1⟩]]
        schedule := .bothWays 3 2 6
        passesDerivatives := true },
      { Node.ofLayer .addition "s" [⟨"m", 1⟩, ⟨"z", 0⟩] with
        outputs := [[⟨"e", 0⟩]], schedule := .bothWays 4 1 6, passesDerivatives := true },
      { Node.ofLayer (.loss .mse) "e" [⟨"s", 0⟩] with
        schedule := .bothWays 5 0 6
        passesDerivatives := true
        bufferUse := .view }], [0, 1, 2, 3, 4, 5]⟩
    store := (Store.empty true none).setBounds 6 15
    isCompiled := true }

theorem compile_braided : compile none braided = .ok () braidedCompiled := by cbv

def braidedBuilt : Network ℚ := (prepare [] []).after braidedCompiled

theorem build_braided : build none [] [] braided = .ok () braidedBuilt :=
  (Action.bind_of_ok compile_braided).trans (Action.eq_ok_of_endsWell (by decide +kernel))

/-- What it comes to once it is allocated for training, filled and fed. -/
def braidedFed : Network ℚ :=
  (feed [.ofFn ⟨1, 1⟩ fun _ _ => 3] [.ofFn ⟨1, 1⟩ fun _ _ => 1]).after
    (fillWeights.after ((allocate .train).after braidedBuilt))

theorem called_braided : Relation.ReflTransGen Call braidedBuilt braidedFed :=
  .tail (.tail (.single (.allocate .train)) .fillWeights) (.feed _ _)

theorem braidedFed_ready : braidedFed.checkReady = .ok () ∧ braidedFed.store.mode = some .train ∧
    (∀ a ∈ braidedFed.graph.nodes, a.layer.isPolynomial = true ∧
      (a.isLoss = true → a.isTerminal = true)) ∧
    trainers braidedFed.graph 0 = [1] ∧ braidedFed.store.weights.map (·.name) =
      ["y:weight", "y:bias"] := by
  decide +kernel

theorem braided_gradient : ∃ outputs n₁ log n₂, forward true braidedFed = .ok outputs n₁ ∧
    backward (handOver fun _ => pure) (((), []), n₁) = .ok () (((), log), n₂) ∧
      ∃ handed, log.filter (·.update.name = "y:weight") = [handed] ∧
        ∀ c : Tensor ℚ, braidedFed.store.HasWeight 0 c.shape → ∃ L : ℚ[X],
          (∀ e, braidedFed.lossMoved 0 c e = .ok (L.eval e)) ∧ n₁.loss = L.eval 0 ∧
            L.coeff 1 = handed.update.gradient.dot c := by
  obtain ⟨hready, hmode, hnodes, htrainers, hnames⟩ := braidedFed_ready
  obtain ⟨outputs, n₁, hforward, hends, hhanded⟩ :=
    gradient_of_backward draft_braided build_braided called_braided
    hready hmode (fun a ha => (hnodes a ha).1) (fun a ha => (hnodes a ha).2) (fun _ => pure)
      (fun _ _ _ _ _ h => by cases h; rfl) ()
  obtain ⟨⟨⟩, log, n₂, hrun⟩ := hends fun _ => Store.keepsShapes_pure
  have hfirst : (braidedFed.store.weights.map (·.name))[0]? = some "y:weight" := by
    rw [hnames]
    rfl
  rw [List.getElem?_map] at hfirst
  obtain ⟨r, hr, hname⟩ := Option.map_eq_some_iff.mp hfirst
  have hgradient := hhanded () log n₂ hrun 0 r hr (by simp [htrainers])
  rw [hname] at hgradient
  exact ⟨outputs, n₁, log, n₂, hforward, hrun, hgradient⟩

end Network

end LayerGraph
