import LayerGraph.Proofs.Network.Handover
import LayerGraph.Proofs.Network.Sharing
import LayerGraph.Proofs.Network.Stage
import LayerGraph.Proofs.Store.Unshared

/-!
# Backward passes

A backward pass hands over every weight that some node trains, once, at the last of its trainers,
with the sum of what its trainers have added in this pass. A weight that no node trains is not
touched.
-/

namespace LayerGraph.Network

open LayerGraph.Action

variable {α τ : Type} [Scalar α]

/-- What a node adds to the gradient of one of its weights when a pass comes to it. -/
def contribution (n : Network α) (p : NodeRef) (w : WeightRef) : Except Error (Tensor α) := do
  let a ← n.node p
  let cs ← a.layer.contributions a.tensors n.store.reader
  match (a.tensors.weights.zip cs).lookup w with
  | some c => return c
  | none => throw (.staleHandle w)

/-- The nodes of a backward pass, each with the network as the pass comes to it. -/
def passage (visit : Node α → Action (τ × Store α) Unit) :
    List NodeRef → τ × Network α → List (NodeRef × Network α)
  | [], _ => []
  | p :: rest, s => (p, s.2) :: passage visit rest ((backwardNode visit p).after s)

theorem nodes_passage (visit : Node α → Action (τ × Store α) Unit) (nodes : List NodeRef)
    (s : τ × Network α) : (passage visit nodes s).map (·.1) = nodes := by
  induction nodes generalizing s with
  | nil => rfl
  | cons p nodes ih => rw [passage, List.map_cons, ih]

/-- What the trainers of a weight add to its gradient, one after the other. -/
def contributionsTo (g : NodeGraph (Node α)) (w : WeightRef) (stops : List (NodeRef × Network α)) :
    Except Error (List (Tensor α)) :=
  (stops.filter fun stop => (g.nodes[stop.1]?).any (·.trainsWeight w)).mapM fun stop =>
    contribution stop.2 stop.1 w

section Phases

variable {n n' : Network α} {p : NodeRef} {u : Unit} {visit : Node α → Action (τ × Store α) Unit}
  {own own' : τ}

theorem backward_eq_ok (h : backward visit (own, n) = .ok u (own', n')) :
    n.graph.order.reverse.forM (backwardNode visit) (own, n) = .ok ⟨⟩ (own', n') := by
  obtain ⟨_, _, hread, h⟩ := bind_eq_ok_iff.mp h
  obtain ⟨-, rfl⟩ := read_eq_ok_iff.mp hread
  obtain ⟨_, _, hget, h⟩ := bind_eq_ok_iff.mp h
  cases hget
  exact (guard_eq_ok_iff.mp h).2

/-- The three phases of a node's turn: it collects, it passes back, and it is visited. -/
structure Turn (visit : Node α → Action (τ × Store α) Unit) (p : NodeRef) (a : Node α)
    (s s' : τ × Network α) (n₂ n₃ : Network α) : Prop where
  collect : if a.collectsGradients then runHook p Layer.collectGradients s.2 =
    .ok () n₂ else n₂ = s.2
  pass : if a.passesDerivatives then runHook p Layer.passBack n₂ = .ok () n₃ else n₃ = n₂
  visit : ∃ a' st, n₃.graph.nodes[p]? = some a' ∧ visit a' (s.1, n₃.store) = .ok () (s'.1, st) ∧
    s'.2 = { n₃ with store := st }

theorem turn_of_backwardNode (h : backwardNode visit p (own, n) = .ok u (own', n')) :
    ∃ a, n.graph.nodes[p]? = some a ∧ (a.participates = false ∧ own' = own ∧ n' = n ∨
      a.participates = true ∧ ∃ n₂ n₃, Turn visit p a (own, n) (own', n') n₂ n₃) := by
  obtain ⟨a, _, hread, h⟩ := bind_eq_ok_iff.mp h
  obtain ⟨ha, rfl⟩ := read_eq_ok_iff.mp hread
  refine ⟨a, node_eq_ok_iff.mp ha, ?_⟩
  cases hpart : a.participates with
  | false =>
    rw [hpart] at h
    cases h
    exact .inl ⟨rfl, rfl, rfl⟩
  | true =>
    rw [hpart] at h
    refine .inr ⟨rfl, ?_⟩
    obtain ⟨n₂, hcollect, h⟩ : ∃ n₂, (if a.collectsGradients then
        runHook p Layer.collectGradients n = .ok () n₂ else n₂ = n) ∧
        (do
          if a.passesDerivatives then onNetwork (runHook p Layer.passBack)
          let node ← Action.read (·.2.node p)
          onOwnStore (visit node) : Action (τ × Network α) Unit) (own, n₂) = .ok u (own', n') := by
      cases hc : a.collectsGradients with
      | false =>
        rw [hc] at h
        exact ⟨n, rfl, h⟩
      | true =>
        rw [hc] at h
        obtain ⟨_, s₂, hfocus, h⟩ := bind_eq_ok_iff.mp h
        obtain ⟨n₂, hrun, rfl⟩ := focus_eq_ok_iff.mp hfocus
        exact ⟨n₂, hrun, h⟩
    obtain ⟨n₃, hpass, h⟩ : ∃ n₃, (if a.passesDerivatives then
        runHook p Layer.passBack n₂ = .ok () n₃ else n₃ = n₂) ∧
        (do
          let node ← Action.read (·.2.node p)
          onOwnStore (visit node) : Action (τ × Network α) Unit) (own, n₃) = .ok u (own', n') := by
      cases hc : a.passesDerivatives with
      | false =>
        rw [hc] at h
        exact ⟨n₂, rfl, h⟩
      | true =>
        rw [hc] at h
        obtain ⟨_, s₃, hfocus, h⟩ := bind_eq_ok_iff.mp h
        obtain ⟨n₃, hrun, rfl⟩ := focus_eq_ok_iff.mp hfocus
        exact ⟨n₃, hrun, h⟩
    obtain ⟨a', _, hread, h⟩ := bind_eq_ok_iff.mp h
    obtain ⟨ha', rfl⟩ := read_eq_ok_iff.mp hread
    obtain ⟨⟨own₁, st⟩, hvisit, heq⟩ := focus_eq_ok_iff.mp h
    cases heq
    exact ⟨n₂, n₃, hcollect, hpass, a', st, node_eq_ok_iff.mp ha', hvisit, rfl⟩

end Phases

section Given

variable {g : NodeGraph (Node α)} {w : WeightRef} {stops : List (NodeRef × Network α)} {p : NodeRef}
  {m : Network α} {a : Node α} {cs : List (Tensor α)}

theorem contributionsTo_of_trainer (h : contributionsTo g w stops = .ok cs)
    (ha : g.nodes[p]? = some a) (ht : a.trainsWeight w = true) {c : Tensor α}
    (hc : contribution m p w = .ok c) :
    contributionsTo g w (stops ++ [(p, m)]) = .ok (cs ++ [c]) := by
  unfold contributionsTo at h ⊢
  rw [List.filter_append, List.filter_cons_of_pos (by simp [ha, ht])]
  refine except_mapM_eq_ok_iff.mpr (List.rel_append (except_mapM_eq_ok_iff.mp h) (.cons hc ?_))
  rw [List.filter_nil]
  exact .nil

theorem contributionsTo_of_not_trainer (ha : g.nodes[p]? = some a) (ht : a.trainsWeight w = false) :
    contributionsTo g w (stops ++ [(p, m)]) = contributionsTo g w stops := by
  unfold contributionsTo
  rw [List.filter_append, List.filter_cons_of_neg (by simp [ha, ht]), List.filter_nil,
    List.append_nil]

theorem length_of_contributionsTo (h : contributionsTo g w stops = .ok cs) :
    cs.length = (trainersIn g (stops.map (·.1)) w).length := by
  rw [except_mapM_length h]
  unfold trainersIn
  rw [List.filter_map, List.length_map]
  rfl

end Given

section Phase

variable {g : NodeGraph (Node α)} {s : Store α} {batch : Nat} {p : NodeRef} {a : Node α}
  {done rest : List NodeRef} {t : Nat} {given : WeightRef → List (Tensor α)} {loss : α}
  {notes : List (Note α)} {u : Unit} {st : HookState α}

/-- A layer adds something to each of its weights. -/
theorem length_of_contributions {layer : Layer α} {handles : Handles} {r : Reader α}
    {cs : List (Tensor α)} (hf : Fits s layer handles)
    (h : layer.contributions handles r = .ok cs) : cs.length = handles.weights.length := by
  cases hf with
  | fullyConnected =>
    obtain ⟨dy, -, h⟩ := except_bind_eq_ok_iff.mp h
    obtain ⟨x, -, h⟩ := except_bind_eq_ok_iff.mp h
    obtain ⟨dw, -, h⟩ := except_bind_eq_ok_iff.mp h
    cases h
    rfl
  | input | activation | multiout | identity | addition | loss =>
    cases h
    rfl

omit [Scalar α] in
/-- A node has no weight twice. -/
theorem nodup_weights {layer : Layer α} {handles : Handles} (hf : Fits s layer handles) :
    handles.weights.Nodup := by
  cases hf with
  | fullyConnected _ _ _ _ hne => simpa using hne
  | input | activation | multiout | identity | addition | loss => exact List.nodup_nil

section Registered

variable (hreg : Registered g s batch g.order) (hp : s.Placed .train) (ha : g.nodes[p]? = some a)
  (hsplit : g.order.reverse = done ++ p :: rest) (hstep : a.schedule.gradientStep = some t)
include hreg hp ha hsplit hstep

/-- What a trainer collects is added to what has been given to its weights. -/
theorem gathered_of_collect (htrains : a.trains = true)
    (hgiven : ∀ w, (given w).length = (trainersIn g done w).length)
    (hgathered : s.Gathered (usesOf g g.order) given t)
    (h : a.layer.collectGradients a.view ⟨s, loss, notes⟩ = .ok u st) :
    ∃ cs, a.layer.contributions a.tensors s.reader = .ok cs ∧ s.SameLayout st.store ∧
      st.store.Gathered (usesOf g g.order)
        (fun w => given w ++ ((a.tensors.weights.zip cs).lookup w).toList) t ∧
      ∀ id, s.Spans .train id t → (∀ e, s.backing id = some e → e.role ≠ .gradient) →
        st.store.get id = s.get id := by
  have hd : Designed g := hreg.compiled.toDesigned
  have hfits := (hreg.holds_of_node ha).fits
  have huses : ∀ w ∈ a.tensors.weights, t ∈ usesOf g g.order w := fun w hw =>
    mem_usesOf_of_trainer hd ha hstep (by simp [Node.trainsWeight, htrains, hw])
  have hrecord : ∀ w ∈ a.tensors.weights, ∃ r d, s.weights[w]? = some r ∧ r.trainable = true ∧
      r.gradient = some d := by
    intro w hw
    obtain ⟨shape, r, -, hr, -⟩ := hfits.weight hw
    have hne := List.ne_nil_of_mem (huses w hw)
    obtain ⟨d, hgrad⟩ := Option.isSome_iff_exists.mp ((hreg.collected.gradient w r hr).mpr hne)
    exact ⟨r, d, hr, (hreg.collected.trainable w r hr).mpr hne, hgrad⟩
  have hcollects : ∀ w ∈ a.tensors.weights, ∀ s', s.SameLayout s' → s'.trains w = .ok true := by
    intro w hw s' hl
    obtain ⟨r, d, hr, htrainable, hgrad⟩ := hrecord w hw
    rw [Store.trains, hl.weight, Store.weight_eq_ok_iff.mpr hr, except_ok_bind, htrainable, hgrad]
    rfl
  obtain ⟨cs, hcs, hacc, -, -⟩ := Layer.of_collectGradients hfits hstep hcollects h
  have hacc : ((a.tensors.weights.zip cs).forM fun c => Store.accumulate c.1 t c.2 :
      Action (Store α) PUnit) s = .ok ⟨⟩ st.store := hacc
  have hkeys : (a.tensors.weights.zip cs).map (·.1) = a.tensors.weights :=
    List.map_fst_zip (Nat.le_of_eq (length_of_contributions hfits hcs).symm)
  have hmem : ∀ c ∈ a.tensors.weights.zip cs, c.1 ∈ a.tensors.weights := fun c hc =>
    (List.of_mem_zip hc).1
  have hfirst : ∀ c ∈ a.tensors.weights.zip cs, t ∈ usesOf g g.order c.1 ∧
      (given c.1 = [] ↔ (usesOf g g.order c.1).min? = some t) := by
    intro c hc
    refine ⟨huses c.1 (hmem c hc), ?_⟩
    rw [← min?_usesOf_iff hd ha hsplit hstep (by simp [Node.trainsWeight, htrains, hmem c hc]),
      ← List.length_eq_zero_iff, hgiven, List.length_eq_zero_iff]
  obtain ⟨hl, hgathered'⟩ := Store.Gathered.accumulateAll hreg.registry hreg.collected hp
    (by rw [hkeys]; exact nodup_weights hfits) hfirst hgathered hacc
  refine ⟨cs, hcs, hl, hgathered', fun id hspans hother => ?_⟩
  -- Nothing but gradients is written.
  refine (Action.forM_prefix (fun _ s' => s.SameLayout s' ∧ s'.get id = s.get id) hacc
    ⟨.refl s, rfl⟩ fun _ c _ s₁ s₂ _ hsplit hinv hacc₁ => ?_).2
  obtain ⟨hl₁, hget⟩ := hinv
  refine ⟨hl₁.trans (Store.sameLayout_accumulate hacc₁), ?_⟩
  obtain ⟨r', d, hr', -, hgrad⟩ := hrecord c.1 (hmem c (by rw [hsplit]; simp))
  obtain ⟨v, hset⟩ : ∃ v, s₁.set d v = .ok s₂ := by
    obtain ⟨r₁, hr₁, hcase⟩ := Store.accumulate_eq_ok hacc₁
    rw [hl₁.weights, hr'] at hr₁
    cases hr₁
    rw [hgrad] at hcase
    rcases hcase with ⟨hnone, -⟩ | ⟨d', hd', ⟨-, hset⟩ | ⟨-, _, sum, -, -, hset⟩⟩
    · cases hnone
    · cases hd'
      exact ⟨_, hset⟩
    · cases hd'
      exact ⟨sum, hset⟩
  have hused := (hreg.collected.usedIn_gradient hreg.registry hr' hgrad
    (huses c.1 (hmem c (by rw [hsplit]; simp)))).1
  rw [Store.get_of_set_apart (hl₁.placed hp) hset (hl₁.usedIn hused) (hl₁.spans hspans) ?_]
  · exact hget
  · rw [hl₁.rootOf, hl₁.rootOf, hreg.registry.rootOf_gradient hr' hgrad]
    intro hroot
    obtain ⟨e, he, -⟩ := hspans
    obtain ⟨e', -, he', hrole', -⟩ := hreg.registry.gradient c.1 r' d hr' hgrad
    have hat := (Store.backing_eq_some_iff.mp he).2
    rw [hroot, he'] at hat
    cases hat
    exact hother _ he hrole'

omit hsplit in
/-- What a node passes back disturbs no gradient that is still to be used, and nothing that is
kept. -/
theorem gathered_of_passBack (hgathered : s.Gathered (usesOf g g.order) given t)
    (h : a.layer.passBack a.view ⟨s, loss, notes⟩ = .ok u st) :
    s.SameLayout st.store ∧ st.store.Gathered (usesOf g g.order) given (t + 1) ∧
    s.SameKept st.store := by
  have hold := hreg.holds_of_node ha
  obtain ⟨writes, hset, -, -, hcase⟩ := Layer.of_passBack hold.fits h
  have hwrites : ∀ q ∈ writes, s.UsedIn .train q.1 (t + 1) ∧
      ∀ e, s.backing q.1 = some e → e.role.isData = true := by
    intro q hq
    rcases hcase with ⟨rfl, -⟩ | ⟨dxs, -, rfl⟩
    · cases hq
    obtain ⟨⟨x, dx⟩, hx, hq⟩ := List.mem_filterMap.mp hq
    obtain ⟨d, hxd, rfl⟩ := Option.map_eq_some_iff.mp hq
    obtain ⟨width, hw⟩ := hold.fits.input_fits (List.of_mem_zip hx).1
    obtain ⟨e, he, hdata, -⟩ := hw.derivative d hxd
    refine ⟨.of_stepsOf he (Role.isKept_eq_false_of_isData hdata)
      (hold.returns x (List.of_mem_zip hx).1 d _ hxd ?_) (.inl rfl), fun e' he' => ?_⟩
    · obtain ⟨turn, hturn, rfl⟩ := Option.map_eq_some_iff.mp hstep
      rw [Schedule.derivativeStep, hturn]
      rfl
    · rw [he] at he'
      cases he'
      exact hdata
  refine ⟨Store.sameLayout_setAll hset,
    (hgathered.mono (Nat.le_succ t)).setAll hreg.registry hreg.collected hp hset hwrites,
    Store.sameKept_of_setAll hset fun q hq => ?_⟩
  obtain ⟨⟨e, he, hk, -⟩, -⟩ := hwrites q hq
  exact ⟨e, he, hk⟩

end Registered

end Phase

section Visit

/-- The caller hands over at every node the weights whose gradients are complete, and records
them. -/
def handOver (rule : String → WeightState α → Action τ (WeightState α)) (node : Node α) :
    Action ((τ × List (Handover α)) × Store α) Unit := do
  let _ ← applyComplete node (recorded (rule node.name) node.name)

variable {rule : String → WeightState α → Action τ (WeightState α)} {g : NodeGraph (Node α)}
  {batch : Nat} {p : NodeRef} {a b : Node α} {m m' : Network α} {t : Nat} {done rest : List NodeRef}
  {given given' : WeightRef → List (Tensor α)} {own own' : τ} {log log' : List (Handover α)}
  {u : Unit}

/-- What the turn of a node at the step `t` does: it gives something to every weight that it trains,
and hands over those that are complete by then. -/
structure TurnEffect (g : NodeGraph (Node α)) (p : NodeRef) (a : Node α)
    (t : Nat) (m m' : Network α) (given given' : WeightRef → List (Tensor α))
    (new : List (Handover α)) : Prop where
  layout : m.store.SameLayout m'.store
  gives : ∀ w, a.trainsWeight w = true → ∃ c, contribution m p w = .ok c ∧ given' w = given w ++ [c]
  spares : ∀ w, a.trainsWeight w = false → given' w = given w
  gathered : m'.store.Gathered (usesOf g g.order) given' (t + 1)
  handed : List.Forall₂ (fun w (h : Handover α) => h.node = a.name ∧ ∃ r,
    m.store.weights[w]? = some r ∧
    h.update.name = r.name ∧ ∃ c cs, given' w = c :: cs ∧ c.sumOnto cs = .ok h.update.gradient)
    (a.tensors.weights.filter (Store.Completes (usesOf g g.order) t)) new
  untouched : ∀ (w : WeightRef) (r : WeightRecord), m.store.weights[w]? = some r →
    a.trainsWeight w = false → m'.store.get r.value = m.store.get r.value

section Turn

variable (hs : Stage .train g batch m) (ha : g.nodes[p]? = some a)
  (hstep : a.schedule.gradientStep = some t)
include hs ha hstep

/-- The first phase, which leaves out the visit. -/
theorem turnEffect_of_collect (hsplit : g.order.reverse = done ++ p :: rest)
    (hgiven : ∀ w, (given w).length = (trainersIn g done w).length)
    (hgathered : m.store.Gathered (usesOf g g.order) given t)
    (h : if a.collectsGradients then runHook p Layer.collectGradients m = .ok () m' else m' = m) :
    Stage .train g batch m' ∧ ∃ given', m.store.SameLayout m'.store ∧
      (∀ w, a.trainsWeight w = true → ∃ c, contribution m p w = .ok c ∧ given' w = given w ++ [c]) ∧
      (∀ w, a.trainsWeight w = false → given' w = given w) ∧
      m'.store.Gathered (usesOf g g.order) given' t ∧ m.store.SameKept m'.store := by
  rw [hs.registered.compiled.collects p a ha] at h
  cases htrains : a.trains with
  | false =>
    rw [htrains] at h
    obtain rfl : m' = m := h
    refine ⟨hs, given, .refl _, fun w hw => ?_, fun w _ => rfl, hgathered, .refl _⟩
    rw [Node.trainsWeight, htrains] at hw
    cases hw
  | true =>
    rw [htrains] at h
    obtain ⟨loss, st, hcollect, rfl⟩ := hs.hook Layer.collectGradients ha h
    obtain ⟨cs, hcs, hl, hgathered', hothers⟩ :=
      gathered_of_collect hs.registered hs.placed ha hsplit hstep htrains hgiven hgathered hcollect
    have hfits := (hs.registered.holds_of_node ha).fits
    have hlen := length_of_contributions hfits hcs
    have hkept : m.store.SameKept st.store := fun id e he hk => hothers id ⟨e, he, .inl hk⟩
      fun e' he' hrole => by
      rw [he] at he'
      cases he'
      rw [hrole] at hk
      cases hk
    refine ⟨hs.later hl (core_keep m p st), _, hl, fun w hw => ?_, fun w hw => ?_,
      hgathered', hkept⟩
    · have hw : w ∈ a.tensors.weights := by simpa [Node.trainsWeight, htrains] using hw
      obtain ⟨i, hi⟩ := List.getElem?_of_mem hw
      obtain ⟨c, hc⟩ : ∃ c, cs[i]? = some c :=
        ⟨_, List.getElem?_eq_getElem (hlen ▸ (List.getElem?_eq_some_iff.mp hi).1)⟩
      have hlookup : (a.tensors.weights.zip cs).lookup w = some c := by
        refine (lookup_eq_some_iff_mem ?_).mpr
          (List.mem_of_getElem? (List.getElem?_zip_eq_some.mpr ⟨hi, hc⟩))
        rw [List.map_fst_zip (Nat.le_of_eq hlen.symm)]
        exact nodup_weights hfits
      refine ⟨c, ?_, by rw [hlookup]; rfl⟩
      obtain ⟨b, hb, heq⟩ := getElem?_of_map_eq hs.nodes.symm ha
      obtain ⟨hview, hlayer⟩ := view_of_core heq
      unfold contribution
      rw [node_eq_ok_iff.mpr hb, except_ok_bind, hlayer,
        show b.tensors = a.tensors from congrArg NodeView.handles hview, hcs,
        except_ok_bind, hlookup]
      rfl
    · have hw : w ∉ a.tensors.weights := by simpa [Node.trainsWeight, htrains] using hw
      have hnone : (a.tensors.weights.zip cs).lookup w = none := by
        refine List.lookup_eq_none_iff.mpr fun c hc => ?_
        have hne : w ≠ c.1 := fun heq => hw (heq ▸ (List.of_mem_zip hc).1)
        simpa using hne
      simp only [hnone]
      exact List.append_nil _

theorem gathered_of_pass (hgathered : m.store.Gathered (usesOf g g.order) given t)
    (h : if a.passesDerivatives then runHook p Layer.passBack m = .ok () m' else m' = m) :
    Stage .train g batch m' ∧ m.store.SameLayout m'.store ∧
      m'.store.Gathered (usesOf g g.order) given (t + 1) ∧ m.store.SameKept m'.store := by
  cases hpasses : a.passesDerivatives with
  | false =>
    rw [hpasses] at h
    obtain rfl : m' = m := h
    exact ⟨hs, .refl _, hgathered.mono (Nat.le_succ t), .refl _⟩
  | true =>
    rw [hpasses] at h
    obtain ⟨loss, st, hpass, rfl⟩ := hs.hook Layer.passBack ha h
    obtain ⟨hl, hgathered', hkept⟩ :=
      gathered_of_passBack hs.registered hs.placed ha hstep hgathered hpass
    exact ⟨hs.later hl (core_keep m p st), hl, hgathered', hkept⟩

/-- What the caller's visit hands over. -/
theorem visited_of_handOver {st : Store α} (hb : m.graph.nodes[p]? = some b)
    (h : handOver rule b ((own, log), m.store) = .ok u ((own', log'), st)) :
    ∃ new, log' = log ++ new ∧
      Store.Visited (usesOf g g.order) t a.name a.tensors.weights m.store st new := by
  obtain ⟨hview, -⟩ := view_of_core (hs.core ha hb)
  simp only [Node.view, NodeView.mk.injEq] at hview
  obtain ⟨hname, htensors, hschedule⟩ := hview
  obtain ⟨_, _, hfold, hrest⟩ := bind_eq_ok_iff.mp h
  cases hrest
  unfold applyComplete at hfold
  rw [hschedule, hstep, hname, htensors] at hfold
  have hfits := (hs.registered.holds_of_node ha).fits
  refine Store.visited_of_fold hs.registered.registry hs.registered.collected (fun w hw => ?_)
    (nodup_weights hfits) hfold
  obtain ⟨shape, r, -, hr, -⟩ := hfits.weight hw
  exact ⟨r, hr⟩

theorem turnEffect_of_backwardNode (hsplit : g.order.reverse = done ++ p :: rest)
    (hpart : a.participates = true) (hgiven : ∀ w, (given w).length = (trainersIn g done w).length)
    (hgathered : m.store.Gathered (usesOf g g.order) given t)
    (h : backwardNode (handOver rule) p ((own, log), m) = .ok u ((own', log'), m')) :
    Stage .train g batch m' ∧ ∃ given' new, log' = log ++ new ∧
    TurnEffect g p a t m m' given given' new := by
  have hd : Designed g := hs.registered.compiled.toDesigned
  obtain ⟨b, hb, hcase⟩ := turn_of_backwardNode h
  obtain ⟨hparts, hcollects, hpasses⟩ := part_of_core (hs.core ha hb)
  obtain ⟨n₂, n₃, hturn⟩ := (hcase.resolve_left fun hno => by
    rw [hparts, hpart] at hno
    cases hno.1).2
  have hcollect := hturn.collect
  have hpass := hturn.pass
  rw [hcollects] at hcollect
  rw [hpasses] at hpass
  obtain ⟨hs₂, given', hl₂, hgives, hspares, hgathered₂, hkept₂⟩ :=
    turnEffect_of_collect hs ha hstep hsplit hgiven hgathered hcollect
  obtain ⟨hs₃, hl₃, hgathered₃, hkept₃⟩ := gathered_of_pass hs₂ ha hstep hgathered₂ hpass
  obtain ⟨b', st, hb', hvisit, rfl⟩ := hturn.visit
  obtain ⟨new, hlog, hv⟩ := visited_of_handOver hs₃ ha hstep hb' hvisit
  have hl := hl₂.trans hl₃
  have hreg := hs₃.registered
  refine ⟨hs₃.later hv.layout rfl, given', new, hlog, hl.trans hv.layout, hgives, hspares,
    hgathered₃.of_unkept hreg.registry hv.layout hv.unkept, ?_, fun w r hr hno => ?_⟩
  · refine ((List.forall₂_and_left _ _).mpr ⟨fun w hw => (List.mem_filter.mp hw).2, hv.handed⟩).imp
      ?_
    rintro w h' ⟨hcompletes, hnode, r, d, hr, hd', hname, hgradient⟩
    obtain ⟨htrainer, -⟩ := (completes_iff hd ha hsplit hstep).mp hcompletes
    obtain ⟨c, -, hgiven'⟩ := hgives w htrainer
    obtain ⟨c₀, cs, hcons⟩ : ∃ c₀ cs, given' w = c₀ :: cs := by
      rw [hgiven']
      exact List.exists_cons_of_ne_nil (by simp)
    obtain ⟨-, sum, hget, hsum⟩ := hgathered₃ w r d c₀ cs hr hd' hcons
      ⟨t, mem_usesOf_of_trainer hd ha hstep htrainer, Nat.le_refl _⟩
    rw [hgradient] at hget
    cases hget
    exact ⟨hnode, r, by rw [← hl.weights]; exact hr, hname, c₀, cs, hcons, hsum⟩
  · obtain ⟨e, he, hrole⟩ := hs.registered.registry.backing_value hr
    rw [hv.others w r (by rw [hl.weights]; exact hr) ?_,
      hkept₂.trans hl₂ hkept₃ _ e he (by rw [hrole]; rfl)]
    refine .inr (Bool.eq_false_iff.mpr fun hcompletes => ?_)
    rw [((completes_iff hd ha hsplit hstep).mp hcompletes).1] at hno
    cases hno

end Turn

end Visit

section Run

/-- The record has one entry for the weight: at the trainer that stands first in sorted order among
the nodes of the pass so far, with the sum of what its trainers have added, one after the other. -/
def HandedOnce (g : NodeGraph (Node α)) (stops : List (NodeRef × Network α))
    (log : List (Handover α)) (w : WeightRef) (r : WeightRecord) : Prop :=
  ∃ p a h c cs, g.nodes[p]? = some a ∧ a.trainsWeight w = true ∧
    (∀ q ∈ trainersIn g (stops.map (·.1)) w, place g p ≤ place g q) ∧
    log.filter (·.update.name = r.name) = [h] ∧ h.node = a.name ∧
    contributionsTo g w stops = .ok (c :: cs) ∧ c.sumOnto cs = .ok h.update.gradient

/-- A backward pass of `n` in the middle: it has made its stops, and `rest` is still to come. -/
structure Midway (n : Network α) (stops : List (NodeRef × Network α)) (rest : List NodeRef)
    (log : List (Handover α)) (m : Network α) : Prop where
  split : n.graph.order.reverse = stops.map (·.1) ++ rest
  stage : Stage .train n.graph n.batchSize m
  layout : n.store.SameLayout m.store
  gathered : ∃ given, (∀ w, contributionsTo n.graph w stops = .ok (given w)) ∧
    ∀ p ∈ rest, ∀ a t, n.graph.nodes[p]? = some a → a.schedule.gradientStep = some t →
      m.store.Gathered (usesOf n.graph n.graph.order) given t
  handed : ∀ (w : WeightRef) r, n.store.weights[w]? = some r → trainersIn n.graph rest w = [] →
    trainersIn n.graph (stops.map (·.1)) w ≠ [] → HandedOnce n.graph stops log w r
  waiting : ∀ (w : WeightRef) r, n.store.weights[w]? = some r →
    trainersIn n.graph rest w ≠ [] ∨ trainersIn n.graph (stops.map (·.1)) w = [] →
    log.filter (·.update.name = r.name) = []
  untouched : ∀ (w : WeightRef) r, n.store.weights[w]? = some r →
    trainersIn n.graph (stops.map (·.1)) w = [] → m.store.get r.value = n.store.get r.value

variable {asks : (Shape → List Shape) → Prop}
  {rule : String → WeightState α → Action τ (WeightState α)}
  {n m m' : Network α} {stops : List (NodeRef × Network α)} {p : NodeRef} {rest : List NodeRef}
  {own own' : τ} {log log' : List (Handover α)} {u : Unit} {w : WeightRef} {a : Node α}

omit [Scalar α] in
theorem trainersIn_cons {g : NodeGraph (Node α)} (ha : g.nodes[p]? = some a) :
    trainersIn g (p :: rest) w = if a.trainsWeight w = true then p :: trainersIn g rest w
      else trainersIn g rest w := by
  unfold trainersIn
  rw [List.filter_cons, ha]
  rfl

omit [Scalar α] in
theorem trainersIn_concat {g : NodeGraph (Node α)} {done : List NodeRef}
    (ha : g.nodes[p]? = some a) : trainersIn g (done ++ [p]) w =
      if a.trainsWeight w = true then trainersIn g done w ++ [p] else trainersIn g done w := by
  unfold trainersIn
  rw [List.filter_append, List.filter_cons, ha, List.filter_nil]
  split <;> simp_all

omit [Scalar α] in
theorem trainersIn_stops {g : NodeGraph (Node α)} (ha : g.nodes[p]? = some a) :
    trainersIn g ((stops ++ [(p, m)]).map (·.1)) w =
      if a.trainsWeight w = true then trainersIn g (stops.map (·.1)) w ++ [p]
      else trainersIn g (stops.map (·.1)) w := by
  rw [List.map_append, List.map_singleton, trainersIn_concat ha]

/-- A node that takes no part is passed by. -/
theorem Midway.pass_by (h : Midway n stops (p :: rest) log m) (ha : n.graph.nodes[p]? = some a)
    (hno : ∀ w, a.trainsWeight w = false) : Midway n (stops ++ [(p, m)]) rest log m := by
  have hdone : ∀ w, trainersIn n.graph ((stops ++ [(p, m)]).map (·.1)) w =
      trainersIn n.graph (stops.map (·.1)) w := fun w => by
    rw [trainersIn_stops ha, hno w]
    rfl
  have hrest : ∀ w, trainersIn n.graph (p :: rest) w = trainersIn n.graph rest w := fun w => by
    rw [trainersIn_cons ha, hno w]
    rfl
  have hgives : ∀ w, contributionsTo n.graph w (stops ++ [(p, m)]) =
      contributionsTo n.graph w stops :=
    fun w => contributionsTo_of_not_trainer ha (hno w)
  obtain ⟨given, hgiven, hgathered⟩ := h.gathered
  refine ⟨by simp [h.split], h.stage, h.layout,
    ⟨given, fun w => (hgives w).trans (hgiven w), fun q hq =>
    hgathered q (List.mem_cons_of_mem _ hq)⟩, fun w r hr hnone hsome => ?_, fun w r hr hcase => ?_,
    fun w r hr hnone => h.untouched w r hr (by rwa [← hdone w])⟩
  · unfold HandedOnce
    rw [hdone w, hgives w]
    exact h.handed w r hr (by rwa [hrest w]) (by rwa [← hdone w])
  · exact h.waiting w r hr (by rwa [hrest w, ← hdone w])

section Turn

variable {given given' : WeightRef → List (Tensor α)} {new : List (Handover α)} {t : Nat}

/-- A turn hands over one update for each weight that it completes, with the sum of what has been
given, and none for the others. -/
theorem Midway.filter_new (h : Midway n stops (p :: rest) log m) (ha : n.graph.nodes[p]? = some a)
    (hstep : a.schedule.gradientStep = some t) (he : TurnEffect n.graph p a t m m' given given' new)
    {r : WeightRecord} (hr : n.store.weights[w]? = some r) :
    (¬ (a.trainsWeight w = true ∧ trainersIn n.graph rest w = []) →
      new.filter (·.update.name = r.name) = []) ∧
    (a.trainsWeight w = true → trainersIn n.graph rest w = [] →
      ∃ h c cs, h.node = a.name ∧ given' w = c :: cs ∧ c.sumOnto cs = .ok h.update.gradient ∧
        new.filter (·.update.name = r.name) = [h]) := by
  have hd : Designed n.graph := h.stage.registered.compiled.toDesigned
  rw [← h.layout.weights] at hr
  obtain ⟨hother, hself⟩ := filter_of_forall₂ (q := fun h => decide (h.update.name = r.name))
    (x := w) he.handed (by
      rintro v h' ⟨-, r', hr', hname, -⟩
      rw [decide_eq_true_iff, hname]
      refine ⟨fun heq => h.stage.registered.registry.name_inj v w r' r hr' hr heq, ?_⟩
      rintro rfl
      rw [hr] at hr'
      cases hr'
      rfl)
  refine ⟨fun hnot => hother fun hmem => hnot ?_, fun htrains hnone => ?_⟩
  · exact (completes_iff hd ha h.split hstep).mp (List.mem_filter.mp hmem).2
  · have hmem : w ∈ a.tensors.weights := by
      simpa using (Bool.and_eq_true_iff.mp htrains).2
    have hcompletes := (completes_iff hd ha h.split hstep).mpr ⟨htrains, hnone⟩
    obtain ⟨h', ⟨hnode, -, -, -, c, cs, hcons, hsum⟩, heq⟩ :=
      hself (List.mem_filter.mpr ⟨hmem, hcompletes⟩)
        ((nodup_weights (h.stage.registered.holds_of_node ha).fits).filter _)
    exact ⟨h', c, cs, hnode, hcons, hsum, heq⟩

theorem TurnEffect.contributionsTo (he : TurnEffect n.graph p a t m m' given given' new)
    (ha : n.graph.nodes[p]? = some a)
    (hgiven : ∀ w, Network.contributionsTo n.graph w stops = .ok (given w)) (w : WeightRef) :
    Network.contributionsTo n.graph w (stops ++ [(p, m)]) = .ok (given' w) := by
  cases htrains : a.trainsWeight w with
  | false =>
    rw [contributionsTo_of_not_trainer ha htrains, he.spares w htrains]
    exact hgiven w
  | true =>
    obtain ⟨c, hc, heq⟩ := he.gives w htrains
    rw [heq]
    exact contributionsTo_of_trainer (hgiven w) ha htrains hc

/-- The turn of a node that takes part. What it hands over has not been handed over before, since it
was not complete. -/
theorem Midway.turn (h : Midway n stops (p :: rest) log m) (ha : n.graph.nodes[p]? = some a)
    (hstep : a.schedule.gradientStep = some t)
    (hgiven : ∀ w, contributionsTo n.graph w stops = .ok (given w))
    (hs' : Stage .train n.graph n.batchSize m')
    (he : TurnEffect n.graph p a t m m' given given' new) :
    Midway n (stops ++ [(p, m)]) rest (log ++ new) m' := by
  have hd : Designed n.graph := h.stage.registered.compiled.toDesigned
  have hgives := he.contributionsTo ha hgiven
  refine ⟨by simp [h.split], hs', h.layout.trans he.layout, ⟨given', hgives, ?gathered⟩, ?handed,
    ?waiting, ?untouched⟩
  case gathered =>
    intro q hq b t' hb ht'
    have hlt := (gradientStep_lt hd h.split ha hb hstep ht').2 hq
    exact he.gathered.mono (by omega)
  case handed =>
    intro w r hr hnone hsome
    rw [trainersIn_stops ha] at hsome
    cases htrains : a.trainsWeight w with
    | true =>
      obtain ⟨h', c, cs, hnode, hcons, hsum, heq⟩ :=
        (h.filter_new ha hstep he hr).2 htrains hnone
      have hlog := h.waiting w r hr (.inl (by rw [trainersIn_cons ha, if_pos htrains]; simp))
      refine ⟨p, a, h', c, cs, ha, htrains, fun q hq => ?_, ?_, hnode, ?_, hsum⟩
      · have hq := (mem_trainersIn_iff.mp hq).1
        rw [List.map_append, List.map_singleton, List.mem_append, List.mem_singleton] at hq
        rcases hq with hq | rfl
        · exact Nat.le_of_lt ((place_lt_of_split hd.ordered.perm h.split).1 q hq)
        · exact Nat.le_refl _
      · rw [List.filter_append, hlog, heq, List.nil_append]
      · rw [hgives w, hcons]
    | false =>
      rw [htrains, if_neg (by simp)] at hsome
      obtain ⟨q, b, h', c, cs, hb, hb', hfirst, hlog, hnode, hcons, hsum⟩ :=
        h.handed w r hr (by rw [trainersIn_cons ha, htrains, if_neg (by simp)]; exact hnone) hsome
      refine ⟨q, b, h', c, cs, hb, hb', ?_, ?_, hnode, ?_, hsum⟩
      · rw [trainersIn_stops ha, htrains, if_neg (by simp)]
        exact hfirst
      · rw [List.filter_append, hlog, (h.filter_new ha hstep he hr).1 (by simp [htrains]),
          List.append_nil]
      · rw [contributionsTo_of_not_trainer ha htrains]
        exact hcons
  case waiting =>
    intro w r hr hcase
    rw [trainersIn_stops ha] at hcase
    have hnot : ¬ (a.trainsWeight w = true ∧ trainersIn n.graph rest w = []) := by
      rintro ⟨htrains, hnone⟩
      rw [if_pos htrains, hnone] at hcase
      simp at hcase
    rw [List.filter_append, (h.filter_new ha hstep he hr).1 hnot, List.append_nil]
    refine h.waiting w r hr ?_
    rw [trainersIn_cons ha]
    cases htrains : a.trainsWeight w with
    | true => exact .inl (by simp)
    | false => simpa [htrains] using hcase
  case untouched =>
    intro w r hr hnone
    rw [trainersIn_stops ha] at hnone
    cases htrains : a.trainsWeight w with
    | true =>
      rw [if_pos htrains] at hnone
      simp at hnone
    | false =>
      rw [htrains, if_neg (by simp)] at hnone
      rw [he.untouched w r (by rw [h.layout.weights]; exact hr) htrains]
      exact h.untouched w r hr hnone

end Turn

theorem Midway.step (h : Midway n stops (p :: rest) log m)
    (hrun : backwardNode (handOver rule) p ((own, log), m) = .ok u ((own', log'), m')) :
    Midway n (stops ++ [(p, m)]) rest log' m' := by
  have hd : Designed n.graph := h.stage.registered.compiled.toDesigned
  obtain ⟨b, hb, hcase⟩ := turn_of_backwardNode hrun
  obtain ⟨a, ha, hcore⟩ := getElem?_of_map_eq h.stage.nodes hb
  obtain ⟨hparts, -, -⟩ := part_of_core (h.stage.core ha hb)
  cases hpart : a.participates with
  | false =>
    obtain ⟨-, heq, rfl⟩ := hcase.resolve_right fun hyes => by
      rw [hparts, hpart] at hyes
      cases hyes.1
    cases heq
    refine h.pass_by ha fun w => ?_
    have hcollects : a.trains = false := by
      rw [← hd.collects p a ha]
      exact (Bool.or_eq_false_iff.mp hpart).2
    rw [Node.trainsWeight, hcollects, Bool.false_and]
  | true =>
    obtain ⟨turn, hturn⟩ := (exists_turn_iff hd.ordered.perm ha).mp hpart
    have hstep : a.schedule.gradientStep = some turn.gradientStep := by
      rw [Schedule.gradientStep, hd.schedule p a ha, hturn]
      rfl
    obtain ⟨given, hgiven, hgathered⟩ := h.gathered
    obtain ⟨hs', given', new, rfl, he⟩ := turnEffect_of_backwardNode h.stage ha hstep h.split hpart
      (fun w => length_of_contributionsTo (hgiven w)) (hgathered p (by simp) a _ ha hstep) hrun
    exact h.turn ha hstep hgiven hs' he

theorem Midway.run {s s' : (τ × List (Handover α)) × Network α} (h : Midway n stops rest s.1.2 s.2)
    (hrun : rest.forM (backwardNode (handOver rule)) s = .ok ⟨⟩ s') :
    Midway n (stops ++ passage (handOver rule) rest s) [] s'.1.2 s'.2 := by
  induction rest generalizing stops s with
  | nil =>
    cases hrun
    rw [passage, List.append_nil]
    exact h
  | cons p rest ih =>
    rw [List.forM_eq_forM, List.forM_cons] at hrun
    obtain ⟨u, s₁, hfirst, hrun⟩ := bind_eq_ok_iff.mp hrun
    rw [passage, after_of_ok hfirst, List.append_cons]
    exact ih (h.step hfirst) hrun

theorem Ready.midway (h : Ready asks .train n) : Midway n [] n.graph.order.reverse [] n := by
  refine ⟨rfl, h.stage, .refl _,
    ⟨fun _ => [], fun _ => rfl, fun p _ a t _ _ w r d c cs _ _ hnone => ?_⟩,
    fun w r _ _ hsome => absurd rfl hsome, fun _ _ _ _ => rfl, fun _ _ _ _ => rfl⟩
  cases hnone

/-- In a backward pass over a network that is reached, prepared, filled and allocated for training,
every weight that some node trains is handed to the rule once: at the trainer that comes first in
sorted order, with the sum of what all its trainers add in this pass. A weight that no node trains
is not handed over, and keeps its value. If the rule changes no shape, the pass ends well. -/
theorem handed_once (h : Reached asks n) (hready : checkReady n = .ok ())
    (htrain : n.store.mode = some .train) (rule : String → WeightState α → Action τ (WeightState α))
    (own : τ) :
    ((∀ name, Store.KeepsShapes asks (rule name)) →
      ∃ own' log n', backward (handOver rule) ((own, []), n) = .ok () ((own', log), n')) ∧
    ∀ own' log n', backward (handOver rule) ((own, []), n) = .ok () ((own', log), n') →
      ∀ (w : WeightRef) r, n.store.weights[w]? = some r →
        (trainers n.graph w ≠ [] →
          HandedOnce n.graph (passage (handOver rule) n.graph.order.reverse ((own, []), n))
            log w r) ∧
        (trainers n.graph w = [] → log.filter (·.update.name = r.name) = [] ∧
          n'.store.get r.value = n.store.get r.value) := by
  obtain ⟨mode, hmode, hr⟩ := h.ready hready
  obtain rfl : mode = .train := Option.some.inj (hmode.symm.trans htrain)
  refine ⟨fun hrule => ?_, fun own' log n' hrun w r hw => ?_⟩
  · obtain ⟨⟨own', log⟩, n', hrun, -⟩ := hr.exists_backward
      (fun node Q hQ => keeps_applyComplete_visit hQ node (recorded (rule node.name) node.name))
      (fun n p a hn ha => (hn.returns_applyComplete ha
        (keepsShapes_recorded (hrule a.name) a.name)).bind
        fun _ _ => returns_pure trivial) (own, [])
    exact ⟨own', log, n', hrun⟩
  · have hend := hr.midway.run (s := ((own, []), n)) (backward_eq_ok hrun)
    have hnodes : (passage (handOver rule) n.graph.order.reverse ((own, []), n)).map (·.1) =
        n.graph.order.reverse := nodes_passage _ _ _
    refine ⟨fun hsome => hend.handed w r hw rfl ?_, fun hnone => ⟨hend.waiting w r hw (.inr ?_),
      hend.untouched w r hw ?_⟩⟩
    · rwa [List.nil_append, hnodes]
    · rwa [List.nil_append, hnodes]
    · rwa [List.nil_append, hnodes]

end Run

section Relay

/-- Two layers with the same weights, in memory. -/
def relaying : Network Float32 := (allocate .train).after (fillWeights.after relayed)

theorem reached_relaying : Reached (fun _ : Shape → List Shape => False) relaying :=
  .allocate _ (.fillWeights reached_relayed)

theorem relaying_ready : checkReady relaying = .ok () ∧ relaying.store.mode = some .train ∧
    relaying.store.weights.map (·.name) = ["r:weight", "r:bias", "o:weight", "o:bias"] ∧
    trainers relaying.graph 0 = [2, 1] := by
  decide +kernel

/-- The weight of the layer `r` is handed over once, with the sum of what `o` and `r` have added. -/
theorem relaying_handed :
    ∃ log n', backward (handOver fun _ => pure) (((), []), relaying) = .ok () (((), log), n') ∧
      ∃ r, relaying.store.weights[0]? = some r ∧ trainers relaying.graph 0 = [2, 1] ∧
        HandedOnce relaying.graph
          (passage (handOver fun _ => pure) relaying.graph.order.reverse (((), []), relaying))
          log 0 r := by
  obtain ⟨hready, hmode, hnames, htrainers⟩ := relaying_ready
  obtain ⟨hends, hhanded⟩ := handed_once reached_relaying hready hmode (fun _ => pure) ()
  obtain ⟨⟨⟩, log, n', hrun⟩ := hends fun _ => Store.keepsShapes_pure
  have hfirst : (relaying.store.weights.map (·.name))[0]? = some "r:weight" := by
    rw [hnames]
    rfl
  rw [List.getElem?_map] at hfirst
  obtain ⟨r, hr, -⟩ := Option.map_eq_some_iff.mp hfirst
  exact ⟨log, n', hrun, r, hr, htrainers, (hhanded () log n' hrun 0 r hr).1 (by simp [htrainers])⟩

end Relay

end LayerGraph.Network
