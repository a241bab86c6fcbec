import LayerGraph.Proofs.Lockstep
import LayerGraph.Proofs.Network.Backward
import LayerGraph.Proofs.Store.Weights

/-!
# The ledger of a backward pass

Without buffers a backward pass keeps a ledger: what can be read, what the gradients have been
given, and the optimizer state. Node by node it enters what the node gives and settles the weights
that no node still to come trains. A network in memory keeps to this ledger, whatever shares a
buffer.
-/

namespace LayerGraph

open Network

variable {α τ : Type} [Scalar α]

structure Ledger (α : Type) where
  reader : Reader α
  /-- What the gradient of each weight has been given so far in the pass. -/
  given : WeightRef → List (Tensor α)
  state : WeightRef → List (Tensor α)

namespace Ledger

/-- The ledger once a node has given something to gradients and passed derivatives on. -/
def enter (l : Ledger α) (swept : List (WeightRef × Tensor α) × Reader α) : Ledger α :=
  { l with reader := swept.2, given := fun w => l.given w ++ (swept.1.lookup w).toList }

/-- A weight as it is handed over, with the sum of what its gradient has been given. -/
def handed (l : Ledger α) (name : String) (w : WeightRef) : Except Error (WeightState α) := do
  match l.given w with
  | [] => throw (.staleHandle w)
  | c :: cs => return ⟨name, ← l.reader.weight w, ← c.sumOnto cs, l.state w⟩

/-- The ledger once a weight has been replaced. -/
def replace (l : Ledger α) (w : WeightRef) (new : WeightState α) : Ledger α :=
  { l with
    reader :=
      { l.reader with weight := fun v => if v = w then .ok new.value else l.reader.weight v }
    state := fun v => if v = w then renewed (l.state w) new.state else l.state v }

/-- Hand a weight over to a rule and replace it, unless the rule changes a shape. -/
def settle (rule : WeightState α → Action τ (WeightState α)) (name : String) (w : WeightRef) :
    Action (τ × Ledger α) Unit := do
  let old ← Action.read (·.2.handed name w)
  let new ← Action.focus (·.1) (fun own s => (own, s.2)) (rule old)
  if old.SameShapes new then modify fun s => (s.1, s.2.replace w new)
  else throw (.shapeMismatch name old.value.shape new.value.shape)

/-- The turn of a node. Of its weights those are settled that no node in `rest` trains. -/
def turn (g : NodeGraph (Node α)) (names : WeightRef → String)
    (rule : String → WeightState α → Action τ (WeightState α)) (rest : List NodeRef) (p : NodeRef) :
    Action (τ × Ledger α) Unit := do
  match g.nodes[p]? with
  | none => throw (.staleHandle p)
  | some a =>
    if a.participates then
      let swept ← Action.read (a.sweep ·.2.reader)
      modify fun s => (s.1, s.2.enter swept)
      a.tensors.weights.forM fun w =>
        if a.trainsWeight w && (trainersIn g rest w).isEmpty then settle (rule a.name) (names w) w
          else pure ⟨⟩

/-- The turns of some nodes, one after the other. -/
def turns (g : NodeGraph (Node α)) (names : WeightRef → String)
    (rule : String → WeightState α → Action τ (WeightState α)) : List NodeRef →
    Action (τ × Ledger α) Unit
  | [] => pure ()
  | p :: rest => do
    turn g names rule rest p
    turns g names rule rest

end Ledger

section Visit

variable {s₀ : Store α} {batch t : Nat} {mode : RunMode} {live : TensorRef → Prop}
  {uses : WeightRef → List Nat} {given : WeightRef → List (Tensor α)} {w : WeightRef}
  {r : WeightRecord}

/-- A store that keeps to a ledger while weights are settled. -/
structure Settles (s₀ : Store α) (live : TensorRef → Prop) (uses : WeightRef → List Nat)
    (given : WeightRef → List (Tensor α)) (t : Nat) (s : Store α) (l : Ledger α) : Prop where
  held : s₀.Held s
  agrees : s.Agrees live l.reader
  gathered : s.Gathered uses given t
  given : l.given = given
  states : s.StatesAre l.state

/-- The same caller's state. -/
def SameOwn {σ σ' : Type} (s : τ × σ) (t : τ × σ') : Prop := s.1 = t.1

variable (hreg : Store.Registry batch s₀) (hplaced : s₀.Placed .train)
  (hfilled : s₀.hasWeights = true) (hapart : s₀.StatesApart)
  (hlive : ∀ id, live id → ∃ e, s₀.backing id = some e ∧ e.role.isKept = false)
  (hr : s₀.weights[w]? = some r)
include hreg hplaced hfilled hapart hlive hr

/-- A weight that is written back is replaced in the ledger. -/
theorem Settles.writeBack {s : Store α} {l : Ledger α} (h : Settles s₀ live uses given t s l)
    (old new : WeightState α) (hvalue : s.get r.value = .ok old.value)
    (hstate : old.state = l.state w) :
    Action.Matches (Settles s₀ live uses given t) (fun _ _ => True) (fun _ _ => True)
      (Store.writeBack new r.value r.optimizerState s)
      ((if old.SameShapes new then modify (·.replace w new)
        else throw (.shapeMismatch r.name old.value.shape new.value.shape) : Action (Ledger α) Unit)
          l) := by
  have hl := h.held.1
  have hreg' := hl.registry hreg
  have hr' : s.weights[w]? = some r := by rw [hl.weights]; exact hr
  have hapart' : s.StatesApart := by
    unfold Store.StatesApart
    rw [hl.weights]
    exact hapart
  have hiff : (∃ s', Store.writeBack new r.value r.optimizerState s = .ok () s') ↔
      old.SameShapes new :=
    Store.writeBack_iff hreg' hr' h.held.2 (hl.hasWeights.trans hfilled) hvalue
      (by rw [hstate]; exact h.states w r hr')
  by_cases hsame : old.SameShapes new
  · rw [if_pos hsame]
    obtain ⟨s', hwrite⟩ := hiff.mpr hsame
    rw [hwrite]
    have hset := Store.writeBack_eq_ok_iff.mp hwrite
    have hl' := Store.sameLayout_setAll hset
    obtain ⟨hunkept, -⟩ := Store.get_of_revised hreg' hr' hset fun p hp => by
      rcases List.mem_cons.mp hp with rfl | hp
      · exact .inl rfl
      · exact .inr (List.of_mem_zip hp).1
    refine .ok trivial ⟨⟨hl.trans hl', Store.loaded_setAll h.held.2 hset⟩,
      ⟨fun id hid => ?_, ?_, ?_⟩, h.gathered.of_unkept hreg' hl' hunkept, h.given, ?_⟩
    · obtain ⟨e, he, hk⟩ := hlive id hid
      rw [hunkept id e ((hl.backing id).trans he) hk]
      exact h.agrees.value id hid
    · exact (Store.shape_of_sameLayout hl').trans h.agrees.shape
    · rw [Store.weight_of_writesOf hreg' hr' (hl.placed hplaced) hapart' hset, h.agrees.weight]
      rfl
    · exact Store.statesAre_of_writesOf hreg' hr' (hl.placed hplaced) hapart' hset h.states
  · rw [if_neg hsame]
    cases hwrite : Store.writeBack new r.value r.optimizerState s with
    | ok u s' => exact absurd (hiff.mp ⟨s', hwrite⟩) hsame
    | error e s' => exact .error trivial

/-- A weight that is handed over is settled in the ledger. -/
theorem Settles.revise {d : TensorRef} (hd : r.gradient = some d) (hne : given w ≠ [])
    (huses : ∃ u ∈ uses w, t ≤ u + 1) (rule : WeightState α → Action τ (WeightState α))
    {s : τ × Store α} {l : τ × Ledger α} (hown : s.1 = l.1)
    (h : Settles s₀ live uses given t s.2 l.2) :
    Action.Matches (fun s l => s.1 = l.1 ∧ Settles s₀ live uses given t s.2 l.2) SameOwn
      (fun _ _ => True) (Store.revise w rule s) (Ledger.settle rule r.name w l) := by
  obtain ⟨own, s⟩ := s
  obtain ⟨_, l⟩ := l
  obtain rfl : own = _ := hown
  have hl := h.held.1
  have hr' : s.weights[w]? = some r := by rw [hl.weights]; exact hr
  obtain ⟨c, cs, hgiven⟩ := List.exists_cons_of_ne_nil hne
  obtain ⟨-, sum, hget, hsum⟩ := h.gathered w r d c cs hr' hd hgiven huses
  obtain ⟨e, he, hk⟩ := (hreg.isKept hr (.inl rfl)).backing
  obtain ⟨value, hvalue⟩ := Store.exists_get_of_kept h.held.2 (hl.hasWeights.trans hfilled)
    ((hl.backing _).trans he) hk
  have hread : l.reader.weight w = .ok value := by
    rw [← h.agrees.weight]
    change (do s.get (← s.weight w).value) = _
    rw [Store.weight_eq_ok_iff.mpr hr', except_ok_bind]
    exact hvalue
  have hupdate : s.update? w = .ok (some (⟨r.name, value, sum, l.state w⟩, r.value,
      r.optimizerState)) := by
    unfold Store.update?
    rw [Store.weight_eq_ok_iff.mpr hr', except_ok_bind, hd]
    dsimp only
    rw [hvalue, except_ok_bind, hget, except_ok_bind, h.states w r hr']
    rfl
  have hhanded : l.handed r.name w = .ok ⟨r.name, value, sum, l.state w⟩ := by
    unfold Ledger.handed
    rw [h.given, hgiven]
    dsimp only
    rw [hread, except_ok_bind, hsum]
    rfl
  unfold Store.revise Ledger.settle
  rw [Action.bind_of_ok (Action.read_of_ok (f := fun s : τ × Store α => s.2.update? w)
      (s := (own, s)) hupdate),
    Action.bind_of_ok (Action.read_of_ok (f := fun s : τ × Ledger α => s.2.handed r.name w)
      (s := (own, l)) hhanded)]
  dsimp only
  refine Action.Matches.bind (?_ : Action.Matches (fun s' l' => s'.1 = l'.1 ∧ s = s'.2 ∧
      l = l'.2) SameOwn Eq _ _) ?_
  · cases hrule : rule ⟨r.name, value, sum, l.state w⟩ own with
    | ok new own' =>
      rw [Action.focus_of_ok (s := (own, s)) hrule, Action.focus_of_ok (s := (own, l)) hrule]
      exact .ok rfl ⟨rfl, rfl, rfl⟩
    | error e own' =>
      rw [Action.focus_of_error (s := (own, s)) hrule, Action.focus_of_error (s := (own, l)) hrule]
      exact .error rfl
  · rintro new _ ⟨own', _⟩ ⟨_, _⟩ rfl ⟨rfl, rfl, rfl⟩
    have hwrite := h.writeBack hreg hplaced hfilled hapart hlive hr ⟨r.name, value, sum,
      l.state w⟩ new hvalue rfl
    generalize hx : Store.writeBack new r.value r.optimizerState s = x at hwrite
    by_cases hsame : (⟨r.name, value, sum, l.state w⟩ : WeightState α).SameShapes new
    · rw [if_pos hsame] at hwrite ⊢
      cases hwrite with
      | ok _ hs =>
        rw [Action.focus_of_ok (s := (own', s)) hx]
        exact .ok trivial ⟨rfl, hs⟩
    · rw [if_neg hsame] at hwrite ⊢
      cases hwrite with
      | error _ =>
        rw [Action.focus_of_error (s := (own', s)) hx]
        exact .error rfl

end Visit

namespace Network

variable {n m m₂ m₃ : Network α} {asks : (Shape → List Shape) → Prop} {done rest : List NodeRef}
  {p : NodeRef} {a b : Node α} {l : Ledger α} {own : τ}

omit [Scalar α] in
/-- The places of the nodes still to come in a backward pass are those below the present one. -/
theorem place_of_reverse {g : NodeGraph (Node α)} (hn : g.order.Nodup)
    (hsplit : g.order.reverse = done ++ p :: rest) : place g p = rest.length := by
  have hforward : g.order = rest.reverse ++ p :: done.reverse := by
    simpa using congrArg List.reverse hsplit
  rw [place_of_split hn hforward, List.length_reverse]

/-- A node gives something to each of the weights that it trains. -/
theorem length_given_of_collected {s : Store α} {r : Reader α} {given : List (Tensor α)}
    (hf : Fits s a.layer a.tensors) (hgiven : a.collected r = .ok given) (w : WeightRef) :
    ((a.tensors.weights.zip given).lookup w).toList.length = if a.trainsWeight w = true
      then 1 else 0 := by
  unfold Node.collected at hgiven
  cases htrains : a.trains with
  | false =>
    rw [htrains] at hgiven
    cases hgiven
    simp [Node.trainsWeight, htrains]
  | true =>
    rw [htrains] at hgiven
    have hlen := length_of_contributions hf hgiven
    have hkeys : (a.tensors.weights.zip given).map (·.1) = a.tensors.weights :=
      List.map_fst_zip (le_of_eq hlen.symm)
    by_cases hw : w ∈ a.tensors.weights
    · obtain ⟨i, hi⟩ := List.getElem?_of_mem hw
      obtain ⟨c, hc⟩ : ∃ c, given[i]? = some c :=
        ⟨_, List.getElem?_eq_getElem (hlen ▸ (List.getElem?_eq_some_iff.mp hi).1)⟩
      have hlookup : (a.tensors.weights.zip given).lookup w = some c :=
        (lookup_eq_some_iff_mem (by rw [hkeys]; exact nodup_weights hf)).mpr
          (List.mem_of_getElem? (List.getElem?_zip_eq_some.mpr ⟨hi, hc⟩))
      simp [hlookup, Node.trainsWeight, htrains, hw]
    · have hnone : (a.tensors.weights.zip given).lookup w = none := by
        refine List.lookup_eq_none_iff.mpr fun c hc => ?_
        have hne : w ≠ c.1 := fun heq => hw (heq ▸ (List.of_mem_zip hc).1)
        simpa using hne
      simp [hnone, Node.trainsWeight, htrains, hw]

theorem length_given_of_sweep {s : Store α} {r r' : Reader α} {cs : List (WeightRef × Tensor α)}
    (hf : Fits s a.layer a.tensors) (h : a.sweep r = .ok (cs, r')) (w : WeightRef) :
    (cs.lookup w).toList.length = if a.trainsWeight w = true then 1 else 0 := by
  obtain ⟨given, hgiven, h⟩ := except_bind_eq_ok_iff.mp h
  obtain ⟨dxs, -, h⟩ := except_bind_eq_ok_iff.mp h
  cases h
  exact length_given_of_collected hf hgiven w

omit [Scalar α] in
/-- Values of the right shapes may be written to a network that runs. -/
theorem Runs.withStore {mode : RunMode} {g : NodeGraph (Node α)} (h : Runs asks mode g m)
    {s : Store α} (hs : m.store.Held s) : Runs asks mode g { m with store := s } := by
  have hprep := h.1.prepared
  refine h.held
    (hprep.reworked (Store.reworked_of_entries hprep.registered.registry hs.1.entries hs.1.weights
    hs.1.maxStep hs.1.forwardSteps (hs.1.allocated hprep.allocated) hs.2) (.inl hs.1.mode)) hs rfl

section Phases

variable {visit : Node α → Action (τ × Store α) Unit}

/-- A turn whose first phases are known comes down to the visit. -/
theorem backwardNode_of_phases (hb : m.graph.nodes[p]? = some b) (hpart : b.participates = true)
    (hcollect : if b.collectsGradients then runHook p Layer.collectGradients m = .ok () m₂
      else m₂ = m)
    (hpass : if b.passesDerivatives then runHook p Layer.passBack m₂ = .ok () m₃ else m₃ = m₂)
    {b' : Node α} (hb' : m₃.graph.nodes[p]? = some b') :
    backwardNode visit p (own, m) = onOwnStore (visit b') (own, m₃) := by
  have hread : Action.read (fun s : τ × Network α => s.2.node p) (own, m) = .ok b (own, m) :=
    Action.read_of_ok (node_eq_ok_iff.mpr hb)
  have hread' : Action.read (fun s : τ × Network α => s.2.node p) (own, m₃) = .ok b' (own, m₃) :=
    Action.read_of_ok (node_eq_ok_iff.mpr hb')
  have hhook : ∀ {hook : Layer α → Hook α Unit} {m m' : Network α}, runHook p hook m = .ok () m' →
      (onNetwork (runHook p hook) : Action (τ × Network α) Unit) (own, m) = .ok () (own, m') := by
    intro hook m m' h
    change Action.focus (fun s : τ × Network α => s.2) _ _ _ = _
    exact Action.focus_of_ok h
  have hlast : (do
      if b.passesDerivatives then onNetwork (runHook p Layer.passBack)
      let node ← Action.read (·.2.node p)
      onOwnStore (visit node) : Action (τ × Network α) Unit) (own, m₂) =
        onOwnStore (visit b') (own, m₃) := by
    cases hpasses : b.passesDerivatives with
    | false =>
      rw [hpasses] at hpass
      obtain rfl : m₃ = m₂ := hpass
      exact Action.bind_of_ok hread'
    | true =>
      rw [hpasses] at hpass
      exact (Action.bind_of_ok (hhook hpass)).trans (Action.bind_of_ok hread')
  unfold backwardNode
  rw [Action.bind_of_ok hread, if_pos hpart]
  cases hcollects : b.collectsGradients with
  | false =>
    rw [hcollects] at hcollect
    obtain rfl : m₂ = m := hcollect
    exact hlast
  | true =>
    rw [hcollects] at hcollect
    exact (Action.bind_of_ok (hhook hcollect)).trans hlast

/-- The first phases of a turn end well. -/
theorem exists_phases (h : Runs asks .train n.graph m) (ha : n.graph.nodes[p]? = some a)
    (hpart : a.participates = true) : ∃ m₂ m₃,
    (if a.collectsGradients then runHook p Layer.collectGradients m = .ok () m₂ else m₂ = m) ∧
    (if a.passesDerivatives then runHook p Layer.passBack m₂ = .ok () m₃ else m₃ = m₂) ∧
    Runs asks .train n.graph m₃ := by
  have hphase : ∀ (c : Bool) {hook : Layer α → Hook α Unit} {m : Network α},
      Runs asks .train n.graph m →
      Action.Returns (Runs asks .train n.graph) (runHook p hook) (fun _ => True) →
      ∃ m', (if c then runHook p hook m = .ok () m' else m' = m) ∧ Runs asks .train n.graph m' := by
    intro c hook m h hreturns
    cases c with
    | false => exact ⟨m, rfl, h⟩
    | true =>
      obtain ⟨u, m', hrun, h', -⟩ := hreturns m h
      exact ⟨m', hrun, h'⟩
  obtain ⟨m₂, hcollect, h₂⟩ := hphase a.collectsGradients h (returns_collect ha hpart)
  obtain ⟨m₃, hpass, h₃⟩ := hphase a.passesDerivatives h₂ (returns_passBack ha hpart)
  exact ⟨m₂, m₃, hcollect, hpass, h₃⟩

end Phases

/-- A backward pass of `n` that has come through the nodes in `done` keeps to the ledger. -/
structure Tracks (asks : (Shape → List Shape) → Prop) (n : Network α) (done rest : List NodeRef)
    (m : Network α) (l : Ledger α) : Prop where
  split : n.graph.order.reverse = done ++ rest
  runs : Runs asks .train n.graph m
  stage : Stage .train n.graph n.batchSize m
  layout : n.store.SameLayout m.store
  agrees : m.store.Agrees (NeededBackward n.graph rest.length) l.reader
  counts : ∀ w, (l.given w).length = (trainersIn n.graph done w).length
  gathered : ∀ p ∈ rest, ∀ a t, n.graph.nodes[p]? = some a → a.schedule.gradientStep = some t →
    m.store.Gathered (usesOf n.graph n.graph.order) l.given t
  states : m.store.StatesAre l.state

namespace Tracks

/-- A node that takes no part is passed by. -/
theorem pass_by (h : Tracks asks n done (p :: rest) m l) (ha : n.graph.nodes[p]? = some a)
    (hpart : a.participates = false) : Tracks asks n (done ++ [p]) rest m l := by
  have hd : Designed n.graph := h.stage.registered.compiled.toDesigned
  have hplace := place_of_reverse (nodup_order hd.ordered.perm) h.split
  have hagrees := h.agrees
  obtain ⟨hpasses, hcollects⟩ := Bool.or_eq_false_iff.mp hpart
  rw [List.length_cons, ← hplace] at hagrees
  refine ⟨by rw [h.split]; simp, h.runs, h.stage, h.layout, ?_, fun w => ?_,
    fun q hq => h.gathered q (List.mem_cons_of_mem _ hq), h.states⟩
  · rw [← hplace]
    exact hagrees.mono fun id hid => hid.of_not_passes h.stage.registered ha hpasses
  · rw [trainersIn_concat ha, Node.trainsWeight, ← hd.collects p a ha, hcollects]
    exact h.counts w

variable {names : WeightRef → String} {rule : String → WeightState α → Action τ (WeightState α)}
  (hnames : ∀ (w : WeightRef) r, n.store.weights[w]? = some r → names w = r.name)
  (hapart : n.store.StatesApart)
include hnames hapart

variable (rule) in
/-- The visit of a node settles those of its weights that no later node trains. -/
theorem visit (hs : Stage .train n.graph n.batchSize m₃) (hruns : Runs asks .train n.graph m₃)
    (hl : n.store.SameLayout m₃.store) (ha : n.graph.nodes[p]? = some a)
    (hsplit : n.graph.order.reverse = done ++ p :: rest) {t : Nat}
    (hstep : a.schedule.gradientStep = some t) (hb : m₃.graph.nodes[p]? = some b)
    (hgiven : ∀ w, (l.given w).length = (trainersIn n.graph (done ++ [p]) w).length)
    (h : Settles m₃.store (NeededBackward n.graph (place n.graph p)) (usesOf n.graph n.graph.order)
      l.given (t + 1) m₃.store l) :
    Action.Matches (fun s l' => s.1 = l'.1 ∧
        Settles m₃.store (NeededBackward n.graph (place n.graph p))
        (usesOf n.graph n.graph.order) l.given (t + 1) s.2 l'.2) SameOwn (fun _ _ => True)
      ((do let _ ← applyComplete b (rule b.name) : Action (τ × Store α) Unit) (own, m₃.store))
      ((a.tensors.weights.forM fun w => if a.trainsWeight w && (trainersIn n.graph rest w).isEmpty
        then Ledger.settle (rule a.name) (names w) w else pure ⟨⟩ : Action (τ × Ledger α) PUnit)
          (own, l)) := by
  have hd : Designed n.graph := hs.registered.compiled.toDesigned
  obtain ⟨hview, -⟩ := view_of_core (hs.core ha hb)
  simp only [Node.view, NodeView.mk.injEq] at hview
  obtain ⟨hname, htensors, hschedule⟩ := hview
  have hapart' : m₃.store.StatesApart := by
    unfold Store.StatesApart
    rw [hl.weights]
    exact hapart
  have hlive : ∀ id, NeededBackward n.graph (place n.graph p) id →
      ∃ e, m₃.store.backing id = some e ∧ e.role.isKept = false := fun id hid => by
    obtain ⟨e, he, hdata⟩ := hid.isData hs.registered
    exact ⟨e, he, Role.isKept_eq_false_of_isData hdata⟩
  have hloop : Action.Matches (fun s l' => s.1 = l'.1 ∧
        Settles m₃.store (NeededBackward n.graph (place n.graph p))
        (usesOf n.graph n.graph.order) l.given (t + 1) s.2 l'.2) SameOwn (fun _ _ => True)
      (applyComplete b (rule b.name) (own, m₃.store))
      ((a.tensors.weights.forM fun w => if a.trainsWeight w && (trainersIn n.graph rest w).isEmpty
        then Ledger.settle (rule a.name) (names w) w else pure ⟨⟩ : Action (τ × Ledger α) PUnit)
          (own, l)) := by
    unfold applyComplete
    rw [hschedule, hstep, htensors, hname]
    refine Action.matches_foldlM_forM (fun w hw count s l' hsl => ?_) ⟨rfl, h⟩
    obtain ⟨own, s⟩ := s
    obtain ⟨_, l'⟩ := l'
    obtain ⟨rfl, hset⟩ := hsl
    have hls := hset.held.1
    obtain ⟨shape, r, -, hr, -⟩ := (hs.registered.holds_of_node ha).fits.weight hw
    have hr' : s.weights[w]? = some r := by rw [hls.weights]; exact hr
    have hcollected := hls.collected hs.registered.collected
    rw [Action.bind_of_ok (Action.read_of_ok (f := fun s : τ × Store α => do
      return (← s.2.trains w) && (← s.2.isLastGradientStep w t)) (s :=
        (own, s)) (Store.isLast_eq hcollected hr'))]
    have hiff := completes_iff hd ha hsplit hstep (w := w)
    cases hcomplete : Store.Completes (usesOf n.graph n.graph.order) t w with
    | false =>
      rw [if_neg Bool.false_ne_true, if_neg]
      · exact .ok trivial ⟨rfl, hset⟩
      · rw [Bool.and_eq_true, List.isEmpty_iff, ← hiff, hcomplete]
        exact Bool.false_ne_true
    | true =>
      obtain ⟨htrains, hlast⟩ := hiff.mp hcomplete
      rw [if_pos rfl, if_pos (by rw [htrains, hlast]; rfl)]
      have huse := mem_usesOf_of_trainer hd ha hstep htrains
      obtain ⟨d, hgrad⟩ := Option.isSome_iff_exists.mp
        ((hs.registered.collected.gradient w r hr).mpr (List.ne_nil_of_mem huse))
      have hne : l.given w ≠ [] := by
        refine List.ne_nil_of_length_pos ?_
        rw [hgiven, trainersIn_concat ha, if_pos htrains]
        simp
      rw [hnames w r (by rw [← hl.weights]; exact hr)]
      exact (hset.revise hs.registered.registry hs.placed hruns.1.filled hapart' hlive hr hgrad hne
        ⟨t, huse, Nat.le_refl _⟩ (rule a.name) (s := (own, s)) (l := (own, l')) rfl).then_pure
        fun _ _ _ => trivial
  exact hloop.then_pure fun _ _ _ => trivial

/-- A turn keeps to the ledger. -/
theorem step (h : Tracks asks n done (p :: rest) m l) :
    Action.Matches (fun s l' => s.1 = l'.1 ∧ Tracks asks n (done ++ [p]) rest s.2 l'.2) SameOwn
      (fun _ _ => True)
      (backwardNode (fun node => do let _ ← applyComplete node (rule node.name)) p (own, m))
      (Ledger.turn n.graph names rule rest p (own, l)) := by
  have hd : Designed n.graph := h.stage.registered.compiled.toDesigned
  have hplace := place_of_reverse (nodup_order hd.ordered.perm) h.split
  have hmem : p ∈ n.graph.order.reverse := by rw [h.split]; simp
  have hlt := (mem_order_iff hd.ordered.perm).mp (List.mem_reverse.mp hmem)
  obtain ⟨a, ha⟩ : ∃ a, n.graph.nodes[p]? = some a := ⟨_, List.getElem?_eq_getElem hlt⟩
  obtain ⟨b, hb, hcore⟩ := h.runs.node ha
  obtain ⟨hparts, hcollects, hpasses⟩ := part_of_core hcore
  unfold Ledger.turn
  rw [ha]
  dsimp only
  cases hpart : a.participates with
  | false =>
    have hread : Action.read (fun s : τ × Network α => s.2.node p) (own, m) = .ok b (own, m) :=
      Action.read_of_ok (node_eq_ok_iff.mpr hb)
    unfold backwardNode
    rw [Action.bind_of_ok hread, if_neg (by rw [hparts, hpart]; exact Bool.false_ne_true),
      if_neg Bool.false_ne_true]
    exact .ok trivial ⟨rfl, h.pass_by ha hpart⟩
  | true =>
    obtain ⟨turn, hturn, -⟩ := hd.exists_turn ha hpart
    have hstep : a.schedule.gradientStep = some turn.gradientStep := by
      rw [Schedule.gradientStep, hturn]
      rfl
    obtain ⟨m₂, m₃, hcollect, hpass, h₃⟩ := exists_phases h.runs ha hpart
    have hagrees := h.agrees
    rw [List.length_cons, ← hplace] at hagrees
    obtain ⟨cs, r', hsweep, hswept⟩ := swept_of_turn h.stage ha hturn hagrees h.split h.counts
      (h.gathered p (by simp) a _ ha hstep) hcollect hpass
    obtain ⟨b', hb', -⟩ := h₃.node ha
    rw [← hcollects] at hcollect
    rw [← hpasses] at hpass
    rw [backwardNode_of_phases hb (hparts.trans hpart) hcollect hpass hb', if_pos rfl,
      Action.bind_of_ok (Action.read_of_ok (f := fun s : τ × Ledger α => a.sweep s.2.reader)
        (s := (own, l)) hsweep), Action.bind_of_ok (Action.modify_apply _ _)]
    have hl₃ := h.layout.trans hswept.layout
    have hcounts : ∀ w, ((l.enter (cs, r')).given w).length =
        (trainersIn n.graph (done ++ [p]) w).length := by
      intro w
      have hcount := length_given_of_sweep (h.stage.registered.holds_of_node ha).fits hsweep w
      change (l.given w ++ (cs.lookup w).toList).length = _
      rw [List.length_append, h.counts, trainersIn_concat ha, hcount]
      split <;> simp
    have hstates := h.states.of_sameKept h.stage.registered.registry hswept.layout hswept.kept
    unfold onOwnStore
    refine Action.Matches.focus_left (visit rule hnames hapart hswept.stage h₃ hl₃ ha
      h.split hstep hb' hcounts ⟨.refl h₃.1.prepared.loaded, hswept.agrees, hswept.gathered, rfl,
      hstates⟩) (fun s l' hs => ⟨hs.1, ?_⟩) fun s l' hs => hs
    obtain ⟨hown, hset⟩ := hs
    have hl := hset.held.1
    refine ⟨by rw [h.split]; simp, h₃.withStore hset.held, hswept.stage.later hl rfl, hl₃.trans hl,
      by rw [← hplace]; exact hset.agrees, fun w => by rw [hset.given]; exact hcounts w,
      fun q hq b t hb ht => ?_, hset.states⟩
    have hlt := (gradientStep_lt hd h.split ha hb hstep ht).2 hq
    rw [hset.given]
    exact hset.gathered.mono (by omega)

/-- So does a pass from wherever it has come to. -/
theorem run (h : Tracks asks n done rest m l) :
    Action.Matches (fun s l' => s.1 = l'.1 ∧ Tracks asks n n.graph.order.reverse [] s.2 l'.2)
      SameOwn (fun _ _ => True)
      (rest.forM (backwardNode fun node => do let _ ← applyComplete node (rule node.name)) (own, m))
      (Ledger.turns n.graph names rule rest (own, l)) := by
  induction rest generalizing done m l own with
  | nil =>
    have hdone : n.graph.order.reverse = done := by rw [h.split, List.append_nil]
    exact .ok trivial ⟨rfl, hdone ▸ h⟩
  | cons p rest ih =>
    simp only [List.forM_eq_forM, List.forM_cons] at ih ⊢
    unfold Ledger.turns
    refine (h.step hnames hapart).bind fun _ _ s l' _ h' => ?_
    obtain ⟨own', m'⟩ := s
    obtain ⟨_, l'⟩ := l'
    obtain ⟨rfl, h'⟩ := h'
    exact ih h'

end Tracks

/-- A backward pass begins with an empty ledger of what the forward run has left. -/
theorem Ready.tracks (h : Ready asks .train n) {r : Reader α}
    (hagrees : n.store.Agrees (NeededBackward n.graph n.graph.size) r)
    {state : WeightRef → List (Tensor α)} (hstates : n.store.StatesAre state) :
    Tracks asks n [] n.graph.order.reverse n ⟨r, fun _ => [], state⟩ where
  split := rfl
  runs := ⟨h, rfl⟩
  stage := h.stage
  layout := .refl _
  agrees := by
    rw [List.length_reverse, length_order h.prepared.registered.compiled.ordered.perm]
    exact hagrees
  counts _ := rfl
  gathered p _ a t _ _ w r d c cs _ _ hnone := by cases hnone
  states := hstates

end Network

end LayerGraph
