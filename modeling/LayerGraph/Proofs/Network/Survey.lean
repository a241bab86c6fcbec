import LayerGraph.Proofs.Network.Twins

/-!
# What a pass finds before it changes anything

A rule is handed each weight once its gradient is complete, and replaces it while the pass goes on.
As long as no node that trains a weight shares it with one that does not, a weight that has been
replaced is not read again. So a rule is handed what it would be handed if nothing were replaced:
the gradients are those at the weights before the pass.
-/

namespace LayerGraph

open Network

variable {α τ : Type}

section Backflow

variable [Scalar α]

/-- The turn of a node in a backward pass that replaces no weight, with what has been given to
gradients so far. -/
def sweepNode (g : NodeGraph (Node α)) (t : Reader α × (WeightRef → List (Tensor α)))
    (p : NodeRef) : Except Error (Reader α × (WeightRef → List (Tensor α))) :=
  match g.nodes[p]? with
  | none => .error (.staleHandle p)
  | some a =>
    if a.participates then do
      let swept ← a.sweep t.1
      return (swept.2, fun w => t.2 w ++ (swept.1.lookup w).toList)
    else .ok t

/-- What a backward pass gives to gradients if it replaces no weight. -/
def backflow (g : NodeGraph (Node α)) (r : Reader α) : Except Error (WeightRef → List (Tensor α)) :=
  do
  return (← g.order.reverse.foldlM (sweepNode g) (r, fun _ => [])).2

/-- The gradient of a weight: the sum of what it is given. -/
def gradientOf (given : WeightRef → List (Tensor α)) (w : WeightRef) : Except Error (Tensor α) :=
  match given w with
  | [] => .error (.staleHandle w)
  | c :: cs => c.sumOnto cs

end Backflow

/-- No node that trains a weight shares it with one that does not. -/
def Unmixed (g : NodeGraph (Node α)) : Prop :=
  ∀ (p q : Nat) (a b : Node α) (w : WeightRef), g.nodes[p]? = some a → g.nodes[q]? = some b →
    w ∈ a.tensors.weights → w ∈ b.tensors.weights → a.trains = b.trains

instance (g : NodeGraph (Node α)) : Decidable (Unmixed g) :=
  decidable_of_iff (∀ a ∈ g.nodes, ∀ b ∈ g.nodes, ∀ w ∈ a.tensors.weights, w ∈ b.tensors.weights →
    a.trains = b.trains) ⟨fun h _ _ a b w ha hb => h a (List.mem_of_getElem? ha) b
      (List.mem_of_getElem? hb) w, fun h a ha b hb w =>
      have ⟨p, hp⟩ := List.getElem?_of_mem ha
      have ⟨q, hq⟩ := List.getElem?_of_mem hb
      h p q a b w hp hq⟩

/-- The same reader with other weights. -/
def Reader.reweighted (f : WeightRef → Except Error (Tensor α)) (r : Reader α) : Reader α :=
  { r with weight := f }

theorem Reader.eq_reweighted {r r' : Reader α} (hvalue : r.value = r'.value)
    (hshape : r.shape = r'.shape) : r' = r.reweighted r'.weight := by
  cases r
  cases hvalue
  cases hshape
  rfl

section Tasks

variable [Scalar α] {g g' : NodeGraph (Node α)}

theorem sweep_of_task {a b : Node α} (h : b.task = a.task) (r : Reader α) :
    b.sweep r = a.sweep r := by
  obtain ⟨hlayer, htensors, -⟩ := layer_of_task h
  obtain ⟨htrains, hpasses, -⟩ := part_of_task h
  unfold Node.sweep Node.collected Node.returned
  rw [hlayer, htensors, htrains, hpasses]

/-- What a pass gives to gradients depends on the tasks alone. -/
theorem backflow_of_tasks (h : SameTasks g g') (r : Reader α) : backflow g' r = backflow g r := by
  have hnode : ∀ t p, sweepNode g' t p = sweepNode g t p := by
    intro t p
    unfold sweepNode
    cases ha : g.nodes[p]? with
    | none => rw [h.none ha]
    | some a =>
      obtain ⟨b, hb, htask⟩ := h.node ha
      rw [hb]
      dsimp only
      rw [(part_of_task htask).2.2, sweep_of_task htask]
  unfold backflow
  rw [h.order, show sweepNode g' = sweepNode g from funext fun t => funext fun p => hnode t p]

/-- So does what a forward run finds. -/
theorem dataflow_of_tasks (h : SameTasks g g') (r : Reader α) :
    dataflow g' (fun _ r => r) r = dataflow g (fun _ r => r) r := by
  have hnode : ∀ r p, flowNode g' (fun _ r => r) r p = flowNode g (fun _ r => r) r p := by
    intro r p
    unfold flowNode
    cases ha : g.nodes[p]? with
    | none => rw [h.none ha]
    | some a =>
      obtain ⟨b, hb, htask⟩ := h.node ha
      obtain ⟨hlayer, htensors, -⟩ := layer_of_task htask
      rw [hb]
      dsimp only
      rw [hlayer, htensors]
  unfold dataflow
  rw [h.order, show flowNode g' (fun _ r => r) = flowNode g (fun _ r => r) from funext fun r =>
    funext fun p => hnode r p]

theorem lossesIn_of_tasks (h : SameTasks g g') (r : Reader α) : lossesIn g' r = lossesIn g r :=
  lossesIn_reshaped (f := r.shape) h

omit [Scalar α] in
theorem trainers_of_tasks (h : SameTasks g g') (w : WeightRef) : trainers g' w = trainers g w := by
  unfold trainers
  rw [h.order, h.trainersIn]

omit [Scalar α] in
theorem Unmixed.of_tasks (hunmixed : Unmixed g) (h : SameTasks g g') : Unmixed g' := by
  intro p q a b w ha hb hwa hwb
  obtain ⟨a', ha', htask⟩ := getElem?_of_map_eq h.tasks ha
  obtain ⟨b', hb', htask'⟩ := getElem?_of_map_eq h.tasks hb
  rw [← (part_of_task htask).1, ← (part_of_task htask').1]
  exact hunmixed p q a' b' w ha' hb' ((layer_of_task htask).2.1 ▸ hwa)
    ((layer_of_task htask').2.1 ▸ hwb)

end Tasks

variable [Scalar α]

omit [Scalar α] in
theorem Reader.setAll_reweighted (f : WeightRef → Except Error (Tensor α)) (r : Reader α)
    (writes : List (TensorRef × Tensor α)) : (r.reweighted f).setAll writes =
      (r.setAll writes).reweighted f := by
  induction writes generalizing r with
  | nil => rfl
  | cons w writes ih => exact ih (r.set w.1 w.2)

/-- A turn reads no weights but those of the node. -/
theorem Node.sweep_reweighted {s : Store α} {a : Node α} (hf : Fits s a.layer a.tensors)
    {r : Reader α} {f : WeightRef → Except Error (Tensor α)}
    (hw : ∀ w ∈ a.tensors.weights, f w = r.weight w) :
    a.sweep (r.reweighted f) = (a.sweep r).map fun swept => (swept.1, swept.2.reweighted f) := by
  have hcollected : a.collected (r.reweighted f) = a.collected r := by
    unfold Node.collected
    split
    · exact Layer.contributions_of_agree hf (fun _ _ => rfl) fun _ _ => rfl
    · rfl
  have hreturned : a.returned (r.reweighted f) = a.returned r := by
    unfold Node.returned
    split
    · exact Layer.derivatives_of_agree hf hw (fun _ _ => rfl) (fun _ _ _ => rfl) fun _ _ => rfl
    · rfl
  unfold Node.sweep
  rw [hcollected, hreturned]
  cases a.collected r with
  | error e => rfl
  | ok cs =>
    cases a.returned r with
    | error e => rfl
    | ok dxs =>
      simp only [except_ok_bind, Reader.setAll_reweighted]
      rfl

theorem Node.weight_of_sweep {a : Node α} {r : Reader α}
    {swept : List (WeightRef × Tensor α) × Reader α} (h : a.sweep r = .ok swept) :
    swept.2.weight = r.weight := by
  obtain ⟨_, -, h⟩ := except_bind_eq_ok_iff.mp h
  obtain ⟨_, -, h⟩ := except_bind_eq_ok_iff.mp h
  cases h
  exact Reader.weight_setAll

namespace Ledger

variable {g : NodeGraph (Node α)} {names : WeightRef → String}
  {rule : String → WeightState α → Action τ (WeightState α)}
  {record : List (WeightRef × WeightState α × WeightState α)} {own own' : τ} {l l' k : Ledger α}

/-- The weights that are settled in the turn of a node. -/
def settledAt (g : NodeGraph (Node α)) (rest : List NodeRef) (p : NodeRef) : List WeightRef :=
  match g.nodes[p]? with
  | none => []
  | some a =>
    if a.participates then a.tensors.weights.filter fun w => a.trainsWeight w &&
      (trainersIn g rest w).isEmpty else []

/-- The weights that are settled in the turns of some nodes. -/
def settledBy (g : NodeGraph (Node α)) : List NodeRef → List WeightRef
  | [] => []
  | p :: rest => settledAt g rest p ++ settledBy g rest

omit [Scalar α] in
theorem trainer_of_settledAt {rest : List NodeRef} {p : NodeRef} {w : WeightRef}
    (h : w ∈ settledAt g rest p) :
    ∃ a, g.nodes[p]? = some a ∧ w ∈ a.tensors.weights ∧ a.trainsWeight w = true ∧
    trainersIn g rest w = [] := by
  unfold settledAt at h
  cases ha : g.nodes[p]? with
  | none =>
    rw [ha] at h
    cases h
  | some a =>
    rw [ha] at h
    dsimp only at h
    split at h
    · obtain ⟨hw, hlast⟩ := List.mem_filter.mp h
      obtain ⟨htrains, hnone⟩ := Bool.and_eq_true_iff.mp hlast
      exact ⟨a, rfl, hw, htrains, List.isEmpty_iff.mp hnone⟩
    · cases h

omit [Scalar α] in
/-- In the turns of some nodes those weights are settled that they train. -/
theorem mem_settledBy_iff (hd : Scheduled g) {nodes : List NodeRef} {w : WeightRef}
    (hnodes : ∀ p ∈ nodes, p < g.size) : w ∈ settledBy g nodes ↔ trainersIn g nodes w ≠ [] := by
  induction nodes with
  | nil => simp [settledBy, trainersIn]
  | cons p rest ih =>
    obtain ⟨a, ha⟩ : ∃ a, g.nodes[p]? = some a :=
      ⟨_, List.getElem?_eq_getElem (hnodes p List.mem_cons_self)⟩
    rw [settledBy, List.mem_append, ih fun q hq => hnodes q (List.mem_cons_of_mem _ hq),
      trainersIn_cons ha]
    constructor
    · rintro (hw | hw)
      · obtain ⟨a', ha', -, htrains, -⟩ := trainer_of_settledAt hw
        obtain rfl : a = a' := Option.some.inj (ha.symm.trans ha')
        rw [if_pos htrains]
        exact List.cons_ne_nil _ _
      · split
        · exact List.cons_ne_nil _ _
        · exact hw
    · intro hne
      by_cases hnone : trainersIn g rest w = []
      · have htrains : a.trainsWeight w = true := by
          by_contra hnot
          rw [if_neg hnot] at hne
          exact hne hnone
        obtain ⟨ht, hw⟩ := Bool.and_eq_true_iff.mp htrains
        refine .inl ?_
        unfold settledAt
        rw [ha]
        dsimp only
        rw [if_pos (hd.participates_of_trains ha ht)]
        exact List.mem_filter.mpr ⟨of_decide_eq_true hw, Bool.and_eq_true_iff.mpr ⟨htrains,
            List.isEmpty_iff.mpr hnone⟩⟩
      · exact .inr hnone

omit [Scalar α] in
/-- None is settled twice. -/
theorem nodup_settledBy (hd : Scheduled g)
    (hfits : ∀ (p : Nat) (a : Node α), g.nodes[p]? = some a → ∃ s, Fits s a.layer a.tensors)
    {nodes : List NodeRef} (hnodes : ∀ p ∈ nodes, p < g.size) : (settledBy g nodes).Nodup := by
  induction nodes with
  | nil => exact List.nodup_nil
  | cons p rest ih =>
    have hrest : ∀ q ∈ rest, q < g.size := fun q hq => hnodes q (List.mem_cons_of_mem _ hq)
    refine List.nodup_append.mpr ⟨?_, ih hrest, fun w hw v hv heq => ?_⟩
    · unfold settledAt
      cases ha : g.nodes[p]? with
      | none => exact List.nodup_nil
      | some a =>
        obtain ⟨s, hf⟩ := hfits p a ha
        dsimp only
        split
        · exact (nodup_weights hf).filter _
        · exact List.nodup_nil
    · obtain ⟨-, -, -, -, hnone⟩ := trainer_of_settledAt hw
      exact (mem_settledBy_iff hd hrest).mp (heq ▸ hv) hnone

/-- A ledger `l` in which weights have been replaced, beside a ledger `k` in which none has been. -/
structure Shadows (names : WeightRef → String)
    (record : List (WeightRef × WeightState α × WeightState α)) (l k : Ledger α) : Prop where
  value : l.reader.value = k.reader.value
  shape : l.reader.shape = k.reader.shape
  given : l.given = k.given
  rest : ∀ w, w ∉ record.map (·.1) → l.reader.weight w = k.reader.weight w ∧ l.state w = k.state w
  replaced : ∀ p ∈ record, k.handed (names p.1) p.1 = .ok p.2.1 ∧ p.2.1.SameShapes p.2.2 ∧
    l.reader.weight p.1 = .ok p.2.2.value ∧ l.state p.1 = renewed p.2.1.state p.2.2.state

theorem handed_eq_ok {name : String} {w : WeightRef} {u : WeightState α}
    (h : l.handed name w = .ok u) :
    u.name = name ∧ l.reader.weight w = .ok u.value ∧ gradientOf l.given w = .ok u.gradient ∧
    l.state w = u.state := by
  unfold handed at h
  unfold gradientOf
  cases hgiven : l.given w with
  | nil =>
    rw [hgiven] at h
    cases h
  | cons c cs =>
    rw [hgiven] at h
    obtain ⟨_, hvalue, h⟩ := except_bind_eq_ok_iff.mp h
    obtain ⟨_, hgradient, h⟩ := except_bind_eq_ok_iff.mp h
    cases h
    exact ⟨rfl, hvalue, hgradient, rfl⟩

theorem settle_eq_ok {node name : String} {w : WeightRef} {s : τ × Ledger α} {u : Unit}
    {t : τ × Ledger α} (h : settle (rule node) name w s = .ok u t) : ∃ old new,
      s.2.handed name w = .ok old ∧ rule node old s.1 = .ok new t.1 ∧
      old.SameShapes new ∧ t.2 = s.2.replace w new := by
  obtain ⟨old, _, hread, h⟩ := Action.bind_eq_ok_iff.mp h
  obtain ⟨hold, rfl⟩ := Action.read_eq_ok_iff.mp hread
  obtain ⟨new, _, hfocus, h⟩ := Action.bind_eq_ok_iff.mp h
  obtain ⟨own, hrule, rfl⟩ := Action.focus_eq_ok_iff.mp hfocus
  split at h
  · next hsame =>
    cases h
    exact ⟨old, new, hold, hrule, hsame, rfl⟩
  · cases h

/-- The rule has made of the weights in the record what stands there, one after the other and each
at some node. -/
inductive Replays (rule : String → WeightState α → Action τ (WeightState α)) (own : τ) :
    List (WeightRef × WeightState α × WeightState α) → τ → Prop where
  | nil : Replays rule own [] own
  | concat {record : List (WeightRef × WeightState α × WeightState α)} {own' own'' : τ}
      {node : String} {old new : WeightState α} (h : Replays rule own record own')
        (hrule : rule node old own' = .ok new own'') (w : WeightRef) :
      Replays rule own (record ++ [(w, old, new)]) own''

omit [Scalar α] in
theorem Replays.exists_rule (h : Replays rule own record own')
    {p : WeightRef × WeightState α × WeightState α} (hp : p ∈ record) : ∃ node own₁ own₂,
      rule node p.2.1 own₁ = .ok p.2.2 own₂ := by
  induction h with
  | nil => cases hp
  | concat _ hrule w ih =>
    rcases List.mem_append.mp hp with hp | hp
    · exact ih hp
    · obtain rfl := List.mem_singleton.mp hp
      exact ⟨_, _, _, hrule⟩

omit [Scalar α] in
/-- What a rule that records what it is handed has recorded. -/
theorem Replays.log_eq {s s' : τ × List (Handover α)}
    (h : Replays (fun node => recorded (rule node) node) s record s') :
    s'.2.map (·.update) = s.2.map (·.update) ++ record.map (·.2.1) := by
  induction h with
  | nil => simp
  | @concat record s₁ s₂ node old new _ hrule w ih =>
    obtain ⟨_, _, hmodify, hrule⟩ := Action.bind_eq_ok_iff.mp hrule
    cases hmodify
    obtain ⟨own, -, rfl⟩ := Action.focus_eq_ok_iff.mp hrule
    simp [ih]

namespace Shadows

/-- A weight that has not been replaced is handed over as it would be if none had been. -/
theorem handed (h : Shadows names record l k) {w : WeightRef} (hw : w ∉ record.map (·.1))
    (name : String) : k.handed name w = l.handed name w := by
  obtain ⟨hweight, hstate⟩ := h.rest w hw
  unfold Ledger.handed
  rw [h.given, hweight, hstate]

theorem settle (h : Shadows names record l k) {w : WeightRef} (hw : w ∉ record.map (·.1))
    {own₁ : τ} {u : Unit} (hreplays : Replays rule own record own₁) {node : String}
    (hrun : Ledger.settle (rule node) (names w) w (own₁, l) = .ok u (own', l')) :
    ∃ old new, Replays rule own (record ++ [(w, old, new)]) own' ∧
    Shadows names (record ++ [(w, old, new)]) l' k := by
  obtain ⟨old, new, hold, hrule, hsame, heq⟩ := settle_eq_ok hrun
  obtain rfl : l' = l.replace w new := heq
  have hhanded := (h.handed hw (names w)).trans hold
  obtain ⟨-, -, -, hstate⟩ := handed_eq_ok hhanded
  refine ⟨old, new, hreplays.concat hrule w, h.value, h.shape, h.given, fun v hv => ?_,
    fun p hp => ?_⟩
  · rw [List.map_append, List.mem_append, not_or] at hv
    have hne : v ≠ w := fun heq => hv.2 (List.mem_singleton.mpr heq)
    obtain ⟨hweight, hstate⟩ := h.rest v hv.1
    exact ⟨(if_neg hne).trans hweight, (if_neg hne).trans hstate⟩
  · rcases List.mem_append.mp hp with hp | hp
    · have hne : p.1 ≠ w := fun heq => hw (heq ▸ List.mem_map_of_mem hp)
      obtain ⟨hhanded, hsame, hweight, hstate⟩ := h.replaced p hp
      exact ⟨hhanded, hsame, (if_neg hne).trans hweight, (if_neg hne).trans hstate⟩
    · obtain rfl := List.mem_singleton.mp hp
      refine ⟨hhanded, hsame, if_pos rfl, (if_pos rfl).trans ?_⟩
      rw [(h.rest w hw).2, hstate]

/-- The weights of a node, of which some are settled. -/
theorem settleAll (h : Shadows names record l k) {vs : List WeightRef} (hnodup : vs.Nodup)
    (last : WeightRef → Bool) (hfresh : ∀ w ∈ vs, last w = true → w ∉ record.map (·.1))
    {own₁ : τ} {u : PUnit} (hreplays : Replays rule own record own₁) {node : String}
    (hrun : vs.forM (fun w => if last w then Ledger.settle (rule node) (names w) w else pure ⟨⟩)
      (own₁, l) = .ok u (own', l')) :
    ∃ settled, settled.map (·.1) = vs.filter last ∧ Replays rule own (record ++ settled) own' ∧
      Shadows names (record ++ settled) l' k := by
  induction vs generalizing record l own₁ with
  | nil =>
    cases hrun
    exact ⟨[], rfl, by rwa [List.append_nil], by rwa [List.append_nil]⟩
  | cons w vs ih =>
    obtain ⟨hnot, hnodup⟩ := List.nodup_cons.mp hnodup
    simp only [List.forM_eq_forM, List.forM_cons] at hrun ih ⊢
    obtain ⟨_, ⟨own₂, l₁⟩, hfirst, hrun⟩ := Action.bind_eq_ok_iff.mp hrun
    have hrest : ∀ v ∈ vs, last v = true → v ∉ record.map (·.1) :=
      fun v hv => hfresh v (List.mem_cons_of_mem _ hv)
    cases hlast : last w with
    | false =>
      rw [hlast, if_neg Bool.false_ne_true] at hfirst
      cases hfirst
      obtain ⟨settled, hkeys, hreplays', h'⟩ := ih h hnodup hrest hreplays hrun
      exact ⟨settled, by rw [hkeys, List.filter_cons_of_neg (by simp [hlast])], hreplays', h'⟩
    | true =>
      rw [hlast, if_pos rfl] at hfirst
      obtain ⟨old, new, hreplays₁, h₁⟩ :=
        h.settle (hfresh w List.mem_cons_self hlast) hreplays hfirst
      have hfresh' : ∀ v ∈ vs, last v = true → v ∉ (record ++ [(w, old, new)]).map (·.1) :=
        fun v hv hl => by
        rw [List.map_append, List.mem_append, not_or]
        refine ⟨hrest v hv hl, fun hmem => ?_⟩
        obtain rfl : v = w := List.mem_singleton.mp hmem
        exact hnot hv
      obtain ⟨settled, hkeys, hreplays', h'⟩ := ih h₁ hnodup hfresh' hreplays₁ hrun
      rw [List.append_assoc] at hreplays' h'
      refine ⟨(w, old, new) :: settled, ?_, hreplays', h'⟩
      rw [List.filter_cons_of_pos hlast, List.map_cons, hkeys]

/-- What has been settled was trained by a node, and none of the nodes to come trains it. -/
def Settled (g : NodeGraph (Node α)) (nodes : List NodeRef) (w : WeightRef) : Prop :=
  trainersIn g nodes w = [] ∧ ∃ (q : Nat) (b : Node α), g.nodes[q]? = some b ∧
    b.trainsWeight w = true

omit [Scalar α] in
theorem Settled.not_trainsWeight {nodes : List NodeRef} {w : WeightRef} (h : Settled g nodes w)
    {p : NodeRef} {a : Node α} (hp : p ∈ nodes) (ha : g.nodes[p]? = some a) :
    a.trainsWeight w = false := by
  by_contra htrains
  obtain ⟨ht, hw⟩ := Bool.and_eq_true_iff.mp ((Bool.not_eq_false _).mp htrains)
  have hmem : p ∈ trainersIn g nodes w :=
    mem_trainersIn_iff.mpr ⟨hp, a, ha, ht, of_decide_eq_true hw⟩
  rw [h.1] at hmem
  cases hmem

/-- What nodes give to weights that they do not train is nothing. -/
theorem enter (h : Shadows names record l k) {s : Store α} {a : Node α}
    (hf : Fits s a.layer a.tensors) {swept : List (WeightRef × Tensor α) × Reader α}
    (hsweep : a.sweep l.reader = .ok swept)
    (hnone : ∀ w ∈ record.map (·.1), a.trainsWeight w = false) :
    Shadows names record (l.enter swept)
      (k.enter (swept.1, swept.2.reweighted k.reader.weight)) := by
  have hweight := Node.weight_of_sweep hsweep
  refine ⟨rfl, rfl, ?_, fun w hw => ?_, fun p hp => ?_⟩
  · exact congrArg (fun given : WeightRef → List (Tensor α) => fun w => given w ++
      (swept.1.lookup w).toList) h.given
  · obtain ⟨hw, hstate⟩ := h.rest w hw
    exact ⟨(congrFun hweight w).trans hw, hstate⟩
  · obtain ⟨hhanded, hsame, hnew, hstate⟩ := h.replaced p hp
    refine ⟨?_, hsame, (congrFun hweight p.1).trans hnew, hstate⟩
    have hlength :=
      length_given_of_sweep hf (show a.sweep l.reader = .ok (swept.1, swept.2) from hsweep) p.1
    rw [hnone p.1 (List.mem_map_of_mem hp), if_neg Bool.false_ne_true] at hlength
    have hgiven : (k.enter (swept.1, swept.2.reweighted k.reader.weight)).given p.1 =
        k.given p.1 := by
      change k.given p.1 ++ (swept.1.lookup p.1).toList = _
      rw [List.eq_nil_of_length_eq_zero hlength, List.append_nil]
    unfold Ledger.handed at hhanded ⊢
    rw [hgiven]
    exact hhanded

variable (hfits : ∀ (p : Nat) (a : Node α), g.nodes[p]? = some a → ∃ s, Fits s a.layer a.tensors)
  (hsafe : Unmixed g ∨ ∀ node old own new own', rule node old own = .ok new own' →
    new.value = old.value)
include hfits hsafe

theorem turn (h : Shadows names record l k) {p : NodeRef} {rest : List NodeRef}
    (hsettled : ∀ w ∈ record.map (·.1), Settled g (p :: rest) w) {own₁ : τ} {u : Unit}
    (hreplays : Replays rule own record own₁)
    (hrun : Ledger.turn g names rule rest p (own₁, l) = .ok u (own', l')) :
    ∃ settled t, sweepNode g (k.reader, k.given) p = .ok t ∧
      settled.map (·.1) = settledAt g rest p ∧
      Replays rule own (record ++ settled) own' ∧
      Shadows names (record ++ settled) l' ⟨t.1, t.2, k.state⟩ ∧
      t.1.weight = k.reader.weight := by
  unfold Ledger.turn at hrun
  unfold sweepNode settledAt
  cases ha : g.nodes[p]? with
  | none =>
    rw [ha] at hrun
    cases hrun
  | some a =>
    rw [ha] at hrun
    dsimp only at hrun ⊢
    cases hpart : a.participates with
    | false =>
      rw [hpart] at hrun
      cases hrun
      exact ⟨[], _, rfl, rfl, by rwa [List.append_nil], by rwa [List.append_nil], rfl⟩
    | true =>
      rw [hpart, if_pos rfl] at hrun
      rw [if_pos rfl]
      obtain ⟨s, hfit⟩ := hfits p a ha
      have hnone : ∀ w ∈ record.map (·.1), a.trainsWeight w = false := fun w hw =>
        (hsettled w hw).not_trainsWeight List.mem_cons_self ha
      -- What has been replaced is not read, as no node that trains it is still to come and no other
      -- node uses it, unless the rule leaves it as it is.
      have hread : ∀ w ∈ a.tensors.weights, k.reader.weight w = l.reader.weight w := by
        intro w hw
        by_cases hmem : w ∈ record.map (·.1)
        · obtain ⟨e, he, rfl⟩ := List.mem_map.mp hmem
          rcases hsafe with hunmixed | hleaves
          · obtain ⟨-, q, b, hb, htrains⟩ := hsettled _ hmem
            obtain ⟨htrains, hwb⟩ := Bool.and_eq_true_iff.mp htrains
            have hsame := (hunmixed p q a b e.1 ha hb hw (of_decide_eq_true hwb)).trans htrains
            have hnot := hnone _ hmem
            rw [Node.trainsWeight, hsame, Bool.true_and, decide_eq_false_iff_not] at hnot
            exact absurd hw hnot
          · obtain ⟨hhanded, -, hnew, -⟩ := h.replaced e he
            obtain ⟨-, hvalue, -⟩ := handed_eq_ok hhanded
            obtain ⟨_, _, _, hrule⟩ := hreplays.exists_rule he
            rw [hnew, hvalue, hleaves _ _ _ _ _ hrule]
        · exact (h.rest w hmem).1.symm
      obtain ⟨swept, _, hswept, hrun⟩ := Action.bind_eq_ok_iff.mp hrun
      obtain ⟨hsweep, rfl⟩ := Action.read_eq_ok_iff.mp hswept
      obtain ⟨_, _, hmodify, hrun⟩ := Action.bind_eq_ok_iff.mp hrun
      cases hmodify
      have hsweep' : a.sweep k.reader = .ok (swept.1, swept.2.reweighted k.reader.weight) := by
        rw [Reader.eq_reweighted h.value h.shape, Node.sweep_reweighted hfit hread, hsweep]
        rfl
      have hfresh : ∀ w ∈ a.tensors.weights,
          (a.trainsWeight w && (trainersIn g rest w).isEmpty) = true →
          w ∉ record.map (·.1) := fun w _ hlast hmem => by
        rw [hnone w hmem] at hlast
        cases hlast
      obtain ⟨settled, hkeys, hreplays', h'⟩ :=
        (h.enter hfit hsweep hnone).settleAll (nodup_weights hfit)
        (fun w => a.trainsWeight w && (trainersIn g rest w).isEmpty) hfresh hreplays hrun
      refine ⟨settled, ⟨(k.enter (swept.1, swept.2.reweighted k.reader.weight)).reader,
        (k.enter (swept.1, swept.2.reweighted k.reader.weight)).given⟩, ?_,
        hkeys, hreplays', h', rfl⟩
      rw [hsweep']
      rfl

theorem turns (h : Shadows names record l k) {nodes : List NodeRef}
    (hsettled : ∀ w ∈ record.map (·.1), Settled g nodes w) {own₁ : τ} {u : Unit}
    (hreplays : Replays rule own record own₁)
    (hrun : Ledger.turns g names rule nodes (own₁, l) = .ok u (own', l')) :
    ∃ settled t, nodes.foldlM (sweepNode g) (k.reader, k.given) = .ok t ∧
      settled.map (·.1) = settledBy g nodes ∧
      Replays rule own (record ++ settled) own' ∧
      Shadows names (record ++ settled) l' ⟨t.1, t.2, k.state⟩ ∧
      t.1.weight = k.reader.weight := by
  induction nodes generalizing record l k own₁ with
  | nil =>
    cases hrun
    exact ⟨[], _, rfl, rfl, by rwa [List.append_nil], by rwa [List.append_nil], rfl⟩
  | cons p rest ih =>
    obtain ⟨_, ⟨own₂, l₁⟩, hfirst, hrun⟩ := Action.bind_eq_ok_iff.mp hrun
    obtain ⟨settled₁, t₁, hsweep, hkeys₁, hreplays₁, h₁, hweight₁⟩ :=
      h.turn hfits hsafe hsettled hreplays hfirst
    have hsettled₁ : ∀ w ∈ (record ++ settled₁).map (·.1), Settled g rest w := by
      intro w hw
      rw [List.map_append, List.mem_append, hkeys₁] at hw
      rcases hw with hw | hw
      · obtain ⟨hnone, htrained⟩ := hsettled w hw
        refine ⟨List.eq_nil_iff_forall_not_mem.mpr fun q hq => ?_, htrained⟩
        have hmem : q ∈ trainersIn g (p :: rest) w := by
          rw [mem_trainersIn_iff] at hq ⊢
          exact ⟨List.mem_cons_of_mem _ hq.1, hq.2⟩
        rw [hnone] at hmem
        cases hmem
      · obtain ⟨a, ha, -, htrains, hnone⟩ := trainer_of_settledAt hw
        exact ⟨hnone, p, a, ha, htrains⟩
    obtain ⟨settled, t, hsweeps, hkeys, hreplays', h', hweight⟩ := ih h₁ hsettled₁ hreplays₁ hrun
    rw [List.append_assoc] at hreplays' h'
    refine ⟨settled₁ ++ settled, t, ?_, ?_, hreplays', h', hweight.trans hweight₁⟩
    · rw [List.foldlM_cons, hsweep]
      exact hsweeps
    · rw [List.map_append, hkeys₁, hkeys]
      rfl

end Shadows

end Ledger

namespace Network

variable {n n' : Network α} {asks : (Shape → List Shape) → Prop}
  {rule : String → WeightState α → Action τ (WeightState α)}
  {given : WeightRef → List (Tensor α)} {record : List (WeightRef × WeightState α × WeightState α)}
  {own own' : τ}

/-- What a network holds of a weight: its value and its optimizer state. -/
def weightHeld (n : Network α) (w : WeightRef) : Except Error (Tensor α × List (Tensor α)) := do
  let r ← n.store.weight w
  return (← n.store.get r.value, ← r.optimizerState.mapM n.store.get)

theorem weightHeld_of_reader {state : WeightRef → List (Tensor α)}
    (hstates : n.store.StatesAre state) (w : WeightRef) :
    n.weightHeld w = do return (← n.store.reader.weight w, state w) := by
  change (do let r ← n.store.weight w; return (← n.store.get r.value, ← r.optimizerState.mapM
      n.store.get)) = (do
    return (← (do n.store.get (← n.store.weight w).value), state w))
  cases hr : n.store.weight w with
  | error e => rfl
  | ok r =>
    have hstate := hstates w r (Store.weight_eq_ok_iff.mp hr)
    simp only [except_ok_bind, hstate]

theorem weightHeld_eq_ok_iff {w : WeightRef} {value : Tensor α} {state : List (Tensor α)} :
    n.weightHeld w = .ok (value, state) ↔ ∃ r, n.store.weights[w]? = some r ∧
      n.store.get r.value = .ok value ∧
      r.optimizerState.mapM n.store.get = .ok state := by
  unfold weightHeld
  rw [except_bind_eq_ok_iff]
  constructor
  · rintro ⟨r, hr, h⟩
    obtain ⟨v, hv, h⟩ := except_bind_eq_ok_iff.mp h
    obtain ⟨vs, hvs, h⟩ := except_bind_eq_ok_iff.mp h
    cases h
    exact ⟨r, Store.weight_eq_ok_iff.mp hr, hv, hvs⟩
  · rintro ⟨r, hr, hv, hvs⟩
    refine ⟨r, Store.weight_eq_ok_iff.mpr hr, ?_⟩
    rw [hv, except_ok_bind, hvs]
    rfl

/-- What comes of the weights of a network: those that are trained have been handed over as they
were, each of them once with the gradient that it is given, and have been replaced by what has been
made of them. -/
structure Replaces (given : WeightRef → List (Tensor α))
    (record : List (WeightRef × WeightState α × WeightState α)) (n n' : Network α) : Prop where
  nodup : (record.map (·.1)).Nodup
  trained : ∀ w, w ∈ record.map (·.1) ↔ trainers n.graph w ≠ []
  handed : ∀ p ∈ record, p.2.1.name = n.weightName p.1 ∧
    n.weightHeld p.1 = .ok (p.2.1.value, p.2.1.state) ∧
    gradientOf given p.1 = .ok p.2.1.gradient
  replaced : ∀ p ∈ record, p.2.1.SameShapes p.2.2 ∧
    n'.weightHeld p.1 = .ok (p.2.2.value, renewed p.2.1.state p.2.2.state)
  rest : ∀ w, w ∉ record.map (·.1) → n'.weightHeld w = n.weightHeld w

variable (rule) in
/-- In a backward pass a rule is handed what it would be handed if nothing were replaced. -/
theorem Ready.backward_replaces (h : Ready asks .train n) (hapart : n.store.StatesApart)
    (hsafe : Unmixed n.graph ∨ ∀ node old own new own', rule node old own = .ok new own' →
      new.value = old.value) {r : Reader α}
    (hagrees : n.store.Agrees (NeededBackward n.graph n.graph.size) r)
    {state : WeightRef → List (Tensor α)} (hstates : n.store.StatesAre state) {u : Unit}
    (hrun : backward (fun node => do let _ ← applyComplete node (rule node.name)) (own, n) =
      .ok u (own', n')) :
    Ready asks .train n' ∧ Framed n n' ∧ ∃ given record, backflow n.graph r = .ok given ∧
      Ledger.Replays rule own record own' ∧ Replaces given record n n' := by
  have hreg := h.prepared.registered
  have hscheduled := hreg.compiled.toScheduled
  have hfits : ∀ (p : Nat) (a : Node α), n.graph.nodes[p]? = some a → ∃ s,
      Fits s a.layer a.tensors :=
    fun p a ha => ⟨_, (hreg.holds_of_node ha).fits⟩
  have hnodes : ∀ p ∈ n.graph.order.reverse, p < n.graph.size := fun p hp =>
    (mem_order_iff hscheduled.ordered.perm).mp (List.mem_reverse.mp hp)
  have hruns := h.backward_ledger hapart hagrees hstates rule own
  rw [hrun] at hruns
  obtain ⟨_, ⟨_, l⟩, hturns, -, hown, hready, hframed, hweight, hstates'⟩ := hruns.exists_ok
  obtain rfl : own' = _ := hown
  have hstart : Ledger.Shadows n.weightName [] ⟨r, fun _ => [], state⟩ ⟨r, fun _ => [], state⟩ :=
    ⟨rfl, rfl, rfl, fun _ _ => ⟨rfl, rfl⟩, nofun⟩
  obtain ⟨record, t, hsweeps, hkeys, hreplays, hshadows, hkept⟩ :=
    hstart.turns hfits hsafe nofun (.nil : Ledger.Replays rule own [] own) hturns
  rw [List.nil_append] at hreplays hshadows
  have hheld : ∀ w, n.weightHeld w = do return (← r.weight w, state w) := by
    intro w
    rw [weightHeld_of_reader hstates, hagrees.weight]
  have hheld' : ∀ w, n'.weightHeld w = do return (← l.reader.weight w, l.state w) := by
    intro w
    rw [weightHeld_of_reader hstates', hweight]
  refine ⟨hready, hframed, t.2, record, ?_, hreplays, ?_, fun w => ?_, fun p hp => ?_,
    fun p hp => ?_, fun w hw => ?_⟩
  · unfold backflow
    rw [hsweeps]
    rfl
  · rw [hkeys]
    exact Ledger.nodup_settledBy hscheduled hfits hnodes
  · rw [hkeys]
    exact Ledger.mem_settledBy_iff hscheduled hnodes
  · obtain ⟨hhanded, -⟩ := hshadows.replaced p hp
    obtain ⟨hname, hvalue, hgradient, hstate⟩ := Ledger.handed_eq_ok hhanded
    refine ⟨hname, ?_, hgradient⟩
    have hvalue : r.weight p.1 = .ok p.2.1.value := hkept ▸ hvalue
    have hstate : state p.1 = p.2.1.state := hstate
    rw [hheld, hvalue, hstate]
    rfl
  · obtain ⟨-, hsame, hvalue, hstate⟩ := hshadows.replaced p hp
    refine ⟨hsame, ?_⟩
    rw [hheld', hvalue, hstate]
    rfl
  · obtain ⟨hvalue, hstate⟩ := hshadows.rest w hw
    have hvalue : l.reader.weight w = r.weight w := hvalue.trans (congrFun hkept w)
    have hstate : l.state w = state w := hstate
    rw [hheld, hheld', hvalue, hstate]

/-- What a pass that leaves weights as they are has recorded of what it hands over. -/
theorem Ready.handsOver (h : Ready asks .train n) (hapart : n.store.StatesApart)
    (hleaves : ∀ node old own new own', rule node old own = .ok new own' → new.value = old.value)
    {r : Reader α} (hagrees : n.store.Agrees (NeededBackward n.graph n.graph.size) r)
    {state : WeightRef → List (Tensor α)} (hstates : n.store.StatesAre state)
    {log : List (Handover α)} {u : Unit}
    (hrun : backward (handOver rule) ((own, []), n) = .ok u ((own', log), n')) :
    ∃ given record, backflow n.graph r = .ok given ∧ log.map (·.update) = record.map (·.2.1) ∧
    Replaces given record n n' := by
  have hleaves' : ∀ node old s new s', recorded (rule node) node old s = .ok new s' →
      new.value = old.value := by
    intro node old s new s' hrule
    obtain ⟨_, _, hmodify, hrule⟩ := Action.bind_eq_ok_iff.mp hrule
    cases hmodify
    obtain ⟨_, hrule, -⟩ := Action.focus_eq_ok_iff.mp hrule
    exact hleaves _ _ _ _ _ hrule
  obtain ⟨-, -, given, record, hgiven, hreplays, hreplaces⟩ := h.backward_replaces
    (fun node => recorded (rule node) node) hapart (.inr hleaves') hagrees hstates hrun
  exact ⟨given, record, hgiven, hreplays.log_eq, hreplaces⟩

/-- A rule that asks for gradients of the shapes of their weights and leaves these as they are. -/
def checking (u : WeightState α) : Except Error (WeightState α) :=
  if u.gradient.shape = u.value.shape then .ok u
    else .error (.shapeMismatch u.name u.value.shape u.gradient.shape)

/-- After a forward run a backward pass gives each weight that is trained a gradient of its
shape. -/
theorem Ready.exists_backflow (h : Ready asks .train n) (hapart : n.store.StatesApart)
    {r : Reader α} (hagrees : n.store.Agrees (NeededBackward n.graph n.graph.size) r)
    {state : WeightRef → List (Tensor α)} (hstates : n.store.StatesAre state) : ∃ given,
      backflow n.graph r = .ok given ∧
      ∀ w, trainers n.graph w ≠ [] → ∃ value gradient, n.weightHeld w = .ok (value, state w) ∧
        gradientOf given w = .ok gradient ∧ gradient.shape = value.shape := by
  have hkeeps : Store.KeepsShapes asks fun u =>
      (Action.read fun _ => checking u : Action Unit (WeightState α)) := by
    intro u hshape _
    refine Action.returns_read fun _ _ => ⟨u, if_pos hshape, rfl, fun i v v' hv hv' => ?_⟩
    rw [Option.some.inj (hv.symm.trans hv')]
  have hends : ∃ own' n', backward (fun node => do
      let _ ← applyComplete node fun u =>
        (Action.read fun _ => checking u : Action Unit (WeightState α))) ((), n) =
        .ok () (own', n') ∧ Ready asks .train n' :=
    h.exists_backward (fun node Q hQ => keeps_applyComplete_visit hQ node _)
      (fun n p a hn ha => (hn.returns_applyComplete ha hkeeps).bind
        fun _ _ => Action.returns_pure trivial) ()
  obtain ⟨_, n', hrun, -⟩ := hends
  have hleaves : ∀ (old : WeightState α) (own : Unit) new own',
      (Action.read fun _ => checking old) own = .ok new own' →
      old.gradient.shape = old.value.shape ∧ new = old := by
    intro old own new own' hrule
    obtain ⟨hrule, -⟩ := Action.read_eq_ok_iff.mp hrule
    unfold checking at hrule
    split at hrule
    · next hshape => exact ⟨hshape, (Except.ok.inj hrule).symm⟩
    · cases hrule
  obtain ⟨-, -, given, record, hgiven, hreplays, hreplaces⟩ := h.backward_replaces
    (fun _ u => Action.read fun _ => checking u) hapart
    (.inr fun _ old own new own' hrule => congrArg _ (hleaves old own new own' hrule).2)
      hagrees hstates hrun
  refine ⟨given, hgiven, fun w hw => ?_⟩
  obtain ⟨p, hp, rfl⟩ := List.mem_map.mp ((hreplaces.trained w).mpr hw)
  obtain ⟨-, hheld, hgradient⟩ := hreplaces.handed p hp
  obtain ⟨_, _, _, hrule⟩ := hreplays.exists_rule hp
  have hread := hheld
  rw [weightHeld_of_reader hstates] at hread
  obtain ⟨_, -, heq⟩ := except_bind_eq_ok_iff.mp hread
  have hstate : p.2.1.state = state p.1 := (congrArg Prod.snd (Except.ok.inj heq)).symm
  exact ⟨_, _, by rw [hheld, hstate], hgradient, (hleaves _ _ _ _ hrule).1⟩

end Network

end LayerGraph
