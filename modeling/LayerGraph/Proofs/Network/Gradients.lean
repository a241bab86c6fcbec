import LayerGraph.Proofs.Layer.Dataflow
import LayerGraph.Proofs.Network.Prepare
import LayerGraph.Proofs.Store.Frame

/-!
# Gradients while they are collected

The nodes that train a weight add to its gradient one after the other. From the first of them to the
last the gradient holds the sum of what they have added, whatever else is written in between.
-/

namespace LayerGraph

variable {α : Type} {g : NodeGraph (Node α)} {w : WeightRef}

/-- The node trains the weight. -/
def Node.trainsWeight (a : Node α) (w : WeightRef) : Bool :=
  a.trains && decide (w ∈ a.tensors.weights)

/-- Those of the nodes that train a weight. -/
def trainersIn (g : NodeGraph (Node α)) (nodes : List NodeRef) (w : WeightRef) : List NodeRef :=
  nodes.filter fun p => (g.nodes[p]?).any (·.trainsWeight w)

/-- The nodes that train a weight, in the order of the backward pass. -/
def trainers (g : NodeGraph (Node α)) (w : WeightRef) : List NodeRef :=
  trainersIn g g.order.reverse w

theorem mem_trainersIn_iff {nodes : List NodeRef} {p : NodeRef} : p ∈ trainersIn g nodes w ↔
    p ∈ nodes ∧ ∃ a, g.nodes[p]? = some a ∧ a.trains = true ∧ w ∈ a.tensors.weights := by
  unfold trainersIn Node.trainsWeight
  rw [List.mem_filter]
  cases g.nodes[p]? with
  | none => simp
  | some a => simp

/-- A node that trains has its turn in the backward pass. -/
theorem Designed.exists_gradientStep (h : Designed g) {p : NodeRef} {a : Node α}
    (ha : g.nodes[p]? = some a) (ht : a.trains = true) :
    ∃ turn, a.schedule.backward = some turn ∧ a.schedule.gradientStep = some turn.gradientStep := by
  have hpart : a.participates = true := by
    unfold Node.participates
    rw [h.collects p a ha, ht, Bool.or_true]
  obtain ⟨turn, hturn⟩ := (Network.exists_turn_iff h.ordered.perm ha).mp hpart
  have hback : a.schedule.backward = some turn := by rw [h.schedule p a ha, hturn]
  exact ⟨turn, hback, by rw [Schedule.gradientStep, hback]; rfl⟩

/-- The steps at which a weight's gradient is added to are those of its trainers. -/
theorem mem_usesOf_iff (h : Designed g) {t : Nat} : t ∈ usesOf g g.order w ↔
    ∃ (p : NodeRef) (a : Node α), g.nodes[p]? = some a ∧ a.trains = true ∧ w ∈ a.tensors.weights ∧
      a.schedule.gradientStep = some t := by
  unfold usesOf
  rw [mem_gather_iff]
  unfold Network.collectSteps Network.collectStep
  constructor
  · rintro ⟨p, -, a, ha, ht⟩
    obtain ⟨v, hv, ht⟩ := List.mem_flatMap.mp ht
    split at ht
    · next hwv =>
      subst hwv
      rw [h.collects p a ha] at ht
      cases htr : a.trains with
      | false => simp [htr] at ht
      | true =>
        rw [htr] at ht
        exact ⟨p, a, ha, htr, hv, by simpa using ht⟩
    · cases ht
  · rintro ⟨p, a, ha, ht, hw, hstep⟩
    refine ⟨p, mem_order_of_node h.ordered.perm ha, a, ha, List.mem_flatMap.mpr ⟨w, hw, ?_⟩⟩
    rw [if_pos rfl, h.collects p a ha, ht, hstep]
    simp

/-- In a backward pass that has come to a node, those that are done had their turns before. -/
theorem gradientStep_lt (h : Designed g) {done rest : List NodeRef} {p q : NodeRef}
    {a b : Node α} {t u : Nat} (hsplit : g.order.reverse = done ++ p :: rest)
    (ha : g.nodes[p]? = some a) (hb : g.nodes[q]? = some b) (ht : a.schedule.gradientStep = some t)
    (hu : b.schedule.gradientStep = some u) :
    (q ∈ done → u + 2 ≤ t) ∧ (q ∈ rest → t + 2 ≤ u) := by
  rw [h.schedule p a ha] at ht
  rw [h.schedule q b hb] at hu
  obtain ⟨turn, hturn, rfl⟩ := Option.map_eq_some_iff.mp ht
  obtain ⟨turn', hturn', rfl⟩ := Option.map_eq_some_iff.mp hu
  obtain ⟨hdone, hrest⟩ := place_lt_of_split h.ordered.perm hsplit
  exact ⟨fun hq => Network.turn_before h.ordered.perm hturn hturn' (hdone q hq),
    fun hq => Network.turn_before h.ordered.perm hturn' hturn (hrest q hq)⟩

/-- The gradient of the weight is complete at the step: it is the last one that adds to it. -/
def Store.Completes (uses : WeightRef → List Nat) (step : Nat) (w : WeightRef) : Bool :=
  decide ((uses w).max? = some step)

section Turn

variable (hd : Designed g) {p : NodeRef} {b : Node α} (hb : g.nodes[p]? = some b)
  {done rest : List NodeRef} (hsplit : g.order.reverse = done ++ p :: rest)
  {t : Nat} (hstep : b.schedule.gradientStep = some t)
include hd hb hsplit hstep

/-- Each step at which a weight's gradient is added to belongs to a node that is done, or to the
present one, or to one that is still to come. -/
theorem use_cases {u : Nat} (hu : u ∈ usesOf g g.order w) :
    (u + 2 ≤ t ∧ trainersIn g done w ≠ []) ∨ (u = t ∧ b.trainsWeight w = true) ∨
      (t + 2 ≤ u ∧ trainersIn g rest w ≠ []) := by
  obtain ⟨q, c, hc, htrains, hw, hq⟩ := (mem_usesOf_iff hd).mp hu
  have hmem : q ∈ done ++ p :: rest := by
    rw [← hsplit, List.mem_reverse]
    exact mem_order_of_node hd.ordered.perm hc
  obtain ⟨hleft, hright⟩ := gradientStep_lt hd hsplit hb hc hstep hq
  rcases List.mem_append.mp hmem with hqd | hqr
  · exact .inl ⟨hleft hqd, List.ne_nil_of_mem (mem_trainersIn_iff.mpr ⟨hqd, c, hc, htrains, hw⟩)⟩
  rcases List.mem_cons.mp hqr with rfl | hqr
  · rw [hb] at hc
    cases hc
    rw [hstep] at hq
    exact .inr (.inl ⟨(Option.some.inj hq).symm, by simp [Node.trainsWeight, htrains, hw]⟩)
  · exact .inr (.inr ⟨hright hqr,
        List.ne_nil_of_mem (mem_trainersIn_iff.mpr ⟨hqr, c, hc, htrains, hw⟩)⟩)

omit hsplit in
theorem mem_usesOf_of_trainer (ht : b.trainsWeight w = true) : t ∈ usesOf g g.order w := by
  have ht : b.trains = true ∧ w ∈ b.tensors.weights := by simpa [Node.trainsWeight] using ht
  exact (mem_usesOf_iff hd).mpr ⟨p, b, hb, ht.1, ht.2, hstep⟩

theorem exists_use_of_done (hne : trainersIn g done w ≠ []) :
    ∃ u ∈ usesOf g g.order w, u + 2 ≤ t := by
  obtain ⟨q, hq⟩ := List.exists_mem_of_ne_nil _ hne
  obtain ⟨hqd, c, hc, htrains, hw⟩ := mem_trainersIn_iff.mp hq
  obtain ⟨turn, -, hq⟩ := hd.exists_gradientStep hc htrains
  exact ⟨_, (mem_usesOf_iff hd).mpr ⟨q, c, hc, htrains, hw, hq⟩,
    (gradientStep_lt hd hsplit hb hc hstep hq).1 hqd⟩

theorem exists_use_of_rest (hne : trainersIn g rest w ≠ []) :
    ∃ u ∈ usesOf g g.order w, t + 2 ≤ u := by
  obtain ⟨q, hq⟩ := List.exists_mem_of_ne_nil _ hne
  obtain ⟨hqr, c, hc, htrains, hw⟩ := mem_trainersIn_iff.mp hq
  obtain ⟨turn, -, hq⟩ := hd.exists_gradientStep hc htrains
  exact ⟨_, (mem_usesOf_iff hd).mpr ⟨q, c, hc, htrains, hw, hq⟩,
    (gradientStep_lt hd hsplit hb hc hstep hq).2 hqr⟩

/-- The first step of a weight's gradient is that of its first trainer. -/
theorem min?_usesOf_iff (ht : b.trainsWeight w = true) :
    trainersIn g done w = [] ↔ (usesOf g g.order w).min? = some t := by
  rw [List.min?_eq_some_iff]
  constructor
  · refine fun hnone => ⟨mem_usesOf_of_trainer hd hb hstep ht, fun u hu => ?_⟩
    rcases use_cases hd hb hsplit hstep hu with ⟨-, hdone⟩ | ⟨rfl, -⟩ | ⟨hlt, -⟩
    · exact absurd hnone hdone
    · exact Nat.le_refl _
    · omega
  · rintro ⟨-, hmin⟩
    by_contra hne
    obtain ⟨u, hu, hlt⟩ := exists_use_of_done hd hb hsplit hstep hne
    have := hmin u hu
    omega

/-- A node completes the gradients of which it is the last trainer. -/
theorem completes_iff : Store.Completes (usesOf g g.order) t w = true ↔
    b.trainsWeight w = true ∧ trainersIn g rest w = [] := by
  unfold Store.Completes
  rw [decide_eq_true_iff, List.max?_eq_some_iff]
  constructor
  · rintro ⟨ht, hmax⟩
    refine ⟨?_, ?_⟩
    · rcases use_cases hd hb hsplit hstep ht with ⟨hlt, -⟩ | ⟨-, htrains⟩ | ⟨hlt, -⟩
      · omega
      · exact htrains
      · omega
    · by_contra hne
      obtain ⟨u, hu, hlt⟩ := exists_use_of_rest hd hb hsplit hstep hne
      have := hmax u hu
      omega
  · rintro ⟨ht, hnone⟩
    refine ⟨mem_usesOf_of_trainer hd hb hstep ht, fun u hu => ?_⟩
    rcases use_cases hd hb hsplit hstep hu with ⟨hlt, -⟩ | ⟨rfl, -⟩ | ⟨-, hrest⟩
    · omega
    · exact Nat.le_refl _
    · exact absurd hnone hrest

end Turn

namespace Store

variable [Scalar α] {s s' : Store α} {batch t : Nat} {uses : WeightRef → List Nat}
  {given : WeightRef → List (Tensor α)}

/-- At a step the gradients that are still to be used hold the sums of what has been given so
far. -/
def Gathered (s : Store α) (uses : WeightRef → List Nat) (given : WeightRef → List (Tensor α))
    (t : Nat) : Prop :=
  ∀ w r d c cs, s.weights[w]? = some r → r.gradient = some d → given w = c :: cs →
    (∃ u ∈ uses w, t ≤ u + 1) → (∃ u ∈ uses w, u ≤ t) ∧ ∃ sum, s.get d = .ok sum ∧
    c.sumOnto cs = .ok sum

/-- A step later less is asked for. -/
theorem Gathered.mono {t' : Nat} (h : s.Gathered uses given t) (hle : t ≤ t') :
    s.Gathered uses given t' := by
  rintro w r d c cs hr hd hc ⟨u, hu, hut⟩
  obtain ⟨⟨v, hv, hvt⟩, hsum⟩ := h w r d c cs hr hd hc ⟨u, hu, by omega⟩
  exact ⟨⟨v, hv, by omega⟩, hsum⟩

omit [Scalar α] in
theorem Collected.usedIn_gradient (hreg : Registry batch s) (hc : Collected uses s) {w : WeightRef}
    {r : WeightRecord} {d : TensorRef} (hr : s.weights[w]? = some r) (hd : r.gradient = some d)
    (ht : t ∈ uses w) : s.UsedIn .train d t ∧ s.UsedIn .train d (t + 1) := by
  obtain ⟨e, -, he, hrole, -⟩ := hreg.gradient w r d hr hd
  have hback := backing_of_source_eq_none he (hreg.source_eq_none he (by rw [hrole]; rfl))
  have hk : e.role.isKept = false := by rw [hrole]; rfl
  obtain ⟨hnow, hnext⟩ := hc.used w r d t hr hd ht
  exact ⟨.of_stepsOf hback hk hnow (.inl rfl), .of_stepsOf hback hk hnext (.inl rfl)⟩

omit [Scalar α] in
/-- A gradient is in use from the first of its steps to the step after the last. -/
theorem Collected.spans_gradient (hreg : Registry batch s) (hc : Collected uses s) {w : WeightRef}
    {r : WeightRecord} {d : TensorRef} (hr : s.weights[w]? = some r) (hd : r.gradient = some d)
    {a b : Nat} (ha : a ∈ uses w) (hb : b ∈ uses w) (hat : a ≤ t) (htb : t ≤ b + 1) :
    s.Spans .train d t :=
  .of_usedIn (hc.usedIn_gradient hreg hr hd ha).1 (hc.usedIn_gradient hreg hr hd hb).2 hat htb

omit [Scalar α] in
theorem Registry.rootOf_gradient (hreg : Registry batch s) {w : WeightRef} {r : WeightRecord}
    {d : TensorRef} (hr : s.weights[w]? = some r) (hd : r.gradient = some d) : s.rootOf d = d := by
  obtain ⟨e, -, he, hrole, -⟩ := hreg.gradient w r d hr hd
  exact rootOf_of_source_eq_none he (hreg.source_eq_none he (by rw [hrole]; rfl))

/-- Data that is written leaves the gradients as they are. -/
theorem Gathered.set (h : s.Gathered uses given t) (hreg : Registry batch s) (hc : Collected uses s)
    (hp : Placed s .train) {id : TensorRef} {v : Tensor α} (hset : s.set id v = .ok s')
    (hu : s.UsedIn .train id t) (hdata : ∀ e, s.backing id = some e → e.role.isData = true) :
    s'.Gathered uses given t := by
  have hl := sameLayout_of_set hset
  rintro w r d c cs hr hd hgiven ⟨b, hb, htb⟩
  rw [hl.weights] at hr
  obtain ⟨⟨a, ha, hat⟩, sum, hget, hsum⟩ := h w r d c cs hr hd hgiven ⟨b, hb, htb⟩
  refine ⟨⟨a, ha, hat⟩, sum, ?_, hsum⟩
  rw [get_of_set_apart hp hset hu (hc.spans_gradient hreg hr hd ha hb hat htb) ?_]
  · exact hget
  · rw [hreg.rootOf_gradient hr hd]
    rintro rfl
    obtain ⟨e, -, he, hrole, -⟩ := hreg.gradient w r _ hr hd
    obtain ⟨e', he', -⟩ := hu
    have hdata' := hdata e' he'
    have hat := (backing_eq_some_iff.mp he').2
    rw [he] at hat
    cases hat
    rw [hrole] at hdata'
    cases hdata'

/-- What is accumulated is added to what has been given, and replaces what was there before anything
was given. -/
theorem Gathered.accumulate (h : s.Gathered uses given t) (hreg : Registry batch s)
    (hc : Collected uses s) (hp : Placed s .train) {w : WeightRef} {c : Tensor α}
    (hacc : Store.accumulate w t c s = .ok () s') (ht : t ∈ uses w)
    (hfirst : given w = [] ↔ (uses w).min? = some t) :
    s'.Gathered uses (fun v => given v ++ if v = w then [c] else []) t := by
  have hl := sameLayout_accumulate hacc
  obtain ⟨r, hr, hcase⟩ := accumulate_eq_ok hacc
  obtain ⟨d, hd⟩ : ∃ d, r.gradient = some d := Option.isSome_iff_exists.mp
    ((hc.gradient w r hr).mpr (List.ne_nil_of_mem ht))
  obtain ⟨e, -, hentry, -⟩ := hreg.gradient w r d hr hd
  -- What is written is the sum of all that is given to the weight.
  obtain ⟨v, hset, hv⟩ : ∃ v, s.set d v = .ok s' ∧
      ∀ c' cs, given w ++ [c] = c' :: cs → c'.sumOnto cs = .ok v := by
    rcases hcase with ⟨hnone, -⟩ | ⟨d', hd', hcase⟩
    · rw [hd] at hnone
      cases hnone
    · rw [hd] at hd'
      cases hd'
      rw [hc.gradientSteps w r hr] at hcase
      rcases hcase with ⟨hmin, hset⟩ | ⟨hmin, old, sum, hold, hadd, hset⟩
      · refine ⟨c, hset, fun c' cs heq => ?_⟩
        rw [hfirst.mpr hmin] at heq
        cases heq
        rfl
      · refine ⟨sum, hset, fun c' cs heq => ?_⟩
        cases hgiven : given w with
        | nil => exact absurd (hfirst.mp hgiven) hmin
        | cons c₀ cs₀ =>
          obtain ⟨-, old', hold', hsum⟩ := h w r d c₀ cs₀ hr hd hgiven ⟨t, ht, by omega⟩
          rw [hold] at hold'
          cases hold'
          rw [hgiven] at heq
          cases heq
          change (cs₀ ++ [c]).foldlM Tensor.add c' = .ok sum
          rw [List.foldlM_append, show cs₀.foldlM Tensor.add c' = .ok old from hsum, except_ok_bind,
            List.foldlM_cons, hadd]
          rfl
  have hused := (hc.usedIn_gradient hreg hr hd ht).1
  intro w' r' d' c' cs hr' hd' hgiven hlast
  rw [hl.weights] at hr'
  by_cases hww : w' = w
  · subst hww
    rw [hr] at hr'
    cases hr'
    rw [hd] at hd'
    cases hd'
    refine ⟨⟨t, ht, Nat.le_refl _⟩, v, ?_, hv c' cs (by simpa using hgiven)⟩
    exact get_of_set_self hset rfl ⟨_, hentry⟩ fun k hk => hp.bound _ k hk
  · simp only [hww, if_false, List.append_nil] at hgiven
    obtain ⟨⟨a, ha, hat⟩, sum, hget, hsum⟩ := h w' r' d' c' cs hr' hd' hgiven hlast
    obtain ⟨b, hb, htb⟩ := hlast
    refine ⟨⟨a, ha, hat⟩, sum, ?_, hsum⟩
    rw [get_of_set_apart hp hset hused (hc.spans_gradient hreg hr' hd' ha hb hat htb) ?_]
    · exact hget
    · rw [hreg.rootOf_gradient hr hd, hreg.rootOf_gradient hr' hd']
      rintro rfl
      exact hww (hreg.gradient_inj w' w r' r _ hr' hr hd' hd)

/-- Data that is written one after the other leaves the gradients as they are. -/
theorem Gathered.setAll (h : s.Gathered uses given t) (hreg : Registry batch s)
    (hc : Collected uses s) (hp : Placed s .train) {writes : List (TensorRef × Tensor α)}
    (hset : s.setAll writes = .ok s')
    (hw : ∀ p ∈ writes, s.UsedIn .train p.1 t ∧
      ∀ e, s.backing p.1 = some e → e.role.isData = true) : s'.Gathered uses given t := by
  refine (except_foldlM_upTo (fun _ s₁ => s.SameLayout s₁ ∧ s₁.Gathered uses given t) hset
    ⟨.refl s, h⟩ fun done p rest s₁ s₂ hsplit hs hstep => ?_).2
  obtain ⟨hl, hs⟩ := hs
  obtain ⟨hu, hdata⟩ := hw p (by simp [hsplit])
  refine ⟨hl.trans (sameLayout_of_set hstep), hs.set (hl.registry hreg) (hl.collected hc)
    (hl.placed hp) hstep (hl.usedIn hu) fun e he => hdata e ?_⟩
  rwa [hl.backing] at he

/-- What is written to what is kept leaves the gradients as they are. -/
theorem Gathered.of_unkept (h : s.Gathered uses given t) (hreg : Registry batch s)
    (hl : s.SameLayout s')
    (hunkept : ∀ id e, s.backing id = some e → e.role.isKept = false → s'.get id = s.get id) :
    s'.Gathered uses given t := by
  intro w r d c cs hr hd hc hlast
  rw [hl.weights] at hr
  obtain ⟨hfirst, sum, hget, hsum⟩ := h w r d c cs hr hd hc hlast
  obtain ⟨e, -, he, hrole, -⟩ := hreg.gradient w r d hr hd
  refine ⟨hfirst, sum, ?_, hsum⟩
  rw [hunkept d e (backing_of_source_eq_none he (hreg.source_eq_none he (by rw [hrole]; rfl)))
    (by rw [hrole]; rfl)]
  exact hget

/-- What is accumulated for several weights at once. -/
theorem Gathered.accumulateAll (hreg : Registry batch s) (hc : Collected uses s)
    (hp : Placed s .train) {cs : List (WeightRef × Tensor α)} (hn : (cs.map (·.1)).Nodup)
    (hcs : ∀ c ∈ cs, t ∈ uses c.1 ∧ (given c.1 = [] ↔ (uses c.1).min? = some t))
    (h : s.Gathered uses given t)
    (hacc : (cs.forM fun c => Store.accumulate c.1 t c.2 : Action (Store α) PUnit) s = .ok ⟨⟩ s') :
    s.SameLayout s' ∧ s'.Gathered uses (fun v => given v ++ (cs.lookup v).toList) t := by
  induction cs generalizing s given with
  | nil =>
    cases hacc
    exact ⟨.refl _, by simpa using h⟩
  | cons c cs ih =>
    simp only [List.forM_eq_forM, List.forM_cons] at hacc ih
    obtain ⟨_, s₁, hstep, hacc⟩ := Action.bind_eq_ok_iff.mp hacc
    have hl := sameLayout_accumulate hstep
    obtain ⟨hnot, hn⟩ := List.nodup_cons.mp hn
    obtain ⟨ht, hfirst⟩ := hcs c (by simp)
    have hother : ∀ c' ∈ cs, c'.1 ≠ c.1 := fun c' hc' heq =>
      hnot (List.mem_map.mpr ⟨c', hc', heq⟩)
    obtain ⟨hl', h'⟩ := ih (hl.registry hreg) (hl.collected hc) (hl.placed hp) hn (fun c' hc' => by
      simpa [hother c' hc'] using hcs c' (List.mem_cons_of_mem _ hc'))
      (h.accumulate hreg hc hp hstep ht hfirst) hacc
    refine ⟨hl.trans hl', ?_⟩
    convert h' using 1
    funext v
    obtain ⟨w, k⟩ := c
    by_cases hv : v = w
    · subst hv
      have hnone : cs.lookup v = none := List.lookup_eq_none_iff.mpr fun c' hc' => by
        simpa using (hother c' hc').symm
      simp [hnone]
    · have hne : (v == w) = false := by simpa using hv
      simp [List.lookup_cons, hne, hv]

end Store

end LayerGraph
