import LayerGraph.Proofs.Network.Retained

/-!
# The check of the order

Compiling checks the order that it has just found: that it covers all nodes, that no node stands
before a producer, and that a graph input is first. Sorting promises the first two, and as it finds
every node reachable, the first node is a graph input. So the check is passed whatever has been
sorted.
-/

namespace LayerGraph

variable {α : Type} {e : Error}

/-- Whether it is the check of the order that reports the error. -/
def Error.isOrderFault : Error → Bool
  | .invalidOrder _ => true
  | _ => false

namespace NodeGraph

/-- The order covers all nodes, no node runs before a producer, and a graph input runs first. -/
structure InOrder (g : NodeGraph (Node α)) : Prop where
  covers : g.order.Perm (List.range g.size)
  before : ∀ p q, g.Feeds p q → g.order.idxOf p < g.order.idxOf q
  first : ∃ a, g.sortedNode? 0 = some a ∧ a.isSource = true

section Sorting

variable {ν : Type} [Vertex ν] {g : NodeGraph ν}

theorem producersOf_eq_error {node : ν} (h : g.producersOf node = .error e) :
    ∃ input, e = .unknownInput (Vertex.name node) input := by
  unfold producersOf at h
  obtain ⟨conn, -, hconn⟩ := except_mapM_eq_error h
  split at hconn
  · cases hconn
  · cases hconn
    exact ⟨conn.name, rfl⟩

theorem isOrderFault_of_sortedOrder (h : g.sortedOrder = .error e) : e.isOrderFault = false := by
  unfold sortedOrder at h
  rcases except_bind_eq_error_iff.mp h with hreaders | ⟨readers, -, h⟩
  · rcases except_bind_eq_error_iff.mp hreaders with htable | ⟨_, -, hpure⟩
    · obtain ⟨node, -, hnode⟩ := except_mapM_eq_error htable
      obtain ⟨input, rfl⟩ := producersOf_eq_error hnode
      rfl
    · cases hpure
  · dsimp only at h
    split at h
    · cases h
      rfl
    · split at h
      · cases h
        rfl
      · cases h

end Sorting

end NodeGraph

namespace Lowering

variable {nodes : List (Node α)}

theorem isOrderFault_of_addLoss [Zero α] {loss : Option String}
    (h : addLoss loss nodes = .error e) : e.isOrderFault = false := by
  unfold addLoss at h
  split at h
  · cases h
  · split at h
    · cases h
    · unfold appendLoss at h
      split at h
      · cases h
        rfl
      · split at h
        · cases h
          rfl
        · split at h
          · cases h
          · cases h
            rfl

theorem isOrderFault_of_fuse {rules : List FusionRule} {nodes' : List (Node α)}
    (h : fuse rules nodes = .error e nodes') : e.isOrderFault = false := by
  change fuseFrom rules 0 nodes = .error e nodes' at h
  generalize 0 = i at h
  fun_induction fuseFrom rules i nodes with
  | case1 i nodes hi hloss ih => exact ih h
  | case2 i nodes hi kind hloss fused hf hcross =>
    cases h
    rfl
  | case3 i nodes hi kind hloss fused hf hcross ih => exact ih h
  | case4 i nodes hi kind hloss fused hf => cases h
  | case5 i nodes hi => cases h

theorem isOrderFault_of_setOutputs (h : setOutputs nodes = .error e) : e.isOrderFault = false := by
  unfold setOutputs at h
  rcases except_bind_eq_error_iff.mp h with hreads | ⟨reads, -, h⟩
  · rcases except_bind_eq_error_iff.mp hreads with hmap | ⟨_, -, hpure⟩
    · obtain ⟨node, -, hnode⟩ := except_mapM_eq_error hmap
      unfold readsOf at hnode
      obtain ⟨⟨conn, position⟩, -, hread⟩ := except_mapM_eq_error hnode
      dsimp only at hread
      split at hread
      · cases hread
      · cases hread
        rfl
    · cases hpure
  · obtain ⟨node, -, hnode⟩ := except_mapM_eq_error h
    rcases except_bind_eq_error_iff.mp hnode with hout | ⟨_, -, hpure⟩
    · unfold outputsOf at hout
      dsimp only at hout
      split at hout
      · cases hout
        rfl
      · cases hout
    · cases hpure

/-- Lowering does not speak of an order. -/
theorem reports_lower [Zero α] (loss : Option String) (rules : List FusionRule) :
    Action.Reports (fun _ : List (Node α) => True) (fun e => e.isOrderFault = false)
      (lower loss rules) := by
  have hkeep : ∀ {β : Type} (p : Action (List (Node α)) β), Action.Keeps (fun _ => True) p :=
    fun _ _ _ => trivial
  have hmodify : ∀ f : List (Node α) → List (Node α), Action.Reports (fun _ => True)
      (fun e => e.isOrderFault = false) (modify f : Action (List (Node α)) PUnit) :=
        fun _ _ _ _ _ h => by cases h
  have houtputs : Action.Reports (fun _ : List (Node α) => True) (fun e => e.isOrderFault = false)
      (Action.update setOutputs) := Action.reports_update fun _ _ _ h =>
        isOrderFault_of_setOutputs h
  have hseparate : Action.Reports (fun _ : List (Node α) => True) (fun e => e.isOrderFault = false)
      separateReaders := by
    unfold separateReaders
    refine Action.Reports.bind (fun _ _ _ _ h => by cases h) (hkeep _) fun _ _ _ _ _ => ?_
    refine (hmodify _).bind (hkeep _) fun _ _ _ _ _ => ?_
    refine Action.Reports.bind (fun _ _ _ _ h => by cases h) (hkeep _) fun _ _ _ _ _ => ?_
    split
    · exact houtputs
    · exact Action.reports_pure _
  refine (hmodify _).bind (hkeep _) fun _ _ _ _ _ => ?_
  refine (hmodify _).bind (hkeep _) fun _ _ _ _ _ => ?_
  refine (hmodify _).bind (hkeep _) fun _ _ _ _ _ => ?_
  refine (Action.reports_update fun _ _ _ h => isOrderFault_of_addLoss h).bind (hkeep _)
    fun _ _ _ _ _ => ?_
  refine Action.Reports.bind (fun _ _ _ _ h => isOrderFault_of_fuse h) (hkeep _) fun _ _ _ _ _ => ?_
  exact houtputs.bind (hkeep _) fun _ _ _ _ _ => hseparate

end Lowering

namespace Network

theorem isOrderFault_of_checkCompilable {n : Network α} (h : checkCompilable n = .error e) :
    e.isOrderFault = false := by
  unfold checkCompilable at h
  repeat' split at h
  all_goals cases h
  all_goals rfl

/-- What has been sorted is in order, if every node finds its inputs. -/
theorem inOrder_of_sorted {g : NodeGraph (Node α)} (hs : g.sortedOrder = .ok g.order)
    (hr : g.Resolved) (hne : g.nodes ≠ []) : g.InOrder where
  covers := NodeGraph.sortedOrder_perm hs
  before _ _ := NodeGraph.idxOf_lt_of_sortedOrder hs
  first := exists_first hs hr hne

variable [Zero α] {n n' : Network α} {loss : Option String}

theorem isOrderFault_of_lowerNodes (h : lowerNodes loss n = .error e n') :
    e.isOrderFault = false := by
  have hreplace : ∀ (nodes : List (Node α)) (n : Network α) (e : Error) (n' : Network α),
      onGraph (NodeGraph.replace nodes) n = .error e n' → e.isOrderFault = false := by
    intro nodes n e n' h
    refine Action.Reports.focus (P := fun _ => True)
      (NodeGraph.reports_replace (E := fun e => e.isOrderFault = false)
      (fun _ => rfl) fun _ => rfl) (fun _ _ => trivial) n e n' trivial h
  rw [lowerNodes_apply] at h
  cases hl : Lowering.lower loss n.fusionRules n.graph.nodes with
  | ok u nodes =>
    rw [hl] at h
    exact hreplace _ _ _ _ h
  | error e₁ nodes =>
    rw [hl] at h
    dsimp only at h
    cases hput : onGraph (NodeGraph.replace nodes) { n with graph := NodeGraph.empty } with
    | ok u n₁ =>
      rw [Action.bind_of_ok hput] at h
      cases h
      exact Lowering.reports_lower loss n.fusionRules n.graph.nodes e nodes trivial hl
    | error e₂ n₁ =>
      rw [Action.bind_of_error hput] at h
      cases h
      exact hreplace _ _ _ _ hput

theorem isOrderFault_of_compile (h : compile loss n = .error e n') : e.isOrderFault = false := by
  by_cases hopen : n.isCompiled = true
  · unfold compile at h
    rw [Action.bind_of_ok (Action.get_apply n), hopen, if_pos rfl] at h
    cases h
    rfl
  rw [Bool.not_eq_true] at hopen
  by_cases hne : n.graph.nodes = []
  · rw [compile_of_empty loss hopen hne] at h
    cases h
    rfl
  rw [compile_apply loss hopen hne] at h
  cases hlower : lowerNodes loss n with
  | error e₁ n₁ =>
    rw [Action.bind_of_error hlower] at h
    cases h
    exact isOrderFault_of_lowerNodes hlower
  | ok u n₁ =>
    rw [Action.bind_of_ok hlower] at h
    obtain ⟨u', hl, hd, -⟩ := lowered_of_lowerNodes hlower
    rcases (settle_eq_error (Lowering.lower_spec hl hd).1 h).2 with hcheck | hs
    · exact isOrderFault_of_checkCompilable hcheck
    · exact NodeGraph.isOrderFault_of_sortedOrder hs

omit [Zero α] in
/-- An order that fits some nodes fits all that are connected in the same way. -/
theorem inOrder_of_wires {g g' : NodeGraph (Node α)} (h : g.InOrder) (horder : g'.order = g.order)
    (hwires : g'.nodes.map wires = g.nodes.map wires)
    (hsource : g'.nodes.map (·.isSource) = g.nodes.map (·.isSource)) : g'.InOrder where
  covers := by
    rw [horder, size_of_wires hwires]
    exact h.covers
  before p q hf := by
    obtain ⟨j, k, hr⟩ := feeds_iff_readsSlot.mp hf
    rw [horder]
    exact h.before p q (feeds_iff_readsSlot.mpr ⟨j, k, (readsSlot_iff_of_wires hwires).mp hr⟩)
  first := by
    obtain ⟨a, ha, hs⟩ := h.first
    obtain ⟨id, hid, ha⟩ := Option.bind_eq_some_iff.mp ha
    obtain ⟨b, hb, hsame⟩ := getElem?_of_map_eq hsource.symm ha
    exact ⟨b, Option.bind_eq_some_iff.mpr ⟨id, horder ▸ hid, hb⟩, hsame.trans hs⟩

/-- What lowering ends with is in order once it has been sorted, and passes the check. -/
theorem inOrder_of_lowered {n₁ n₂ : Network α} (hlower : lowerNodes loss n = .ok () n₁)
    (hne : n₁.graph.nodes ≠ []) (hsort : onGraph NodeGraph.sort n₁ = .ok () n₂) :
    n₂.graph.InOrder ∧ checkOrder n₂ = .ok () := by
  obtain ⟨_, hl, hd, -⟩ := lowered_of_lowerNodes hlower
  have hr := resolved_of_names (Lowering.lower_spec hl hd).1
  obtain ⟨g, hg, rfl⟩ := Action.focus_eq_ok_iff.mp hsort
  obtain ⟨order, hs, hg⟩ := except_bind_eq_ok_iff.mp (Action.update_eq_ok_iff.mp hg)
  cases hg
  -- The order is not part of what a graph is sorted by.
  have hs' : ({ n₁.graph with order := order } : NodeGraph (Node α)).sortedOrder = .ok order := hs
  exact ⟨inOrder_of_sorted hs' hr hne, checkOrder_of_sorted hs' rfl hr hne⟩

/-- Compiling ends with the order that sorting has found, and the network that it leaves is in
order. -/
theorem sorted_of_compile {u : Unit} (h : compile loss n = .ok u n') :
    ∃ n₁ n₂, lowerNodes loss n = .ok () n₁ ∧ onGraph NodeGraph.sort n₁ = .ok () n₂ ∧
      n'.graph.order = n₂.graph.order ∧
      n'.graph.InOrder := by
  obtain ⟨_, _, n₁, _, g₂, g₃, g₄, hlower, hsort, hcheck, hmark, hdecide, rfl, rfl⟩ :=
    stages_of_compile h
  obtain ⟨hnodes, hperm⟩ := nodes_of_sort hsort
  have hordered : Ordered g₂ := ordered_of_checkOrder (n := { n₁ with graph := g₂ }) hperm hcheck
  obtain ⟨m, hmarked, rfl⟩ := marked_markBackward hordered hmark
  obtain ⟨hdecided, horder⟩ : (∀ {β : Type} {f : Node α → β},
      (∀ a use, f { a with bufferUse := use } = f a) →
        g₄.nodes.map f = (scheduleAll m.graph).nodes.map f) ∧
        g₄.order = (scheduleAll m.graph).order := by
    split at hdecide
    · exact ⟨fun hf => map_decideAll hf hdecide, order_decideAll hdecide⟩
    · cases hdecide
      exact ⟨fun _ => rfl, rfl⟩
  have hmap : ∀ {β : Type} {f : Node α → β}, (∀ a use, f { a with bufferUse := use } = f a) →
      (∀ a s, f { a with schedule := s } = f a) → (∀ a, f (unmarked a) = f a) →
        g₄.nodes.map f = g₂.nodes.map f := by
    intro β f huse hschedule hunmarked
    have hnodes := congrArg (List.map f) hmarked.nodes
    simp only [List.map_map, Function.comp_def, hunmarked] at hnodes
    exact (hdecided huse).trans ((map_scheduleAll hschedule m.graph).trans hnodes)
  have hne : n₁.graph.nodes ≠ [] := by
    rw [← hnodes]
    exact List.ne_nil_of_length_pos (size_pos_of_checkOrder (n := { n₁ with graph := g₂ }) hcheck)
  have hsorted : onGraph NodeGraph.sort n₁ = .ok () { n₁ with graph := g₂ } := onGraph_of_ok hsort
  have horder := horder.trans hmarked.order
  exact ⟨n₁, _, hlower, hsorted, horder,
    inOrder_of_wires (inOrder_of_lowered hlower hne hsorted).1 horder
      (hmap (fun _ _ => rfl) (fun _ _ => rfl) fun _ => rfl)
      (hmap (fun _ _ => rfl) (fun _ _ => rfl) fun _ => rfl)⟩

/-- A compilation never fails the check of the order: what lowering ends with is in order once it
has been sorted, nothing that follows fails, and that is the order that compiling ends with. -/
theorem compile_in_order (loss : Option String) (n : Network α) (hopen : n.isCompiled = false) :
    (∀ fault n', compile loss n ≠ .error (.invalidOrder fault) n') ∧
    (∀ n₁ n₂, n.graph.isEmpty = false → lowerNodes loss n = .ok () n₁ →
      checkCompilable n₁ = .ok () → onGraph NodeGraph.sort n₁ = .ok () n₂ →
      n₂.graph.InOrder ∧ checkOrder n₂ = .ok () ∧
        ∃ n', compile loss n = .ok () n' ∧ n'.graph.order = n₂.graph.order) ∧
    ∀ n', compile loss n = .ok () n' → n'.graph.InOrder := by
  refine ⟨fun fault n' h => ?_, fun n₁ n₂ hempty hlower hcheck hsort => ?_, fun n' h => ?_⟩
  · have hfault := isOrderFault_of_compile h
    cases hfault
  · have hne : n.graph.nodes ≠ [] := by simpa [NodeGraph.isEmpty] using hempty
    have hne₁ : n₁.graph.nodes ≠ [] := by
      intro hnil
      rw [checkCompilable, NodeGraph.isEmpty, hnil] at hcheck
      cases hcheck
    obtain ⟨horder, hchecked⟩ := inOrder_of_lowered hlower hne₁ hsort
    obtain ⟨_, hl, hd, -⟩ := lowered_of_lowerNodes hlower
    have hr := resolved_of_names (Lowering.lower_spec hl hd).1
    obtain ⟨g, hg, -⟩ := Action.focus_eq_ok_iff.mp hsort
    obtain ⟨order, hs, -⟩ := except_bind_eq_ok_iff.mp (Action.update_eq_ok_iff.mp hg)
    obtain ⟨n', hn'⟩ := exists_settle hne₁ hcheck hs hr
    have hcompile : compile loss n = .ok () n' := by
      rw [compile_apply loss hopen hne, Action.bind_of_ok hlower, hn']
    obtain ⟨m₁, m₂, hlower', hsort', hsame, -⟩ := sorted_of_compile hcompile
    cases hlower.symm.trans hlower'
    cases hsort.symm.trans hsort'
    exact ⟨horder, hchecked, n', hcompile, hsame⟩
  · obtain ⟨-, -, -, -, -, horder⟩ := sorted_of_compile h
    exact horder

/-- A graph input reads another one that is added after it. -/
def staggered : Network Float32 :=
  { ofSettings ⟨1, true, none, []⟩ with
    graph := ⟨[.ofLayer (.input 1) "b" [⟨"a", 0⟩], .ofLayer (.input 1) "a" [],
      .ofLayer .identity "c" [⟨"b", 0⟩]], []⟩ }

/-- After lowering, and after sorting. -/
def staggeredLowered : Network Float32 := (lowerNodes none).after staggered

def staggeredSorted : Network Float32 :=
  { staggeredLowered with graph := { staggeredLowered.graph with order := [1, 0, 2] } }

theorem staggered_in_order : staggeredSorted.graph.InOrder ∧
    ∃ n', compile none staggered = .ok () n' ∧ n'.graph.order = staggeredSorted.graph.order := by
  have hlower : lowerNodes none staggered = .ok () staggeredLowered :=
    Action.eq_ok_of_endsWell (by cbv)
  have hsort : onGraph NodeGraph.sort staggeredLowered = .ok () staggeredSorted := by cbv
  obtain ⟨horder, -, hcompile⟩ :=
    (compile_in_order none staggered rfl).2.1 staggeredLowered staggeredSorted rfl hlower (by cbv)
      hsort
  exact ⟨horder, hcompile⟩

end Network

end LayerGraph
