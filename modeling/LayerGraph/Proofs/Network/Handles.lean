import LayerGraph.Proofs.Network.Sound
import LayerGraph.Proofs.Returns
import LayerGraph.Proofs.Store.Frame
import LayerGraph.Single

/-!
# Handles

The handles of a prepared network's nodes name entries of its store, and nothing that is done with
them finds one missing. A preparation that fails empties the store but leaves the nodes the handles
that they have got by then, and such a handle names nothing.
-/

namespace LayerGraph

variable {α : Type}

def Error.isStale : Error → Bool
  | .staleHandle _ => true
  | _ => false

/-- The tensors that a node reads or writes. -/
def Handles.tensorRefs (handles : Handles) : List TensorRef :=
  (handles.inputs ++ handles.outputs).flatMap (fun wire => wire.value :: wire.derivative.toList) ++
    handles.tensors ++ handles.label.toList

/-- Every handle names an entry of the store. -/
structure Handles.Valid (s : Store α) (handles : Handles) : Prop where
  tensors : ∀ id ∈ handles.tensorRefs, id < s.entries.length
  weights : ∀ w ∈ handles.weights, w < s.weights.length

/-- No handle names anything of a store in which nothing is registered. -/
theorem Handles.valid_iff_of_isBlank {s : Store α} (h : s.IsBlank) (handles : Handles) :
    handles.Valid s ↔ handles = .empty := by
  constructor
  · intro hv
    have htensors : handles.tensorRefs = [] := List.eq_nil_iff_forall_not_mem.mpr fun id hid => by
      have := hv.tensors id hid
      simp [h.entries] at this
    have hweights : handles.weights = [] := List.eq_nil_iff_forall_not_mem.mpr fun w hw => by
      have := hv.weights w hw
      simp [h.weights] at this
    obtain ⟨inputs, outputs, weights, tensors, label⟩ := handles
    simp only [tensorRefs, List.append_eq_nil_iff, List.flatMap_eq_nil_iff, reduceCtorEq, imp_false,
      List.mem_append, not_or, forall_and, ← List.eq_nil_iff_forall_not_mem,
      Option.toList_eq_nil_iff] at htensors
    obtain ⟨⟨⟨rfl, rfl⟩, rfl⟩, rfl⟩ := htensors
    obtain rfl := hweights
    rfl
  · rintro rfl
    exact ⟨by simp [tensorRefs, empty], by simp [empty]⟩

namespace Store

variable {batch : Nat} {s s' : Store α} {id : TensorRef}

theorem HasWidth.lt_length {width : Nat} (h : s.HasWidth id width) : id < s.entries.length := by
  obtain ⟨e, he⟩ := h.exists_entry
  exact (List.getElem?_eq_some_iff.mp he).1

end Store

/-- Handles that fit their layer are valid. -/
theorem Fits.valid {s : Store α} {layer : Layer α} {handles : Handles} (hf : Fits s layer handles)
    (hlabel : ∀ l, handles.label = some l → s.IsExternal l) : handles.Valid s := by
  have hwire : ∀ wire ∈ handles.inputs ++ handles.outputs, ∃ width, s.WireFits wire width :=
    fun wire hw =>
    (List.mem_append.mp hw).elim hf.input_fits hf.output
  have htensors : handles.tensors = [] := by cases hf <;> rfl
  refine ⟨fun id hid => ?_, fun w hw => ?_⟩
  · simp only [Handles.tensorRefs, htensors, List.append_nil, List.mem_append, List.mem_flatMap,
      List.mem_cons, Option.mem_toList] at hid
    rcases hid with ⟨wire, hmem, hid⟩ | hid
    · obtain ⟨width, hfits⟩ := hwire wire (List.mem_append.mpr hmem)
      rcases hid with rfl | hid
      · exact hfits.value.lt_length
      · exact (hfits.derivative id hid).lt_length
    · obtain ⟨e, he, -⟩ := hlabel id hid
      exact (List.getElem?_eq_some_iff.mp he).1
  · obtain ⟨shape, r, e, hr, -⟩ := hf.weight hw
    exact (List.getElem?_eq_some_iff.mp hr).1

namespace Store

variable {batch : Nat} {s s₀ : Store α} {id : TensorRef}

section Access

variable (hreg : Registry batch s)
include hreg

theorem exists_backing (hid : id < s.entries.length) : ∃ e, s.backing id = some e := by
  obtain ⟨e, he, -⟩ := hreg.backing (List.getElem?_eq_getElem hid)
  exact ⟨e, he⟩

theorem exists_shape (hid : id < s.entries.length) : ∃ shape, s.shape id = .ok shape := by
  obtain ⟨e, he⟩ := exists_backing hreg hid
  exact ⟨e.shape, shape_eq_ok_iff.mpr ⟨e, he, rfl⟩⟩

theorem exists_window (hid : id < s.entries.length) : ∃ steps, s.window id = .ok steps := by
  obtain ⟨e, he⟩ := exists_backing hreg hid
  unfold window
  rw [rootEntry_eq_ok_iff.mpr he]
  exact ⟨_, rfl⟩

/-- What cannot be read has no buffer. -/
theorem eq_of_get_eq_error [Scalar α] (hid : id < s.entries.length) {e : Error}
    (h : s.get id = .error e) : e = .notAllocated := by
  obtain ⟨entry, he⟩ := exists_backing hreg hid
  obtain ⟨he₀, he⟩ := backing_eq_some_iff.mp he
  unfold Store.get at h
  rw [root_eq_ok_iff.mpr ⟨he₀, rfl⟩, except_ok_bind, entry_eq_ok_iff.mpr he, except_ok_bind] at h
  split at h <;> split at h <;> cases h <;> rfl

theorem isStale_of_set_eq_error (hid : id < s.entries.length) {v : Tensor α} {e : Error}
    (h : s.set id v = .error e) : e.isStale = false := by
  obtain ⟨entry, he⟩ := exists_backing hreg hid
  obtain ⟨he₀, he⟩ := backing_eq_some_iff.mp he
  unfold Store.set at h
  rw [root_eq_ok_iff.mpr ⟨he₀, rfl⟩, except_ok_bind, entry_eq_ok_iff.mpr he, except_ok_bind] at h
  dsimp only at h
  split at h
  · cases h
    rfl
  · split at h <;> split at h <;> cases h <;> rfl

end Access

theorem writable_sameLayout (s₀ : Store α) : Writable (SameLayout s₀) :=
  fun _ _ _ _ h hset => h.trans (sameLayout_of_set hset)

section Reports

variable (hreg : Registry batch s₀)
include hreg

theorem reports_write (hid : id < s₀.entries.length) (v : Tensor α) :
    Action.Reports (SameLayout s₀) (·.isStale = false) (write id v) := by
  refine Action.reports_update fun s e hs he => ?_
  exact isStale_of_set_eq_error (hs.registry hreg) (by rw [hs.entries]; exact hid) he

variable [Scalar α] {w : WeightRef} {r : WeightRecord} (hr : s₀.weights[w]? = some r)
include hr

theorem isStale_of_update?_eq_error {e : Error} (h : s₀.update? w = .error e) :
    e.isStale = false := by
  have hget : ∀ {id : TensorRef} {e : Error}, (∃ entry, s₀.entries[id]? = some entry) →
      s₀.get id = .error e → e.isStale = false := by
    rintro id e ⟨entry, hentry⟩ he
    rw [eq_of_get_eq_error hreg (List.getElem?_eq_some_iff.mp hentry).1 he]
    rfl
  obtain ⟨value, hvalue, -⟩ := hreg.value w r hr
  unfold Store.update? at h
  rw [weight_eq_ok_iff.mpr hr, except_ok_bind] at h
  cases hgrad : r.gradient with
  | none =>
    rw [hgrad] at h
    cases h
  | some g =>
    obtain ⟨gradient, -, hgradient, -⟩ := hreg.gradient w r g hr hgrad
    rw [hgrad] at h
    rcases except_bind_eq_error_iff.mp h with he | ⟨_, -, h⟩
    · exact hget ⟨value, hvalue⟩ he
    rcases except_bind_eq_error_iff.mp h with he | ⟨_, -, h⟩
    · exact hget ⟨gradient, hgradient⟩ he
    rcases except_bind_eq_error_iff.mp h with he | ⟨_, -, h⟩
    · obtain ⟨id, hid, he⟩ := except_mapM_eq_error he
      obtain ⟨entry, hentry, -⟩ := hreg.state w r id hr hid
      exact hget ⟨entry, hentry⟩ he
    · cases h

omit hreg in
theorem handles_of_update?_eq_ok {u : WeightState α} {value : TensorRef} {state : List TensorRef}
    (h : s₀.update? w = .ok (some (u, value, state))) : value = r.value ∧
    state = r.optimizerState := by
  unfold Store.update? at h
  rw [weight_eq_ok_iff.mpr hr, except_ok_bind] at h
  split at h
  · cases h
  · obtain ⟨_, -, h⟩ := except_bind_eq_ok_iff.mp h
    obtain ⟨_, -, h⟩ := except_bind_eq_ok_iff.mp h
    obtain ⟨_, -, h⟩ := except_bind_eq_ok_iff.mp h
    cases h
    exact ⟨rfl, rfl⟩

variable {τ : Type} {rule : WeightState α → Action τ (WeightState α)}
  (hrule : ∀ u, Action.Reports (fun _ => True) (·.isStale = false) (rule u))
include hrule

/-- No handle is missing when a weight is handed to a rule, unless the rule itself says so. -/
theorem reports_revise :
    Action.Reports (fun s : τ × Store α => SameLayout s₀ s.2) (·.isStale = false)
      (revise w rule) := by
  refine Action.Reports.bind (Action.reports_read fun s e hs he => ?_) (Action.keeps_read _)
    fun s found s' hs hfound => ?_
  · exact isStale_of_update?_eq_error (hs.registry hreg) (by rw [hs.weights]; exact hr) he
  cases found with
  | none => exact Action.reports_pure _
  | some found =>
    obtain ⟨u, value, state⟩ := found
    obtain ⟨hupdate, -⟩ := Action.read_eq_ok_iff.mp hfound
    obtain ⟨rfl, rfl⟩ := handles_of_update?_eq_ok (by rw [hs.weights]; exact hr) hupdate
    have hkeep : Action.Keeps (fun _ : τ => True) (rule u) := fun _ _ => trivial
    refine Action.Reports.bind ((hrule u).focus fun _ _ => trivial)
      (hkeep.focus (fun _ _ => trivial) fun _ _ h _ => h) fun _ updated _ _ _ => ?_
    refine Action.Reports.focus (R := SameLayout s₀) ?_ fun _ h => h
    have hwrite : ∀ id v, Action.Keeps (SameLayout s₀) (write id v) := fun id v =>
      Action.keeps_update fun s s' hs h => writable_sameLayout s₀ s id v s' hs h
    obtain ⟨entry, hentry, -⟩ := hreg.value w r hr
    refine (reports_write hreg (List.getElem?_eq_some_iff.mp hentry).1 _).bind (hwrite _ _)
      fun _ _ _ _ _ => ?_
    refine Action.reports_forM (fun p hp => ?_) fun p _ => hwrite _ _
    obtain ⟨entry, hentry, -⟩ := hreg.state w r p.1 hr (List.of_mem_zip hp).1
    exact reports_write hreg (List.getElem?_eq_some_iff.mp hentry).1 _

end Reports

end Store

namespace Network

variable {n : Network α} {asks : (Shape → List Shape) → Prop}

open Store

theorem reports_applyComplete [Scalar α] {τ : Type} {batch : Nat} {s₀ : Store α}
    (hreg : Registry batch s₀) {a : Node α} (hw : ∀ w ∈ a.tensors.weights, w < s₀.weights.length)
    {rule : WeightState α → Action τ (WeightState α)}
    (hrule : ∀ u, Action.Reports (fun _ => True) (·.isStale = false) (rule u)) :
    Action.Reports (fun s : τ × Store α => SameLayout s₀ s.2) (·.isStale = false)
      (applyComplete a rule) := by
  unfold applyComplete
  cases a.schedule.gradientStep with
  | none => exact Action.reports_pure _
  | some step =>
    refine Action.reports_foldlM (fun applied w hmem => ?_) (fun applied w hmem => ?_) 0
    · have hr := List.getElem?_eq_getElem (hw w hmem)
      refine Action.Reports.bind (Action.reports_read fun s e hs he => ?_) (Action.keeps_read _)
        fun s last s' hs _ => ?_
      · unfold trains isLastGradientStep at he
        rw [hs.weight, weight_eq_ok_iff.mpr hr] at he
        cases he
      · cases last with
        | true =>
          refine (reports_revise hreg hr hrule).bind (keeps_revise (writable_sameLayout s₀) w rule)
            fun _ _ _ _ _ => Action.reports_pure _
        | false => exact Action.reports_pure _
    · refine (Action.keeps_read _).bind fun last => ?_
      cases last with
      | true =>
        exact (keeps_revise (writable_sameLayout s₀) w rule).bind fun _ => Action.keeps_pure _
      | false => exact Action.keeps_pure _

theorem Prepared.valid (h : Prepared asks n) {a : Node α} (ha : a ∈ n.graph.nodes) :
    a.tensors.Valid n.store := by
  obtain ⟨p, hp⟩ := List.mem_iff_getElem?.mp ha
  have hholds := h.registered.holds p
    (mem_order_of_node h.registered.compiled.toDesigned.ordered.perm hp) a hp
  exact hholds.fits.valid hholds.label

theorem reports_applyGradients [Scalar α] {τ : Type} (h : Prepared asks n) (own : τ) (name : String)
    {rule : WeightState α → Action τ (WeightState α)}
    (hrule : ∀ u, Action.Reports (fun _ => True) (·.isStale = false) (rule u)) :
    Action.Reports (fun s : τ × Network α => s = (own, n)) (·.isStale = false)
      (applyGradients name rule) := by
  refine Action.Reports.bind (Action.reports_read fun s e _ he => ?_) (Action.keeps_read _)
    fun s a s' hs hread => ?_
  · unfold nodeNamed at he
    split at he
    · cases he
    · cases he
      rfl
  · obtain ⟨hnamed, -⟩ := Action.read_eq_ok_iff.mp hread
    subst hs
    unfold nodeNamed at hnamed
    split at hnamed
    · next a' ha =>
      cases hnamed
      have hvalid := h.valid (List.mem_of_find?_eq_some ha)
      refine (reports_applyComplete h.registered.registry hvalid.weights hrule).focus ?_
      rintro _ rfl
      exact .refl _
    · cases hnamed

/-- The handles of a node name entries of the store exactly if the network is prepared or the node
has none. Once it is prepared, every tensor of a node has a shape and a window, what cannot be read
is not allocated, and applying the gradients of a node finds no handle missing. -/
theorem valid_iff [Scalar α] (h : Reached asks n) :
    (∀ a ∈ n.graph.nodes, (a.tensors.Valid n.store ↔ n.isPrepared = true ∨ a.tensors = .empty)) ∧
    (n.isPrepared = true →
      (∀ a ∈ n.graph.nodes, ∀ id ∈ a.tensors.tensorRefs,
        (∃ shape, n.store.shape id = .ok shape) ∧ (∃ steps, n.store.window id = .ok steps) ∧
          ∀ e, n.store.get id = .error e → e = .notAllocated) ∧
      ∀ {τ : Type} (own : τ) (name : String) (rule : WeightState α → Action τ (WeightState α)),
        (∀ u, Action.Reports (fun _ => True) (·.isStale = false) (rule u)) →
        ∀ e s', applyGradients name rule (own, n) = .error e s' → e.isStale = false) := by
  rcases (sound_of_reached h).cases with hbare | hprep
  · refine ⟨fun a _ => ?_, fun hp => ?_⟩
    · rw [Handles.valid_iff_of_isBlank hbare.isBlank, hbare.unprepared]
      simp
    · rw [hbare.unprepared] at hp
      cases hp
  · have hreg := hprep.registered.registry
    refine ⟨fun a ha => ⟨fun _ => .inl hprep.prepared, fun _ => hprep.valid ha⟩, fun _ =>
      ⟨fun a ha id hid => ?_, fun own name rule hrule e s' he => ?_⟩⟩
    · have hlt := (hprep.valid ha).tensors id hid
      exact ⟨exists_shape hreg hlt, exists_window hreg hlt,
        fun e he => eq_of_get_eq_error hreg hlt he⟩
    · exact reports_applyGradients hprep own name hrule (own, n) e s' rfl he

section Halted

/-- The layer `g` has no units, so the preparation fails after `f`. -/
def unitless : Network Float32 :=
  (add (.ofLayer (.fullyConnected 0 .zeros .zeros) "g" [⟨"f", 0⟩])).after
    ((add (.ofLayer (.fullyConnected 1 .zeros .zeros) "f" [⟨"x", 0⟩])).after
      ((add (.ofLayer (.input 1) "x" [])).after (ofSettings ⟨1, true, none, []⟩)))

/-- What compiling makes of it. -/
def unitlessCompiled : Network Float32 :=
  { (ofSettings ⟨1, true, none, []⟩ : Network Float32) with
    graph := ⟨[
      { Node.ofLayer (.input 1) "x" [] with outputs := [[⟨"f", 0⟩]] },
      { Node.ofLayer (.fullyConnected 1 .zeros .zeros) "f" [⟨"x", 0⟩] with
        outputs := [[⟨"g", 0⟩]], schedule := .bothWays 1 1 3, collectsGradients := true },
      { Node.ofLayer (.fullyConnected 0 .zeros .zeros) "g" [⟨"f", 0⟩] with
        schedule := .bothWays 2 0 3
        passesDerivatives := true
        collectsGradients := true }], [0, 1, 2]⟩
    store := (Store.empty true none).setBounds 3 6
    isCompiled := true }

theorem compile_unitless : compile none unitless = .ok () unitlessCompiled := by cbv

/-- What preparing it comes to. -/
def halted : Network Float32 := (prepare [] []).after unitlessCompiled

theorem reached_halted : Reached (fun _ : Shape → List Shape => False) halted := by
  have h : Reached (fun _ => False) ((prepare [] []).after ((compile none).after unitless)) :=
    .prepare _ _
      (.compile _ (.add _ (Node.isPlain_ofLayer rfl _ _) (.add _ (Node.isPlain_ofLayer rfl _ _)
      (.add _ (Node.isPlain_ofLayer rfl _ _) (.settings _)))))
  rwa [Action.after_of_ok compile_unitless] at h

theorem halted_nodes : halted.isPrepared = false ∧
    halted.graph.nodes.map (fun a => (a.name, a.tensors)) =
      [("x", ⟨[], [⟨0, none⟩], [], [], none⟩),
        ("f", ⟨[⟨0, none⟩], [⟨1, some 2⟩], [0, 1], [], none⟩), ("g", .empty)] := by
  decide +kernel

theorem halted_invalid : ∃ f ∈ halted.graph.nodes, f.name = "f" ∧
    ¬ f.tensors.Valid halted.store := by
  obtain ⟨hprepared, hnodes⟩ := halted_nodes
  obtain ⟨f, hf, heq⟩ := exists_of_map_eq hnodes
    (y := ("f", ⟨[⟨0, none⟩], [⟨1, some 2⟩], [0, 1], [], none⟩)) (by simp)
  simp only [Prod.mk.injEq] at heq
  refine ⟨f, hf, heq.1, fun hv => ?_⟩
  rcases ((valid_iff reached_halted).1 f hf).mp hv with hp | hempty
  · rw [hprepared] at hp
    cases hp
  · rw [heq.2] at hempty
    cases hempty

/-- The weights of `f` are looked for in a store that has none. -/
theorem halted_stale : ∃ (n : Network Float32) (e : Error) (s' : Unit × Network Float32),
    Reached (fun _ : Shape → List Shape => False) n ∧
    applyGradients "f" (fun u => pure u) ((), n) = .error e s' ∧ e.isStale = true := by
  have hstale : (match applyGradients "f" (fun u => pure u) ((), halted) with
      | .ok _ _ => false
      | .error e _ => e.isStale) = true := by decide +kernel
  cases hr : applyGradients "f" (fun u => pure u) ((), halted) with
  | ok count s' =>
    rw [hr] at hstale
    cases hstale
  | error e s' =>
    rw [hr] at hstale
    exact ⟨halted, e, s', reached_halted, hr, hstale⟩

end Halted

end Network

end LayerGraph
