import LayerGraph.Proofs.Network.Registered

/-!
# Registering a node

What a node reads, writes and declares is registered one after the other, so that its new tensors
have increasing positions behind all earlier ones.
-/

namespace LayerGraph

variable {α : Type} {batch : Nat} {s s' : Store α}

/-- Tensors registered between two states of a store, in the order of their positions. -/
structure Store.Fresh (s s' : Store α) (ids : List TensorRef) : Prop where
  sorted : ids.Pairwise (· < ·)
  bound : ∀ id ∈ ids, s.entries.length ≤ id ∧ id < s'.entries.length

namespace Store.Fresh

theorem nil (s s' : Store α) : Fresh s s' [] := ⟨.nil, by simp⟩

theorem append {s₁ s₂ s₃ : Store α} {ids ids' : List TensorRef} (h : Fresh s₁ s₂ ids)
    (h' : Fresh s₂ s₃ ids') (h₁₂ : s₁.entries.length ≤ s₂.entries.length)
    (h₂₃ : s₂.entries.length ≤ s₃.entries.length) : Fresh s₁ s₃ (ids ++ ids') := by
  constructor
  · refine List.pairwise_append.mpr ⟨h.sorted, h'.sorted, fun a ha b hb => ?_⟩
    exact Nat.lt_of_lt_of_le (h.bound a ha).2 (h'.bound b hb).1
  · intro id hid
    rcases List.mem_append.mp hid with hid | hid
    · exact ⟨(h.bound id hid).1, Nat.lt_of_lt_of_le (h.bound id hid).2 h₂₃⟩
    · exact ⟨Nat.le_trans h₁₂ (h'.bound id hid).1, (h'.bound id hid).2⟩

theorem single {id : TensorRef} (hid : id = s.entries.length)
    (hlen : s'.entries.length = s.entries.length + 1) : Fresh s s' [id] := by
  refine ⟨List.pairwise_singleton _ _, fun i hi => ?_⟩
  obtain rfl := List.mem_singleton.mp hi
  rw [hid, hlen]
  exact ⟨Nat.le_refl _, Nat.lt_succ_self _⟩

end Store.Fresh

open Store

/-- The tensors that a wire brings along. -/
def Wire.owned (y : Wire) : List TensorRef := y.value :: y.derivative.toList

def Handles.owned (handles : Handles) : List TensorRef :=
  handles.outputs.flatMap Wire.owned ++ handles.label.toList

namespace Network

variable {node : Node α} {use : BufferUse} {inputs : List Wire}

theorem registerReads_spec (hr : Registry batch s) {u : Unit}
    (h : registerReads node inputs s = .ok u s') :
    Grows batch s s' ∧ s'.entries.length = s.entries.length ∧
      (∀ x ∈ inputs, ∀ t ∈ readSteps node, t ∈ s'.stepsOf x.value) ∧
      ∀ x ∈ inputs, ∀ d t, x.derivative = some d → node.schedule.derivativeStep = some t →
        t ∈ s'.stepsOf d := by
  refine Action.forM_prefix (fun done s₁ => Grows batch s s₁ ∧
    s₁.entries.length = s.entries.length ∧
    (∀ x ∈ done, ∀ t ∈ readSteps node, t ∈ s₁.stepsOf x.value) ∧
    ∀ x ∈ done, ∀ d t, x.derivative = some d → node.schedule.derivativeStep = some t →
      t ∈ s₁.stepsOf d) h ⟨.refl s, rfl, by simp, by simp⟩ ?_
  intro done x rest s₁ s₂ u hsplit hdone hx
  obtain ⟨hgrow, hlen, hreads, hreturns⟩ := hdone
  obtain ⟨_, s₃, hadd, hx⟩ := Action.bind_eq_ok_iff.mp hx
  obtain ⟨hgrow₃, hlen₃, hsteps₃⟩ := addSteps_spec (hgrow.registry hr) hadd
  -- The derivative of the input, where it has one and the node has a turn.
  obtain ⟨hgrow₂, hlen₂, hsteps₂⟩ : Grows batch s₃ s₂ ∧ s₂.entries.length = s₃.entries.length ∧
      ∀ d t, x.derivative = some d → node.schedule.derivativeStep = some t → t ∈ s₂.stepsOf d := by
    cases hd : x.derivative with
    | none =>
      rw [hd] at hx
      cases hx
      exact ⟨.refl _, rfl, nofun⟩
    | some d =>
      cases ht : node.schedule.derivativeStep with
      | none =>
        rw [hd, ht] at hx
        cases hx
        exact ⟨.refl _, rfl, nofun⟩
      | some t =>
        rw [hd, ht] at hx
        obtain ⟨hg, hl, hs⟩ := addSteps_spec (hgrow₃.registry (hgrow.registry hr)) hx
        refine ⟨hg, hl, fun d' t' hd' ht' => ?_⟩
        cases hd'
        cases ht'
        exact hs t (by simp)
  have hlater := hgrow₃.trans hgrow₂
  refine ⟨hgrow.trans hlater, hlen₂.trans (hlen₃.trans hlen), ?_, ?_⟩
  · intro x' hx' t ht
    rcases List.mem_append.mp hx' with hx' | hx'
    · exact hlater.later.stepsOf (hreads x' hx' t ht)
    · obtain rfl := List.mem_singleton.mp hx'
      exact hgrow₂.later.stepsOf (hsteps₃ t ht)
  · intro x' hx' d t hd ht
    rcases List.mem_append.mp hx' with hx' | hx'
    · exact hlater.later.stepsOf (hreturns x' hx' d t hd ht)
    · obtain rfl := List.mem_singleton.mp hx'
      exact hsteps₂ d t hd ht

theorem hasWidth_of_added {id : TensorRef} {role : Role} {shape : Shape} (hr : Registry batch s')
    (hdata : role.isData = true) (h : Added s s' id role shape) : s'.HasWidth id shape.width := by
  obtain ⟨e, he, hrole, hshape⟩ := h.entry
  obtain ⟨e', he', -, hrole', hshape'⟩ := hr.backing he
  exact ⟨e', he', by rw [hrole', hrole]; exact hdata, by rw [hshape', hshape]⟩

/-- A store in which the variable of an output is new. -/
structure NewVariable (batch : Nat) (s s' : Store α) (node : Node α) (use : BufferUse)
    (inputs : List Wire) (shape : Shape) (steps : List Nat) (id : TensorRef) : Prop where
  grows : Grows batch s s'
  id_eq : id = s.entries.length
  length_eq : s'.entries.length = s.entries.length + 1
  width : s'.HasWidth id shape.width
  source : node.isSource = true → s'.IsExternal id
  writes : node.isSource = false → ∀ t ∈ steps, t ∈ s'.stepsOf id
  own : use = .own ∨ inputs = [] → s'.rootOf id = id
  shares : use ≠ .own → ∀ x, inputs.head? = some x → s'.rootOf id = s'.rootOf x.value

section Variable

variable {name : String} {shape : Shape} {steps : List Nat} {id : TensorRef}

theorem newVariable_of_request (name : String) (hr : Registry batch s)
    (hbatch : shape.batch = batch) (hu : use = .own ∨ inputs = [])
    (h : Store.request name shape .zeros .forwardToBackward
      (if node.isSource then .external else .variable) steps s = .ok id s') :
    NewVariable batch s s' node use inputs shape steps id := by
  have hdata : (if node.isSource = true then Role.external else Role.variable).isData = true := by
    split <;> rfl
  obtain ⟨hgrow, hadded, hroot, hsteps⟩ := request_spec _ hdata hbatch (by simp) h
  refine ⟨hgrow, hadded.id_eq, hadded.length_eq, hasWidth_of_added (hgrow.registry hr) hdata hadded,
    fun hs => ?_, fun hs => hsteps (by simp [hs]), fun _ => hroot, fun hne x hx => ?_⟩
  · obtain ⟨e, he, hrole, -⟩ := hadded.entry
    exact ⟨e, he, (hgrow.registry hr).source_of_rootOf he hroot, by simpa [hs] using hrole⟩
  · rcases hu with hu | hu
    · exact absurd hu hne
    · rw [hu] at hx
      cases hx

theorem newVariable_of_requestShared (hr : Registry batch s) {x : Wire} (hx : inputs.head? = some x)
    (hu : use ≠ .own) (hin : s.HasWidth x.value shape.width) (hsource : node.isSource = false)
    (h : Store.requestShared x.value name steps s = .ok id s') :
    NewVariable batch s s' node use inputs shape steps id := by
  obtain ⟨e, he, hdata, hwidth⟩ := hin
  obtain ⟨hgrow, hadded, hroot, hsteps⟩ := requestShared_spec hr he hdata h
  obtain ⟨e₀, he₀⟩ := (backing_eq_some_iff.mp he).1
  refine ⟨hgrow, hadded.id_eq, hadded.length_eq, ?_, fun hs => ?_, fun _ => hsteps, fun hu' => ?_,
    fun _ x' hx' => ?_⟩
  · rw [← hwidth]
    exact hasWidth_of_added (hgrow.registry hr) hdata hadded
  · rw [hsource] at hs
    cases hs
  · rcases hu' with hu' | hu'
    · exact absurd hu' hu
    · rw [hu'] at hx
      cases hx
  · rw [hx] at hx'
    cases hx'
    rw [hroot, hgrow.later.rootOf he₀]

theorem registerVariable_spec (hr : Registry batch s) (hbatch : shape.batch = batch)
    (hin : use ≠ .own → ∀ x, inputs.head? = some x → s.HasWidth x.value shape.width)
    (hsource : node.isSource = true → inputs = [])
    (h : registerVariable node use inputs name shape steps s = .ok id s') :
    NewVariable batch s s' node use inputs shape steps id := by
  unfold registerVariable at h
  cases hx : inputs.head? with
  | none =>
    rw [hx] at h
    refine newVariable_of_request name hr hbatch (.inr (List.head?_eq_none_iff.mp hx)) ?_
    cases use <;> exact h
  | some x =>
    have hsource' : node.isSource = false := by
      cases hs : node.isSource with
      | false => rfl
      | true =>
        rw [hsource hs] at hx
        cases hx
    rw [hx] at h
    cases hu : use with
    | own =>
      rw [hu] at h
      exact newVariable_of_request _ hr hbatch (.inl rfl) h
    | view | overwrite =>
      rw [hu] at h hin
      exact newVariable_of_requestShared hr hx (by simp) (hin (by simp) x hx) hsource' h

end Variable

/-- A store in which the derivative of an output is new, if it has one. -/
structure NewDerivative (batch : Nat) (s s' : Store α) (node : Node α) (use : BufferUse)
    (inputs : List Wire) (shape : Shape) (derivative : Option TensorRef) : Prop where
  grows : Grows batch s s'
  le : s.entries.length ≤ s'.entries.length
  fresh : Fresh s s' derivative.toList
  width : ∀ d, derivative = some d → s'.HasWidth d shape.width
  takes : derivative.isSome = (node.participates && !node.isTerminal && !node.isSource)
  taken : ∀ d, derivative = some d → ∀ t ∈ node.schedule.returnSteps, t ∈ s'.stepsOf d
  shares : ∀ d dx, derivative = some d → SharesDerivative use inputs dx → s'.rootOf d = s'.rootOf dx
  own : ∀ d, derivative = some d → (∀ dx, ¬ SharesDerivative use inputs dx) → s'.rootOf d = d

theorem registerDerivative_spec (hr : Registry batch s) {name : String} {shape : Shape}
    {derivative : Option TensorRef} (hbatch : shape.batch = batch)
    (hin : ∀ dx, SharesDerivative use inputs dx → s.HasWidth dx shape.width)
    (h : registerDerivative node use inputs name shape s = .ok derivative s') :
    NewDerivative batch s s' node use inputs shape derivative := by
  unfold registerDerivative at h
  split at h
  · next hpart =>
    -- A new entry, whose buffer is that of the input's derivative or its own.
    have hentry : ∀ {d : TensorRef} {s₁ : Store α} {role : Role}, Grows batch s s₁ →
        Added s s₁ d role shape → role.isData = true →
        (∀ t ∈ node.schedule.returnSteps, t ∈ s₁.stepsOf d) →
        (∀ dx, SharesDerivative use inputs dx → s₁.rootOf d = s₁.rootOf dx) →
        ((∀ dx, ¬ SharesDerivative use inputs dx) → s₁.rootOf d = d) →
        NewDerivative batch s s₁ node use inputs shape (some d) := by
      intro d s₁ role hgrow hadded hdata hsteps hshares hown
      refine ⟨hgrow, by rw [hadded.length_eq]; exact Nat.le_succ _,
        .single hadded.id_eq hadded.length_eq, fun d' hd' => ?_, by simpa using hpart.symm,
        fun d' hd' => ?_, fun d' dx hd' => ?_, fun d' hd' => ?_⟩ <;> cases hd'
      · exact hasWidth_of_added (hgrow.registry hr) hdata hadded
      · exact hsteps
      · exact hshares dx
      · exact hown
    by_cases hshare : ∃ dx, SharesDerivative use inputs dx
    · obtain ⟨dx, hshare⟩ := hshare
      obtain ⟨rfl, hdx⟩ := hshare
      rw [hdx] at h
      obtain ⟨d, s₁, hreq, h⟩ := Action.bind_eq_ok_iff.mp h
      cases h
      obtain ⟨e, he, hdata, hwidth⟩ := hin dx ⟨rfl, hdx⟩
      obtain ⟨hgrow, hadded, hroot, hsteps⟩ := requestShared_spec hr he hdata hreq
      have hshape : e.shape = shape := by
        refine Shape.eq_of_axes ?_ hwidth
        rw [hbatch]
        exact hr.batch _ e (backing_eq_some_iff.mp he).2 hdata
      obtain ⟨e₀, he₀⟩ := (backing_eq_some_iff.mp he).1
      refine hentry hgrow (hshape ▸ hadded) hdata hsteps (fun dx' hdx' => ?_)
        fun hno => absurd ⟨rfl, hdx⟩ (hno dx)
      have heq := hdx'.2
      rw [hdx] at heq
      cases heq
      rw [hroot, hgrow.later.rootOf he₀]
    · have hno : ∀ dx, ¬ SharesDerivative use inputs dx := fun dx hdx => hshare ⟨dx, hdx⟩
      have hreq : ∃ d, Store.request name shape .zeros .backward .derivative
          node.schedule.returnSteps s = .ok d s' ∧ derivative = some d := by
        cases use with
        | own | view =>
          obtain ⟨d, s₁, hreq, h⟩ := Action.bind_eq_ok_iff.mp h
          cases h
          exact ⟨d, hreq, rfl⟩
        | overwrite =>
          cases hdx : inputs.head?.bind (·.derivative) with
          | some dx => exact absurd ⟨rfl, hdx⟩ (hno dx)
          | none =>
            rw [hdx] at h
            obtain ⟨d, s₁, hreq, h⟩ := Action.bind_eq_ok_iff.mp h
            cases h
            exact ⟨d, hreq, rfl⟩
      obtain ⟨d, hreq, rfl⟩ := hreq
      obtain ⟨hgrow, hadded, hroot, hsteps⟩ := request_spec .derivative rfl hbatch (by simp)
        hreq
      exact hentry hgrow hadded rfl (hsteps (by simp)) (fun dx hdx => absurd hdx (hno dx))
        fun _ => hroot
  · next hpart =>
    cases h
    refine ⟨.refl s, Nat.le_refl _, .nil s s, nofun, ?_, nofun, nofun, nofun⟩
    simpa using (Bool.eq_false_iff.mpr hpart).symm

/-- What registering one output makes of the store. -/
theorem registerOutput_spec (hr : Registry batch s) {size : Nat} {shape : Shape}
    {k : Nat} {y : Wire} {maxStep : Nat} (hmax : s.maxStep = maxStep) (hbatch : shape.batch = batch)
    (hin : use ≠ .own → ∀ x, inputs.head? = some x → s.WireFits x shape.width)
    (hfits : ∀ x ∈ inputs, ∃ width, s.WireFits x width)
    (hsource : node.isSource = true → inputs = [])
    (h : registerOutput node use inputs (outputSteps node size maxStep) (shape, k) s = .ok y s') :
    Grows batch s s' ∧ s.entries.length ≤ s'.entries.length ∧ Fresh s s' y.owned ∧
      s'.WireFits y shape.width ∧ node.HoldsOutput s' size use inputs y := by
  obtain ⟨id, s₁, hvariable, h₁⟩ := Action.bind_eq_ok_iff.mp h
  obtain ⟨derivative, s₂, hderivative, h₂⟩ := Action.bind_eq_ok_iff.mp h₁
  cases h₂
  have hv := registerVariable_spec hr hbatch (fun hu x hx => (hin hu x hx).value) hsource hvariable
  have hd := registerDerivative_spec (hv.grows.registry hr) hbatch (fun dx hdx => by
    obtain ⟨x, hx, hxd⟩ := Option.bind_eq_some_iff.mp hdx.2
    have hu : use ≠ .own := by rw [hdx.1]; simp
    exact (hv.grows.later.wireFits (hin hu x hx)).derivative dx hxd) hderivative
  have hgrow := hv.grows.trans hd.grows
  have hle₁ : s.entries.length ≤ s₁.entries.length := by rw [hv.length_eq]; exact Nat.le_succ _
  have hroot : s'.rootOf id = s₁.rootOf id := by
    obtain ⟨e, he⟩ := hv.width.exists_entry
    exact hd.grows.later.rootOf he
  have hfresh : Fresh s s' (Wire.owned ⟨id, derivative⟩) :=
    (Fresh.single hv.id_eq hv.length_eq).append hd.fresh hle₁ hd.le
  refine ⟨hgrow, Nat.le_trans hle₁ hd.le, hfresh,
    ⟨hd.grows.later.hasWidth hv.width, hd.width⟩, ?_⟩
  constructor
  · exact fun hs => hd.grows.later.isExternal (hv.source hs)
  · intro hs t ht
    rw [hgrow.later.maxStep, hmax] at ht
    exact hd.grows.later.stepsOf (hv.writes hs t ht)
  · intro hu
    exact hroot.trans (hv.own hu)
  · intro hu x hx
    obtain ⟨width, hxw⟩ := hfits x (List.mem_of_head? hx)
    obtain ⟨e, he⟩ := (hv.grows.later.hasWidth hxw.value).exists_entry
    exact hroot.trans ((hv.shares hu x hx).trans (hd.grows.later.rootOf he).symm)
  · exact hd.takes
  · exact hd.taken
  · exact hd.shares
  · exact hd.own

theorem registerOutputs_spec (hr : Registry batch s) {size : Nat} {shape : Shape}
    {shapes : List Shape} {ys : List Wire} {maxStep : Nat} (hmax : s.maxStep = maxStep)
    (hall : ∀ sh ∈ shapes, sh = shape) (hbatch : shape.batch = batch)
    (hin : use ≠ .own → ∀ x, inputs.head? = some x → s.WireFits x shape.width)
    (hfits : ∀ x ∈ inputs, ∃ width, s.WireFits x width)
    (hsource : node.isSource = true → inputs = [])
    (h : shapes.zipIdx.mapM (registerOutput node use inputs (outputSteps node size maxStep)) s =
      .ok ys s') :
    Grows batch s s' ∧ s.entries.length ≤ s'.entries.length ∧ Fresh s s' (ys.flatMap Wire.owned) ∧
      ys.length = shapes.length ∧
      ∀ y ∈ ys, s'.WireFits y shape.width ∧ node.HoldsOutput s' size use inputs y := by
  have hdone := Action.mapM_prefix (fun done ys s₁ => Grows batch s s₁ ∧
    s.entries.length ≤ s₁.entries.length ∧ Fresh s s₁ (ys.flatMap Wire.owned) ∧
    ys.length = done.length ∧
    ∀ y ∈ ys, s₁.WireFits y shape.width ∧ node.HoldsOutput s₁ size use inputs y) h
    ⟨.refl s, Nat.le_refl _, .nil s s, rfl, by simp⟩ ?_
  · rwa [List.length_zipIdx] at hdone
  intro done p rest zs s₁ y s₂ hsplit hd hy
  obtain ⟨hgrow, hle, hfresh, hlen, hheld⟩ := hd
  obtain ⟨sh, k⟩ := p
  have hmem : (sh, k) ∈ shapes.zipIdx := by simp [hsplit]
  obtain rfl : sh = shape := hall sh (List.fst_mem_of_mem_zipIdx hmem)
  have hfits₁ : ∀ x ∈ inputs, ∃ width, s₁.WireFits x width := fun x hx => by
    obtain ⟨width, hw⟩ := hfits x hx
    exact ⟨width, hgrow.later.wireFits hw⟩
  obtain ⟨hgrow₂, hle₂, hfresh₂, hfits₂, hheld₂⟩ := registerOutput_spec (hgrow.registry hr)
    (hgrow.later.maxStep.trans hmax) hbatch (fun hu x hx => hgrow.later.wireFits (hin hu x hx))
    hfits₁ hsource hy
  refine ⟨hgrow.trans hgrow₂, Nat.le_trans hle hle₂, ?_, by simp [hlen], fun y' hy' => ?_⟩
  · rw [List.flatMap_append, List.flatMap_singleton]
    exact hfresh.append hfresh₂ hle hle₂
  · rcases List.mem_append.mp hy' with hy' | hy'
    · obtain ⟨hf, hh⟩ := hheld y' hy'
      exact ⟨hgrow₂.later.wireFits hf, hh.later hgrow₂.later ⟨_, hf⟩ hfits₁⟩
    · obtain rfl := List.mem_singleton.mp hy'
      exact ⟨hfits₂, hheld₂⟩

/-- The step at which a node adds to the gradients of its weights. -/
def collectStep (node : Node α) : Option Nat :=
  if node.collectsGradients then node.schedule.gradientStep else none

theorem registerWeight_spec (hr : Registry batch s) {uses : WeightRef → List Nat}
    (hc : Collected uses s) {owner : String} {decl : WeightDecl α} {w : WeightRef}
    (htrain : decl.trainable = (collectStep node).isSome)
    (h : registerWeight node owner decl s = .ok w s') :
    s.Extends s' ∧ Registry batch s' ∧
      Collected (fun v => uses v ++ if v = w then (collectStep node).toList else []) s' ∧
      s'.HasWeight w decl.shape ∧ (∃ r, s'.weights[w]? = some r ∧
        r.name = owner ++ ":" ++ decl.name) ∧
      s'.UsesWeight w node.schedule.forward := by
  obtain ⟨hext, hr', hc', r, e, hw, hname, he, hshape, hused⟩ := useWeight_spec hr hc htrain h
  refine ⟨hext, hr', hc', ⟨r, e, hw, he, ?_, hshape⟩, ⟨r, hw, hname⟩, r, hw, hused⟩
  obtain ⟨e', he', hrole⟩ := hr'.value w r hw
  rw [he] at he'
  cases he'
  rw [hr'.batched _ e he, hrole]
  rfl

theorem registerLabel_spec (hr : Registry batch s) {label : Option Shape} {l : Option TensorRef}
    (hbatch : ∀ shape, label = some shape → shape.batch = batch)
    (h : registerLabel node label s = .ok l s') :
    Grows batch s s' ∧ s.entries.length ≤ s'.entries.length ∧ Fresh s s' l.toList ∧
      (label = none → l = none) ∧
      ∀ shape, label = some shape → ∃ id, l = some id ∧ s'.HasWidth id shape.width ∧
        s'.IsExternal id := by
  cases label with
  | none =>
    cases h
    exact ⟨.refl s, Nat.le_refl _, .nil s s, fun _ => rfl, nofun⟩
  | some shape =>
    obtain ⟨id, s₁, hreq, h⟩ := Action.bind_eq_ok_iff.mp h
    cases h
    obtain ⟨hgrow, hadded, hroot, -⟩ := request_spec .external rfl (hbatch shape rfl)
      (by simp) hreq
    refine ⟨hgrow, by rw [hadded.length_eq]; exact Nat.le_succ _,
      .single hadded.id_eq hadded.length_eq, nofun, fun shape' hs => ?_⟩
    cases hs
    refine ⟨id, rfl, hasWidth_of_added (hgrow.registry hr) rfl hadded, ?_⟩
    obtain ⟨e, he, hrole, -⟩ := hadded.entry
    exact ⟨e, he, (hgrow.registry hr).source_of_rootOf he hroot, hrole⟩

/-- The steps at which a node with these weights adds to the gradient of `w`. -/
def collectSteps (node : Node α) (weights : List WeightRef) (w : WeightRef) : List Nat :=
  weights.flatMap fun v => if w = v then (collectStep node).toList else []

theorem registerWeights_spec (hr : Registry batch s) {uses : WeightRef → List Nat}
    (hc : Collected uses s) {owner : String} {decls : List (WeightDecl α)} {ws : List WeightRef}
    (htrain : ∀ decl ∈ decls, decl.trainable = (collectStep node).isSome)
    (h : decls.mapM (registerWeight node owner) s = .ok ws s') :
    s.Extends s' ∧ Registry batch s' ∧ Collected (fun w => uses w ++ collectSteps node ws w) s' ∧
      List.Forall₂ (fun decl w => s'.HasWeight w decl.shape ∧
        (∃ r, s'.weights[w]? = some r ∧ r.name = owner ++ ":" ++ decl.name) ∧
        s'.UsesWeight w node.schedule.forward) decls ws := by
  refine Action.mapM_prefix (fun done ws s₁ => s.Extends s₁ ∧ Registry batch s₁ ∧
    Collected (fun w => uses w ++ collectSteps node ws w) s₁ ∧
    List.Forall₂ (fun decl w => s₁.HasWeight w decl.shape ∧
      (∃ r, s₁.weights[w]? = some r ∧ r.name = owner ++ ":" ++ decl.name) ∧
      s₁.UsesWeight w node.schedule.forward) done ws) h
    ⟨.refl s, hr, by simpa [collectSteps] using hc, .nil⟩ ?_
  intro done decl rest ws s₁ w s₂ hsplit hd hw
  obtain ⟨hext, hr₁, hc₁, hall⟩ := hd
  obtain ⟨hext₂, hr₂, hc₂, hnew⟩ :=
    registerWeight_spec hr₁ hc₁ (htrain decl (by simp [hsplit])) hw
  refine ⟨hext.trans hext₂, hr₂, ?_, ?_⟩
  · simpa [collectSteps, List.append_assoc] using hc₂
  · refine List.rel_append ?_ (.cons hnew .nil)
    refine hall.imp fun decl' w' hw' => ?_
    obtain ⟨hs, ⟨r, hr', hn⟩, hu⟩ := hw'
    obtain ⟨r', hr'', hn', -⟩ := hext₂.weight _ r hr'
    exact ⟨hext₂.hasWeight hs, ⟨r', hr'', hn'.trans hn⟩, hext₂.usesWeight hu⟩

/-- A declaration whose outputs have one shape. -/
structure Uniform (batch : Nat) (trains : Bool) (shape : Shape) (declared : Declaration α) :
    Prop where
  outputs : ∀ sh ∈ declared.outputShapes, sh = shape
  batch_eq : shape.batch = batch
  weights : ∀ decl ∈ declared.weights, decl.trainable = trains
  tensors : declared.tensors = []
  label : ∀ sh, declared.label = some sh → sh = shape

/-- A store in which what a node declares is new. -/
structure NewNode (batch : Nat) (uses : WeightRef → List Nat) (s s' : Store α) (node : Node α)
    (use : BufferUse) (size : Nat) (owner : String) (inputs : List Wire) (shape : Shape)
    (declared : Declaration α) (handles : Handles) : Prop where
  later : s.Extends s'
  registry : Registry batch s'
  collected : Collected (fun w => uses w ++ collectSteps node handles.weights w) s'
  fresh : Fresh s s' handles.owned
  inputs_eq : handles.inputs = inputs
  tensors_eq : handles.tensors = []
  length_outputs : handles.outputs.length = declared.outputShapes.length
  outputs : ∀ y ∈ handles.outputs, s'.WireFits y shape.width ∧ node.HoldsOutput s' size use inputs y
  reads : ∀ x ∈ inputs, ∀ t ∈ readSteps node, t ∈ s'.stepsOf x.value
  returns : ∀ x ∈ inputs, ∀ d t, x.derivative = some d → node.schedule.derivativeStep = some t →
    t ∈ s'.stepsOf d
  weights : List.Forall₂ (fun decl w => s'.HasWeight w decl.shape ∧
    (∃ r, s'.weights[w]? = some r ∧ r.name = owner ++ ":" ++ decl.name) ∧
    s'.UsesWeight w node.schedule.forward) declared.weights handles.weights
  unlabelled : declared.label = none → handles.label = none
  labelled : ∀ sh, declared.label = some sh → ∃ l, handles.label = some l ∧
    s'.HasWidth l sh.width ∧ s'.IsExternal l

theorem register_spec (hr : Registry batch s) {uses : WeightRef → List Nat} (hc : Collected uses s)
    {size : Nat} {owner : String} {shape : Shape} {declared : Declaration α} {handles : Handles}
    (hu : Uniform batch (collectStep node).isSome shape declared)
    (hin : use ≠ .own → ∀ x, inputs.head? = some x → s.WireFits x shape.width)
    (hfits : ∀ x ∈ inputs, ∃ width, s.WireFits x width)
    (hsource : node.isSource = true → inputs = [])
    (h : register node use owner size inputs declared s = .ok handles s') :
    NewNode batch uses s s' node use size owner inputs shape declared handles := by
  obtain ⟨_, s₁, hreads, h₁⟩ := Action.bind_eq_ok_iff.mp h
  obtain ⟨_, _, hget, h₂⟩ := Action.bind_eq_ok_iff.mp h₁
  cases hget
  obtain ⟨outputs, s₂, houtputs, h₃⟩ := Action.bind_eq_ok_iff.mp h₂
  obtain ⟨weights, s₃, hweights, h₄⟩ := Action.bind_eq_ok_iff.mp h₃
  obtain ⟨tensors, s₄, htensors, h₅⟩ := Action.bind_eq_ok_iff.mp h₄
  rw [hu.tensors, List.mapM_nil] at htensors
  cases htensors
  obtain ⟨label, s₅, hlabel, h₆⟩ := Action.bind_eq_ok_iff.mp h₅
  cases h₆
  obtain ⟨hgrow₁, hlen₁, hsteps, hreturns⟩ := registerReads_spec hr hreads
  have hfits₁ : ∀ x ∈ inputs, ∃ width, s₁.WireFits x width := fun x hx => by
    obtain ⟨width, hw⟩ := hfits x hx
    exact ⟨width, hgrow₁.later.wireFits hw⟩
  have hr₁ := hgrow₁.registry hr
  obtain ⟨hgrow₂, hle₂, hfresh₂, hlen₂, hheld⟩ :=
    registerOutputs_spec hr₁ rfl hu.outputs hu.batch_eq
    (fun hne x hx => hgrow₁.later.wireFits (hin hne x hx)) hfits₁ hsource houtputs
  obtain ⟨hext₃, hr₃, hc₃, hall⟩ := registerWeights_spec (hgrow₂.registry hr₁)
    ((hc.grows hgrow₁).grows hgrow₂) hu.weights hweights
  obtain ⟨hgrow₄, hle₄, hfresh₄, hnone, hsome⟩ := registerLabel_spec hr₃
    (fun sh hsh => by rw [hu.label sh hsh]; exact hu.batch_eq) hlabel
  have hlater : s₂.Extends s' := hext₃.trans hgrow₄.later
  have hfits₂ : ∀ x ∈ inputs, ∃ width, s₂.WireFits x width := fun x hx => by
    obtain ⟨width, hw⟩ := hfits₁ x hx
    exact ⟨width, hgrow₂.later.wireFits hw⟩
  refine ⟨hgrow₁.later.trans (hgrow₂.later.trans hlater), hgrow₄.registry hr₃, hc₃.grows hgrow₄, ?_,
    rfl, rfl, hlen₂, fun y hy => ?_, fun x hx t ht => ?_, fun x hx d t hd ht => ?_,
    hall.imp fun decl w hw => ?_, hnone, hsome⟩
  · have hfresh : Fresh s s₂ (outputs.flatMap Wire.owned) := by
      refine ⟨hfresh₂.sorted, fun id hid => ?_⟩
      rw [← hlen₁]
      exact hfresh₂.bound id hid
    have hfresh' : Fresh s s₃ (outputs.flatMap Wire.owned) :=
      ⟨hfresh.sorted, fun id hid => ⟨(hfresh.bound id hid).1,
        Nat.lt_of_lt_of_le (hfresh.bound id hid).2 hext₃.length_le⟩⟩
    exact hfresh'.append hfresh₄ (Nat.le_trans (by rw [← hlen₁]; exact hle₂) hext₃.length_le) hle₄
  · obtain ⟨hf, hh⟩ := hheld y hy
    exact ⟨hlater.wireFits hf, hh.later hlater ⟨_, hf⟩ hfits₂⟩
  · exact hlater.stepsOf (hgrow₂.later.stepsOf (hsteps x hx t ht))
  · exact hlater.stepsOf (hgrow₂.later.stepsOf (hreturns x hx d t hd ht))
  · obtain ⟨hs, ⟨r, hr', hn⟩, hu⟩ := hw
    obtain ⟨r', hr'', hn', -⟩ := hgrow₄.later.weight _ r hr'
    exact ⟨hgrow₄.later.hasWeight hs, ⟨r', hr'', hn'.trans hn⟩, hgrow₄.later.usesWeight hu⟩

end Network

end LayerGraph
