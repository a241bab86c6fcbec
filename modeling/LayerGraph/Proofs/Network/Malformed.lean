import LayerGraph.Proofs.Network.MiniBatch

/-!
# Malformed rows

Training looks at the rows of a batch when it comes to the batch. Rows that do not fill a batch are
never looked at, and a row that does not fit is refused in the first epoch, when the batches before
it have been learned from already.
-/

namespace LayerGraph

variable {ρ α : Type}

namespace Action

variable {σ β γ : Type} {s s₁ s' : σ} {e : Error}

theorem foldlM_congr {f g : γ → β → Action σ γ} {xs : List β} (h : ∀ c, ∀ x ∈ xs, f c x = g c x)
    (c : γ) : xs.foldlM f c = xs.foldlM g c := by
  induction xs generalizing c with
  | nil => rfl
  | cons x xs ih =>
    rw [List.foldlM_cons, List.foldlM_cons, h c x (by simp)]
    exact congrArg _ (funext fun d => ih (fun c y hy => h c y (by simp [hy])) d)

theorem foldlM_range_of_error {f : γ → Nat → Action σ γ} {b n : Nat} {c : γ} (hb : b ≤ n)
    (h : (List.range b).foldlM f c s = .error e s') : (List.range n).foldlM f c s =
      .error e s' := by
  obtain ⟨k, rfl⟩ := Nat.exists_eq_add_of_le hb
  rw [List.range_add, List.foldlM_append]
  exact bind_of_error h

theorem foldlM_range_of_ok {f : γ → Nat → Action σ γ} {b n : Nat} {c c₁ : γ} (hb : b < n)
    (h : (List.range b).foldlM f c s = .ok c₁ s₁) (hstep : f c₁ b s₁ = .error e s') :
    (List.range n).foldlM f c s = .error e s' := by
  refine foldlM_range_of_error (Nat.succ_le_of_lt hb) ?_
  rw [List.range_succ, List.foldlM_append]
  refine (bind_of_ok h).trans ?_
  rw [List.foldlM_cons]
  exact bind_of_error hstep

/-- A loop whose body fails at once fails there. -/
theorem mapM_range_of_error {f : Nat → Action σ γ} {n : Nat} (hn : 0 < n)
    (h : f 0 s = .error e s') : (List.range n).mapM f s = .error e s' := by
  obtain ⟨k, rfl⟩ := Nat.exists_eq_succ_of_ne_zero hn.ne'
  rw [List.range_succ_eq_map, List.mapM_cons]
  exact bind_of_error h

theorem after_bind_pure (p : Action σ β) (g : β → γ) (s : σ) :
    (p >>= fun b => pure (g b)).after s = p.after s := by
  cases h : p s with
  | ok b s₁ => rw [after_bind_of_ok h, after_of_ok h]; rfl
  | error e s₁ => rw [after_of_error (bind_of_error h), after_of_error h]

end Action

namespace TrainingPlan

variable (plan : TrainingPlan ρ) {count c : Nat}

/-- The size of the batches in which so many rows are taken. -/
def batchFor (count : Nat) : Nat := min (max plan.batchSize 1) count

/-- How many of so many rows fill batches. -/
def fullRows (count : Nat) : Nat := count / plan.batchFor count * plan.batchFor count

theorem fullRows_le (count : Nat) : plan.fullRows count ≤ count := Nat.div_mul_le_self _ _

theorem batchFor_pos (h : 0 < count) : 0 < plan.batchFor count := by
  unfold batchFor
  omega

/-- Rows that fill at least one of the batches are taken in batches of the same size. -/
theorem batchFor_of_le {k : Nat} (h : plan.batchFor count ≤ k) (h' : k ≤ count) :
    plan.batchFor k = plan.batchFor count := by
  unfold batchFor at h ⊢
  omega

theorem batchFor_le_fullRows (h : 0 < count) : plan.batchFor count ≤ plan.fullRows count := by
  have hfits : 1 ≤ count / plan.batchFor count :=
    (Nat.one_le_div_iff (plan.batchFor_pos h)).mpr (Nat.min_le_right _ _)
  exact Nat.le_mul_of_pos_left _ hfits

end TrainingPlan

namespace Network

section Rows

variable {β : Type} {rows : List β} {size b c : Nat}

/-- The first batches do not depend on what comes after them. -/
theorem batchRows_take (h : b < c) : batchRows (rows.take (c * size)) size b =
    batchRows rows size b := by
  have hfits : b * size + size ≤ c * size := by
    rw [← Nat.succ_mul]
    exact Nat.mul_le_mul_right size h
  rw [batchRows, batchRows, List.drop_take, List.take_take, Nat.min_eq_left (by omega)]

theorem headD_take {row : β} {k : Nat} (h : 0 < k) : (rows.take k).headD row = rows.headD row := by
  obtain ⟨k, rfl⟩ := Nat.exists_eq_succ_of_ne_zero h.ne'
  cases rows <;> rfl

theorem mem_batchRows {row : β} {j : Nat} (hsize : 0 < size) (h : rows[j]? = some row) :
    row ∈ batchRows rows size (j / size) := by
  refine List.mem_of_getElem? (i := j % size) ?_
  rw [batchRows, List.getElem?_take, if_pos (Nat.mod_lt _ hsize), List.getElem?_drop,
    Nat.div_add_mod', h]

end Rows

section Batch

variable {rows : List (List α)} {width : Nat}

theorem batchTensor_of_forall [Scalar α] (h : ∀ row ∈ rows, row.length = width) :
    batchTensor rows width = .ok (.ofRows width rows) := by
  have hnone : rows.find? (·.length ≠ width) = none :=
    List.find?_eq_none.mpr fun row hrow => by simp [h row hrow]
  rw [batchTensor, hnone]

theorem batchTensor_of_mem [Scalar α] {row : List α} (h : row ∈ rows) (hrow : row.length ≠ width) :
    ∃ e, batchTensor rows width = .error e := by
  unfold batchTensor
  split
  · exact ⟨_, rfl⟩
  · next hnone => exact absurd (List.find?_eq_none.mp hnone row h) (by simpa using hrow)

end Batch

variable [Rate ρ α] [Scalar α] {descent : GradientDescent ρ} {inputs targets : List (List α)}
  {batch inputWidth targetWidth : Nat} {plan : TrainingPlan ρ}

/-- What an epoch does with one batch. -/
def batchStep (descent : GradientDescent ρ) (inputs targets : List (List α))
    (batch inputWidth targetWidth : Nat) (total : α) (b : Nat) : Action (Network α) α := do
  let x ← Action.read fun _ => batchTensor (batchRows inputs batch b) inputWidth
  let y ← Action.read fun _ => batchTensor (batchRows targets batch b) targetWidth
  return total + (← trainStep descent x y)

theorem trainEpoch_eq : trainEpoch descent inputs targets batch inputWidth targetWidth = (do
    let total ← (List.range (inputs.length / batch)).foldlM
      (batchStep descent inputs targets batch inputWidth targetWidth) 0
    return total / Scalar.ofNat (inputs.length / batch)) := rfl

theorem batchStep_take {total : α} {b c : Nat} (h : b < c) :
    batchStep descent (inputs.take (c * batch)) (targets.take (c * batch)) batch inputWidth
      targetWidth total b = batchStep descent inputs targets batch inputWidth
        targetWidth total b := by
  unfold batchStep
  rw [batchRows_take h, batchRows_take h]

/-- An epoch over the rows of the first batches. -/
theorem trainEpoch_take {c : Nat} (hbatch : 0 < batch) (hc : c * batch ≤ inputs.length) :
    trainEpoch descent (inputs.take (c * batch)) (targets.take (c * batch)) batch
      inputWidth targetWidth = (do
      let total ← (List.range c).foldlM
        (batchStep descent inputs targets batch inputWidth targetWidth) 0
      return total / Scalar.ofNat c) := by
  have hcount : (inputs.take (c * batch)).length / batch = c := by
    rw [List.length_take, Nat.min_eq_left hc, Nat.mul_div_cancel _ hbatch]
  rw [trainEpoch_eq, hcount, Action.foldlM_congr fun total b hb => batchStep_take
    (List.mem_range.mp hb)]

/-- A batch with a row of another width is not trained on. -/
theorem batchStep_of_mem (descent : GradientDescent ρ) {b : Nat} (n : Network α) (total : α)
    (h : (∃ row ∈ batchRows inputs batch b, row.length ≠ inputWidth) ∨
      ∃ row ∈ batchRows targets batch b, row.length ≠ targetWidth) :
    ∃ e, batchStep descent inputs targets batch inputWidth targetWidth total b n = .error e n := by
  unfold batchStep
  cases hx : batchTensor (batchRows inputs batch b) inputWidth with
  | error e => exact ⟨e, Action.bind_of_error (Action.read_of_error rfl)⟩
  | ok x =>
    rcases h with ⟨row, hrow, hwidth⟩ | ⟨row, hrow, hwidth⟩
    · obtain ⟨e, he⟩ := batchTensor_of_mem hrow hwidth
      rw [hx] at he
      cases he
    · obtain ⟨e, he⟩ := batchTensor_of_mem hrow hwidth
      exact ⟨e, (Action.bind_of_ok (Action.read_of_ok (f := fun _ => .ok x) rfl)).trans
        (Action.bind_of_error (Action.read_of_error he))⟩

/-- What training does once the network is ready for its batches. -/
def trainEpochs (inputs targets : List (List α)) (plan : TrainingPlan ρ) (batch : Nat) :
    Action (Network α) (List α) := do
  match ← Action.read inputShapes with
  | [input] =>
    let targetWidth := (targets.headD []).length
    (List.range plan.epochs).mapM fun _ =>
      trainEpoch ⟨plan.learningRate, plan.momentum⟩ inputs targets batch input.width targetWidth
  | _ => throw (.misconfigured .trainingInputs)

/-- Rows that do not fill a batch are left out. -/
theorem trainEpochs_take (hbatch : 0 < batch) (hfits : batch ≤ inputs.length) :
    trainEpochs (inputs.take (inputs.length / batch * batch))
      (targets.take (inputs.length / batch * batch)) plan batch =
      trainEpochs inputs targets plan batch := by
  have hpos : 0 < inputs.length / batch := Nat.div_pos hfits hbatch
  have hepoch : ∀ inputWidth targetWidth,
      trainEpoch (⟨plan.learningRate, plan.momentum⟩ : GradientDescent ρ)
      (inputs.take (inputs.length / batch * batch)) (targets.take (inputs.length / batch * batch))
        batch inputWidth targetWidth = trainEpoch ⟨plan.learningRate, plan.momentum⟩ inputs targets
          batch inputWidth targetWidth := fun _ _ => by
    rw [trainEpoch_take hbatch (Nat.div_mul_le_self _ _), trainEpoch_eq]
  unfold trainEpochs
  simp only [headD_take (Nat.mul_pos hpos hbatch), hepoch]

theorem train_of_length_eq (hne : inputs ≠ []) (hlength : inputs.length = targets.length) :
    train inputs targets plan = (do
      if !(← get).isPrepared then throw .notPrepared
      readyToTrain ⟨plan.learningRate, plan.momentum⟩ (plan.batchFor inputs.length)
      trainEpochs inputs targets plan (plan.batchFor inputs.length)) := by
  have hcount : ¬(inputs.isEmpty || inputs.length != targets.length) = true := by
    simp [hne, hlength]
  unfold train
  rw [if_neg hcount]
  rfl

section Feed

variable {n : Network α} {asks : (Shape → List Shape) → Prop} {mode : RunMode}

omit [Rate ρ α] in
/-- Feeding leaves weights alone, also where it fails. -/
theorem Ready.weightHeld_feed (h : Ready asks mode n) (xs ys : List (Tensor α)) :
    ((feed xs ys).after n).weightHeld = n.weightHeld := by
  have hwrite : ∀ p ∈ n.feeds xs ys,
      Action.Keeps (fun s => n.store.SameLayout s ∧ n.store.SameKept s) (Store.write p.1 p.2) := by
    intro p hp
    obtain ⟨e, he, hunkept, -⟩ := (h.external_of_feeds hp).2.1
    refine Action.keeps_update fun s s' hs hset => ⟨hs.1.trans (Store.sameLayout_of_set hset),
      fun id e' he' hkept => ?_⟩
    rw [Store.get_of_set_unkept hset ((hs.1.backing _).trans he) hunkept
      ((hs.1.backing _).trans he') hkept]
    exact hs.2 id e' he' hkept
  have hwrites : Action.Keeps (fun s => n.store.SameLayout s ∧ n.store.SameKept s) (do
      (n.inputs.zip xs).forM fun p => Store.write p.1 p.2
      (n.labels.zip ys).forM fun p => Store.write p.1 p.2 : Action (Store α) PUnit) :=
    (Action.keeps_forM fun p hp => hwrite p (List.mem_append_left _ hp)).bind fun _ =>
      Action.keeps_forM fun p hp => hwrite p (List.mem_append_right _ hp)
  unfold feed
  rw [Action.after_get_bind]
  dsimp only
  by_cases hnone : (!n.store.hasTensors) = true
  · rw [Action.after_guard_of_pos hnone]
  rw [if_neg hnone]
  by_cases hinputs : xs.length ≠ n.inputs.length
  · rw [Action.after_guard_of_pos hinputs]
  rw [if_neg hinputs]
  by_cases hlabels : ys ≠ [] ∧ ys.length ≠ n.labels.length
  · rw [Action.after_guard_of_pos hlabels]
  rw [if_neg hlabels, after_onStore]
  obtain ⟨hlayout, hkept⟩ := hwrites n.store ⟨.refl _, .refl _⟩
  exact weightHeld_of_sameKept h.prepared.registered.registry hlayout hkept

/-- A step on a batch whose labels have another width than the loss fails before anything is
computed. -/
theorem Ready.trainStep_of_width_ne (h : Ready asks mode n) (descent : GradientDescent ρ)
    {x y : Tensor α} {label : TensorRef} {shape : Shape} (hmem : label ∈ n.labels)
    (hshape : n.store.shape label = .ok shape) (hwidth : y.shape.width ≠ shape.width) :
    ∃ e n', trainStep descent x y n = .error e n' ∧ n'.weightHeld = n.weightHeld := by
  have hheld := h.weightHeld_feed [x] [y]
  cases hfeed : feed [x] [y] n with
  | error e n' =>
    rw [Action.after_of_error hfeed] at hheld
    exact ⟨e, n', Action.bind_of_error hfeed, hheld⟩
  | ok u n' =>
    have hlabels := (feed_eq_ok_iff.mp hfeed).2.2.1 (List.cons_ne_nil _ _)
    obtain ⟨l, hl⟩ := List.length_eq_one_iff.mp hlabels.symm
    obtain rfl : label = l := List.mem_singleton.mp (hl ▸ hmem)
    have hfits := ((h.feed_iff hlabels).mp ⟨n', hfeed⟩).2 (label, y) (by rw [feeds, hl]; simp)
    rw [hshape] at hfits
    exact absurd (congrArg Shape.width (Except.ok.inj hfits).symm) hwidth

end Feed

section Malformed

/-- The row is not as wide as one of these tensors. -/
def Misfits (n : Network α) (ids : List TensorRef) (row : List α) : Prop :=
  ∃ id ∈ ids, ∃ shape, n.store.shape id = .ok shape ∧ row.length ≠ shape.width

/-- A row of this sample does not fit the inputs or the labels that it would be fed to. -/
def Malformed (n : Network α) (inputs targets : List (List α)) (j : Nat) : Prop :=
  (∃ row, inputs[j]? = some row ∧ n.Misfits n.inputs row) ∨ ∃ row, targets[j]? = some row ∧
    n.Misfits n.labels row

variable {n n₀ n₁ : Network α} {asks : (Shape → List Shape) → Prop} {j : Nat}

omit [Rate ρ α] [Scalar α] in
theorem misfits_of_inputShapes {input : Shape} {row : List α} (h : n.inputShapes = .ok [input]) :
    n.Misfits n.inputs row → row.length ≠ input.width := by
  rintro ⟨id, hid, shape, hshape, hwidth⟩
  obtain ⟨shape', hmem, hshape'⟩ := except_mapM_mem h hid
  obtain rfl := List.mem_singleton.mp hmem
  obtain rfl := Except.ok.inj (hshape.symm.trans hshape')
  exact hwidth

omit [Rate ρ α] [Scalar α] in
/-- With one input and one label, a sample is malformed if its rows do not have their widths. -/
theorem malformed_iff {input label : TensorRef} {inputShape labelShape : Shape}
    (hinputs : n.inputs = [input]) (hlabels : n.labels = [label])
    (hx : n.store.shape input = .ok inputShape) (hy : n.store.shape label = .ok labelShape) :
    n.Malformed inputs targets j ↔ (∃ row, inputs[j]? = some row ∧ row.length ≠ inputShape.width) ∨
      ∃ row, targets[j]? = some row ∧ row.length ≠ labelShape.width := by
  simp [Malformed, Misfits, hinputs, hlabels, hx, hy]

omit [Scalar α] in
/-- Where a sample before it fits, a malformed sample has a row that a batch cannot be made of. -/
theorem malformed_in_batch {input : Shape} (hbatch : 0 < batch)
    (hinput : n.inputShapes = .ok [input]) (hmal : n.Malformed inputs targets j)
    (hfirst : ¬ n.Malformed inputs targets 0) (hlength : inputs.length = targets.length) :
    (∃ row ∈ batchRows inputs batch (j / batch), row.length ≠ input.width) ∨
      ∃ row ∈ batchRows targets batch (j / batch), row.length ≠ (targets.headD []).length := by
  rcases hmal with ⟨row, hrow, hmisfits⟩ | ⟨row, hrow, id, hid, shape, hshape, hwidth⟩
  · exact .inl ⟨row, mem_batchRows hbatch hrow, misfits_of_inputShapes hinput hmisfits⟩
  · refine .inr ⟨row, mem_batchRows hbatch hrow, fun heq => hfirst (.inr ?_)⟩
    cases targets with
    | nil => cases hrow
    | cons first rest =>
      exact ⟨first, rfl, id, hid, shape, hshape, fun hfits => hwidth (heq.trans hfits)⟩

/-- A malformed sample in the first batch stops training before any weight is changed. -/
theorem Ready.batchStep_of_first (h : Ready asks .train n) (descent : GradientDescent ρ)
    {input : Shape} (hbatch : 0 < batch) (hinput : n.inputShapes = .ok [input]) (hj : j < batch)
    (hmal : n.Malformed inputs targets j) (total : α) :
    ∃ e n', batchStep descent inputs targets batch input.width (targets.headD []).length total 0 n =
      .error e n' ∧ n'.weightHeld = n.weightHeld := by
  have hzero : j / batch = 0 := Nat.div_eq_of_lt hj
  by_cases hrows : (∃ row ∈ batchRows inputs batch 0, row.length ≠ input.width) ∨
      ∃ row ∈ batchRows targets batch 0, row.length ≠ (targets.headD []).length
  · obtain ⟨e, he⟩ := batchStep_of_mem descent n total hrows
    exact ⟨e, n, he, rfl⟩
  obtain ⟨hx, hy⟩ := not_or.mp hrows
  have hx : ∀ row ∈ batchRows inputs batch 0, row.length = input.width :=
    fun row hrow => by_contra fun hne => hx ⟨row, hrow, hne⟩
  have hy : ∀ row ∈ batchRows targets batch 0, row.length = (targets.headD []).length :=
    fun row hrow => by_contra fun hne => hy ⟨row, hrow, hne⟩
  -- Both batches can be made, so it is the labels that are too wide or too narrow, and feeding them
  -- fails.
  obtain ⟨row, hrow, label, hlabel, shape, hshape, hwidth⟩ : ∃ row, targets[j]? = some row ∧
      n.Misfits n.labels row := by
    refine hmal.resolve_left ?_
    rintro ⟨row, hrow, hmisfits⟩
    exact misfits_of_inputShapes hinput hmisfits (hx row (hzero ▸ mem_batchRows hbatch hrow))
  have hmade : (Tensor.ofRows (targets.headD []).length (batchRows targets batch 0)).shape.width ≠
      shape.width := by
    rw [Tensor.ofRows, Tensor.shape_ofFn]
    exact hy row (hzero ▸ mem_batchRows hbatch hrow) ▸ hwidth
  obtain ⟨e, n', hstep, hheld⟩ := h.trainStep_of_width_ne descent
    (x := Tensor.ofRows input.width (batchRows inputs batch 0)) hlabel hshape hmade
  refine ⟨e, n', ?_, hheld⟩
  unfold batchStep
  rw [batchTensor_of_forall hx, batchTensor_of_forall hy]
  refine (Action.bind_of_ok (Action.read_of_ok (f := fun _ => .ok _) rfl)).trans ?_
  refine (Action.bind_of_ok (Action.read_of_ok (f := fun _ => .ok _) rfl)).trans ?_
  exact Action.bind_of_error hstep

/-- What training does with malformed samples once the network is ready. -/
theorem Ready.trainEpochs_of_malformed (h : Ready asks .train n) (plan : TrainingPlan ρ)
    (hbatch : 0 < batch) (hlength : inputs.length = targets.length)
    (hepochs : 0 < plan.epochs) (hj : j < inputs.length / batch * batch)
    (hmal : n.Malformed inputs targets j) (hfirst : ∀ i < j, ¬ n.Malformed inputs targets i) :
    ∃ e n', trainEpochs inputs targets plan batch n = .error e n' ∧
      (j < batch → n'.weightHeld = n.weightHeld) ∧
      (batch ≤ j →
        n' = (trainEpochs (inputs.take (j / batch * batch)) (targets.take (j / batch * batch))
        { plan with epochs := 1 } batch).after n) := by
  have hstop : ∀ (e : Error) (p q : Action (Network α) (List α)), p n = .error e n →
      q n = .error e n → ∃ e n', p n = .error e n' ∧ (j < batch → n'.weightHeld = n.weightHeld) ∧
      (batch ≤ j → n' = q.after n) :=
    fun e p q hp hq => ⟨e, n, hp, fun _ => rfl, fun _ => (Action.after_of_error hq).symm⟩
  cases hshapes : n.inputShapes with
  | error e =>
    exact hstop e _ _ (Action.bind_of_error (Action.read_of_error hshapes))
      (Action.bind_of_error (Action.read_of_error hshapes))
  | ok shapes =>
  match shapes with
  | [] | _ :: _ :: _ =>
    exact hstop (.misconfigured .trainingInputs) _ _ (Action.bind_of_ok (Action.read_of_ok hshapes))
      (Action.bind_of_ok (Action.read_of_ok hshapes))
  | [input] =>
  have hb : j / batch < inputs.length / batch := Nat.div_lt_of_lt_mul (by rwa [Nat.mul_comm])
  -- The first epoch fails where the loop over its batches fails.
  have hfails : ∀ e n', (List.range (inputs.length / batch)).foldlM
      (batchStep ⟨plan.learningRate, plan.momentum⟩ inputs targets
      batch input.width (targets.headD []).length) 0 n = .error e n' →
      trainEpochs inputs targets plan batch n = .error e n' := by
    intro e n' hloop
    refine (Action.bind_of_ok (Action.read_of_ok hshapes)).trans
      (Action.mapM_range_of_error hepochs ?_)
    rw [trainEpoch_eq]
    exact Action.bind_of_error hloop
  by_cases hj₀ : j < batch
  · obtain ⟨e, n', hstep, hheld⟩ :=
      h.batchStep_of_first ⟨plan.learningRate, plan.momentum⟩ hbatch hshapes hj₀ hmal 0
    refine ⟨e, n', hfails e n' (Action.foldlM_range_of_ok (Nat.zero_lt_of_lt hb) rfl hstep),
      fun _ => hheld, fun hle => ?_⟩
    exact absurd hj₀ (Nat.not_lt.mpr hle)
  have hle : batch ≤ j := Nat.not_lt.mp hj₀
  have hpos : 0 < j / batch := Nat.div_pos hle hbatch
  have hshort : (trainEpochs (inputs.take (j / batch * batch)) (targets.take (j / batch * batch))
      { plan with epochs := 1 } batch).after n =
        ((List.range (j / batch)).foldlM
          (batchStep ⟨plan.learningRate, plan.momentum⟩ inputs targets
        batch input.width (targets.headD []).length) 0).after n := by
    have hcount : j / batch * batch ≤ inputs.length :=
      (Nat.mul_le_mul_right batch hb.le).trans (Nat.div_mul_le_self _ _)
    refine (Action.after_bind_of_ok (Action.read_of_ok hshapes)).trans ?_
    dsimp only
    rw [headD_take (Nat.mul_pos hpos hbatch), trainEpoch_take hbatch hcount, List.range_one,
      List.mapM_cons, List.mapM_nil]
    simp only [pure_bind]
    rw [Action.after_bind_pure, Action.after_bind_pure]
  cases hloop : (List.range (j / batch)).foldlM (batchStep ⟨plan.learningRate, plan.momentum⟩ inputs
      targets batch input.width (targets.headD []).length) 0 n with
  | error e n' =>
    refine ⟨e, n', hfails e n' (Action.foldlM_range_of_error hb.le hloop),
      fun hlt => absurd hlt hj₀, fun _ => ?_⟩
    rw [hshort, Action.after_of_error hloop]
  | ok total n' =>
    obtain ⟨e, hstep⟩ := batchStep_of_mem ⟨plan.learningRate, plan.momentum⟩ n' total
      (malformed_in_batch hbatch hshapes hmal (hfirst 0 (hbatch.trans_le hle)) hlength)
    refine ⟨e, n', hfails e n' (Action.foldlM_range_of_ok hb hloop hstep),
      fun hlt => absurd hlt hj₀, fun _ => ?_⟩
    rw [hshort, Action.after_of_ok hloop]

end Malformed

section Train

variable {d n₀ n n₁ : Network α} {u : Unit} {b : Nat}

/-- Weights that have been filled are not touched on the way to training. -/
theorem Descends.weightHeld_readyToTrain (h : Descends b n₀ n) (hfilled : n.store.hasWeights = true)
    (descent : GradientDescent ρ) (batch : Nat) :
    ((readyToTrain descent batch).after n).weightHeld = n.weightHeld := by
  have hkeeps : Action.Keeps (fun m : Network α => Descends b n₀ m ∧ m.store.hasWeights = true ∧
      m.store.weights = n.store.weights ∧ m.store.persistent = n.store.persistent)
      (readyToTrain descent batch) := by
    refine keeps_readyToTrain (fun m hm => ⟨Descends.enduring.filled m hm.1, ?_⟩)
      (fun m hm => ⟨Descends.enduring.allocated .train m hm.1, ?_⟩)
        (fun m hm => ⟨Descends.enduring.released m hm.1, hm.2⟩)
      (fun batch m hm => ⟨Descends.enduring.rebatched batch m hm.1, ?_⟩)
      (fun m hm => ⟨Descends.enduring.requested _ m hm.1, ?_⟩) batch
    · rw [after_fillWeights_of_prepared hm.1.alike.prepared]
      rcases Store.after_fillWeights m.store.maxStep m.store with hsame | ⟨hempty, -⟩
      · rw [hsame]
        exact hm.2
      · rw [hm.2.1] at hempty
        cases hempty
    · have hp := hm.1.sound.prepared hm.1.alike.prepared
      have hre := (Store.reallocated_allocate hp.allocated hp.loaded .train).1
      have hsame : ((allocate .train).after m).store = (Store.allocate .train).after m.store := by
        rw [after_allocate_of_prepared .train hp.prepared]
        unfold Action.after
        cases Store.allocate .train m.store <;> rfl
      rw [hsame, hre.hasWeights, hre.weights, hre.persistent]
      exact hm.2
    · rcases after_rebatch_of_prepared hm.1.alike.prepared batch with heq | heq <;>
        rw [heq] <;> exact hm.2
    · unfold requestStates
      rw [Action.after_get_bind]
      dsimp only
      rw [if_neg (by rw [hm.1.alike.prepared]; simp), Action.after_get_bind,
        Action.after_guard_of_pos hm.2.1]
      exact hm.2
  obtain ⟨hdesc, -, hweights, hkept⟩ := hkeeps n ⟨h, hfilled, rfl, rfl⟩
  have hreg := fun {m} (hm : Descends b n₀ m) =>
    (hm.sound.prepared hm.alike.prepared).registered.registry
  exact weightHeld_of_persistent (hreg h) (hreg hdesc) hweights hkept

omit [Rate ρ α] in
/-- What is fed has the same width after any calls. -/
theorem Descends.misfits (h₀ : Prepared (fun _ => True) n₀) (h : Descends b n₀ n) {b₁ : Nat}
    (h₁ : Descends b₁ n₀ n₁) {row : List α} {ids : List TensorRef}
    (hids : ∀ id ∈ ids, id ∈ n₀.inputs ++ n₀.labels) : n.Misfits ids row → n₁.Misfits ids row := by
  have hface : ∀ {m : Network α}, Prepared (fun _ => True) m → ∀ id ∈ m.inputs ++ m.labels, ∃ width,
      m.store.HasWidth id width := by
    intro m hm id hid
    rcases List.mem_append.mp hid with hid | hid
    · obtain ⟨p, a, y, ha, -, hy, rfl⟩ := hm.faces.inputs id hid
      obtain ⟨width, hw⟩ := (hm.registered.holds_of_node ha).fits.output hy
      exact ⟨width, hw.value⟩
    · obtain ⟨p, a, ha, hl⟩ := hm.faces.labels id hid
      exact (hm.registered.holds_of_node ha).fits.label hl
  have hshape : ∀ {b : Nat} {m : Network α}, Descends b n₀ m → ∀ id ∈ ids, ∀ {shape₀},
      n₀.store.HasShape id shape₀ →
      m.store.shape id = .ok ⟨m.batchSize, shape₀.width⟩ := by
    intro b m hm id hid shape₀ hshape₀
    have hp := hm.sound.prepared hm.alike.prepared
    obtain ⟨width, hw⟩ := hface hp id (by
      rw [hm.alike.inputs, hm.alike.labels]
      exact hids id hid)
    exact hm.shape hp.registered.registry hw hshape₀
  rintro ⟨id, hid, shape, hshape', hwidth⟩
  obtain ⟨width₀, hw₀⟩ := hface h₀ id (hids id hid)
  have h₀' := hasShape_of_shape h₀.registered.registry (hw₀.shape h₀.registered.registry)
  rw [hshape h id hid h₀'] at hshape'
  obtain rfl := Except.ok.inj hshape'
  exact ⟨id, hid, _, hshape h₁ id hid h₀', hwidth⟩

omit [Rate ρ α] in
/-- The same samples are malformed after any calls. -/
theorem Descends.malformed_iff (h₀ : Prepared (fun _ => True) n₀) (h : Descends b n₀ n) {b₁ : Nat}
    (h₁ : Descends b₁ n₀ n₁) (j : Nat) : n₁.Malformed inputs targets j ↔
    n.Malformed inputs targets j := by
  have hinputs : n₁.inputs = n.inputs := h₁.alike.inputs.trans h.alike.inputs.symm
  have hlabels : n₁.labels = n.labels := h₁.alike.labels.trans h.alike.labels.symm
  have hface₁ : ∀ id ∈ n.inputs, id ∈ n₀.inputs ++ n₀.labels :=
    fun id hid => List.mem_append_left _ (h.alike.inputs ▸ hid)
  have hface₂ : ∀ id ∈ n.labels, id ∈ n₀.inputs ++ n₀.labels :=
    fun id hid => List.mem_append_right _ (h.alike.labels ▸ hid)
  have hswap : ∀ {ids : List TensorRef} {row : List α}, (∀ id ∈ ids, id ∈ n₀.inputs ++ n₀.labels) →
      (n₁.Misfits ids row ↔ n.Misfits ids row) :=
        fun hids => ⟨h₁.misfits h₀ h hids, h.misfits h₀ h₁ hids⟩
  unfold Malformed
  rw [hinputs, hlabels]
  simp only [hswap hface₁, hswap hface₂]

/-- Where there are as many targets as inputs, training on the first of them is getting ready for
batches of a size, and then as many epochs as are planned. -/
theorem train_take (hprepared : n.isPrepared = true) (hlength : inputs.length = targets.length)
    (plan plan' : TrainingPlan ρ) (hrate : plan'.learningRate = plan.learningRate)
    (hmomentum : plan'.momentum = plan.momentum) (hsize : plan'.batchSize = plan.batchSize)
    {k : Nat} (hk : 0 < k) (hfits : plan.batchFor inputs.length ≤ k) (hle : k ≤ inputs.length) :
    train (inputs.take k) (targets.take k) plan' n = (do
      readyToTrain ⟨plan.learningRate, plan.momentum⟩ (plan.batchFor inputs.length)
      trainEpochs (inputs.take k) (targets.take k) plan' (plan.batchFor inputs.length)) n := by
  have hk' : (inputs.take k).length = k := by rw [List.length_take, Nat.min_eq_left hle]
  have hbatch : plan'.batchFor k = plan.batchFor inputs.length := by
    rw [← plan.batchFor_of_le hfits hle, TrainingPlan.batchFor, hsize, TrainingPlan.batchFor]
  rw [train_of_length_eq (List.ne_nil_of_length_pos (hk'.symm ▸ hk))
    (by rw [List.length_take, List.length_take, hlength]),
    hk', hbatch, hrate, hmomentum, Action.bind_of_ok (Action.get_apply n)]
  dsimp only
  rw [if_neg (by rw [hprepared]; simp)]

/-- Training refuses a malformed sample when it comes to the batch of the sample. Rows that do not
fill a batch are never looked at, so training ends with what it ends with on the full batches alone.
Where a sample of a full batch is malformed and there is an epoch, training fails: if there is one
in the first batch, no weight has been changed, and otherwise the network is what an epoch over the
batches before makes of it. -/
theorem refuses_malformed {loss : Option String} {inputNames labelNames : List String}
    (hd : Draft d) (hbuild : build loss inputNames labelNames d = .ok u n₀)
    (hcalls : Relation.ReflTransGen Call n₀ n) (inputs targets : List (List α))
    (plan : TrainingPlan ρ) :
    (inputs.length ≠ targets.length → ∃ e, train inputs targets plan n = .error e n) ∧
      (inputs.length = targets.length →
        train inputs targets plan n =
          train (inputs.take (plan.fullRows inputs.length))
            (targets.take (plan.fullRows inputs.length)) plan n ∧
        (0 < plan.epochs → ∀ j < plan.fullRows inputs.length, n.Malformed inputs targets j →
          (∀ i < j, ¬ n.Malformed inputs targets i) →
          ∃ e n', train inputs targets plan n = .error e n' ∧
            (j < plan.batchFor inputs.length →
              n'.weightHeld =
                ((readyToTrain ⟨plan.learningRate, plan.momentum⟩
                  (plan.batchFor inputs.length)).after n).weightHeld ∧
                (n.store.hasWeights = true → n'.weightHeld = n.weightHeld)) ∧
            (plan.batchFor inputs.length ≤ j →
              n' = (train
                (inputs.take (j / plan.batchFor inputs.length * plan.batchFor inputs.length))
                (targets.take (j / plan.batchFor inputs.length * plan.batchFor inputs.length))
                { plan with epochs := 1 }).after n))) := by
  obtain ⟨_, m₀, hcompile, hprepare⟩ := Action.bind_eq_ok_iff.mp hbuild
  have hdrawn := drawn_of_compile hd hcompile
  have h₀ : Prepared (fun _ => True) n₀ := prepared_of_prepare hdrawn hprepare
  have hn := (descends_refl hdrawn hprepare n.batchSize).of_calls hcalls
  have hprepared := hn.alike.prepared
  refine ⟨fun hlength => ⟨.misconfigured (.sampleCount inputs.length targets.length), ?_⟩,
    fun hlength => ?_⟩
  · unfold train
    rw [if_pos (by simp [hlength])]
    rfl
  by_cases hempty : inputs = []
  · subst hempty
    obtain rfl := List.eq_nil_of_length_eq_zero hlength.symm
    exact ⟨by simp, fun _ j hj => absurd hj (by simp [TrainingPlan.fullRows])⟩
  have hcount : 0 < inputs.length := List.length_pos_iff.mpr hempty
  have hbatch := plan.batchFor_pos hcount
  have hfits := plan.batchFor_le_fullRows hcount
  have hfull := plan.fullRows_le inputs.length
  have hwhole := train_take hprepared hlength plan plan rfl rfl rfl hcount
    (hfits.trans hfull) le_rfl
  rw [List.take_length, hlength, List.take_length, ← hlength] at hwhole
  refine ⟨?_, fun hepochs j hj hmal hfirst => ?_⟩
  · rw [hwhole, train_take hprepared hlength plan plan rfl rfl rfl
      (hbatch.trans_le hfits) hfits hfull]
    exact congrArg (fun p => (readyToTrain _ _ >>= fun _ => p : Action (Network α) (List α)) n)
      (trainEpochs_take hbatch (hfits.trans hfull)).symm
  have hlow : plan.batchFor inputs.length ≤ j → plan.batchFor inputs.length ≤ j /
      plan.batchFor inputs.length * plan.batchFor inputs.length :=
        fun hj' => Nat.le_mul_of_pos_left _ (Nat.div_pos hj' hbatch)
  have hle : j / plan.batchFor inputs.length * plan.batchFor inputs.length ≤ inputs.length :=
    (Nat.div_mul_le_self _ _).trans (hj.le.trans hfull)
  have hbefore := fun hj' => train_take hprepared hlength plan { plan with epochs := 1 } rfl rfl rfl
    (hbatch.trans_le (hlow hj')) (hlow hj') hle
  cases hready : readyToTrain ⟨plan.learningRate, plan.momentum⟩
    (plan.batchFor inputs.length) n with
  | error e n' =>
    refine ⟨e, n', hwhole.trans (Action.bind_of_error hready), fun _ => ⟨?_, fun hfilled => ?_⟩,
      fun hj' => ?_⟩
    · rw [Action.after_of_error hready]
    · rw [← hn.weightHeld_readyToTrain hfilled ⟨plan.learningRate, plan.momentum⟩
        (plan.batchFor inputs.length), Action.after_of_error hready]
    · rw [Action.after_of_error ((hbefore hj').trans (Action.bind_of_error hready))]
  | ok u₁ n₁ =>
    obtain ⟨hn₁, hreadied⟩ := readied_of_readyToTrain hn hready
    have hsame : ∀ i, n₁.Malformed inputs targets i ↔ n.Malformed inputs targets i :=
      hn.malformed_iff h₀ hn₁
    obtain ⟨e, n', hrun, hunchanged, hlearned⟩ :=
      hreadied.ready.trainEpochs_of_malformed plan hbatch hlength hepochs hj
      ((hsame j).mpr hmal) fun i hi hmal' => hfirst i hi ((hsame i).mp hmal')
    refine ⟨e, n', hwhole.trans ((Action.bind_of_ok hready).trans hrun),
      fun hj' => ⟨?_, fun hfilled => ?_⟩, fun hj' => ?_⟩
    · rw [Action.after_of_ok hready, hunchanged hj']
    · rw [hunchanged hj', hreadied.kept hfilled]
    · rw [hlearned hj', Action.after, Action.after, hbefore hj', Action.bind_of_ok hready]

/-- One epoch on batches of one row. -/
def traineeRows : TrainingPlan ℚ := ⟨1, 1 / 10, 0, 1⟩

/-- What training on batches of one row goes on from. -/
def traineeReady : Network ℚ :=
  (readyToTrain (⟨1 / 10, 0⟩ : GradientDescent ℚ) 1).after traineeBuilt

/-- Its input and its label have one entry a row, before it is readied and after, and one row moves
its weight. -/
theorem facts_trainee : (traineeBuilt.isPrepared = true ∧ traineeBuilt.inputs = [0] ∧
    traineeBuilt.labels = [8] ∧
      traineeBuilt.store.shape 0 = .ok ⟨1, 1⟩ ∧ traineeBuilt.store.shape 8 = .ok ⟨1, 1⟩) ∧
    (readyToTrain (⟨1 / 10, 0⟩ : GradientDescent ℚ) 1).endsWell traineeBuilt = true ∧
    traineeReady.inputShapes = .ok [⟨1, 1⟩] ∧
    (traineeReady.inputs = [0] ∧ traineeReady.labels = [8] ∧
      traineeReady.store.shape 0 = .ok ⟨1, 1⟩ ∧
      traineeReady.store.shape 8 = .ok ⟨1, 1⟩) ∧
    (traineeReady.graph.nodes.filter (·.isSource)).length = 1 ∧
    (traineeReady.graph.nodes.filter (·.isLoss)).length = 1 ∧
    Unmixed traineeReady.graph ∧ traineeReady.store.StatesApart ∧
    (((traineeReady.miniBatchDescent (⟨1 / 10, 0⟩ : GradientDescent ℚ) [[1]] [[1]] 1 1 1 1).after
      traineeReady.weightHeld) 0).toOption.map (·.1.get 0 0) ≠
      (traineeReady.weightHeld 0).toOption.map (·.1.get 0 0) := by
  unfold Store.StatesApart
  decide +kernel

theorem readyToTrain_trainee : readyToTrain (⟨1 / 10, 0⟩ : GradientDescent ℚ) 1 traineeBuilt =
    .ok () traineeReady :=
  Action.eq_ok_of_endsWell facts_trainee.2.1

theorem ready_trainee : Ready (fun shapes => ∃ asking : GradientDescent ℚ,
    shapes = asking.stateShapes) .train traineeReady :=
  ready_of_readyToTrain (sound_of_reached reached_trainee) facts_trainee.1.1
    ⟨_, rfl⟩ readyToTrain_trainee

/-- An epoch on one row moves the weight. -/
theorem trainEpochs_trainee :
    ∃ history n', trainEpochs [[1]] [[1]] traineeRows 1 traineeReady = .ok history n' ∧
    n'.weightHeld 0 ≠ traineeReady.weightHeld 0 := by
  obtain ⟨-, -, hshapes, ⟨hinputs, hlabels, hx, hy⟩, hsource, hloss, hunmixed, hapart, hmoved⟩ :=
    facts_trainee
  have hrow : ∀ row ∈ [[(1 : ℚ)]], row.length = 1 := by decide
  have hepochs : Action.Returns (Running _ traineeReady) ((List.range 1).mapM fun _ =>
      trainEpoch (⟨1 / 10, 0⟩ : GradientDescent ℚ) [[1]] [[1]] 1 1 1) fun _ => True :=
    Action.returns_mapM fun _ _ => returns_trainEpoch ready_trainee.allocated ready_trainee.filled
      hinputs hlabels (fun _ h => h) _ hx hy rfl hrow hrow
  obtain ⟨history, n', hrun, -⟩ :=
    hepochs traineeReady ⟨ready_trainee.prepared, ready_trainee.framed⟩
  have hstill : Rate.isPositive (α := ℚ) (⟨1 / 10, 0⟩ : GradientDescent ℚ).momentum = false := rfl
  obtain ⟨_, held, hdescent, hholds, -⟩ := follows_epochs hsource hloss hunmixed hapart
    (fun hpositive => absurd (hstill.symm.trans hpositive) Bool.false_ne_true) [[1]]
      [[1]] 1 1 1 1 traineeReady traineeReady.weightHeld history n' ⟨ready_trainee,
        ready_trainee.framed, rfl⟩ hrun
  refine ⟨history, n', (Action.bind_of_ok (Action.read_of_ok hshapes)).trans hrun, fun hsame => ?_⟩
  -- The run is the one of gradient descent, which has been computed.
  rw [Action.after_of_ok hdescent, ← hholds.held, hsame] at hmoved
  exact hmoved rfl

/-- Two rows, of which the second has an entry too many. -/
def longRows : List (List ℚ) := [[1], [2, 2]]

/-- Of these rows the second is the first that is malformed. -/
theorem malformed_longRows {n : Network ℚ}
    (h : n.inputs = [0] ∧ n.labels = [8] ∧ n.store.shape 0 = .ok ⟨1, 1⟩ ∧ n.store.shape 8 =
      .ok ⟨1, 1⟩) :
    n.Malformed longRows [[1], [1]] 1 ∧ ∀ i < 1, ¬ n.Malformed longRows [[1], [1]] i := by
  obtain ⟨hinputs, hlabels, hx, hy⟩ := h
  have hiff : ∀ j, n.Malformed longRows [[1], [1]] j ↔ _ :=
    fun _ => malformed_iff hinputs hlabels hx hy
  refine ⟨(hiff 1).mpr (.inl ⟨[2, 2], rfl, by decide⟩), fun i hi hmal => ?_⟩
  obtain rfl := Nat.lt_one_iff.mp hi
  rcases (hiff 0).mp hmal with ⟨row, hrow, hwidth⟩ | ⟨row, hrow, hwidth⟩ <;> cases hrow <;>
    exact hwidth rfl

/-- The first row is learned from before the second one is refused, and where there is no epoch no
row is refused at all. -/
theorem longRows_learned_from : traineeBuilt.Malformed longRows [[1], [1]] 1 ∧
    (∃ e n', train longRows [[1], [1]] traineeRows traineeBuilt = .error e n' ∧
      n'.weightHeld 0 ≠ traineeReady.weightHeld 0) ∧
    ∃ history n', train longRows [[1], [1]] { traineeRows with epochs := 0 } traineeBuilt =
      .ok history n' := by
  obtain ⟨⟨hprepared, hbuilt⟩, -, hshapes, htrainee, -⟩ := facts_trainee
  have hbatch : traineeRows.batchFor longRows.length = 1 := by decide
  have hlength : longRows.length = ([[1], [1]] : List (List ℚ)).length := rfl
  have htrain : ∀ plan : TrainingPlan ℚ, plan.learningRate = 1 / 10 → plan.momentum = 0 →
      plan.batchSize = 1 → train longRows [[1], [1]] plan traineeBuilt = trainEpochs longRows [[1],
        [1]] plan 1 traineeReady := by
    intro plan hrate hmomentum hsize
    have htake :=
      train_take hprepared hlength traineeRows plan (k := 2) hrate hmomentum hsize Nat.two_pos
      (hbatch ▸ Nat.le_succ 1) le_rfl
    rw [hbatch] at htake
    exact htake.trans (Action.bind_of_ok readyToTrain_trainee)
  obtain ⟨hmalformed, hfirst⟩ := malformed_longRows htrainee
  refine ⟨(malformed_longRows hbuilt).1, ?_, [], traineeReady, ?_⟩
  · obtain ⟨e, n', hrun, -, hlearned⟩ :=
      ready_trainee.trainEpochs_of_malformed traineeRows Nat.one_pos hlength
      Nat.one_pos (show 1 < longRows.length / 1 * 1 by decide) hmalformed hfirst
    obtain ⟨history, m, hok, hmoved⟩ := trainEpochs_trainee
    have hlearned : n' = (trainEpochs [[1]] [[1]] traineeRows 1).after traineeReady :=
      hlearned le_rfl
    refine ⟨e, n', (htrain traineeRows rfl rfl rfl).trans hrun, ?_⟩
    rwa [hlearned, Action.after_of_ok hok]
  · rw [htrain { traineeRows with epochs := 0 } rfl rfl rfl]
    exact (Action.bind_of_ok (Action.read_of_ok hshapes)).trans rfl

theorem longRows_refused : traineeBuilt.Malformed longRows [[1], [1]] 1 ∧
    ∃ e n', train longRows [[1], [1]] traineeRows traineeBuilt = .error e n' ∧
      n' = (train [[1]] [[1]] traineeRows).after traineeBuilt := by
  obtain ⟨hmalformed, hfirst⟩ := malformed_longRows facts_trainee.1.2
  have hbatch : traineeRows.batchFor longRows.length = 1 := by decide
  have hrefuses :=
    (refuses_malformed draft_trainee build_trainee .refl longRows [[1], [1]] traineeRows).2 rfl
  obtain ⟨e, n', hrun, -, hbefore⟩ := hrefuses.2 Nat.one_pos 1 (by decide) hmalformed hfirst
  rw [hbatch] at hbefore
  exact ⟨hmalformed, e, n', hrun, hbefore le_rfl⟩

end Train

end Network

end LayerGraph
