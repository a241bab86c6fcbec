import Mathlib.Algebra.BigOperators.Field
import Mathlib.Analysis.SpecialFunctions.Log.Deriv
import Mathlib.Topology.Algebra.Module.ModuleTopology
import LayerGraph.Loss
import LayerGraph.Proofs.Dual
import LayerGraph.Proofs.Tensor.Entries

/-!
# Gradients of losses

The gradient of a loss says at which rate the loss changes if the prediction moves in some
direction: it is read off the formula of the loss on dual numbers. The derivatives of the fused
kinds are those of their activations, applied to that gradient.
-/

namespace LayerGraph

namespace Tensor

/-- A matrix that changes at the rate of another one. -/
def dual {α : Type} [Zero α] (t rate : Tensor α) : Tensor (Dual α) :=
  ofFn t.shape fun i j => ⟨t.get i j, rate.get i j⟩

section Scalars

variable {α : Type} [Scalar α] {s t : Tensor α} {shape : Shape}

@[simp] theorem shape_dual (t rate : Tensor α) : (t.dual rate).shape = t.shape := rfl

theorem get_dual (t rate : Tensor α) {i j : Nat} (hi : i < t.shape.batch) (hj : j < t.shape.width) :
    (t.dual rate).get i j = ⟨t.get i j, rate.get i j⟩ := get_ofFn _ _ hi hj

theorem get_zeros {i j : Nat} (hi : i < shape.batch) (hj : j < shape.width) :
    (zeros shape : Tensor α).get i j = 0 :=
  get_ofFn _ _ hi hj

end Scalars

section Field

variable {K : Type} [Field K]

/-- Entries that are counted row by row. -/
theorem sum_range_size (shape : Shape) (f : Nat → K) : ∑ k ∈ Finset.range shape.size, f k =
    ∑ i ∈ Finset.range shape.batch, ∑ j ∈ Finset.range shape.width, f (i * shape.width + j) := by
  obtain ⟨batch, width⟩ := shape
  unfold Shape.size
  dsimp only
  induction batch with
  | zero => simp
  | succ batch ih => rw [Nat.succ_mul, Finset.sum_range_add, ih, Finset.sum_range_succ]

variable [LinearOrder K] [Elementary K]

theorem total_eq_sum (t : Tensor K) :
    t.total = ∑ i ∈ Finset.range t.shape.batch, ∑ j ∈ Finset.range t.shape.width, t.get i j := by
  unfold total
  rw [sumRange_eq_sum, sum_range_size]
  rfl

theorem total_ofFn (shape : Shape) (f : Nat → Nat → K) : (ofFn shape f).total =
    ∑ i ∈ Finset.range shape.batch, ∑ j ∈ Finset.range shape.width, f i j := by
  rw [total_eq_sum]
  exact Finset.sum_congr rfl fun i hi => Finset.sum_congr rfl fun j hj =>
    get_ofFn shape f (Finset.mem_range.mp hi) (Finset.mem_range.mp hj)

/-- A sum changes at the sum of the rates. -/
theorem total_dual (shape : Shape) (v s : Nat → Nat → K) :
    (ofFn shape fun i j => (⟨v i j, s i j⟩ : Dual K)).total =
      ⟨(ofFn shape v).total, (ofFn shape s).total⟩ := by
  have hvalues : ∀ k, ((ofFn shape fun i j => (⟨v i j, s i j⟩ : Dual K)).values.getD k 0) =
      ⟨(ofFn shape v).values.getD k 0, (ofFn shape s).values.getD k 0⟩ := by
    intro k
    by_cases hk : k < shape.size
    · simp [ofFn, hk]
    · simp [ofFn, hk]
      rfl
  unfold total
  refine Dual.ext ?_ ?_
  · rw [Dual.value_sumRange]
    simp only [hvalues, shape_ofFn]
  · rw [Dual.slope_sumRange]
    simp only [hvalues, shape_ofFn]

end Field

end Tensor

section Formulas

variable {α : Type} [Scalar α] {p t : Tensor α}

open Tensor

theorem Tensor.ofFn_of_shape (h : t.shape = p.shape) :
    ofFn p.shape t.get = t := by rw [← h, ofFn_get]

theorem Activation.derivative_sigmoid {y dy : Tensor α} (h : dy.shape = y.shape) :
    Activation.sigmoid.derivative y dy = .ok (ofFn y.shape fun i j => y.get i j * (-y.get i j + 1) *
      dy.get i j) := by
  have hfn : Activation.sigmoid.derivative (ofFn y.shape y.get) (ofFn y.shape dy.get) =
      .ok (ofFn y.shape fun i j => y.get i j * (-y.get i j + 1) * dy.get i j) := by
    simp only [Activation.derivative, map_ofFn, mul_ofFn]
  rwa [ofFn_get, ofFn_of_shape h] at hfn

theorem Activation.derivative_softmax {y dy : Tensor α} (h : dy.shape = y.shape) :
    Activation.softmax.derivative y dy = .ok (ofFn y.shape fun i j => y.get i j * (dy.get i j -
      Scalar.sumRange y.shape.width fun k => dy.get i k * y.get i k)) := by
  have hfn : Activation.softmax.derivative (ofFn y.shape y.get) (ofFn y.shape dy.get) =
      .ok (ofFn y.shape fun i j => y.get i j * (dy.get i j -
        Scalar.sumRange y.shape.width fun k => (ofFn y.shape fun i j => dy.get i j * y.get i j).get
          i k)) := by
    simp only [Activation.derivative, mul_ofFn, except_ok_bind, rowSums, shape_ofFn, sub_column]
  rw [ofFn_get, ofFn_of_shape h] at hfn
  refine hfn.trans (congrArg Except.ok (ofFn_congr fun i j hi hj => ?_))
  rw [Scalar.sumRange_congr fun k hk => get_ofFn _ _ hi hk]

end Formulas

namespace Loss

section Formulas

variable {α : Type} [Scalar α] {p t : Tensor α}

open Tensor

theorem compute_crossSoftmax (h : t.shape = p.shape) : crossSoftmax.compute p t =
    .ok (-(ofFn p.shape fun i j => t.get i j * Scalar.log
      (Scalar.clamp Scalar.floor 1 (p.get i j))).total / Scalar.ofNat (max p.shape.batch 1)) := by
  have hfn : crossSoftmax.compute (ofFn p.shape p.get) (ofFn p.shape t.get) =
      .ok (-(ofFn p.shape fun i j => t.get i j * Scalar.log
        (Scalar.clamp Scalar.floor 1 (p.get i j))).total / Scalar.ofNat (max p.shape.batch 1)) := by
    simp only [compute, logClamped, map_ofFn, mul_ofFn, except_ok_bind, except_pure, shape_ofFn]
  rwa [ofFn_get, ofFn_of_shape h] at hfn

theorem compute_crossSigmoid (h : t.shape = p.shape) : crossSigmoid.compute p t =
    .ok (ofFn p.shape fun i j =>
      -(t.get i j * Scalar.log (Scalar.clamp Scalar.floor (1 - Scalar.floor) (p.get i j)) +
        (1 - t.get i j) * Scalar.log (1 - Scalar.clamp Scalar.floor (1 - Scalar.floor)
          (p.get i j)))).mean := by
  have hfn : crossSigmoid.compute (ofFn p.shape p.get) (ofFn p.shape t.get) =
      .ok (ofFn p.shape fun i j =>
        -(t.get i j * Scalar.log (Scalar.clamp Scalar.floor (1 - Scalar.floor) (p.get i j)) +
          (1 - t.get i j) * Scalar.log (1 - Scalar.clamp Scalar.floor (1 - Scalar.floor)
            (p.get i j)))).mean := by
    simp only [compute, map_ofFn, mul_ofFn, add_ofFn, except_ok_bind, except_pure]
  rwa [ofFn_get, ofFn_of_shape h] at hfn

theorem derivative_crossSoftmax (h : t.shape = p.shape) : crossSoftmax.derivative p t =
    .ok (ofFn p.shape fun i j => (p.get i j - t.get i j) / Scalar.ofNat (max p.shape.batch 1)) := by
  have hfn : crossSoftmax.derivative (ofFn p.shape p.get) (ofFn p.shape t.get) =
      .ok (ofFn p.shape fun i j => (p.get i j - t.get i j) / Scalar.ofNat
        (max p.shape.batch 1)) := by
    simp only [derivative, sub_ofFn, map_ofFn, except_ok_bind, except_pure, shape_ofFn]
  rwa [ofFn_get, ofFn_of_shape h] at hfn

theorem derivative_crossSigmoid (h : t.shape = p.shape) : crossSigmoid.derivative p t =
    .ok (ofFn p.shape fun i j => (p.get i j - t.get i j) / Scalar.ofNat (max p.shape.size 1)) := by
  have hfn : crossSigmoid.derivative (ofFn p.shape p.get) (ofFn p.shape t.get) =
      .ok (ofFn p.shape fun i j => (p.get i j - t.get i j) / Scalar.ofNat
        (max p.shape.size 1)) := by
    simp only [derivative, sub_ofFn, map_ofFn, except_ok_bind, except_pure, shape_ofFn]
  rwa [ofFn_get, ofFn_of_shape h] at hfn

end Formulas

section Formulas

variable {K : Type} [Field K]

open Tensor

/-- What `-(t * log p + (1 - t) * log (1 - p))`, taken on average, changes by with an entry of
`p`. -/
def sigmoidGradient (p t : Tensor K) : Tensor K :=
  ofFn p.shape fun i j => ((1 - t.get i j) / (1 - p.get i j) - t.get i j / p.get i j) / p.shape.size

/-- What `-(t * log p)`, summed up for each member of the batch, changes by with an entry of `p`. -/
def softmaxGradient (p t : Tensor K) : Tensor K :=
  ofFn p.shape fun i j => -t.get i j / (p.shape.batch * p.get i j)

@[simp] theorem shape_sigmoidGradient (p t : Tensor K) : (sigmoidGradient p t).shape = p.shape :=
  rfl

@[simp] theorem shape_softmaxGradient (p t : Tensor K) : (softmaxGradient p t).shape = p.shape :=
  rfl

theorem sum_sigmoidGradient (p t rate : Tensor K) :
    ∑ i ∈ Finset.range p.shape.batch, ∑ j ∈ Finset.range p.shape.width,
      (sigmoidGradient p t).get i j * rate.get i j =
      (∑ i ∈ Finset.range p.shape.batch, ∑ j ∈ Finset.range p.shape.width,
        ((1 - t.get i j) / (1 - p.get i j) - t.get i j / p.get i j) * rate.get i j) /
        p.shape.size := by
  rw [Finset.sum_div]
  refine Finset.sum_congr rfl fun i hi => ?_
  rw [Finset.sum_div]
  refine Finset.sum_congr rfl fun j hj => ?_
  rw [sigmoidGradient, get_ofFn _ _ (Finset.mem_range.mp hi) (Finset.mem_range.mp hj)]
  ring

theorem sum_softmaxGradient (p t rate : Tensor K) :
    ∑ i ∈ Finset.range p.shape.batch, ∑ j ∈ Finset.range p.shape.width,
      (softmaxGradient p t).get i j * rate.get i j =
      -(∑ i ∈ Finset.range p.shape.batch, ∑ j ∈ Finset.range p.shape.width,
        t.get i j * (rate.get i j / p.get i j)) / (max p.shape.batch 1 : Nat) := by
  rw [← Finset.sum_neg_distrib, Finset.sum_div]
  refine Finset.sum_congr rfl fun i hi => ?_
  have hbatch : max p.shape.batch 1 = p.shape.batch := by
    have := Finset.mem_range.mp hi
    omega
  rw [← Finset.sum_neg_distrib, Finset.sum_div, hbatch]
  refine Finset.sum_congr rfl fun j hj => ?_
  rw [softmaxGradient, get_ofFn _ _ (Finset.mem_range.mp hi) (Finset.mem_range.mp hj)]
  ring

end Formulas

section Gradients

variable {K : Type} [Field K] [LinearOrder K] [Elementary K] {p t d : Tensor K}

open Tensor

/-- Every entry is strictly between two bounds. -/
def Between (low high : K) (p : Tensor K) : Prop :=
  ∀ i < p.shape.batch, ∀ j < p.shape.width, low < p.get i j ∧ p.get i j < high

/-- If the prediction changes at any rate, the loss changes at the rate that the entries of `d` make
of it. -/
def IsGradient (kind : Loss) (p t d : Tensor K) : Prop :=
  d.shape = p.shape ∧ ∀ rate : Tensor K, rate.shape = p.shape → ∃ loss,
    kind.compute p t = .ok loss ∧
    kind.compute (p.dual rate) (t.dual (zeros t.shape)) = .ok ⟨loss,
      ∑ i ∈ Finset.range p.shape.batch, ∑ j ∈ Finset.range p.shape.width, d.get i j * rate.get i j⟩

theorem slope_div_ofNat (a : Dual K) (n : Nat) : (a / Scalar.ofNat n).slope = a.slope / n := by
  rw [Dual.slope_div, Dual.slope_ofNat, Dual.value_ofNat, scalar_ofNat]
  rcases eq_or_ne (n : K) 0 with h | h
  · simp [h]
  · field_simp
    ring

/-- A mean changes at the mean of the rates. -/
theorem mean_dual (shape : Shape) (v s : Nat → Nat → K) :
    (ofFn shape fun i j => (⟨v i j, s i j⟩ : Dual K)).mean =
      ⟨(ofFn shape v).mean, (ofFn shape s).mean⟩ := by
  unfold mean
  rw [total_dual]
  exact Dual.ext rfl (slope_div_ofNat _ _)

theorem dual_sigmoid_entry (x y r : K) :
    -((⟨y, 0⟩ : Dual K) * Scalar.log (⟨x, r⟩ : Dual K) + (1 - (⟨y, 0⟩ : Dual K)) * Scalar.log
      (1 - (⟨x, r⟩ : Dual K))) = ⟨-(y * Scalar.log x + (1 - y) * Scalar.log (1 - x)),
        ((1 - y) / (1 - x) - y / x) * r⟩ := by
  refine Dual.ext rfl ?_
  simp only [Dual.slope_neg, Dual.slope_add, Dual.slope_mul, Dual.slope_sub, Dual.slope_log,
    Dual.slope_one, Dual.value_sub, Dual.value_one]
  ring

theorem isGradient_crossSigmoid (ht : t.shape = p.shape)
    (hp : Between Scalar.floor (1 - Scalar.floor) p) :
    IsGradient crossSigmoid p t (sigmoidGradient p t) := by
  refine ⟨rfl, fun rate hrate => ⟨_, compute_crossSigmoid ht, ?_⟩⟩
  have hentries : (ofFn p.shape fun i j =>
      -((t.dual (zeros t.shape)).get i j * Scalar.log (Scalar.clamp Scalar.floor (1 - Scalar.floor)
          ((p.dual rate).get i j)) + (1 - (t.dual (zeros t.shape)).get i j) *
          Scalar.log (1 - Scalar.clamp Scalar.floor (1 - Scalar.floor) ((p.dual rate).get i j)))) =
      ofFn p.shape fun i j =>
          (⟨-(t.get i j * Scalar.log (Scalar.clamp Scalar.floor (1 - Scalar.floor) (p.get i j)) +
          (1 - t.get i j) * Scalar.log (1 - Scalar.clamp Scalar.floor (1 - Scalar.floor)
            (p.get i j))),
        ((1 - t.get i j) / (1 - p.get i j) - t.get i j / p.get i j) * rate.get i j⟩ : Dual K) := by
    refine ofFn_congr fun i j hi hj => ?_
    obtain ⟨hlow, hhigh⟩ := hp i hi j hj
    rw [get_dual _ _ hi hj, get_dual _ _ (ht ▸ hi) (ht ▸ hj), get_zeros (ht ▸ hi) (ht ▸ hj),
      Dual.clamp_of_lt (scalar_lt_eq_false hlow.le) (scalar_lt_eq_false hhigh.le),
      dual_sigmoid_entry, clamp_of_mem hlow.le hhigh.le]
  rw [compute_crossSigmoid (p := p.dual rate) (t := t.dual (zeros t.shape)) ht, shape_dual,
    hentries, mean_dual]
  refine congrArg Except.ok (Dual.ext rfl ?_)
  dsimp only
  rw [mean, total_ofFn, shape_ofFn, scalar_ofNat, sum_sigmoidGradient]

theorem isGradient_crossSoftmax (ht : t.shape = p.shape) (hp : Between Scalar.floor 1 p) :
    IsGradient crossSoftmax p t (softmaxGradient p t) := by
  refine ⟨rfl, fun rate hrate => ⟨_, compute_crossSoftmax ht, ?_⟩⟩
  have hentries : (ofFn p.shape fun i j =>
      (t.dual (zeros t.shape)).get i j * Scalar.log
        (Scalar.clamp Scalar.floor 1 ((p.dual rate).get i j))) =
      ofFn p.shape fun i j => (⟨t.get i j * Scalar.log (Scalar.clamp Scalar.floor 1 (p.get i j)),
        t.get i j * (rate.get i j / p.get i j)⟩ : Dual K) := by
    refine ofFn_congr fun i j hi hj => ?_
    obtain ⟨hlow, hhigh⟩ := hp i hi j hj
    rw [get_dual _ _ hi hj, get_dual _ _ (ht ▸ hi) (ht ▸ hj), get_zeros (ht ▸ hi) (ht ▸ hj),
      Dual.clamp_of_lt (scalar_lt_eq_false hlow.le) (scalar_lt_eq_false hhigh.le),
      clamp_of_mem hlow.le hhigh.le]
    refine Dual.ext rfl ?_
    simp only [Dual.slope_mul, Dual.slope_log]
    ring
  rw [compute_crossSoftmax (p := p.dual rate) (t := t.dual (zeros t.shape)) ht, shape_dual,
    hentries, total_dual]
  refine congrArg Except.ok (Dual.ext rfl ?_)
  rw [slope_div_ofNat, Dual.slope_neg]
  dsimp only
  rw [total_ofFn, sum_softmaxGradient]

/-- A loss has no other gradient. -/
theorem IsGradient.eq {kind : Loss} {d' : Tensor K} (hd : IsGradient kind p t d)
    (hd' : IsGradient kind p t d') : d = d' := by
  refine Tensor.ext (hd.1.trans hd'.1.symm) fun i j hi hj => ?_
  rw [hd.1] at hi hj
  -- Let only the entry at this position change.
  let unit : Tensor K := ofFn p.shape fun i' j' => if i' = i ∧ j' = j then 1 else 0
  have hentry : ∀ e : Tensor K, (∑ i' ∈ Finset.range p.shape.batch,
      ∑ j' ∈ Finset.range p.shape.width, e.get i' j' * unit.get i' j') = e.get i j := by
    intro e
    have hother : ∀ i' ∈ Finset.range p.shape.batch, ∀ j' ∈ Finset.range p.shape.width,
        e.get i' j' * unit.get i' j' = if i' = i then if j' = j then e.get i j else 0 else 0 := by
      intro i' hi' j' hj'
      rw [get_ofFn _ _ (Finset.mem_range.mp hi') (Finset.mem_range.mp hj')]
      by_cases hii : i' = i
      · by_cases hjj : j' = j
        · simp [hii, hjj]
        · simp [hjj]
      · simp [hii]
    rw [Finset.sum_congr rfl fun i' hi' => Finset.sum_congr rfl (hother i' hi')]
    simp [hi, hj]
  obtain ⟨loss, hloss, hrate⟩ := hd.2 unit rfl
  obtain ⟨loss', hloss', hrate'⟩ := hd'.2 unit rfl
  have hslopes := congrArg Dual.slope (Except.ok.inj (hrate.symm.trans hrate'))
  dsimp only at hslopes
  rwa [hentry, hentry] at hslopes

variable [IsStrictOrderedRing K]

theorem floor_pos : (0 : K) < Scalar.floor := by
  rw [floor_eq]
  positivity

theorem derivative_sigmoidGradient (ht : t.shape = p.shape)
    (hp : Between Scalar.floor (1 - Scalar.floor) p) :
    ∃ r, crossSigmoid.derivative p t = .ok r ∧ Activation.sigmoid.derivative p
      (sigmoidGradient p t) = .ok r := by
  refine ⟨_, derivative_crossSigmoid ht, ?_⟩
  rw [Activation.derivative_sigmoid (shape_sigmoidGradient p t)]
  refine congrArg Except.ok (ofFn_congr fun i j hi hj => ?_)
  obtain ⟨hlow, hhigh⟩ := hp i hi j hj
  have hfloor := floor_pos (K := K)
  have hpos : p.get i j ≠ 0 := by linarith
  have hneg : 1 - p.get i j ≠ 0 := by linarith
  have hsize : max p.shape.size 1 = p.shape.size := by
    have : 0 < p.shape.size := Nat.mul_pos (by omega) (by omega)
    omega
  rw [sigmoidGradient, get_ofFn _ _ hi hj, hsize, scalar_ofNat]
  field_simp
  ring

theorem derivative_softmaxGradient (ht : t.shape = p.shape) (hp : Between Scalar.floor 1 p)
    (hrows : ∀ i < p.shape.batch, ∑ j ∈ Finset.range p.shape.width, t.get i j = 1) :
    ∃ r, crossSoftmax.derivative p t = .ok r ∧ Activation.softmax.derivative p
      (softmaxGradient p t) = .ok r := by
  refine ⟨_, derivative_crossSoftmax ht, ?_⟩
  rw [Activation.derivative_softmax (shape_softmaxGradient p t)]
  refine congrArg Except.ok (ofFn_congr fun i j hi hj => ?_)
  have hfloor := floor_pos (K := K)
  have hpos : ∀ k < p.shape.width, p.get i k ≠ 0 := fun k hk => (hfloor.trans (hp i hi k hk).1).ne'
  have hbatch : (p.shape.batch : K) ≠ 0 := Nat.cast_ne_zero.mpr (by omega)
  -- The row of targets is distributed over all classes.
  have hdot : (Scalar.sumRange p.shape.width fun k => (softmaxGradient p t).get i k * p.get i k) =
      -1 / p.shape.batch := by
    have hterm : ∀ k ∈ Finset.range p.shape.width,
        (softmaxGradient p t).get i k * p.get i k = -(t.get i k / p.shape.batch) := by
      intro k hk
      have hk := Finset.mem_range.mp hk
      have hne := hpos k hk
      rw [softmaxGradient, get_ofFn _ _ hi hk]
      field_simp
    rw [sumRange_eq_sum, Finset.sum_congr rfl hterm, Finset.sum_neg_distrib, ← Finset.sum_div,
      hrows i hi]
    ring
  have hne := hpos j hj
  have hmax : max p.shape.batch 1 = p.shape.batch := by omega
  rw [hdot, softmaxGradient, get_ofFn _ _ hi hj, hmax, scalar_ofNat]
  field_simp
  ring

/-- A fused kind has the derivative of its activation, taken at the gradient of the loss. -/
theorem derivative_fused (ht : t.shape = p.shape) :
    (Between Scalar.floor (1 - Scalar.floor) p →
      (∀ d, IsGradient crossSigmoid p t d ↔ d = sigmoidGradient p t) ∧
      ∃ r, crossSigmoid.derivative p t = .ok r ∧
        Activation.sigmoid.derivative p (sigmoidGradient p t) = .ok r) ∧
    (Between Scalar.floor 1 p →
      (∀ d, IsGradient crossSoftmax p t d ↔ d = softmaxGradient p t) ∧
      ((∀ i < p.shape.batch, ∑ j ∈ Finset.range p.shape.width, t.get i j = 1) →
        ∃ r, crossSoftmax.derivative p t = .ok r ∧
          Activation.softmax.derivative p (softmaxGradient p t) = .ok r)) := by
  refine ⟨fun hp => ⟨fun d => ⟨fun hd => ?_, ?_⟩, derivative_sigmoidGradient ht hp⟩,
    fun hp => ⟨fun d => ⟨fun hd => ?_, ?_⟩, derivative_softmaxGradient ht hp⟩⟩
  · exact hd.eq (isGradient_crossSigmoid ht hp)
  · rintro rfl
    exact isGradient_crossSigmoid ht hp
  · exact hd.eq (isGradient_crossSoftmax ht hp)
  · rintro rfl
    exact isGradient_crossSoftmax ht hp

end Gradients

section Real

noncomputable instance elementaryReal : Elementary ℝ where
  exp := Real.exp
  log := Real.log
  tanh := Real.tanh
  sqrt := Real.sqrt

/-- Two classes that are equally likely, as prediction and as target. -/
noncomputable def coin : Tensor ℝ := Tensor.const ⟨1, 2⟩ (1 / 2)

theorem coin_derivative_fused : coin.shape = coin.shape ∧
    Between Scalar.floor (1 - Scalar.floor) coin ∧ Between Scalar.floor 1 coin ∧
    (∀ i < coin.shape.batch, ∑ j ∈ Finset.range coin.shape.width, coin.get i j = 1) ∧
    (∃ r, crossSigmoid.derivative coin coin = .ok r ∧
      Activation.sigmoid.derivative coin (sigmoidGradient coin coin) = .ok r) ∧
    ∃ r, crossSoftmax.derivative coin coin = .ok r ∧
      Activation.softmax.derivative coin (softmaxGradient coin coin) = .ok r := by
  have hget : ∀ i < coin.shape.batch, ∀ j < coin.shape.width, coin.get i j = 1 / 2 :=
    fun i hi j hj =>
    Tensor.get_ofFn _ _ hi hj
  have hsigmoid : Between Scalar.floor (1 - Scalar.floor) coin := by
    intro i hi j hj
    rw [hget i hi j hj, floor_eq]
    norm_num
  have hsoftmax : Between Scalar.floor 1 coin := by
    intro i hi j hj
    rw [hget i hi j hj, floor_eq]
    norm_num
  have hrows : ∀ i < coin.shape.batch, ∑ j ∈ Finset.range coin.shape.width, coin.get i j = 1 := by
    intro i hi
    rw [Finset.sum_congr rfl fun j hj => hget i hi j (Finset.mem_range.mp hj)]
    norm_num [coin, Tensor.const]
  obtain ⟨hfirst, hsecond⟩ := derivative_fused (p := coin) (t := coin) rfl
  exact ⟨rfl, hsigmoid, hsoftmax, hrows, (hfirst hsigmoid).2, (hsecond hsoftmax).2 hrows⟩

variable {p t rate : Tensor ℝ}

open Tensor

/-- The prediction moved in a direction. -/
noncomputable def moved (p rate : Tensor ℝ) (e : ℝ) : Tensor ℝ :=
  ofFn p.shape fun i j => p.get i j + e * rate.get i j

theorem get_moved {i j : Nat} (hi : i < p.shape.batch) (hj : j < p.shape.width) (e : ℝ) :
    (moved p rate e).get i j = p.get i j + e * rate.get i j := get_ofFn _ _ hi hj

/-- Close to a value strictly between the bounds nothing is clamped. -/
theorem hasDerivAt_clamp {low high x : ℝ} (h : low < x ∧ x < high) (r : ℝ) :
    HasDerivAt (fun e => Scalar.clamp low high (x + e * r)) r 0 := by
  have hline : HasDerivAt (fun e : ℝ => x + e * r) r 0 := by
    simpa using ((hasDerivAt_id (0 : ℝ)).mul_const r).const_add x
  refine hline.congr_of_eventuallyEq ?_
  have hat : (fun e : ℝ => x + e * r) 0 ∈ Set.Ioo low high := by simpa using h
  filter_upwards [hline.continuousAt.preimage_mem_nhds (Ioo_mem_nhds hat.1 hat.2)] with e he
  exact clamp_of_mem he.1.le he.2.le

theorem hasDerivAt_log_clamp {low high x : ℝ} (h : low < x ∧ x < high) (hx : x ≠ 0) (r : ℝ) :
    HasDerivAt (fun e => Scalar.log (Scalar.clamp low high (x + e * r))) (r / x) 0 := by
  have hvalue : Scalar.clamp low high (x + 0 * r) = x := by
    rw [zero_mul, add_zero]
    exact clamp_of_mem h.1.le h.2.le
  have hlog := (hasDerivAt_clamp h r).log (by rwa [hvalue])
  rwa [hvalue] at hlog

theorem hasDerivAt_log_clamp_compl {low high x : ℝ} (h : low < x ∧ x < high)
    (hx : 1 - x ≠ 0) (r : ℝ) :
    HasDerivAt (fun e => Scalar.log (1 - Scalar.clamp low high (x + e * r))) (-r / (1 - x)) 0 := by
  have hvalue : Scalar.clamp low high (x + 0 * r) = x := by
    rw [zero_mul, add_zero]
    exact clamp_of_mem h.1.le h.2.le
  have hlog := ((hasDerivAt_clamp h r).const_sub 1).log (by rwa [hvalue])
  rwa [hvalue] at hlog

/-- A sum over all entries changes at the sum of the rates of its terms. -/
theorem hasDerivAt_total {shape : Shape} {f : ℝ → Nat → Nat → ℝ} {s : Nat → Nat → ℝ}
    (h : ∀ i < shape.batch, ∀ j < shape.width, HasDerivAt (fun e => f e i j) (s i j) 0) :
    HasDerivAt (fun e => (ofFn shape (f e)).total)
      (∑ i ∈ Finset.range shape.batch, ∑ j ∈ Finset.range shape.width, s i j) 0 := by
  simp only [total_ofFn]
  exact HasDerivAt.fun_sum fun i hi => HasDerivAt.fun_sum fun j hj =>
    h i (Finset.mem_range.mp hi) j (Finset.mem_range.mp hj)

/-- Over the real numbers the gradients are derivatives in the sense of analysis. -/
theorem hasDerivAt_crossSigmoid (ht : t.shape = p.shape)
    (hp : Between Scalar.floor (1 - Scalar.floor) p) :
    ∃ loss : ℝ → ℝ, (∀ e, crossSigmoid.compute (moved p rate e) t = .ok (loss e)) ∧
      HasDerivAt loss (∑ i ∈ Finset.range p.shape.batch, ∑ j ∈ Finset.range p.shape.width,
        (sigmoidGradient p t).get i j * rate.get i j) 0 := by
  let term (e : ℝ) (i j : Nat) : ℝ :=
    -(t.get i j * Scalar.log (Scalar.clamp Scalar.floor (1 - Scalar.floor)
        (p.get i j + e * rate.get i j)) + (1 - t.get i j) * Scalar.log
        (1 - Scalar.clamp Scalar.floor (1 - Scalar.floor) (p.get i j + e * rate.get i j)))
  refine ⟨fun e => (ofFn p.shape (term e)).total / p.shape.size, fun e => ?_, ?_⟩
  · rw [compute_crossSigmoid (p := moved p rate e) ht]
    refine congrArg (fun r : Tensor ℝ => Except.ok r.mean) (ofFn_congr fun i j hi hj => ?_)
    rw [get_moved (p := p) hi hj]
  · have hterm : ∀ i < p.shape.batch, ∀ j < p.shape.width, HasDerivAt (fun e => term e i j)
        (((1 - t.get i j) / (1 - p.get i j) - t.get i j / p.get i j) * rate.get i j) 0 := by
      intro i hi j hj
      obtain ⟨hlow, hhigh⟩ := hp i hi j hj
      have hfloor := floor_pos (K := ℝ)
      have hfirst := (hasDerivAt_log_clamp ⟨hlow, hhigh⟩ (by linarith) (rate.get i j)).const_mul
        (t.get i j)
      have hsecond := (hasDerivAt_log_clamp_compl ⟨hlow, hhigh⟩ (by linarith)
        (rate.get i j)).const_mul (1 - t.get i j)
      refine (hfirst.add hsecond).neg.congr_deriv ?_
      ring
    exact ((hasDerivAt_total hterm).div_const _).congr_deriv (sum_sigmoidGradient p t rate).symm

theorem hasDerivAt_crossSoftmax (ht : t.shape = p.shape) (hp : Between Scalar.floor 1 p) :
    ∃ loss : ℝ → ℝ, (∀ e, crossSoftmax.compute (moved p rate e) t = .ok (loss e)) ∧
      HasDerivAt loss (∑ i ∈ Finset.range p.shape.batch, ∑ j ∈ Finset.range p.shape.width,
        (softmaxGradient p t).get i j * rate.get i j) 0 := by
  let term (e : ℝ) (i j : Nat) : ℝ :=
    t.get i j * Scalar.log (Scalar.clamp Scalar.floor 1 (p.get i j + e * rate.get i j))
  refine ⟨fun e => -(ofFn p.shape (term e)).total / (max p.shape.batch 1 : Nat), fun e => ?_, ?_⟩
  · rw [compute_crossSoftmax (p := moved p rate e) ht]
    refine congrArg (fun r : Tensor ℝ => Except.ok (-r.total / Scalar.ofNat (max p.shape.batch 1)))
      (ofFn_congr fun i j hi hj => ?_)
    rw [get_moved (p := p) hi hj]
  · have hterm : ∀ i < p.shape.batch, ∀ j < p.shape.width, HasDerivAt (fun e => term e i j)
        (t.get i j * (rate.get i j / p.get i j)) 0 := fun i hi j hj =>
      (hasDerivAt_log_clamp (hp i hi j hj) (floor_pos.trans (hp i hi j hj).1).ne'
        (rate.get i j)).const_mul _
    exact ((hasDerivAt_total hterm).neg.div_const _).congr_deriv (sum_softmaxGradient p t rate).symm

end Real

end Loss

end LayerGraph
