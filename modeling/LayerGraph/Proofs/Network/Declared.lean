import LayerGraph.Proofs.Network.Register

/-!
# What layers declare

The outputs that a layer declares have one shape, and the handles that are registered for a
declaration fit the layer.
-/

namespace LayerGraph

variable {α : Type} {batch : Nat} {s s' : Store α}

theorem onlyInput_eq_ok {site : Site} {shape : Shape} (h : site.onlyInput = .ok shape) :
    site.inputShapes = [shape] := by
  unfold Site.onlyInput at h
  split at h
  · next heq =>
    cases h
    exact heq
  · cases h

/-- What a layer's declaration is, layer by layer. -/
inductive Declares (site : Site) : Layer α → Declaration α → Prop where
  | input {width : Nat} (ins : site.inputShapes = []) :
      Declares site (.input width) ⟨[⟨site.batch, width⟩], [], [], none⟩
  | fullyConnected {units : Nat} {weight bias : Initializer α} {shape : Shape}
      (ins : site.inputShapes = [shape]) :
      Declares site (.fullyConnected units weight bias) ⟨[⟨shape.batch, units⟩],
        [⟨"weight", ⟨shape.width, units⟩, weight, site.trainable⟩,
          ⟨"bias", ⟨1, units⟩, bias, site.trainable⟩], [], none⟩
  | activation {f : Activation} {shape : Shape} (ins : site.inputShapes = [shape]) :
      Declares site (.activation f) ⟨[shape], [], [], none⟩
  | addition {first : Shape} {rest : List Shape} (ins : site.inputShapes = first :: rest)
      (same : ∀ sh ∈ rest, sh = first) : Declares site .addition ⟨[first], [], [], none⟩
  | multiout {shape : Shape} (ins : site.inputShapes = [shape]) :
      Declares site .multiout ⟨List.replicate (max site.outputCount 1) shape, [], [], none⟩
  | identity {shape : Shape} (ins : site.inputShapes = [shape]) :
      Declares site .identity ⟨[shape], [], [], none⟩
  | loss {kind : Loss} {shape : Shape} (ins : site.inputShapes = [shape]) (fused : kind ≠ .cross) :
      Declares site (.loss kind) ⟨[shape], [], [], some shape⟩

theorem declares_of_declare {layer : Layer α} {site : Site} {declared : Declaration α}
    (hship : layer.isShipped = true) (h : layer.declare site = .ok declared) :
    Declares site layer declared := by
  obtain ⟨d, hd, h⟩ := except_bind_eq_ok_iff.mp h
  cases h
  cases layer with
  | input width =>
    obtain ⟨_, hreq, hd⟩ := except_bind_eq_ok_iff.mp hd
    unfold Site.requireInputs at hreq
    split at hreq
    · next hlen =>
      dsimp only at hd
      split at hd
      · cases hd
      · cases hd
        exact .input (List.length_eq_zero_iff.mp hlen)
    · cases hreq
  | fullyConnected units weight bias =>
    obtain ⟨shape, hin, hd⟩ := except_bind_eq_ok_iff.mp hd
    dsimp only at hd
    split at hd
    · cases hd
    · cases hd
      exact .fullyConnected (onlyInput_eq_ok hin)
  | activation f =>
    obtain ⟨shape, hin, hd⟩ := except_bind_eq_ok_iff.mp hd
    cases hd
    exact .activation (onlyInput_eq_ok hin)
  | identity =>
    obtain ⟨shape, hin, hd⟩ := except_bind_eq_ok_iff.mp hd
    cases hd
    exact .identity (onlyInput_eq_ok hin)
  | addition =>
    unfold Layer.declaration at hd
    cases hin : site.inputShapes with
    | nil =>
      rw [hin] at hd
      cases hd
    | cons first rest =>
      rw [hin] at hd
      dsimp only at hd
      split at hd
      · cases hd
      · next hnone =>
        cases hd
        refine .addition hin fun sh hsh => ?_
        have := List.find?_eq_none.mp hnone sh hsh
        simpa using this
  | multiout =>
    obtain ⟨shape, hin, hd⟩ := except_bind_eq_ok_iff.mp hd
    cases hd
    exact .multiout (onlyInput_eq_ok hin)
  | loss kind =>
    obtain ⟨shape, hin, hd⟩ := except_bind_eq_ok_iff.mp hd
    dsimp only at hd
    split at hd
    · cases hd
    · next hne =>
      cases hd
      exact .loss (onlyInput_eq_ok hin) hne
  | custom layer => cases hship

/-- A layer declares an output for each slot that is wired, and one if there is none. -/
theorem Declares.length_outputShapes {site : Site} {layer : Layer α} {declared : Declaration α}
    (h : Declares site layer declared) : declared.outputShapes.length ≤ max site.outputCount 1 := by
  cases h with
  | multiout => simp
  | input | fullyConnected | activation | addition | identity | loss => exact Nat.le_max_right _ _

theorem Declares.weightNames {site : Site} {layer : Layer α} {declared : Declaration α}
    (h : Declares site layer declared) : declared.weights.map (·.name) = layer.weightNames := by
  cases h <;> rfl

namespace Network

variable {node : Node α} {site : Site} {declared : Declaration α}

theorem uniform_of_declares (h : Declares site node.layer declared)
    (hbatch : ∀ sh ∈ site.inputShapes, sh.batch = site.batch) :
    ∃ shape, Uniform site.batch site.trainable shape declared ∧ shape ∈ declared.outputShapes := by
  generalize node.layer = layer at h
  cases h with
  | @input width ins => exact ⟨⟨site.batch, width⟩, ⟨by simp, rfl, by simp, rfl, by simp⟩, by simp⟩
  | @fullyConnected units weight bias shape ins =>
    exact ⟨⟨shape.batch, units⟩, ⟨by simp, hbatch shape (by simp [ins]), by simp, rfl, by simp⟩,
      by simp⟩
  | @activation _ shape ins | @identity shape ins =>
    exact ⟨shape, ⟨by simp, hbatch shape (by simp [ins]), by simp, rfl, by simp⟩, by simp⟩
  | @addition first rest ins =>
    exact ⟨first, ⟨by simp, hbatch first (by simp [ins]), by simp, rfl, by simp⟩, by simp⟩
  | @multiout shape ins =>
    refine ⟨shape, ⟨?_, hbatch shape (by simp [ins]), by simp, rfl, by simp⟩, ?_⟩
    · exact fun sh hsh => (List.mem_replicate.mp hsh).2
    · exact List.mem_replicate.mpr ⟨by omega, rfl⟩
  | @loss kind shape ins =>
    exact ⟨shape, ⟨by simp, hbatch shape (by simp [ins]), by simp, rfl, by simp⟩, by simp⟩

theorem batch_of_declares (h : Declares site node.layer declared)
    (hbatch : ∀ sh ∈ site.inputShapes, sh.batch = site.batch) :
    ∀ sh ∈ declared.outputShapes, sh.batch = site.batch := by
  intro sh hsh
  obtain ⟨shape, huniform, -⟩ := uniform_of_declares h hbatch
  rw [huniform.outputs sh hsh]
  exact huniform.batch_eq

/-- Handles that are registered for a declaration fit the layer. -/
theorem fits_of_newNode {uses : WeightRef → List Nat} {use : BufferUse} {size : Nat}
    {owner : String} {inputs : List Wire} {shape : Shape} {handles : Handles}
    (h : Declares site node.layer declared)
    (hin : List.Forall₂ (fun x sh => s.WireFits x sh.width) inputs site.inputShapes)
    (hn : NewNode batch uses s s' node use size owner inputs shape declared handles)
    (hu : Uniform batch site.trainable shape declared) : Fits s' node.layer handles := by
  have hwire : ∀ {x width}, s.WireFits x width → s'.WireFits x width := hn.later.wireFits
  obtain ⟨inputs', outputs, weights, tensors, label⟩ := handles
  obtain ⟨later, -, -, -, rfl, rfl, hlen, hout, -, -, hweights, hno, hlab⟩ := hn
  have hone : outputs.length = 1 → ∃ y, outputs = [y] := List.length_eq_one_iff.mp
  have hfit : ∀ {sh}, sh ∈ declared.outputShapes → ∀ y ∈ outputs, s'.WireFits y sh.width := by
    intro sh hsh y hy
    rw [hu.outputs sh hsh]
    exact (hout y hy).1
  generalize node.layer = layer at h
  cases h with
  | input ins =>
    obtain ⟨y, rfl⟩ := hone hlen
    rw [ins] at hin
    cases hin
    cases hweights
    cases hno rfl
    exact .input (hfit (.head _) y (.head _))
  | fullyConnected ins =>
    obtain ⟨y, rfl⟩ := hone hlen
    rw [ins] at hin
    obtain - | ⟨hx, ⟨⟩⟩ := hin
    obtain - | ⟨⟨hw, ⟨r, hr, hname⟩, -⟩, - | ⟨⟨hb, ⟨r', hr', hname'⟩, -⟩, ⟨⟩⟩⟩ := hweights
    cases hno rfl
    refine .fullyConnected (hwire hx) (hfit (.head _) y (.head _)) hw hb ?_
    rintro rfl
    rw [hr] at hr'
    cases hr'
    rw [hname] at hname'
    have hlength := congrArg String.length hname'
    rw [String.length_append, String.length_append _ "bias"] at hlength
    have : "weight".length = "bias".length := Nat.add_left_cancel hlength
    exact absurd this (by decide)
  | activation ins =>
    obtain ⟨y, rfl⟩ := hone hlen
    rw [ins] at hin
    obtain - | ⟨hx, ⟨⟩⟩ := hin
    cases hweights
    cases hno rfl
    exact .activation (hwire hx) (hfit (.head _) y (.head _))
  | identity ins =>
    obtain ⟨y, rfl⟩ := hone hlen
    rw [ins] at hin
    obtain - | ⟨hx, ⟨⟩⟩ := hin
    cases hweights
    cases hno rfl
    exact .identity (hwire hx) (hfit (.head _) y (.head _))
  | @addition first rest ins same =>
    obtain ⟨y, rfl⟩ := hone hlen
    rw [ins] at hin
    obtain - | @⟨x, _, xs, _, hx, hxs⟩ := hin
    cases hweights
    cases hno rfl
    refine .addition (fun x' hx' => ?_) (hfit (.head _) y (.head _))
    rcases List.mem_cons.mp hx' with rfl | hx'
    · exact hwire hx
    · obtain ⟨sh, hsh, hw⟩ := exists_mem_of_forall₂ hxs hx'
      rw [same sh hsh] at hw
      exact hwire hw
  | @multiout shape' ins =>
    rw [ins] at hin
    obtain - | ⟨hx, ⟨⟩⟩ := hin
    cases hweights
    cases hno rfl
    obtain ⟨y, ys, rfl⟩ : ∃ y ys, outputs = y :: ys := by
      refine List.exists_cons_of_length_pos ?_
      rw [hlen, List.length_replicate]
      exact Nat.lt_of_lt_of_le Nat.zero_lt_one (Nat.le_max_right _ _)
    exact .multiout (hwire hx) (hfit (List.mem_replicate.mpr ⟨by omega, rfl⟩))
  | loss ins fused =>
    obtain ⟨y, rfl⟩ := hone hlen
    rw [ins] at hin
    obtain - | ⟨hx, ⟨⟩⟩ := hin
    cases hweights
    obtain ⟨l, hl, hwidth, -⟩ := hlab _ rfl
    cases hl
    exact .loss fused (hwire hx) (hfit (.head _) y (.head _)) hwidth

end Network

end LayerGraph
