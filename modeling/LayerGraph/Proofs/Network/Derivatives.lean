import LayerGraph.Proofs.Network.Buffers

/-!
# Buffers of derivatives

The derivative with respect to an output has a buffer of its own, or that of the derivative above it
if its node overwrites its input. What shares a buffer follows one upon the other, from a slot to
its reader and on, and no derivative shares a buffer with a value.
-/

namespace LayerGraph

variable {α : Type} {g : NodeGraph (Node α)} {s : Store α} {batch : Nat}

/-- The derivative with respect to output `k` of the node `q` is `d`. -/
def IsDerivative (g : NodeGraph (Node α)) (q k : Nat) (d : TensorRef) : Prop :=
  ∃ y, IsOutput g q k y ∧ y.derivative = some d

theorem IsDerivative.unique {q k : Nat} {d d' : TensorRef} (h : IsDerivative g q k d)
    (h' : IsDerivative g q k d') : d = d' := by
  obtain ⟨y, hy, hd⟩ := h
  obtain ⟨y', hy', hd'⟩ := h'
  obtain rfl := hy.unique hy'
  exact Option.some.inj (hd.symm.trans hd')

theorem Wire.mem_owned_of_derivative {y : Wire} {d : TensorRef} (h : y.derivative = some d) :
    d ∈ y.owned := by
  simp [Wire.owned, h]

/-- A layer that writes entry by entry has one output. -/
theorem Fits.output_unique {layer : Layer α} {handles : Handles} (h : Fits s layer handles)
    (hreuse : layer.reuse = .entryWise) : ∃ y, handles.outputs = [y] := by
  cases h with
  | multiout => cases hreuse
  | input | fullyConnected | activation | addition | identity | loss => exact ⟨_, rfl⟩

namespace Registered

variable (h : Registered g s batch g.order)
include h

theorem derivative_eq_of_owned {q q' k k' : Nat} {d : TensorRef} (hd : IsDerivative g q k d)
    (hd' : IsDerivative g q' k' d) : q = q' ∧ k = k' := by
  obtain ⟨y, hy, hyd⟩ := hd
  obtain ⟨y', hy', hyd'⟩ := hd'
  exact h.output_eq_of_owned hy hy' d (Wire.mem_owned_of_derivative hyd)
    (Wire.mem_owned_of_derivative hyd')

/-- A derivative has its own buffer, or that of the derivative with respect to the input that its
node overwrites. -/
theorem rootOf_derivative {q k : Nat} {d : TensorRef} (hd : IsDerivative g q k d) : s.rootOf d = d ∨
    ∃ b q₀ k₀ d₀, g.nodes[q]? = some b ∧ b.bufferUse = .overwrite ∧ ReadsSlot g q 0 q₀ k₀ ∧
      IsDerivative g q₀ k₀ d₀ ∧ s.rootOf d = s.rootOf d₀ := by
  obtain ⟨y, ⟨b, hb, hy⟩, hyd⟩ := hd
  have hout := (h.holds_of_node hb).outputs y (List.mem_of_getElem? hy)
  by_cases hshares : ∃ dx, SharesDerivative b.bufferUse b.tensors.inputs dx
  · obtain ⟨dx, huse, hdx⟩ := hshares
    obtain ⟨x, hx, hxd⟩ := Option.bind_eq_some_iff.mp hdx
    rw [List.head?_eq_getElem?] at hx
    obtain ⟨q₀, k₀, hr, hx₀⟩ := h.exists_producer hb hx
    exact .inr ⟨b, q₀, k₀, dx, hb, huse, hr, ⟨x, hx₀, hxd⟩,
      hout.sharesDerivative d dx hyd ⟨huse, hdx⟩⟩
  · exact .inl (hout.ownDerivative d hyd fun dx hdx => hshares ⟨dx, hdx⟩)

/-- The buffer of a derivative is that of a derivative which does not stand below it. -/
theorem exists_root_derivative {q k : Nat} {d : TensorRef} (hd : IsDerivative g q k d) :
    ∃ q' k', IsDerivative g q' k' (s.rootOf d) ∧ place g q' ≤ place g q := by
  induction hplace : place g q using Nat.strongRecOn generalizing q k d with
  | ind bound ih =>
    rcases h.rootOf_derivative hd with hown | ⟨b, q₀, k₀, d₀, hb, -, hr, hd₀, hroot⟩
    · exact ⟨q, k, by rwa [hown], by omega⟩
    · have hlt := h.compiled.ordered.before _ _ _ _ hr
      obtain ⟨q', k', hd', hle⟩ := ih _ (by omega) hd₀ rfl
      exact ⟨q', k', by rwa [hroot], by omega⟩

/-- No derivative shares a buffer with a value. -/
theorem rootOf_value_ne_derivative {q k q' k' : Nat} {y : Wire} {d : TensorRef}
    (hy : IsOutput g q k y) (hd : IsDerivative g q' k' d) : s.rootOf y.value ≠ s.rootOf d := by
  intro heq
  obtain ⟨q₁, k₁, y₁, hy₁, -, hroot⟩ := h.exists_root hy
  obtain ⟨q₂, k₂, ⟨y₂, hy₂, hyd₂⟩, -⟩ := h.exists_root_derivative hd
  rw [← heq, hroot] at hyd₂
  obtain ⟨rfl, rfl⟩ := h.output_eq_of_owned hy₁ hy₂ y₁.value List.mem_cons_self
    (Wire.mem_owned_of_derivative hyd₂)
  obtain rfl := hy₁.unique hy₂
  obtain ⟨b, hb, hk⟩ := hy₁
  have hn := (List.nodup_flatMap.mp (List.nodup_append.mp (h.nodup_owned hb)).1).1 y₁
    (List.mem_of_getElem? hk)
  exact (List.nodup_cons.mp hn).1 (by simp [hyd₂])

/-- The label of a node shares its buffer with no output. -/
theorem rootOf_ne_label {p q k : Nat} {a : Node α} {l : TensorRef} {y : Wire}
    (ha : g.nodes[p]? = some a) (hl : a.tensors.label = some l) (hy : IsOutput g q k y) :
    s.rootOf y.value ≠ s.rootOf l ∧ ∀ d, y.derivative = some d → s.rootOf d ≠ s.rootOf l := by
  obtain ⟨e, he, hs, -⟩ := (h.holds_of_node ha).label l hl
  rw [Store.rootOf_of_source_eq_none he hs]
  have hmem : l ∈ a.tensors.owned := List.mem_append_right _ (by rw [hl]; exact List.mem_cons_self)
  have hnot : ∀ q k y', IsOutput g q k y' → l ∉ y'.owned := by
    rintro q k y' ⟨b, hb, hk⟩ hin
    have hout : l ∈ b.tensors.outputs.flatMap Wire.owned :=
      List.mem_flatMap.mpr ⟨y', List.mem_of_getElem? hk, hin⟩
    obtain rfl := h.node_eq_of_owned ha hb hmem (List.mem_append_left _ hout)
    rw [ha] at hb
    cases hb
    exact (List.nodup_append.mp (h.nodup_owned ha)).2.2 l hout l
      (by rw [hl]; exact List.mem_cons_self) rfl
  refine ⟨fun heq => ?_, fun d hd heq => ?_⟩
  · obtain ⟨q₁, k₁, y₁, hy₁, -, hroot⟩ := h.exists_root hy
    exact hnot q₁ k₁ y₁ hy₁ (by rw [← heq, hroot]; exact List.mem_cons_self)
  · obtain ⟨q₁, k₁, ⟨y₁, hy₁, hyd⟩, -⟩ := h.exists_root_derivative ⟨y, hy, hd⟩
    exact hnot q₁ k₁ y₁ hy₁ (by rw [← heq]; exact Wire.mem_owned_of_derivative hyd)

/-- A node that overwrites its input has one output. -/
theorem slot_unique_of_overwrite {q k k' : Nat} {b : Node α} {d d' : TensorRef}
    (hb : g.nodes[q]? = some b) (huse : b.bufferUse = .overwrite) (hd : IsDerivative g q k d)
    (hd' : IsDerivative g q k' d') : k = k' := by
  obtain ⟨y, hone⟩ := (h.holds_of_node hb).fits.output_unique
    ((h.compiled.mayShare q b hb).overwrite huse).1
  have hzero : ∀ {k : Nat} {d : TensorRef}, IsDerivative g q k d → k = 0 := by
    rintro k d ⟨y', ⟨b', hb', hk⟩, -⟩
    rw [hb] at hb'
    cases hb'
    have hlt := (List.getElem?_eq_some_iff.mp hk).1
    rw [hone, List.length_singleton] at hlt
    omega
  rw [hzero hd, hzero hd']

/-- Of two derivatives in one buffer the upper one is handed on before the lower one is there: the
reader of its slot does not stand below the node of the other slot. -/
theorem reader_above_of_rootOf_eq {q k q' k' r i : Nat} {d d' : TensorRef}
    (hd : IsDerivative g q k d) (hd' : IsDerivative g q' k' d') (hroot : s.rootOf d = s.rootOf d')
    (hle : place g q ≤ place g q') (hr : ReadsSlot g r i q k) : q = q' ∧ k = k' ∨
    place g r ≤ place g q' := by
  have hmem : ∀ {q k : Nat} {d : TensorRef}, IsDerivative g q k d → q ∈ g.order :=
    fun ⟨_, ⟨_, hb, _⟩, _⟩ => h.mem_order hb
  induction hplace : place g q' using Nat.strongRecOn generalizing q k d q' k' d' r i with
  | ind bound ih =>
    rcases h.rootOf_derivative hd' with hown | ⟨b', q₀, k₀, d₀, hb', huse, hr₀, hd₀, hroot₀⟩
    · -- The buffer is that of the lower derivative, so that nothing above it shares it.
      obtain ⟨q₁, k₁, hd₁, hle₁⟩ := h.exists_root_derivative hd
      rw [hroot, hown] at hd₁
      obtain ⟨rfl, rfl⟩ := h.derivative_eq_of_owned hd₁ hd'
      obtain rfl := place_inj (hmem hd) (by omega : place g q = place g q₁)
      rcases h.rootOf_derivative hd with hown' | ⟨b, -, -, -, hb, huse, -⟩
      · rw [← hown', hroot, hown] at hd
        exact .inl (h.derivative_eq_of_owned hd hd')
      · exact .inl ⟨rfl, h.slot_unique_of_overwrite hb huse hd hd'⟩
    · have hlt := h.compiled.ordered.before _ _ _ _ hr₀
      rcases Nat.lt_or_ge (place g q₀) (place g q) with hbelow | habove
      · rcases Nat.eq_or_lt_of_le hle with heq | hlt'
        · obtain rfl := place_inj (hmem hd) heq
          exact .inl ⟨rfl, h.slot_unique_of_overwrite hb' huse hd hd'⟩
        · rcases ih _ (by omega) hd₀ hd (hroot₀.symm.trans hroot.symm)
            (Nat.le_of_lt hbelow) hr₀ rfl with
            ⟨rfl, -⟩ | hle'
          · omega
          · omega
      · rcases ih _ (by omega) hd hd₀ (hroot.trans hroot₀) habove hr rfl with ⟨rfl, rfl⟩ | hle'
        · obtain ⟨rfl, -⟩ := h.compiled.wired.single _ _ _ _ _ _ hr hr₀
          exact .inr (by omega)
        · exact .inr (by omega)

end Registered

end LayerGraph
