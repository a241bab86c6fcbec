import LayerGraph.Proofs.Store.Access
import LayerGraph.Proofs.Store.Beside

/-!
# Requests that are accepted

A request for a new tensor or a new weight is refused only if its name is taken. So what asks for
names of which none is taken, and no two are the same, ends well.
-/

namespace LayerGraph.Store

variable {α β γ : Type} {known : TensorRef → Shape → Prop} {s : Store α} {name : String}
  {shape : Shape} {names more : List String} {count : Nat} {p : Action (Store α) β}
  {q : β → Action (Store α) γ}

/-- The names of all tensors and weights. -/
def taken (s : Store α) : List String := s.entries.map (·.name) ++ s.weights.map (·.name)

theorem isNew_of_not_mem_taken (h : name ∉ s.taken) : s.IsNew name := by
  intro face hface heq
  obtain ⟨e, he, rfl⟩ := List.mem_map.mp hface
  exact h (List.mem_append_left _ (List.mem_map.mpr ⟨e, he, heq⟩))

theorem findWeight?_of_not_mem_taken (h : name ∉ s.taken) : s.findWeight? name = none := by
  refine List.findIdx?_eq_none_iff.mpr fun r hr => ?_
  exact beq_eq_false_iff_ne.mpr fun heq =>
    h (List.mem_append_right _ (List.mem_map.mpr ⟨r, hr, heq⟩))

/-- The action takes these names at most, and registers so many weights, unless a name is taken. -/
def Registers (known : TensorRef → Shape → Prop) (names : List String) (count : Nat)
    (p : Action (Store α) β) : Prop :=
  ∀ s, Firm known s → (∀ x ∈ names, x ∉ s.taken) →
    ∃ b s', p s = .ok b s' ∧ Firm known s' ∧ s'.taken ⊆ s.taken ++ names ∧ s'.weights.length =
    s.weights.length + count

namespace Registers

theorem pure (b : β) : Registers (α := α) known [] 0 (Pure.pure b) := fun s hs _ =>
  ⟨b, s, rfl, hs, List.subset_append_left _ _, rfl⟩

theorem bind (hdisjoint : names.Disjoint more) (hp : Registers known names count p) {extra : Nat}
    (hq : ∀ b, Registers known more extra (q b)) : Registers known (names ++ more) (count + extra)
      (p >>= q) := by
  intro s hs hfree
  obtain ⟨b, s₁, hrun, hs₁, htaken, hlength⟩ :=
    hp s hs fun x hx => hfree x (List.mem_append_left _ hx)
  obtain ⟨g, s₂, hrun', hs₂, htaken', hlength'⟩ := hq b s₁ hs₁ fun x hx hmem => by
    rcases List.mem_append.mp (htaken hmem) with hmem | hmem
    · exact hfree x (List.mem_append_right _ hx) hmem
    · exact hdisjoint hmem hx
  refine ⟨g, s₂, Action.bind_eq_ok_iff.mpr ⟨b, s₁, hrun, hrun'⟩, hs₂,
    fun x hx => ?_, by rw [hlength', hlength, Nat.add_assoc]⟩
  rw [← List.append_assoc]
  rcases List.mem_append.mp (htaken' hx) with hx | hx
  · exact List.mem_append_left _ (htaken hx)
  · exact List.mem_append_right _ hx

/-- What takes no name can come before anything. -/
theorem after (hp : Registers known [] 0 p) (hq : ∀ b, Registers known more count (q b)) :
    Registers known more count (p >>= q) := by
  have h := bind (List.disjoint_nil_left _) hp hq
  rwa [List.nil_append, Nat.zero_add] at h

theorem before (hp : Registers known names count p) (f : β → γ) :
    Registers known names count (p >>= fun b => Pure.pure (f b)) := by
  have h := bind (List.disjoint_nil_right _) hp fun b => pure (f b)
  rwa [List.append_nil, Nat.add_zero] at h

theorem get_bind {f : Store α → Action (Store α) β} (h : ∀ s, Registers known names count (f s)) :
    Registers known names count (get >>= f) := fun s hs hfree => h s s hs hfree

theorem mono (h : Registers known names count p) (hsub : names ⊆ more) :
    Registers known more count p := fun s hs hfree => by
  obtain ⟨b, s', hrun, hs', htaken, hlength⟩ := h s hs fun x hx => hfree x (hsub hx)
  exact ⟨b, s', hrun, hs', List.Subset.trans htaken (List.append_subset.mpr
    ⟨List.subset_append_left _ _, List.subset_append_of_subset_right _ hsub⟩), hlength⟩

theorem mapM {f : β → Action (Store α) γ} {takes : β → List String} {xs : List β}
    (hf : ∀ x ∈ xs, Registers known (takes x) count (f x)) (hnodup : (xs.flatMap takes).Nodup) :
    Registers known (xs.flatMap takes) (count * xs.length) (xs.mapM f) := by
  induction xs with
  | nil => exact pure []
  | cons x xs ih =>
    rw [List.flatMap_cons, List.nodup_append'] at hnodup
    obtain ⟨-, hrest, hdisjoint⟩ := hnodup
    have hxs := ih (fun y hy => hf y (List.mem_cons_of_mem x hy)) hrest
    rw [List.mapM_cons, List.flatMap_cons, List.length_cons, Nat.mul_succ, Nat.add_comm]
    exact bind hdisjoint (hf x (List.mem_cons_self ..)) fun _ => hxs.before _

theorem forM {f : β → Action (Store α) PUnit} {xs : List β}
    (hf : ∀ x ∈ xs, Registers known [] 0 (f x)) : Registers known [] 0 (xs.forM f) := by
  induction xs with
  | nil => exact pure PUnit.unit
  | cons x xs ih =>
    exact after (hf x (List.mem_cons_self ..)) fun _ => ih fun y hy =>
      hf y (List.mem_cons_of_mem x hy)

end Registers

theorem Adds.registers {p : Action (Store α) TensorRef} (h : Adds known name shape p) :
    Registers known [name] 0 p := by
  intro s hs hfree
  obtain ⟨s', hrun, happ, hs'⟩ :=
    h.appends s hs (isNew_of_not_mem_taken (hfree name (List.mem_singleton_self _)))
  have hnames := congrArg (List.map Prod.fst) happ.faces
  have hname : Prod.fst ∘ TensorRecord.face = (·.name : TensorRecord α → String) := rfl
  rw [List.map_append, List.map_map, List.map_map, hname] at hnames
  refine ⟨_, s', hrun, hs', fun x hx => ?_, by rw [happ.weights, Nat.add_zero]⟩
  rw [taken, hnames, happ.weights] at hx
  simp only [taken, List.mem_append, List.map_singleton] at hx ⊢
  tauto

theorem registers_addSteps {id : TensorRef} (hknown : known id shape) (steps : List Nat) :
    Registers (α := α) known [] 0 (addSteps id steps) := by
  intro s hs _
  obtain ⟨e, he, -⟩ := hs.known id shape hknown
  obtain ⟨s', hrun, hfaces, hweights, -, hs'⟩ := addSteps_of_entry hs he steps
  have hnames := congrArg (List.map Prod.fst) hfaces
  have hname : Prod.fst ∘ TensorRecord.face = (·.name : TensorRecord α → String) := rfl
  rw [List.map_map, List.map_map, hname] at hnames
  refine ⟨(), s', hrun, hs', ?_, by rw [hweights, Nat.add_zero]⟩
  rw [taken, hnames, hweights]
  exact List.subset_append_left _ _

section Weights

/-- Where its name is new, a weight is registered with an entry of its own. -/
theorem joinWeight_of_not_mem_taken (h : name ∉ s.taken) (shape : Shape)
    (initializer : Initializer α) (trainable : Bool) :
    joinWeight name shape initializer trainable s = .ok s.weights.length { s with
      entries := s.entries ++ [⟨name, shape, false, initializer, .run, .weight, [], none⟩]
      weights := s.weights ++ [⟨name, s.entries.length, none, trainable, [], []⟩] } := by
  unfold joinWeight
  rw [Action.bind_of_ok (Action.get_apply s), findWeight?_of_not_mem_taken h]
  dsimp only
  rw [Action.bind_of_ok (push_of_isNew (isNew_of_not_mem_taken h))]
  rfl

theorem taken_joined (s : Store α) {e : TensorRecord α} {r : WeightRecord} (he : e.name = name)
    (hr : r.name = name) :
    taken { s with entries := s.entries ++ [e], weights := s.weights ++ [r] } ⊆
      s.taken ++ [name] := by
  intro x hx
  simp only [taken, List.map_append, List.map_singleton, he, hr, List.mem_append] at hx ⊢
  tauto

theorem taken_timed (s : Store α) (id : TensorRef) (steps : List Nat) :
    taken { s with entries := s.entries.modify id fun e => { e with steps := e.steps ++ steps } } =
      s.taken := by
  rw [taken, map_modify_eq (fun _ => by rfl), taken]

theorem taken_modifyWeight (s : Store α) (w : WeightRef) {f : WeightRecord → WeightRecord}
    (hf : ∀ r, (f r).name = r.name) :
    taken { s with weights := s.weights.modify w f } = s.taken := by
  rw [taken, map_modify_eq hf, taken]

/-- Where its name is new, the gradient of a weight is registered. -/
theorem gradientOf_of_not_mem_taken {w : WeightRef} {r : WeightRecord} (hw : s.weight w = .ok r)
    (hnone : r.gradient = none) (h : name ++ ":grad" ∉ s.taken) (shape : Shape) : ∃ s',
      gradientOf w name shape s = .ok s.entries.length s' ∧
      s'.taken ⊆ s.taken ++ [name ++ ":grad"] ∧ s'.weights.length = s.weights.length := by
  unfold gradientOf
  rw [Action.bind_of_ok (Action.read_of_ok (f := fun s : Store α => s.weight w) hw), hnone]
  dsimp only
  rw [Action.bind_of_ok (push_of_isNew (isNew_of_not_mem_taken h)),
    Action.bind_of_ok (Action.modify_apply _ _)]
  refine ⟨_, rfl, ?_, List.length_modify ..⟩
  rw [taken_modifyWeight _ _ fun _ => by rfl]
  intro x hx
  simp only [taken, List.map_append, List.map_singleton, List.mem_append] at hx ⊢
  tauto

theorem exists_useWeight (hname : name ∉ s.taken) (hgrad : name ++ ":grad" ∉ s.taken)
    (hne : name ++ ":grad" ≠ name) (shape : Shape) (initializer : Initializer α) (trainable : Bool)
    (forwardStep : Nat) (gradientStep : Option Nat) :
    ∃ w s', useWeight name shape initializer trainable forwardStep gradientStep s = .ok w s' ∧
      s'.taken ⊆ s.taken ++ [name, name ++ ":grad"] ∧ s'.weights.length = s.weights.length + 1 := by
  obtain ⟨s₁, r, hjoin, hweight, hnone, htaken₁, hlength₁⟩ : ∃ s₁ r,
      joinWeight name shape initializer trainable s = .ok s.weights.length s₁ ∧
        s₁.weight s.weights.length = .ok r ∧
        r.gradient = none ∧ s₁.taken ⊆ s.taken ++ [name] ∧ s₁.weights.length =
        s.weights.length + 1 :=
    ⟨_, _, joinWeight_of_not_mem_taken hname shape initializer trainable,
      weight_eq_ok_iff.mpr List.getElem?_concat_length, rfl,
      taken_joined s rfl rfl, List.length_append⟩
  have hsub : s.taken ++ [name] ⊆ s.taken ++ [name, name ++ ":grad"] :=
    fun x hx => by simp at hx ⊢; tauto
  unfold useWeight
  rw [Action.bind_of_ok hjoin,
    Action.bind_of_ok (Action.read_of_ok (f := fun s : Store α => s.weight _) hweight),
    Action.bind_of_ok (Action.modify_apply _ _)]
  have htaken₂ := taken_timed s₁ r.value [forwardStep]
  have hweight₂ : weight
      { s₁ with entries := s₁.entries.modify r.value fun e => { e with steps :=
      e.steps ++ [forwardStep] } } s.weights.length = .ok r := hweight
  generalize hs₂ : ({ s₁ with
    entries := s₁.entries.modify r.value fun e => { e with steps := e.steps ++ [forwardStep] } } :
      Store α) = s₂ at htaken₂ hweight₂ ⊢
  have hlength₂ : s₂.weights.length = s.weights.length + 1 := by rw [← hs₂]; exact hlength₁
  have hdone : s₂.taken ⊆ s.taken ++ [name, name ++ ":grad"] :=
    htaken₂ ▸ List.Subset.trans htaken₁ hsub
  cases gradientStep with
  | none => exact ⟨_, s₂, rfl, hdone, hlength₂⟩
  | some step =>
    dsimp only
    split
    · have hgrad₂ : name ++ ":grad" ∉ s₂.taken := by
        intro hmem
        rw [htaken₂] at hmem
        rcases List.mem_append.mp (htaken₁ hmem) with hmem | hmem
        · exact hgrad hmem
        · exact hne (List.mem_singleton.mp hmem)
      obtain ⟨s₃, hrun, htaken₃, hlength₃⟩ :=
        gradientOf_of_not_mem_taken hweight₂ hnone hgrad₂ shape
      rw [Action.bind_of_ok hrun, Action.bind_of_ok (Action.modify_apply _ _)]
      refine ⟨_, _, rfl, ?_, ?_⟩
      · have hsame :=
          taken_modifyWeight { s₃ with entries := s₃.entries.modify s₂.entries.length fun e =>
          { e with steps := e.steps ++ [step, step + 1] } } s.weights.length
            (f := fun e => { e with gradientSteps := e.gradientSteps ++ [step] }) fun _ => rfl
        rw [hsame, taken_timed]
        intro x hx
        rcases List.mem_append.mp (htaken₃ hx) with hx | hx
        · exact hdone hx
        · simp [List.mem_singleton.mp hx]
      · rw [List.length_modify, hlength₃, hlength₂]
    · exact ⟨_, s₂, rfl, hdone, hlength₂⟩

theorem registers_useWeight (hne : name ++ ":grad" ≠ name) (shape : Shape)
    (initializer : Initializer α) (trainable : Bool) (forwardStep : Nat)
    (gradientStep : Option Nat) : Registers known [name, name ++ ":grad"] 1
      (useWeight name shape initializer trainable forwardStep gradientStep) := by
  intro s hs hfree
  have hkeep : Firm known
      (Action.after (useWeight name shape initializer trainable forwardStep gradientStep) s) :=
    keeps_useWeight (tabular_firm known).at name shape initializer trainable
      trivial (fun _ _ => ⟨trivial, trivial⟩) s hs
  obtain ⟨w, s', hrun, hrest⟩ :=
    exists_useWeight (hfree name (by simp)) (hfree (name ++ ":grad") (by simp)) hne shape
    initializer trainable forwardStep gradientStep
  rw [Action.after_of_ok hrun] at hkeep
  exact ⟨w, s', hrun, hkeep, hrest⟩

end Weights

end LayerGraph.Store
