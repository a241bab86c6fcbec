import LayerGraph.Proofs.Action

/-!
# How actions end

From every state with a property an action ends well, keeps the property and finds a result of a
kind, or it fails with errors of a kind only. What does so at every bind does so as a whole.
-/

namespace LayerGraph.Action

variable {σ ρ β γ : Type}

def Returns (P : σ → Prop) (p : Action σ β) (Q : β → Prop) : Prop :=
  ∀ s, P s → ∃ b s', p s = .ok b s' ∧ P s' ∧ Q b

variable {P : σ → Prop} {Q : β → Prop}

theorem Returns.mono {Q' : β → Prop} {p : Action σ β} (h : Returns P p Q) (hQ : ∀ b, Q b → Q' b) :
    Returns P p Q' := by
  intro s hs
  obtain ⟨b, s', hp, hs', hb⟩ := h s hs
  exact ⟨b, s', hp, hs', hQ b hb⟩

theorem returns_pure {b : β} (hb : Q b) : Returns P (pure b : Action σ β) Q :=
  fun s hs => ⟨b, s, rfl, hs, hb⟩

theorem returns_get : Returns P (get : Action σ σ) P := fun s hs => ⟨s, s, rfl, hs, hs⟩

theorem returns_read {f : σ → Except Error β} (hf : ∀ s, P s → ∃ b, f s = .ok b ∧ Q b) :
    Returns P (read f) Q := by
  intro s hs
  obtain ⟨b, hb, hQ⟩ := hf s hs
  exact ⟨b, s, read_of_ok hb, hs, hQ⟩

theorem returns_update {f : σ → Except Error σ} (hf : ∀ s, P s → ∃ s', f s = .ok s' ∧ P s') :
    Returns P (update f) fun _ => True := by
  intro s hs
  obtain ⟨s', h, hs'⟩ := hf s hs
  exact ⟨(), s', update_of_ok h, hs', trivial⟩

theorem returns_modify {f : σ → σ} (hf : ∀ s, P s → P (f s)) :
    Returns P (modify f : Action σ PUnit) fun _ => True :=
  fun s hs => ⟨⟨⟩, f s, rfl, hf s hs, trivial⟩

theorem Returns.bind {p : Action σ β} {f : β → Action σ γ} {R : γ → Prop} (hp : Returns P p Q)
    (hf : ∀ b, Q b → Returns P (f b) R) : Returns P (p >>= f) R := by
  intro s hs
  obtain ⟨b, s₁, hb, hs₁, hQ⟩ := hp s hs
  obtain ⟨c, s', hc, hs', hR⟩ := hf b hQ s₁ hs₁
  exact ⟨c, s', (bind_of_ok hb).trans hc, hs', hR⟩

theorem Returns.focus {R : ρ → Prop} {part : σ → ρ} {replace : ρ → σ → σ} {p : Action ρ β}
    (hp : Returns R p Q) (hpart : ∀ s, P s → R (part s))
    (hreplace : ∀ s r, P s → R r → P (replace r s)) :
    Returns P (Action.focus part replace p) Q := by
  intro s hs
  obtain ⟨b, r, hb, hr, hQ⟩ := hp (part s) (hpart s hs)
  exact ⟨b, replace r s, focus_of_ok hb, hreplace s r hs hr, hQ⟩

theorem returns_forM {f : β → Action σ PUnit} {xs : List β}
    (hf : ∀ x ∈ xs, Returns P (f x) fun _ => True) : Returns P (xs.forM f) fun _ => True := by
  intro s hs
  obtain ⟨s', h, hs'⟩ : ∃ s', xs.forM f s = .ok ⟨⟩ s' ∧ P s' :=
    exists_forM (fun _ s => P s) hs fun done x rest s hsplit hs => by
      obtain ⟨_, s', h, hs', -⟩ := hf x (by simp [hsplit]) s hs
      exact ⟨s', h, hs'⟩
  exact ⟨⟨⟩, s', h, hs', trivial⟩

theorem returns_foldlM {f : γ → β → Action σ γ} {R : γ → Prop} {xs : List β}
    (hf : ∀ c, ∀ x ∈ xs, R c → Returns P (f c x) R) {c : γ} (hc : R c) :
    Returns P (xs.foldlM f c) R := by
  induction xs generalizing c with
  | nil => exact returns_pure hc
  | cons x xs ih =>
    rw [List.foldlM_cons]
    exact (hf c x (by simp) hc).bind fun d hd => ih (fun c y hy => hf c y (by simp [hy])) hd

theorem returns_mapM {f : β → Action σ γ} {xs : List β}
    (hf : ∀ x ∈ xs, Returns P (f x) fun _ => True) : Returns P (xs.mapM f) fun _ => True := by
  induction xs with
  | nil => exact returns_pure trivial
  | cons x xs ih =>
    rw [List.mapM_cons]
    exact (hf x (by simp)).bind fun _ _ => (ih fun y hy => hf y (by simp [hy])).bind fun _ _ =>
      returns_pure trivial

/-- From every state with a property an action fails only with errors of a kind. -/
def Reports (P : σ → Prop) (E : Error → Prop) (p : Action σ β) : Prop :=
  ∀ s e s', P s → p s = .error e s' → E e

section Reports

variable {E : Error → Prop}

theorem reports_pure (b : β) : Reports P E (pure b : Action σ β) := fun _ _ _ _ h => by cases h

theorem reports_read {f : σ → Except Error β} (hf : ∀ s e, P s → f s = .error e → E e) :
    Reports P E (read f) := by
  intro s e s' hs h
  unfold read at h
  split at h
  · cases h
  · next e₀ he =>
    cases h
    exact hf s e hs he

theorem reports_update {f : σ → Except Error σ} (hf : ∀ s e, P s → f s = .error e → E e) :
    Reports P E (update f) := by
  intro s e s' hs h
  unfold update at h
  split at h
  · cases h
  · next e₀ he =>
    cases h
    exact hf s e hs he

/-- What comes next runs on what has been found before. -/
theorem Reports.bind {p : Action σ β} {f : β → Action σ γ} (hp : Reports P E p) (hkeep : Keeps P p)
    (hf : ∀ s b s', P s → p s = .ok b s' → Reports P E (f b)) : Reports P E (p >>= f) := by
  intro s e s' hs h
  cases hr : p s with
  | ok b s₁ =>
    rw [bind_of_ok hr] at h
    have hs₁ := hkeep s hs
    rw [after_of_ok hr] at hs₁
    exact hf s b s₁ hs hr s₁ e s' hs₁ h
  | error e₁ s₁ =>
    rw [bind_of_error hr] at h
    cases h
    exact hp s e s' hs hr

theorem Reports.focus {R : ρ → Prop} {part : σ → ρ} {replace : ρ → σ → σ} {p : Action ρ β}
    (hp : Reports R E p) (hpart : ∀ s, P s → R (part s)) :
    Reports P E (Action.focus part replace p) := by
  intro s e s' hs h
  unfold Action.focus at h
  split at h
  · cases h
  · next e₀ r hr =>
    cases h
    exact hp (part s) e r (hpart s hs) hr

theorem reports_forM {f : β → Action σ PUnit} {xs : List β} (hf : ∀ x ∈ xs, Reports P E (f x))
    (hkeep : ∀ x ∈ xs, Keeps P (f x)) : Reports P E (xs.forM f) := by
  induction xs with
  | nil => exact reports_pure _
  | cons x xs ih =>
    simp only [List.forM_eq_forM, List.forM_cons] at ih ⊢
    refine (hf x List.mem_cons_self).bind (hkeep x List.mem_cons_self) fun _ _ _ _ _ => ?_
    exact ih (fun y hy => hf y (List.mem_cons_of_mem x hy)) fun y hy =>
      hkeep y (List.mem_cons_of_mem x hy)

theorem reports_foldlM {f : γ → β → Action σ γ} {xs : List β}
    (hf : ∀ c, ∀ x ∈ xs, Reports P E (f c x)) (hkeep : ∀ c, ∀ x ∈ xs, Keeps P (f c x)) : ∀ c,
      Reports P E (xs.foldlM f c) := by
  induction xs with
  | nil => exact fun c => reports_pure c
  | cons x xs ih =>
    intro c
    rw [List.foldlM_cons]
    refine (hf c x List.mem_cons_self).bind (hkeep c x List.mem_cons_self) fun _ c' _ _ _ => ?_
    exact ih (fun c y hy => hf c y (List.mem_cons_of_mem x hy))
      (fun c y hy => hkeep c y (List.mem_cons_of_mem x hy)) c'

end Reports

end LayerGraph.Action
