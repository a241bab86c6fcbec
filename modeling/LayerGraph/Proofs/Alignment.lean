import LayerGraph.Proofs.Lists

/-!
# Alignment

Two lists are aligned if the second is made of the first by replacing elements, leaving some out and
putting others in, all without moving any.
-/

namespace LayerGraph

variable {β γ δ : Type}

/-- The elements of the one list stand for those of the other in the same order, but for elements
that have gone and elements that have been made. -/
inductive Aligned (Same : β → γ → Prop) (Gone : β → Prop) (Made : γ → Prop) :
    List β → List γ → Prop where
  | nil : Aligned Same Gone Made [] []
  | kept {x : β} {y : γ} {xs : List β} {ys : List γ} (same : Same x y)
      (rest : Aligned Same Gone Made xs ys) : Aligned Same Gone Made (x :: xs) (y :: ys)
  | gone {x : β} {xs : List β} {ys : List γ} (gone : Gone x) (rest : Aligned Same Gone Made xs ys) :
      Aligned Same Gone Made (x :: xs) ys
  | made {y : γ} {xs : List β} {ys : List γ} (made : Made y) (rest : Aligned Same Gone Made xs ys) :
      Aligned Same Gone Made xs (y :: ys)

namespace Aligned

variable {S : β → γ → Prop} {G : β → Prop} {M : γ → Prop} {S' : γ → δ → Prop} {G' : γ → Prop}
  {M' : δ → Prop} {xs xs' : List β} {ys ys' : List γ} {zs : List δ}

theorem append (h : Aligned S G M xs ys) (h' : Aligned S G M xs' ys') :
    Aligned S G M (xs ++ xs') (ys ++ ys') := by
  induction h with
  | nil => exact h'
  | kept same _ ih => exact .kept same ih
  | gone gone _ ih => exact .gone gone ih
  | made made _ ih => exact .made made ih

theorem map {f : β → γ} (h : ∀ x ∈ xs, S x (f x)) : Aligned S G M xs (xs.map f) := by
  induction xs with
  | nil => exact .nil
  | cons x xs ih =>
    exact .kept (h x (List.mem_cons_self ..)) (ih fun y hy => h y (List.mem_cons_of_mem x hy))

theorem refl {S : β → β → Prop} {M : β → Prop} (hS : ∀ x, S x x) (xs : List β) :
    Aligned S G M xs xs := by
  have h : Aligned S G M xs (xs.map id) := map fun x _ => hS x
  rwa [List.map_id] at h

theorem all_made (h : ∀ y ∈ ys, M y) : Aligned S G M [] ys := by
  induction ys with
  | nil => exact .nil
  | cons y ys ih =>
    exact .made (h y (List.mem_cons_self ..)) (ih fun x hx => h x (List.mem_cons_of_mem y hx))

theorem all_gone (h : ∀ x ∈ xs, G x) : Aligned S G M xs [] := by
  induction xs with
  | nil => exact .nil
  | cons x xs ih =>
    exact .gone (h x (List.mem_cons_self ..)) (ih fun y hy => h y (List.mem_cons_of_mem x hy))

theorem mono {S₁ : β → γ → Prop} {G₁ : β → Prop} {M₁ : γ → Prop} (h : Aligned S G M xs ys)
    (hsame : ∀ x ∈ xs, ∀ y ∈ ys, S x y → S₁ x y) (hgone : ∀ x ∈ xs, G x → G₁ x)
    (hmade : ∀ y ∈ ys, M y → M₁ y) : Aligned S₁ G₁ M₁ xs ys := by
  induction h with
  | nil => exact .nil
  | @kept x y xs ys same _ ih =>
    simp only [List.forall_mem_cons] at hsame hgone hmade
    exact .kept (hsame.1.1 same) (ih (fun x hx => (hsame.2 x hx).2) hgone.2 hmade.2)
  | @gone x xs ys gone _ ih =>
    simp only [List.forall_mem_cons] at hsame hgone
    exact .gone (hgone.1 gone) (ih hsame.2 hgone.2 hmade)
  | @made y xs ys made _ ih =>
    simp only [List.forall_mem_cons] at hsame hmade
    exact .made (hmade.1 made) (ih (fun x hx => (hsame x hx).2) hgone hmade.2)

theorem exists_left (h : Aligned S G M xs ys) {y : γ} (hy : y ∈ ys) : (∃ x ∈ xs, S x y) ∨ M y := by
  induction h with
  | nil => cases hy
  | kept same _ ih =>
    rcases List.mem_cons.mp hy with rfl | hy
    · exact .inl ⟨_, List.mem_cons_self .., same⟩
    · exact (ih hy).imp_left fun ⟨x, hx, h⟩ => ⟨x, List.mem_cons_of_mem _ hx, h⟩
  | gone _ _ ih => exact (ih hy).imp_left fun ⟨x, hx, h⟩ => ⟨x, List.mem_cons_of_mem _ hx, h⟩
  | made made _ ih =>
    rcases List.mem_cons.mp hy with rfl | hy
    · exact .inr made
    · exact ih hy

theorem nil_left (h : Aligned S G M [] ys) : ∀ y ∈ ys, M y := by
  generalize hxs : ([] : List β) = ws at h
  induction h with
  | nil => exact fun y hy => absurd hy (List.not_mem_nil)
  | kept => cases hxs
  | gone => cases hxs
  | made made _ ih => exact List.forall_mem_cons.mpr ⟨made, ih hxs⟩

/-- What becomes of the first element. -/
theorem cons_left {y : γ} (h : Aligned S' G' M' (y :: ys) zs) : ∃ front back, zs = front ++ back ∧
    (∀ z ∈ front, M' z) ∧ ((∃ z rest, back = z :: rest ∧ S' y z ∧ Aligned S' G' M' ys rest) ∨
      (G' y ∧ Aligned S' G' M' ys back)) := by
  generalize hys : y :: ys = ws at h
  induction h with
  | nil => cases hys
  | @kept x z xs zs same rest =>
    cases hys
    exact ⟨[], z :: zs, rfl, by simp, .inl ⟨z, zs, rfl, same, rest⟩⟩
  | @gone x xs zs gone rest =>
    cases hys
    exact ⟨[], zs, rfl, by simp, .inr ⟨gone, rest⟩⟩
  | @made z xs zs made _ ih =>
    obtain ⟨front, back, rfl, hfront, hback⟩ := ih hys
    exact ⟨z :: front, back, rfl, List.forall_mem_cons.mpr ⟨made, hfront⟩, hback⟩

/-- What the first element comes from. -/
theorem cons_right {y : γ} (h : Aligned S G M xs (y :: ys)) : ∃ front back, xs = front ++ back ∧
    (∀ x ∈ front, G x) ∧ ((∃ x rest, back = x :: rest ∧ S x y ∧ Aligned S G M rest ys) ∨
      (M y ∧ Aligned S G M back ys)) := by
  generalize hys : y :: ys = ws at h
  induction h with
  | nil => cases hys
  | @kept x z xs zs same rest =>
    cases hys
    exact ⟨[], x :: xs, rfl, by simp, .inl ⟨x, xs, rfl, same, rest⟩⟩
  | @gone x xs zs gone _ ih =>
    obtain ⟨front, back, rfl, hfront, hback⟩ := ih hys
    exact ⟨x :: front, back, rfl, List.forall_mem_cons.mpr ⟨gone, hfront⟩, hback⟩
  | @made z xs zs made rest =>
    cases hys
    exact ⟨[], xs, rfl, by simp, .inr ⟨made, rest⟩⟩

/-- One alignment after the other. -/
theorem trans {S'' : β → δ → Prop} {G'' : β → Prop} {M'' : δ → Prop} (h : Aligned S G M xs ys)
    (h' : Aligned S' G' M' ys zs) (hsame : ∀ x y z, S x y → S' y z → S'' x z)
    (hgone : ∀ x, G x → G'' x) (hkept_gone : ∀ x y, S x y → G' y → G'' x)
    (hmade_kept : ∀ y z, M y → S' y z → M'' z) (hmade : ∀ z, M' z → M'' z) :
    Aligned S'' G'' M'' xs zs := by
  have hfront : ∀ {front back : List δ} {ws : List β}, (∀ z ∈ front, M' z) →
      Aligned S'' G'' M'' ws back →
      Aligned S'' G'' M'' ws (front ++ back) := fun hall hback =>
    (all_made fun z hz => hmade z (hall z hz)).append hback
  induction h generalizing zs with
  | nil => exact all_made fun z hz => hmade z (h'.nil_left z hz)
  | kept same _ ih =>
    obtain ⟨front, back, rfl, hall, ⟨z, rest, rfl, same', hrest⟩ | ⟨gone', hback⟩⟩ := h'.cons_left
    · exact hfront hall (.kept (hsame _ _ _ same same') (ih hrest))
    · exact hfront hall (.gone (hkept_gone _ _ same gone') (ih hback))
  | gone gone _ ih => exact .gone (hgone _ gone) (ih h')
  | made made _ ih =>
    obtain ⟨front, back, rfl, hall, ⟨z, rest, rfl, same', hrest⟩ | ⟨-, hback⟩⟩ := h'.cons_left
    · exact hfront hall (.made (hmade_kept _ _ made same') (ih hrest))
    · exact hfront hall (ih hback)

section Edits

variable {S : β → β → Prop} {M : β → Prop} (hS : ∀ x, S x x)
include hS

theorem modify {f : β → β} (hf : ∀ x, S x (f x)) (xs : List β) (i : Nat) :
    Aligned S G M xs (xs.modify i f) := by
  induction xs generalizing i with
  | nil =>
    rw [List.modify_nil]
    exact .nil
  | cons x xs ih =>
    cases i with
    | zero => exact .kept (hf x) (refl hS xs)
    | succ i => exact .kept (hS x) (ih i)

theorem insertIdx {y : β} (hy : M y) (xs : List β) (i : Nat) :
    Aligned S G M xs (xs.insertIdx i y) := by
  induction xs generalizing i with
  | nil =>
    cases i with
    | zero => exact .made hy .nil
    | succ i => exact .nil
  | cons x xs ih =>
    cases i with
    | zero => exact .made hy (refl hS _)
    | succ i => exact .kept (hS x) (ih i)

end Edits

/-- An element is left out together with what it stands for. -/
theorem remove {y : γ} {before behind : List γ} (h : Aligned S G M xs (before ++ y :: behind))
    (hM : ¬ M y) (hy : ∀ x, S x y → G x) : Aligned S G M xs (before ++ behind) := by
  induction before generalizing xs with
  | nil =>
    obtain ⟨front, back, rfl, hfront, ⟨x, rest, rfl, same, hrest⟩ | ⟨hmade, -⟩⟩ := h.cons_right
    · exact (all_gone hfront).append (.gone (hy x same) hrest)
    · exact absurd hmade hM
  | cons z before ih =>
    obtain ⟨front, back, rfl, hfront, ⟨x, rest, rfl, same, hrest⟩ | ⟨hmade, hback⟩⟩ := h.cons_right
    · exact (all_gone hfront).append (.kept same (ih hrest))
    · exact (all_gone hfront).append (.made hmade (ih hback))

end Aligned

end LayerGraph
