import LayerGraph.Action
import LayerGraph.Proofs.Lists
import Mathlib.Tactic.Common

/-!
# Laws of actions

A sequence of actions is taken apart at its binds: it ends well exactly if each of its parts does,
and a property that each part keeps, whether it ends well or fails, is kept by the whole.
-/

namespace LayerGraph

theorem except_bind_eq_ok_iff {ε β γ : Type} {x : Except ε β} {f : β → Except ε γ} {c : γ} :
    (x >>= f) = .ok c ↔ ∃ b, x = .ok b ∧ f b = .ok c := by
  cases x with
  | error e => exact ⟨nofun, fun ⟨b, hb, _⟩ => by cases hb⟩
  | ok b => exact ⟨fun h => ⟨b, rfl, h⟩, fun ⟨b', hb, h⟩ => by cases hb; exact h⟩

theorem except_bind_eq_error_iff {ε β γ : Type} {x : Except ε β} {f : β → Except ε γ} {e : ε} :
    (x >>= f) = .error e ↔ x = .error e ∨ ∃ b, x = .ok b ∧ f b = .error e := by
  cases x <;> simp [bind, Except.bind]

@[simp] theorem except_ok_bind {ε β γ : Type} (b : β) (f : β → Except ε γ) :
    ((Except.ok b : Except ε β) >>= f) = f b := rfl

@[simp] theorem except_pure {ε β : Type} (b : β) : (pure b : Except ε β) = .ok b := rfl

@[simp] theorem except_throw {β : Type} (e : Error) : (throw e : Except Error β) = .error e := rfl

theorem except_mapM_nil {ε β γ : Type} (f : β → Except ε γ) : List.mapM f [] = .ok [] := rfl

/-- A traversal that ends well has found one result for each element, in order. -/
theorem except_mapM_eq_ok_iff {ε β γ : Type} {f : β → Except ε γ} {xs : List β} {ys : List γ} :
    xs.mapM f = .ok ys ↔ List.Forall₂ (fun x y => f x = .ok y) xs ys := by
  induction xs generalizing ys with
  | nil =>
    rw [except_mapM_nil]
    constructor
    · intro h
      cases h
      exact .nil
    · intro h
      cases h
      rfl
  | cons x xs ih =>
    rw [List.mapM_cons, except_bind_eq_ok_iff]
    constructor
    · rintro ⟨y, hy, h⟩
      obtain ⟨ys', hys, h⟩ := except_bind_eq_ok_iff.mp h
      cases h
      exact .cons hy (ih.mp hys)
    · intro h
      cases h with
      | cons hy hys => exact ⟨_, hy, by rw [ih.mpr hys]; rfl⟩

section MapM

variable {ε β γ : Type} {f : β → Except ε γ} {xs : List β} {ys : List γ} (h : xs.mapM f = .ok ys)
include h

theorem except_mapM_length : ys.length = xs.length :=
  (List.Forall₂.length_eq (except_mapM_eq_ok_iff.mp h)).symm

theorem except_mapM_getElem? {i : Nat} {x : β} (hx : xs[i]? = some x) :
    ∃ y, ys[i]? = some y ∧ f x = .ok y :=
  getElem?_of_forall₂ (except_mapM_eq_ok_iff.mp h) hx

theorem except_mapM_getElem?_result {i : Nat} {y : γ} (hy : ys[i]? = some y) :
    ∃ x, xs[i]? = some x ∧ f x = .ok y :=
  getElem?_of_forall₂ (except_mapM_eq_ok_iff.mp h).flip hy

theorem except_mapM_mem_result {y : γ} (hy : y ∈ ys) : ∃ x ∈ xs, f x = .ok y :=
  exists_mem_of_forall₂ (except_mapM_eq_ok_iff.mp h).flip hy

theorem except_mapM_mem {x : β} (hx : x ∈ xs) : ∃ y ∈ ys, f x = .ok y :=
  exists_mem_of_forall₂ (except_mapM_eq_ok_iff.mp h) hx

end MapM

theorem except_mapM_congr {ε β γ : Type} {f f' : β → Except ε γ} {xs : List β}
    (h : ∀ x ∈ xs, f x = f' x) : xs.mapM f = xs.mapM f' := by
  induction xs with
  | nil => rfl
  | cons x xs ih =>
    rw [List.mapM_cons, List.mapM_cons, h x List.mem_cons_self,
      ih fun y hy => h y (List.mem_cons_of_mem x hy)]

/-- A traversal fails at one of its elements. -/
theorem except_mapM_eq_error {ε β γ : Type} {f : β → Except ε γ} {xs : List β} {e : ε}
    (h : xs.mapM f = .error e) : ∃ x ∈ xs, f x = .error e := by
  induction xs with
  | nil => cases h
  | cons x xs ih =>
    rw [List.mapM_cons] at h
    rcases except_bind_eq_error_iff.mp h with hx | ⟨_, -, h⟩
    · exact ⟨x, List.mem_cons_self, hx⟩
    rcases except_bind_eq_error_iff.mp h with hxs | ⟨_, -, h⟩
    · obtain ⟨y, hy, he⟩ := ih hxs
      exact ⟨y, List.mem_cons_of_mem x hy, he⟩
    · cases h

theorem except_mapM_of_forall₂ {ε β γ δ : Type} {f : β → Except ε δ} {f' : γ → Except ε δ}
    {xs : List β} {ys : List γ} (h : List.Forall₂ (fun x y => f' y = f x) xs ys) :
    ys.mapM f' = xs.mapM f := by
  induction h with
  | nil => rfl
  | cons hxy _ ih => rw [List.mapM_cons, List.mapM_cons, hxy, ih]

/-- A traversal ends well if every element has a result. -/
theorem except_mapM_exists {ε β γ : Type} {f : β → Except ε γ} {xs : List β}
    (h : ∀ x ∈ xs, ∃ y, f x = .ok y) : ∃ ys, xs.mapM f = .ok ys := by
  induction xs with
  | nil => exact ⟨[], rfl⟩
  | cons x xs ih =>
    obtain ⟨y, hy⟩ := h x (by simp)
    obtain ⟨ys, hys⟩ := ih fun x' hx => h x' (by simp [hx])
    exact ⟨y :: ys, by rw [List.mapM_cons, hy, except_ok_bind, hys]; rfl⟩

theorem except_forM_exists {ε β : Type} {f : β → Except ε Unit} {xs : List β}
    (h : ∀ x ∈ xs, f x = .ok ()) : xs.forM f = .ok () := by
  induction xs with
  | nil => rfl
  | cons x xs ih =>
    have hxs := ih fun x' hx => h x' (by simp [hx])
    simp only [List.forM_eq_forM, List.forM_cons] at hxs ⊢
    rw [h x (by simp), except_ok_bind, hxs]

/-- A fold ends well if every step does from what holds before it. -/
theorem except_foldlM_exists {ε β γ : Type} {f : γ → β → Except ε γ} (P : γ → Prop) {xs : List β}
    {c : γ} (hc : P c) (hf : ∀ x ∈ xs, ∀ c, P c → ∃ c', f c x = .ok c' ∧ P c') :
    ∃ c', xs.foldlM f c = .ok c' ∧ P c' := by
  induction xs generalizing c with
  | nil => exact ⟨c, rfl, hc⟩
  | cons x xs ih =>
    obtain ⟨d, hd, hPd⟩ := hf x (by simp) c hc
    obtain ⟨c', hc', hP⟩ := ih hPd fun x' hx => hf x' (by simp [hx])
    exact ⟨c', by rw [List.foldlM_cons, hd, except_ok_bind, hc'], hP⟩

/-- A fold ends well if every step does from what holds of the elements that are done. -/
theorem except_foldlM_exists_upTo {ε β γ : Type} {f : γ → β → Except ε γ} (P : List β → γ → Prop)
    {xs : List β} {c : γ} (hc : P [] c)
    (hf : ∀ done x rest c, xs = done ++ x :: rest → P done c →
      ∃ c', f c x = .ok c' ∧ P (done ++ [x]) c') : ∃ c', xs.foldlM f c = .ok c' ∧ P xs c' := by
  have hall : ∀ (rest done : List β) (c : γ), xs = done ++ rest → P done c → ∃ c',
      rest.foldlM f c = .ok c' ∧ P xs c' := by
    intro rest
    induction rest with
    | nil =>
      intro done c hxs hd
      rw [hxs, List.append_nil]
      exact ⟨c, rfl, hd⟩
    | cons x rest ih =>
      intro done c hxs hd
      obtain ⟨d, hx, hd'⟩ := hf done x rest c hxs hd
      obtain ⟨c', hc', hP⟩ := ih (done ++ [x]) d (by simp [hxs]) hd'
      exact ⟨c', by rw [List.foldlM_cons, hx, except_ok_bind, hc'], hP⟩
  exact hall xs [] c rfl hc

theorem except_forM_eq_ok {ε β : Type} {f : β → Except ε Unit} {xs : List β} {u : Unit}
    (h : xs.forM f = .ok u) : ∀ x ∈ xs, f x = .ok () := by
  induction xs with
  | nil => simp
  | cons x xs ih =>
    simp only [List.forM_eq_forM, List.forM_cons] at ih h
    obtain ⟨_, hx, h⟩ := except_bind_eq_ok_iff.mp h
    intro y hy
    rcases List.mem_cons.mp hy with rfl | hy
    · exact hx
    · exact ih h y hy

/-- What holds of the elements that are done and of the result so far holds at the end of all. -/
theorem except_foldlM_upTo {ε β γ : Type} {f : γ → β → Except ε γ} (P : List β → γ → Prop)
    {xs : List β} {c c' : γ} (h : xs.foldlM f c = .ok c') (hc : P [] c)
    (hf : ∀ done x rest c c', xs = done ++ x :: rest → P done c → f c x = .ok c' →
      P (done ++ [x]) c') : P xs c' := by
  have hall : ∀ (rest done : List β) (c : γ), xs = done ++ rest → P done c →
      rest.foldlM f c = .ok c' → P xs c' := by
    intro rest
    induction rest with
    | nil =>
      intro done c hxs hd h
      cases h
      rw [hxs, List.append_nil]
      exact hd
    | cons x rest ih =>
      intro done c hxs hd h
      rw [List.foldlM_cons] at h
      obtain ⟨d, hx, h⟩ := except_bind_eq_ok_iff.mp h
      exact ih (done ++ [x]) d (by simp [hxs]) (hf done x rest c d hxs hd hx) h
  exact hall xs [] c rfl hc h

namespace Action

variable {σ ρ β γ : Type}

theorem bind_eq_ok_iff {p : Action σ β} {f : β → Action σ γ} {s s' : σ} {c : γ} :
    (p >>= f) s = .ok c s' ↔ ∃ b s₁, p s = .ok b s₁ ∧ f b s₁ = .ok c s' := by
  change EStateM.bind p f s = _ ↔ _
  unfold EStateM.bind
  cases p s with
  | ok b s₁ =>
    constructor
    · exact fun h => ⟨b, s₁, rfl, h⟩
    · rintro ⟨b', s₁', hb, h⟩
      cases hb
      exact h
  | error e s₁ =>
    constructor
    · intro h
      cases h
    · rintro ⟨b', s₁', hb, _⟩
      cases hb

theorem bind_of_ok {p : Action σ β} {f : β → Action σ γ} {s s₁ : σ} {b : β} (h : p s = .ok b s₁) :
    (p >>= f) s = f b s₁ := by
  change EStateM.bind p f s = _
  simp [EStateM.bind, h]

theorem bind_of_error {p : Action σ β} {f : β → Action σ γ} {s s₁ : σ} {e : Error}
    (h : p s = .error e s₁) : (p >>= f) s = .error e s₁ := by
  change EStateM.bind p f s = _
  simp [EStateM.bind, h]

/-- What comes to the same goes on in the same way. -/
theorem bind_congr {p q : Action σ β} {s t : σ} (h : p s = q t) (f : β → Action σ γ) :
    (p >>= f) s = (q >>= f) t := by
  cases hq : q t with
  | ok b r => rw [bind_of_ok (h.trans hq), bind_of_ok hq]
  | error e r => rw [bind_of_error (h.trans hq), bind_of_error hq]

@[simp] theorem pure_apply (b : β) (s : σ) : (pure b : Action σ β) s = .ok b s := rfl

@[simp] theorem throw_apply (e : Error) (s : σ) : (throw e : Action σ β) s = .error e s := rfl

@[simp] theorem get_apply (s : σ) : (get : Action σ σ) s = .ok s s := rfl

@[simp] theorem set_apply (s s' : σ) : (set s' : Action σ PUnit) s = .ok ⟨⟩ s' := rfl

@[simp] theorem modify_apply (f : σ → σ) (s : σ) : (modify f : Action σ PUnit) s = .ok ⟨⟩ (f s) :=
  rfl

@[simp] theorem modifyGet_apply (f : σ → β × σ) (s : σ) :
    (modifyGet f : Action σ β) s = .ok (f s).1 (f s).2 := rfl

theorem read_eq_ok_iff {f : σ → Except Error β} {s s' : σ} {b : β} :
    read f s = .ok b s' ↔ f s = .ok b ∧ s = s' := by
  unfold read
  cases f s with
  | ok b' => exact ⟨fun h => by cases h; exact ⟨rfl, rfl⟩, fun ⟨h, hs⟩ => by cases h; rw [hs]⟩
  | error e => exact ⟨nofun, fun ⟨h, _⟩ => by cases h⟩

theorem read_of_ok {f : σ → Except Error β} {s : σ} {b : β} (h : f s = .ok b) :
    read f s = .ok b s := by simp [read, h]

theorem read_of_error {f : σ → Except Error β} {s : σ} {e : Error} (h : f s = .error e) :
    read f s = .error e s := by simp [read, h]

theorem read_bind (f : σ → Except Error β) (k : β → Action σ γ) (s : σ) : (read f >>= k) s =
    match f s with
    | .ok b => k b s
    | .error e => .error e s := by
  cases h : f s with
  | ok b => exact bind_of_ok (read_of_ok h)
  | error e => exact bind_of_error (read_of_error h)

theorem update_eq_ok_iff {f : σ → Except Error σ} {s s' : σ} {u : Unit} :
    update f s = .ok u s' ↔ f s = .ok s' := by
  unfold update
  cases f s with
  | ok t => exact ⟨fun h => by cases h; rfl, fun h => by cases h; rfl⟩
  | error e => exact ⟨nofun, nofun⟩

theorem update_of_ok {f : σ → Except Error σ} {s s' : σ} (h : f s = .ok s') :
    update f s = .ok () s' := by simp [update, h]

theorem update_of_error {f : σ → Except Error σ} {s : σ} {e : Error} (h : f s = .error e) :
    update f s = .error e s := by simp [update, h]

theorem focus_eq_ok_iff {part : σ → ρ} {replace : ρ → σ → σ} {p : Action ρ β} {s s' : σ} {b : β} :
    focus part replace p s = .ok b s' ↔ ∃ r, p (part s) = .ok b r ∧ s' = replace r s := by
  unfold focus
  cases p (part s) with
  | ok b' r =>
    exact ⟨fun h => by cases h; exact ⟨r, rfl, rfl⟩, fun ⟨r', h, hs⟩ => by cases h; rw [hs]⟩
  | error e r => exact ⟨nofun, fun ⟨_, h, _⟩ => by cases h⟩

theorem carrying_eq_ok_iff {τ : Type} {own own' : τ} {p : Action (τ × σ) β} {s s' : σ} {b : β} :
    carrying own p s = .ok (b, own') s' ↔ p (own, s) = .ok b (own', s') := by
  unfold carrying
  cases p (own, s) with
  | ok b r => exact ⟨fun h => by cases h; rfl, fun h => by cases h; rfl⟩
  | error e r => exact ⟨nofun, nofun⟩

theorem focus_of_ok {part : σ → ρ} {replace : ρ → σ → σ} {p : Action ρ β} {s : σ} {b : β} {r : ρ}
    (h : p (part s) = .ok b r) : focus part replace p s = .ok b (replace r s) := by
  simp [focus, h]

theorem focus_of_error {part : σ → ρ} {replace : ρ → σ → σ} {p : Action ρ β}
    {s : σ} {e : Error} {r : ρ} (h : p (part s) = .error e r) : focus part replace p s =
      .error e (replace r s) := by
  simp [focus, h]

theorem tryCatch_of_ok {p : Action σ β} {handler : Error → Action σ β} {s s' : σ} {b : β}
    (h : p s = .ok b s') : (tryCatch p handler : Action σ β) s = .ok b s' := by
  simp only [tryCatch, tryCatchThe, MonadExceptOf.tryCatch, EStateM.tryCatch, h]

/-- A handler starts from the state that the failure has left. -/
theorem tryCatch_of_error {p : Action σ β} {handler : Error → Action σ β} {s s' : σ} {e : Error}
    (h : p s = .error e s') : (tryCatch p handler : Action σ β) s = handler e s' := by
  simp only [tryCatch, tryCatchThe, MonadExceptOf.tryCatch, EStateM.tryCatch, h]
  rfl

theorem tryCatch_congr {p q : Action σ β} {s t : σ} (h : p s = q t) (handler : Error → Action σ β) :
    (tryCatch p handler : Action σ β) s = (tryCatch q handler : Action σ β) t := by
  cases hq : q t with
  | ok b r => rw [tryCatch_of_ok (h.trans hq), tryCatch_of_ok hq]
  | error e r => rw [tryCatch_of_error (h.trans hq), tryCatch_of_error hq]

/-- A check that fails at once is passed by what ends well. -/
theorem guard_eq_ok_iff {c : Prop} [Decidable c] {e : Error} {k : PUnit → Action σ β} {s s' : σ}
    {b : β} : (if c then (throw e : Action σ PUnit) >>= k else k ⟨⟩) s = .ok b s' ↔
      ¬ c ∧ k ⟨⟩ s = .ok b s' := by
  split
  · next hc =>
    refine ⟨fun h => ?_, fun h => absurd hc h.1⟩
    obtain ⟨_, _, h, -⟩ := bind_eq_ok_iff.mp h
    cases h
  · next hc => exact ⟨fun h => ⟨hc, h⟩, fun h => h.2⟩

section Loops

/-- What holds of the elements that are done and of the state holds at the end of a loop. -/
theorem forM_prefix {f : β → Action σ PUnit} (P : List β → σ → Prop) {xs : List β} {s s' : σ}
    {u : PUnit} (h : xs.forM f s = .ok u s') (hs : P [] s)
    (hf : ∀ done x rest s s' u, xs = done ++ x :: rest → P done s → f x s = .ok u s' →
      P (done ++ [x]) s') : P xs s' := by
  have hall : ∀ (rest done : List β) (s : σ), xs = done ++ rest → P done s →
      rest.forM f s = .ok u s' → P xs s' := by
    intro rest
    induction rest with
    | nil =>
      intro done s hxs hd h
      cases h
      rw [hxs, List.append_nil]
      exact hd
    | cons x rest ih =>
      intro done s hxs hd h
      simp only [List.forM_eq_forM, List.forM_cons] at h ih
      obtain ⟨_, s₁, hx, h⟩ := bind_eq_ok_iff.mp h
      exact ih (done ++ [x]) s₁ (by simp [hxs]) (hf done x rest s s₁ _ hxs hd hx) h
  exact hall xs [] s rfl hs h

/-- A loop ends well if every step does. -/
theorem exists_forM {f : β → Action σ PUnit} (P : List β → σ → Prop) {xs : List β} {s : σ}
    (hs : P [] s)
    (hf : ∀ done x rest s, xs = done ++ x :: rest → P done s →
      ∃ s', f x s = .ok ⟨⟩ s' ∧ P (done ++ [x]) s') : ∃ s', xs.forM f s = .ok ⟨⟩ s' ∧ P xs s' := by
  have hall : ∀ (rest done : List β) (s : σ), xs = done ++ rest → P done s →
      ∃ s', rest.forM f s = .ok ⟨⟩ s' ∧ P xs s' := by
    intro rest
    induction rest with
    | nil =>
      intro done s hxs hd
      refine ⟨s, rfl, ?_⟩
      rw [hxs, List.append_nil]
      exact hd
    | cons x rest ih =>
      intro done s hxs hd
      obtain ⟨s₁, hx, hd₁⟩ := hf done x rest s hxs hd
      obtain ⟨s₂, hr, hd₂⟩ := ih (done ++ [x]) s₁ (by simp [hxs]) hd₁
      refine ⟨s₂, ?_, hd₂⟩
      simp only [List.forM_eq_forM, List.forM_cons] at hr ⊢
      rw [bind_of_ok hx, hr]
  exact hall xs [] s rfl hs

/-- A loop can be watched: it ends as it does, with what is seen of each element once it is done. -/
theorem exists_watched {f : β → Action σ PUnit} {Q : β → γ → Prop} (look : β → σ → Except Error γ)
    (P : List β → σ → Prop) {xs : List β} {s s' : σ} {u : PUnit} (hrun : xs.forM f s = .ok u s')
    (hs : P [] s)
    (hf : ∀ done x rest s s' u, xs = done ++ x :: rest → P done s → f x s = .ok u s' →
      P (done ++ [x]) s' ∧ ∃ y, look x s' = .ok y ∧ Q x y) :
    ∃ ys, xs.mapM (fun x => (do f x; Action.read (look x) : Action σ γ)) s = .ok ys s' ∧
    List.Forall₂ Q xs ys := by
  have hall : ∀ (rest done : List β) (s : σ), xs = done ++ rest → P done s →
      rest.forM f s = .ok u s' →
      ∃ ys, rest.mapM (fun x => (do f x; Action.read (look x) : Action σ γ)) s = .ok ys s' ∧
      List.Forall₂ Q rest ys := by
    intro rest
    induction rest with
    | nil =>
      intro done s _ _ hrun
      cases hrun
      exact ⟨[], rfl, .nil⟩
    | cons x rest ih =>
      intro done s hxs hd hrun
      simp only [List.forM_eq_forM, List.forM_cons] at hrun ih
      obtain ⟨_, s₁, hx, hrun⟩ := bind_eq_ok_iff.mp hrun
      obtain ⟨hd₁, y, hy, hQ⟩ := hf done x rest s s₁ _ hxs hd hx
      obtain ⟨ys, hys, hall⟩ := ih (done ++ [x]) s₁ (by simp [hxs]) hd₁ hrun
      refine ⟨y :: ys, ?_, .cons hQ hall⟩
      rw [List.mapM_cons, bind_of_ok ((bind_of_ok hx).trans (read_of_ok hy)), bind_of_ok hys]
      rfl
  exact hall xs [] s rfl hs hrun

/-- What holds of the elements that are done, of their results and of the state holds at the end. -/
theorem mapM_prefix {f : β → Action σ γ} (P : List β → List γ → σ → Prop) {xs : List β}
    {ys : List γ} {s s' : σ} (h : xs.mapM f s = .ok ys s') (hs : P [] [] s)
    (hf : ∀ done x rest zs s y s', xs = done ++ x :: rest → P done zs s → f x s = .ok y s' →
      P (done ++ [x]) (zs ++ [y]) s') : P xs ys s' := by
  have hall : ∀ (rest done : List β) (zs ys : List γ) (s : σ), xs = done ++ rest → P done zs s →
      rest.mapM f s = .ok ys s' → P xs (zs ++ ys) s' := by
    intro rest
    induction rest with
    | nil =>
      intro done zs ys s hxs hd h
      rw [List.mapM_nil] at h
      cases h
      rw [hxs, List.append_nil, List.append_nil]
      exact hd
    | cons x rest ih =>
      intro done zs ys s hxs hd h
      rw [List.mapM_cons] at h
      obtain ⟨y, s₁, hx, h⟩ := bind_eq_ok_iff.mp h
      obtain ⟨ys', s₂, hr, h⟩ := bind_eq_ok_iff.mp h
      cases h
      have := ih (done ++ [x]) (zs ++ [y]) ys' s₁ (by simp [hxs])
        (hf done x rest zs s y s₁ hxs hd hx) hr
      rwa [List.append_assoc] at this
  exact hall xs [] [] ys s rfl hs h

end Loops

/-- The state in which an action leaves off, whether it ends well or fails. -/
def after (p : Action σ β) (s : σ) : σ :=
  match p s with
  | .ok _ s' => s'
  | .error _ s' => s'

theorem after_of_ok {p : Action σ β} {s s' : σ} {b : β} (h : p s = .ok b s') : p.after s = s' := by
  simp [after, h]

theorem after_of_error {p : Action σ β} {s s' : σ} {e : Error} (h : p s = .error e s') :
    p.after s = s' := by simp [after, h]

/-- Whether an action ends well. -/
def endsWell (p : Action σ β) (s : σ) : Bool :=
  match p s with
  | .ok _ _ => true
  | .error _ _ => false

theorem exists_of_endsWell {p : Action σ β} {s : σ} (h : p.endsWell s = true) :
    ∃ b, p s = .ok b (p.after s) := by
  unfold endsWell at h
  unfold after
  split at h
  · next heq => exact ⟨_, by rw [heq]⟩
  · cases h

theorem eq_ok_of_endsWell {p : Action σ Unit} {s : σ} (h : p.endsWell s = true) :
    p s = .ok () (p.after s) :=
  (exists_of_endsWell h).choose_spec

theorem after_focus (part : σ → ρ) (replace : ρ → σ → σ) (p : Action ρ β) (s : σ) :
    (focus part replace p).after s = replace (p.after (part s)) s := by
  unfold after focus
  cases p (part s) <;> rfl

theorem after_get_bind (k : σ → Action σ β) (s : σ) : (get >>= k).after s = (k s).after s := rfl

theorem after_modify_bind (f : σ → σ) (k : PUnit → Action σ β) (s : σ) :
    ((modify f : Action σ PUnit) >>= k).after s = (k ⟨⟩).after (f s) := rfl

theorem after_guard_of_pos {c : Prop} [Decidable c] (hc : c) (e : Error) (k : PUnit → Action σ β)
    (s : σ) : (if c then (throw e : Action σ PUnit) >>= k else k ⟨⟩).after s = s := by
  rw [if_pos hc, after_of_error (bind_of_error (throw_apply e s))]

theorem after_bind_of_ok {p : Action σ β} {f : β → Action σ γ} {s s₁ : σ} {b : β}
    (h : p s = .ok b s₁) : (p >>= f).after s = (f b).after s₁ := by
  unfold after
  rw [bind_of_ok h]

/-- What comes after a read starts from the same state. -/
theorem after_read_bind {P : σ → Prop} {f : σ → Except Error β} {k : β → Action σ γ}
    {s : σ} (hs : P s) (hk : ∀ b, f s = .ok b → P ((k b).after s)) :
    P ((read f >>= k).after s) := by
  cases h : f s with
  | ok b =>
    have : (read f >>= k).after s = (k b).after s := by simp only [after, bind_of_ok (read_of_ok h)]
    rw [this]
    exact hk b h
  | error e =>
    rw [after_of_error (bind_of_error (read_of_error h))]
    exact hs

/-- A property of states that an action keeps, whether it ends well or fails. -/
def Keeps (P : σ → Prop) (p : Action σ β) : Prop := ∀ s, P s → P (p.after s)

/-- What holds after the first part and is kept by the second holds at the end. -/
theorem after_bind {P : σ → Prop} {p : Action σ β} {f : β → Action σ γ} {s : σ} (h : P (p.after s))
    (hf : ∀ b, Keeps P (f b)) : P ((p >>= f).after s) := by
  cases hr : p s with
  | ok b s₁ =>
    rw [after_of_ok hr] at h
    have : (p >>= f).after s = (f b).after s₁ := by
      simp only [after, bind_of_ok hr]
    rw [this]
    exact hf b s₁ h
  | error e s₁ =>
    rw [after_of_error hr] at h
    rw [after_of_error (bind_of_error hr)]
    exact h

section Keeps

variable {P : σ → Prop}

theorem keeps_pure (b : β) : Keeps P (pure b : Action σ β) := fun _ hs => hs

theorem keeps_throw (e : Error) : Keeps P (throw e : Action σ β) := fun _ hs => hs

theorem keeps_get : Keeps P (get : Action σ σ) := fun _ hs => hs

theorem keeps_read (f : σ → Except Error β) : Keeps P (read f) := by
  intro s hs
  cases h : f s with
  | ok b => rw [after_of_ok (read_of_ok h)]; exact hs
  | error e => rw [after_of_error (read_of_error h)]; exact hs

theorem keeps_modify {f : σ → σ} (hf : ∀ s, P s → P (f s)) :
    Keeps P (modify f : Action σ PUnit) := hf

theorem keeps_update {f : σ → Except Error σ} (hf : ∀ s s', P s → f s = .ok s' → P s') :
    Keeps P (update f) := by
  intro s hs
  cases h : f s with
  | ok s' => rw [after_of_ok (update_of_ok h)]; exact hf s s' hs h
  | error e => rw [after_of_error (update_of_error h)]; exact hs

theorem Keeps.of_ok {p : Action σ β} {s s' : σ} {b : β} (hp : Keeps P p) (hs : P s)
    (h : p s = .ok b s') : P s' :=
  after_of_ok h ▸ hp s hs

theorem Keeps.bind {p : Action σ β} {f : β → Action σ γ} (hp : Keeps P p)
    (hf : ∀ b, Keeps P (f b)) : Keeps P (p >>= f) := fun s hs => after_bind (hp s hs) hf

theorem Keeps.focus {Q : ρ → Prop} {part : σ → ρ} {replace : ρ → σ → σ} {p : Action ρ β}
    (hp : Keeps Q p) (hpart : ∀ s, P s → Q (part s))
    (hreplace : ∀ s r, P s → Q r → P (replace r s)) : Keeps P (Action.focus part replace p) := by
  intro s hs
  have h := hp (part s) (hpart s hs)
  unfold after Action.focus
  unfold after at h
  cases hr : p (part s) with
  | ok b r => rw [hr] at h; exact hreplace s r hs h
  | error e r => rw [hr] at h; exact hreplace s r hs h

theorem Keeps.carrying {τ : Type} {own : τ} {p : Action (τ × σ) β}
    (hp : Keeps (fun s : τ × σ => P s.2) p) : Keeps P (Action.carrying own p) := by
  intro s hs
  have h := hp (own, s) hs
  unfold after Action.carrying
  unfold after at h
  cases hr : p (own, s) with
  | ok b r => rw [hr] at h; exact h
  | error e r => rw [hr] at h; exact h

theorem Keeps.tryCatch {p : Action σ β} {handler : Error → Action σ β} (hp : Keeps P p)
    (hh : ∀ e, Keeps P (handler e)) : Keeps P (tryCatch p handler) := by
  intro s hs
  have h := hp s hs
  cases hr : p s with
  | ok b s₁ =>
    rw [after_of_ok hr] at h
    rw [after_of_ok (tryCatch_of_ok hr)]
    exact h
  | error e s₁ =>
    rw [after_of_error hr] at h
    have hhandler : (MonadExcept.tryCatch p handler).after s = (handler e).after s₁ := by
      unfold after
      rw [tryCatch_of_error hr]
    rw [hhandler]
    exact hh e s₁ h

theorem Keeps.guard {c : Prop} [Decidable c] {e : Error} {k : PUnit → Action σ β}
    (hk : Keeps P (k ⟨⟩)) : Keeps P (if c then (throw e : Action σ PUnit) >>= k else k ⟨⟩) := by
  split
  · intro s hs
    rw [after_of_error (bind_of_error (throw_apply e s))]
    exact hs
  · exact hk

theorem keeps_forM {f : β → Action σ PUnit} {xs : List β} (hf : ∀ x ∈ xs, Keeps P (f x)) :
    Keeps P (xs.forM f) := by
  induction xs with
  | nil => exact keeps_pure _
  | cons x xs ih =>
    simp only [List.forM_eq_forM, List.forM_cons] at ih ⊢
    exact (hf x (by simp)).bind fun _ => ih fun y hy => hf y (by simp [hy])

theorem keeps_mapM {f : β → Action σ γ} {xs : List β} (hf : ∀ x ∈ xs, Keeps P (f x)) :
    Keeps P (xs.mapM f) := by
  induction xs with
  | nil => exact keeps_pure _
  | cons x xs ih =>
    rw [List.mapM_cons]
    exact (hf x (by simp)).bind fun _ =>
      (ih fun y hy => hf y (by simp [hy])).bind fun _ => keeps_pure _

theorem keeps_foldlM {f : γ → β → Action σ γ} {xs : List β} (hf : ∀ c, ∀ x ∈ xs, Keeps P (f c x)) :
    ∀ c, Keeps P (xs.foldlM f c) := by
  induction xs with
  | nil => exact fun c => keeps_pure _
  | cons x xs ih =>
    intro c
    rw [List.foldlM_cons]
    exact (hf c x (by simp)).bind fun d => ih (fun c y hy => hf c y (by simp [hy])) d

end Keeps

/-- A property of states that holds also of the state an action leaves when it fails. -/
def Fails (P : σ → Prop) (p : Action σ β) : Prop := ∀ s e s', P s → p s = .error e s' → P s'

section Fails

variable {P : σ → Prop}

theorem Fails.bind {p : Action σ β} {f : β → Action σ γ} (hp : Keeps P p)
    (hf : ∀ b, Fails P (f b)) : Fails P (p >>= f) := by
  intro s e s' hs h
  have hafter := hp s hs
  cases hr : p s with
  | ok b s₁ =>
    rw [after_of_ok hr] at hafter
    rw [bind_of_ok hr] at h
    exact hf b s₁ e s' hafter h
  | error e₁ s₁ =>
    rw [after_of_error hr] at hafter
    rw [bind_of_error hr] at h
    cases h
    exact hafter

theorem Fails.guard {c : Prop} [Decidable c] {e : Error} {k : PUnit → Action σ β}
    (hk : Fails P (k ⟨⟩)) : Fails P (if c then (throw e : Action σ PUnit) >>= k else k ⟨⟩) := by
  split
  · intro s e' s' hs h
    rw [bind_of_error (throw_apply e s)] at h
    cases h
    exact hs
  · exact hk

theorem fails_modify (f : σ → σ) : Fails P (modify f : Action σ PUnit) := by
  intro s e s' _ h
  cases h

/-- What fails fails first, if what follows cannot fail. -/
theorem Fails.bind_modify {p : Action σ β} {f : β → σ → σ} (hp : Fails P p) :
    Fails P (p >>= fun b => (modify (f b) : Action σ PUnit)) := by
  intro s e s' hs h
  cases hr : p s with
  | ok b s₁ =>
    rw [bind_of_ok hr] at h
    cases h
  | error e₁ s₁ =>
    rw [bind_of_error hr] at h
    cases h
    exact hp s _ _ hs hr

theorem fails_update (f : σ → Except Error σ) : Fails P (update f) := by
  intro s e s' hs h
  cases hf : f s with
  | ok t =>
    rw [update_of_ok hf] at h
    cases h
  | error e' =>
    rw [update_of_error hf] at h
    cases h
    exact hs

theorem Fails.focus {Q : ρ → Prop} {part : σ → ρ} {replace : ρ → σ → σ} {p : Action ρ β}
    (hp : Fails Q p) (hpart : ∀ s, P s → Q (part s))
    (hreplace : ∀ s r, P s → Q r → P (replace r s)) : Fails P (Action.focus part replace p) := by
  intro s e s' hs h
  unfold Action.focus at h
  cases hr : p (part s) with
  | ok b r =>
    rw [hr] at h
    cases h
  | error e' r =>
    rw [hr] at h
    cases h
    exact hreplace s r hs (hp _ _ _ (hpart s hs) hr)

end Fails

end Action

end LayerGraph
