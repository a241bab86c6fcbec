import LayerGraph.Proofs.Action

/-!
# Actions in lockstep

One action follows another if it ends well from a related state whenever the other does, with a
related result and in a related state. What follows at every bind follows as a whole. Two actions
match if they end well together or fail together.
-/

namespace LayerGraph.Action

variable {σ σ' ρ ρ' β β' γ γ' : Type}

/-- From related states, `q` ends well if `p` does, and what they find and where they end are
related. -/
def Follows (R : σ → σ' → Prop) (p : Action σ β) (q : Action σ' β') (S : β → β' → Prop) : Prop :=
  ∀ s t b s', R s t → p s = .ok b s' → ∃ c t', q t = .ok c t' ∧ R s' t' ∧ S b c

variable {R : σ → σ' → Prop} {S : β → β' → Prop} {T : γ → γ' → Prop}

theorem follows_pure {b : β} {c : β'} (h : S b c) : Follows R (pure b) (pure c) S := by
  intro s t b' s' hr hp
  cases hp
  exact ⟨c, t, rfl, hr, h⟩

theorem follows_refl (p : Action σ β) : Follows Eq p p Eq := by
  rintro s _ b s' rfl hp
  exact ⟨b, s', hp, rfl, rfl⟩

theorem Follows.bind {p : Action σ β} {q : Action σ' β'} {f : β → Action σ γ}
    {g : β' → Action σ' γ'} (h : Follows R p q S) (hf : ∀ b c, S b c → Follows R (f b) (g c) T) :
    Follows R (p >>= f) (q >>= g) T := by
  intro s t d s' hr hp
  obtain ⟨b, s₁, hp, hrest⟩ := bind_eq_ok_iff.mp hp
  obtain ⟨c, t₁, hq, hr₁, hbc⟩ := h s t b s₁ hr hp
  obtain ⟨e, t', hq', hr', hde⟩ := hf b c hbc s₁ t₁ d s' hr₁ hrest
  exact ⟨e, t', (bind_of_ok hq).trans hq', hr', hde⟩

/-- What comes after the state has been looked at may depend on it. -/
theorem follows_get_bind {f : σ → Action σ γ} {g : σ' → Action σ' γ'}
    (h : ∀ s t, R s t → Follows R (f s) (g t) T) : Follows R (get >>= f) (get >>= g) T :=
  fun s t d s' hr hp => h s t hr s t d s' hr hp

theorem follows_read {f : σ → Except Error β} {g : σ' → Except Error β'}
    (h : ∀ s t b, R s t → f s = .ok b → ∃ c, g t = .ok c ∧ S b c) :
    Follows R (read f) (read g) S := by
  intro s t b s' hr hp
  obtain ⟨hf, rfl⟩ := read_eq_ok_iff.mp hp
  obtain ⟨c, hg, hbc⟩ := h s t b hr hf
  exact ⟨c, t, read_of_ok hg, hr, hbc⟩

theorem follows_throw (e e' : Error) :
    Follows R (throw e : Action σ β) (throw e' : Action σ' β') S :=
  fun _ _ _ _ _ h => nomatch h

theorem follows_update {f : σ → Except Error σ} {g : σ' → Except Error σ'}
    (h : ∀ s t s', R s t → f s = .ok s' → ∃ t', g t = .ok t' ∧ R s' t') :
    Follows R (update f) (update g) Eq := by
  intro s t b s' hr hp
  obtain ⟨t', hg, hr'⟩ := h s t s' hr (update_eq_ok_iff.mp hp)
  exact ⟨(), t', update_of_ok hg, hr', rfl⟩

theorem follows_modify {f : σ → σ} {g : σ' → σ'} (h : ∀ s t, R s t → R (f s) (g t)) :
    Follows R (modify f : Action σ PUnit) (modify g : Action σ' PUnit) Eq := by
  intro s t b s' hr hp
  cases hp
  exact ⟨⟨⟩, g t, rfl, h s t hr, rfl⟩

theorem Follows.guard {c c' : Prop} [Decidable c] [Decidable c'] {e e' : Error}
    {k : PUnit → Action σ γ} {k' : PUnit → Action σ' γ'} (hc : c' → c)
    (h : Follows R (k ⟨⟩) (k' ⟨⟩) T) :
    Follows R (if c then (throw e : Action σ PUnit) >>= k else k ⟨⟩)
      (if c' then (throw e' : Action σ' PUnit) >>= k' else k' ⟨⟩) T := by
  intro s t d s' hr hp
  obtain ⟨hnot, hp⟩ := guard_eq_ok_iff.mp hp
  obtain ⟨c, t', hq, hrest⟩ := h s t d s' hr hp
  exact ⟨c, t', guard_eq_ok_iff.mpr ⟨fun h => hnot (hc h), hq⟩, hrest⟩

theorem Follows.focus {Q : ρ → ρ' → Prop} {part : σ → ρ} {replace : ρ → σ → σ} {part' : σ' → ρ'}
    {replace' : ρ' → σ' → σ'} {p : Action ρ β} {q : Action ρ' β'} (h : Follows Q p q S)
    (hpart : ∀ s t, R s t → Q (part s) (part' t))
    (hreplace : ∀ s t r r', R s t → Q r r' → R (replace r s) (replace' r' t)) :
    Follows R (Action.focus part replace p) (Action.focus part' replace' q) S := by
  intro s t b s' hr hp
  obtain ⟨r, hrun, rfl⟩ := focus_eq_ok_iff.mp hp
  obtain ⟨c, r', hq, hrr, hbc⟩ := h _ _ b r (hpart s t hr) hrun
  exact ⟨c, _, focus_of_ok hq, hreplace s t r r' hr hrr, hbc⟩

section Loops

variable {δ δ' : Type} {xs : List δ}

theorem follows_forM {f : δ → Action σ PUnit} {g : δ → Action σ' PUnit}
    (hf : ∀ x ∈ xs, Follows R (f x) (g x) Eq) : Follows R (xs.forM f) (xs.forM g) Eq := by
  induction xs with
  | nil => exact follows_pure rfl
  | cons x xs ih =>
    simp only [List.forM_eq_forM, List.forM_cons] at ih ⊢
    exact (hf x (by simp)).bind fun _ _ _ => ih fun y hy => hf y (by simp [hy])

theorem follows_mapM (m : δ → δ') {f : δ → Action σ β} {g : δ' → Action σ' β}
    (hf : ∀ x ∈ xs, Follows R (f x) (g (m x)) Eq) :
    Follows R (xs.mapM f) ((xs.map m).mapM g) Eq := by
  induction xs with
  | nil => exact follows_pure rfl
  | cons x xs ih =>
    rw [List.map_cons, List.mapM_cons, List.mapM_cons]
    refine (hf x (by simp)).bind fun b _ hb => (ih fun y hy => hf y (by simp [hy])).bind
      fun bs _ hbs => ?_
    subst hb hbs
    exact follows_pure rfl

theorem follows_foldlM {f : γ → δ → Action σ γ} {g : γ → δ → Action σ' γ}
    (hf : ∀ c, ∀ x ∈ xs, Follows R (f c x) (g c x) Eq) (c : γ) :
    Follows R (xs.foldlM f c) (xs.foldlM g c) Eq := by
  induction xs generalizing c with
  | nil => exact follows_pure rfl
  | cons x xs ih =>
    rw [List.foldlM_cons, List.foldlM_cons]
    refine (hf c x (by simp)).bind fun b _ hb => ?_
    subst hb
    exact ih (fun d y hy => hf d y (by simp [hy])) b

/-- A loop over the same elements, where what is related depends on how far it has got. -/
theorem follows_forM_prefix (R : List δ → σ → σ' → Prop) {f : δ → Action σ PUnit}
    {g : δ → Action σ' PUnit}
    (hf : ∀ done x rest s t s', xs = done ++ x :: rest → R done s t → f x s = .ok ⟨⟩ s' →
      ∃ t', g x t = .ok ⟨⟩ t' ∧ R (done ++ [x]) s' t') {s s' : σ} {t : σ'} (hr : R [] s t)
    {u : PUnit} (hp : xs.forM f s = .ok u s') : ∃ t', xs.forM g t = .ok ⟨⟩ t' ∧ R xs s' t' := by
  have hall : ∀ (rest done : List δ) (s : σ) (t : σ'), xs = done ++ rest → R done s t →
      rest.forM f s = .ok u s' → ∃ t', rest.forM g t = .ok ⟨⟩ t' ∧ R xs s' t' := by
    intro rest
    induction rest with
    | nil =>
      intro done s t hxs hd h
      cases h
      refine ⟨t, rfl, ?_⟩
      rw [hxs, List.append_nil]
      exact hd
    | cons x rest ih =>
      intro done s t hxs hd h
      simp only [List.forM_eq_forM, List.forM_cons] at h ih
      obtain ⟨_, s₁, hx, h⟩ := bind_eq_ok_iff.mp h
      obtain ⟨t₁, hy, hd₁⟩ := hf done x rest s t s₁ hxs hd hx
      obtain ⟨t', hrest, hr'⟩ := ih (done ++ [x]) s₁ t₁ (by simp [hxs]) hd₁ h
      refine ⟨t', ?_, hr'⟩
      simp only [List.forM_eq_forM, List.forM_cons]
      exact (bind_of_ok hy).trans hrest
  exact hall xs [] s t rfl hr hp

end Loops

/-- Two actions have both ended well, in states and with results that are related, or they have both
failed, in states that are related by `E`. -/
inductive Matches (R E : σ → σ' → Prop) (S : β → β' → Prop) :
    EStateM.Result Error σ β → EStateM.Result Error σ' β' → Prop where
  | ok {b : β} {c : β'} {s : σ} {t : σ'} (result : S b c) (state : R s t) : Matches R E S
      (.ok b s) (.ok c t)
  | error {e e' : Error} {s : σ} {t : σ'} (state : E s t) : Matches R E S (.error e s) (.error e' t)

section Matches

variable {R' : σ → σ' → Prop} {E : σ → σ' → Prop} {s : σ} {t : σ'}

theorem Matches.bind {p : Action σ β} {q : Action σ' β'} {f : β → Action σ γ}
    {g : β' → Action σ' γ'} (h : Matches R' E S (p s) (q t))
    (hf : ∀ b c s' t', S b c → R' s' t' → Matches R E T (f b s') (g c t')) :
    Matches R E T ((p >>= f) s) ((q >>= g) t) := by
  generalize hp : p s = x at h
  generalize hq : q t = y at h
  cases h with
  | ok result state =>
    rw [bind_of_ok hp, bind_of_ok hq]
    exact hf _ _ _ _ result state
  | error state =>
    rw [bind_of_error hp, bind_of_error hq]
    exact .error state

/-- If one of them ends well, so does the other. -/
theorem Matches.exists_ok {y : EStateM.Result Error σ' β'} {b : β} (h : Matches R E S (.ok b s) y) :
    ∃ c t, y = .ok c t ∧ S b c ∧ R s t := by
  cases h with
  | ok result state => exact ⟨_, _, rfl, result, state⟩

/-- What is made of the result of one of them leaves them matched. -/
theorem Matches.then_pure {p : Action σ β} {y : EStateM.Result Error σ' β'} {f : β → γ}
    {T : γ → β' → Prop} (h : Matches R E S (p s) y) (hf : ∀ b c, S b c → T (f b) c) :
    Matches R E T ((p >>= fun b => pure (f b)) s) y := by
  generalize hp : p s = x at h
  cases h with
  | ok result state =>
    rw [bind_of_ok hp]
    exact .ok (hf _ _ result) state
  | error state =>
    rw [bind_of_error hp]
    exact .error state

theorem Matches.focus {Q F : ρ → ρ' → Prop} {part : σ → ρ} {replace : ρ → σ → σ} {part' : σ' → ρ'}
    {replace' : ρ' → σ' → σ'} {p : Action ρ β} {q : Action ρ' β'}
    (h : Matches Q F S (p (part s)) (q (part' t)))
    (hok : ∀ r r', Q r r' → R (replace r s) (replace' r' t))
    (herror : ∀ r r', F r r' → E (replace r s) (replace' r' t)) :
    Matches R E S (Action.focus part replace p s) (Action.focus part' replace' q t) := by
  generalize hp : p (part s) = x at h
  generalize hq : q (part' t) = y at h
  cases h with
  | ok result state =>
    rw [focus_of_ok hp, focus_of_ok hq]
    exact .ok result (hok _ _ state)
  | error state =>
    rw [focus_of_error hp, focus_of_error hq]
    exact .error (herror _ _ state)

/-- The same where only one of them works on a part of its state. -/
theorem Matches.focus_left {Q F : ρ → σ' → Prop} {part : σ → ρ} {replace : ρ → σ → σ}
    {p : Action ρ β} {y : EStateM.Result Error σ' β'} (h : Matches Q F S (p (part s)) y)
    (hok : ∀ r t, Q r t → R (replace r s) t) (herror : ∀ r t, F r t → E (replace r s) t) :
    Matches R E S (Action.focus part replace p s) y := by
  generalize hp : p (part s) = x at h
  cases h with
  | ok result state =>
    rw [focus_of_ok hp]
    exact .ok result (hok _ _ state)
  | error state =>
    rw [focus_of_error hp]
    exact .error (herror _ _ state)

theorem Matches.mono {E' : σ → σ' → Prop} {S' : β → β' → Prop} {x : EStateM.Result Error σ β}
    {y : EStateM.Result Error σ' β'} (h : Matches R E S x y) (hok : ∀ s t, R s t → R' s t)
    (herror : ∀ s t, E s t → E' s t) (hresult : ∀ b c, S b c → S' b c) : Matches R' E' S' x y := by
  cases h with
  | ok result state => exact .ok (hresult _ _ result) (hok _ _ state)
  | error state => exact .error (herror _ _ state)

theorem Matches.symm {x : EStateM.Result Error σ β} {y : EStateM.Result Error σ' β'}
    (h : Matches R E S x y) :
    Matches (fun t s => R s t) (fun t s => E s t) (fun c b => S b c) y x := by
  cases h with
  | ok result state => exact .ok result state
  | error state => exact .error state

theorem Matches.trans {σ'' : Type} {β'' : Type} {Q : σ' → σ'' → Prop} {F : σ' → σ'' → Prop}
    {S' : β' → β'' → Prop} {x : EStateM.Result Error σ β} {y : EStateM.Result Error σ' β'}
    {z : EStateM.Result Error σ'' β''} (h : Matches R E S x y) (h' : Matches Q F S' y z) :
    Matches (fun s u => ∃ t, R s t ∧ Q t u) (fun s u => ∃ t, E s t ∧ F t u) (fun b d => ∃ c, S b c ∧
      S' c d) x z := by
  cases h with
  | ok result state =>
    cases h' with
    | ok result' state' => exact .ok ⟨_, result, result'⟩ ⟨_, state, state'⟩
  | error state =>
    cases h' with
    | error state' => exact .error ⟨_, state, state'⟩

/-- What one of them keeps holds at its end. -/
theorem Matches.keeps {P : σ → Prop} {p : Action σ β} {y : EStateM.Result Error σ' β'}
    (h : Matches R E S (p s) y) (hp : Keeps P p) (hs : P s) :
    Matches (fun s t => R s t ∧ P s) E S (p s) y := by
  have hafter := hp s hs
  unfold after at hafter
  generalize p s = x at h hafter
  cases h with
  | ok result state => exact .ok result ⟨state, hafter⟩
  | error state => exact .error state

theorem matches_forM {δ : Type} {xs : List δ} {f : δ → Action σ PUnit} {g : δ → Action σ' PUnit}
    (hf : ∀ x ∈ xs, ∀ s t, R s t → Matches R E (fun _ _ => True) (f x s) (g x t)) (h : R s t) :
    Matches R E (fun _ _ => True) (xs.forM f s) (xs.forM g t) := by
  induction xs generalizing s t with
  | nil => exact .ok trivial h
  | cons x xs ih =>
    simp only [List.forM_eq_forM, List.forM_cons] at ih ⊢
    exact (hf x (by simp) s t h).bind fun _ _ _ _ _ h' => ih (fun y hy => hf y (by simp [hy])) h'

theorem matches_mapM {δ : Type} {xs : List δ} {f : δ → Action σ β} {g : δ → Action σ' β}
    (hf : ∀ x ∈ xs, ∀ s t, R s t → Matches R E Eq (f x s) (g x t)) (h : R s t) :
    Matches R E Eq (xs.mapM f s) (xs.mapM g t) := by
  induction xs generalizing s t with
  | nil => exact .ok rfl h
  | cons x xs ih =>
    rw [List.mapM_cons, List.mapM_cons]
    refine (hf x (by simp) s t h).bind fun b _ _ _ hb h' => ?_
    refine (ih (fun y hy => hf y (by simp [hy])) h').bind fun bs _ _ _ hbs h'' => ?_
    subst hb hbs
    exact .ok rfl h''

/-- A loop over the same elements, of which one counts what it has done. -/
theorem matches_foldlM_forM {δ : Type} {xs : List δ} {f : γ → δ → Action σ γ}
    {g : δ → Action σ' PUnit}
    (hf : ∀ x ∈ xs, ∀ c s t, R s t → Matches R E (fun _ _ => True) (f c x s) (g x t))
    {c : γ} (h : R s t) : Matches R E (fun _ _ => True) (xs.foldlM f c s) (xs.forM g t) := by
  induction xs generalizing c s t with
  | nil => exact .ok trivial h
  | cons x xs ih =>
    rw [List.foldlM_cons]
    simp only [List.forM_eq_forM, List.forM_cons] at ih ⊢
    exact (hf x (by simp) c s t h).bind fun c' _ s' t' _ h' =>
      ih (fun y hy => hf y (by simp [hy])) h'

end Matches

/-- What an action ends with, where its state is changed. -/
def mapState (change : σ → σ) : EStateM.Result Error σ β → EStateM.Result Error σ β
  | .ok b s => .ok b (change s)
  | .error e s => .error e (change s)

/-- From the states with a property, which it keeps, an action is blind to a change of its state: it
finds the same or fails with the same error, and ends in the changed state. -/
structure Blind (P : σ → Prop) (change : σ → σ) (p : Action σ β) : Prop where
  keeps : Keeps P p
  sees : ∀ s, P s → p (change s) = mapState change (p s)

section Blind

variable {P : σ → Prop} {change : σ → σ}

theorem blind_pure (b : β) : Blind P change (pure b : Action σ β) := ⟨keeps_pure b, fun _ _ => rfl⟩

theorem Blind.congr {change' : σ → σ} {p : Action σ β} (h : Blind P change p)
    (hchange : ∀ s, P s → change s = change' s) : Blind P change' p := by
  refine ⟨h.keeps, fun s hs => ?_⟩
  have hkept := h.keeps s hs
  rw [← hchange s hs, h.sees s hs]
  cases hp : p s with
  | ok b s' =>
    rw [after_of_ok hp] at hkept
    exact congrArg (EStateM.Result.ok b) (hchange s' hkept)
  | error e s' =>
    rw [after_of_error hp] at hkept
    exact congrArg (EStateM.Result.error e) (hchange s' hkept)

theorem blind_id (p : Action σ β) : Blind (fun _ => True) id p := by
  refine ⟨fun _ _ => trivial, fun s _ => ?_⟩
  unfold mapState
  cases hp : p s <;> exact hp

theorem blind_throw (e : Error) : Blind P change (throw e : Action σ β) :=
  ⟨keeps_throw e, fun _ _ => rfl⟩

theorem blind_read {f : σ → Except Error β} (hf : ∀ s, P s → f (change s) = f s) :
    Blind P change (read f) := by
  refine ⟨keeps_read f, fun s hs => ?_⟩
  unfold read
  rw [hf s hs]
  cases f s <;> rfl

theorem blind_update {f : σ → Except Error σ} (hkeeps : Keeps P (update f))
    (hf : ∀ s, P s → f (change s) = (f s).map change) : Blind P change (update f) := by
  refine ⟨hkeeps, fun s hs => ?_⟩
  unfold update
  rw [hf s hs]
  cases f s <;> rfl

theorem blind_modify {f : σ → σ} (hkeeps : ∀ s, P s → P (f s))
    (hf : ∀ s, P s → f (change s) = change (f s)) : Blind P change (modify f : Action σ PUnit) := by
  refine ⟨keeps_modify hkeeps, fun s hs => ?_⟩
  rw [modify_apply, modify_apply, hf s hs]
  rfl

/-- What comes next has to be blind where it is come to. -/
theorem Blind.bind {p : Action σ β} {f : β → Action σ γ} (h : Blind P change p)
    (hf : ∀ s b s', P s → p s = .ok b s' → Blind P change (f b)) : Blind P change (p >>= f) := by
  refine ⟨fun s hs => ?_, fun s hs => ?_⟩
  · have hkept := h.keeps s hs
    cases hp : p s with
    | ok b s' =>
      rw [after_of_ok hp] at hkept
      rw [after_bind_of_ok hp]
      exact (hf s b s' hs hp).keeps s' hkept
    | error e s' =>
      rw [after_of_error hp] at hkept
      rw [after_of_error (bind_of_error hp)]
      exact hkept
  · have hkept := h.keeps s hs
    have hsees := h.sees s hs
    cases hp : p s with
    | ok b s' =>
      rw [hp] at hsees
      rw [after_of_ok hp] at hkept
      rw [bind_of_ok hsees, bind_of_ok hp]
      exact (hf s b s' hs hp).sees s' hkept
    | error e s' =>
      rw [hp] at hsees
      rw [bind_of_error hsees, bind_of_error hp]
      rfl

theorem Blind.focus {Q : ρ → Prop} {change' : ρ → ρ} {part : σ → ρ} {replace : ρ → σ → σ}
    {p : Action ρ β} (h : Blind Q change' p) (hpart : ∀ s, P s → Q (part s))
    (hreplace : ∀ s r, P s → Q r → P (replace r s))
    (hchange : ∀ s, P s → part (change s) = change' (part s))
    (hback : ∀ s r, P s → Q r → replace (change' r) (change s) = change (replace r s)) :
    Blind P change (Action.focus part replace p) := by
  refine ⟨h.keeps.focus hpart fun s r hs hr => hreplace s r hs hr, fun s hs => ?_⟩
  have hkept := h.keeps (part s) (hpart s hs)
  have hsees := h.sees (part s) (hpart s hs)
  unfold Action.focus
  rw [hchange s hs, hsees]
  cases hp : p (part s) with
  | ok b r =>
    rw [after_of_ok hp] at hkept
    exact congrArg (EStateM.Result.ok b) (hback s r hs hkept)
  | error e r =>
    rw [after_of_error hp] at hkept
    exact congrArg (EStateM.Result.error e) (hback s r hs hkept)

theorem blind_forM {δ : Type} {xs : List δ} {f : δ → Action σ PUnit}
    (hf : ∀ x ∈ xs, Blind P change (f x)) : Blind P change (xs.forM f) := by
  induction xs with
  | nil => exact blind_pure _
  | cons x xs ih =>
    simp only [List.forM_eq_forM, List.forM_cons] at ih ⊢
    exact (hf x (by simp)).bind fun _ _ _ _ _ => ih fun y hy => hf y (by simp [hy])

theorem blind_foldlM {δ : Type} {xs : List δ} {f : γ → δ → Action σ γ}
    (hf : ∀ c, ∀ x ∈ xs, Blind P change (f c x)) (c : γ) : Blind P change (xs.foldlM f c) := by
  induction xs generalizing c with
  | nil => exact blind_pure _
  | cons x xs ih =>
    rw [List.foldlM_cons]
    exact (hf c x (by simp)).bind fun _ d _ _ _ => ih (fun c y hy => hf c y (by simp [hy])) d

end Blind

end LayerGraph.Action
