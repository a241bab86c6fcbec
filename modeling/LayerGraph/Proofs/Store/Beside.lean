import LayerGraph.Proofs.Lockstep
import LayerGraph.Proofs.Store.Request
import LayerGraph.Proofs.Store.Tables

/-!
# Registering with other buffers

A tensor can be registered with a buffer of its own or with that of another. Either way it gets the
same position, name and shape, so two stores that are filled in the same order differ in nothing but
the buffers.
-/

namespace LayerGraph

variable {α : Type}

/-- What of an entry does not depend on its buffer. -/
def TensorRecord.face (e : TensorRecord α) : String × Shape := (e.name, e.shape)

namespace Store

open LayerGraph.Action (Follows)

variable {s t : Store α} {known : TensorRef → Shape → Prop} {id : TensorRef} {name : String}
  {shape : Shape}

/-- The tensor is registered with this shape. -/
def HasShape (s : Store α) (id : TensorRef) (shape : Shape) : Prop :=
  ∃ e, s.entries[id]? = some e ∧ e.shape = shape

theorem hasShape_iff : s.HasShape id shape ↔ ∃ name, (s.entries.map (·.face))[id]? =
    some (name, shape) := by
  rw [List.getElem?_map]
  constructor
  · rintro ⟨e, he, rfl⟩
    exact ⟨e.name, by rw [he]; rfl⟩
  · rintro ⟨name, h⟩
    obtain ⟨e, he, hface⟩ := Option.map_eq_some_iff.mp h
    exact ⟨e, he, congrArg Prod.snd hface⟩

/-- Tensors keep their shapes where others are added. -/
theorem HasShape.mono (h : s.HasShape id shape) {faces : List (String × Shape)}
    (hfaces : t.entries.map (·.face) = s.entries.map (·.face) ++ faces) : t.HasShape id shape := by
  obtain ⟨name, hat⟩ := hasShape_iff.mp h
  refine hasShape_iff.mpr ⟨name, ?_⟩
  rw [hfaces, List.getElem?_append_left (List.getElem?_eq_some_iff.mp hat).1]
  exact hat

/-- A grounded store that holds the tensors that are known, and in which an alias has the shape of
the root that it stands for. -/
structure Firm (known : TensorRef → Shape → Prop) (s : Store α) : Prop where
  grounded : Grounded s
  level : ∀ e ∈ s.entries, ∀ r, e.source = some r → s.HasShape r e.shape
  known : ∀ id shape, known id shape → s.HasShape id shape

theorem tabular_firm (known : TensorRef → Shape → Prop) : Tabular (Firm (α := α) known) where
  added s e hadd h := by
    have hmono : ∀ {id shape}, s.HasShape id shape →
        HasShape { s with entries := s.entries ++ [e] } id shape :=
      fun h => h.mono (List.map_append ..)
    refine ⟨tabular_grounded.added s e hadd h.grounded, fun e' he' r hr => ?_,
      fun id shape hk => hmono (h.known id shape hk)⟩
    rcases List.mem_append.mp he' with he' | he'
    · exact hmono (h.level e' he' r hr)
    · obtain rfl := List.mem_singleton.mp he'
      cases hadd with
      | own source =>
        rw [source] at hr
        cases hr
      | @shared id root e₀ name hroot hentry =>
        cases hr
        exact hmono ⟨e₀, entry_eq_ok_iff.mp hentry, rfl⟩
  timed s id steps h := by
    have hfaces := map_modify_eq (f := TensorRecord.face) (g :=
      fun e => { e with steps := steps e }) (fun _ => by rfl) s.entries id
    have hmono : ∀ {i sh}, s.HasShape i sh →
        HasShape { s with entries := s.entries.modify id fun e => { e with steps := steps e } }
          i sh := fun h =>
      h.mono (hfaces.trans (List.append_nil _).symm)
    refine ⟨tabular_grounded.timed s id steps h.grounded, fun e he r hr => ?_,
      fun i sh hk => hmono (h.known i sh hk)⟩
    obtain ⟨i, hi⟩ := List.getElem?_of_mem he
    rw [List.getElem?_modify] at hi
    obtain ⟨e₀, he₀, rfl⟩ := Option.map_eq_some_iff.mp hi
    have hlevel := h.level e₀ (List.mem_of_getElem? he₀)
    split at hr
    · next heq =>
      rw [if_pos heq]
      exact hmono (hlevel r hr)
    · next hne =>
      rw [if_neg hne]
      exact hmono (hlevel r hr)
  weights s weights hold h := ⟨⟨h.grounded.rooted, h.grounded.fixed⟩, h.level, h.known⟩

/-- Two stores with the same tensors and the same weights. -/
structure Beside (known : TensorRef → Shape → Prop) (s t : Store α) : Prop where
  faces : t.entries.map (·.face) = s.entries.map (·.face)
  weights : t.weights = s.weights
  maxStep : t.maxStep = s.maxStep
  left : Firm known s
  right : Firm known t

theorem Beside.symm (h : Beside known s t) : Beside known t s :=
  ⟨h.faces.symm, h.weights.symm, h.maxStep.symm, h.right, h.left⟩

section Adds

/-- No tensor has this name yet. -/
def IsNew (s : Store α) (name : String) : Prop := ∀ face ∈ s.entries.map (·.face), face.1 ≠ name

/-- One more tensor is registered. -/
structure Appended (s s' : Store α) (name : String) (shape : Shape) : Prop where
  faces : s'.entries.map (·.face) = s.entries.map (·.face) ++ [(name, shape)]
  weights : s'.weights = s.weights
  maxStep : s'.maxStep = s.maxStep

/-- The action registers one more tensor, unless its name is taken. -/
structure Adds (known : TensorRef → Shape → Prop) (name : String) (shape : Shape)
    (p : Action (Store α) TensorRef) : Prop where
  isNew : ∀ s id s', p s = .ok id s' → s.IsNew name
  appends : ∀ s, Firm known s → s.IsNew name → ∃ s', p s = .ok s.entries.length s' ∧
    Appended s s' name shape ∧ Firm known s'

theorem push_iff {e : TensorRecord α} : (∃ id s', push e s = .ok id s') ↔ s.IsNew e.name := by
  have hany : (s.entries.any (·.name == e.name) = true) ↔ ¬s.IsNew e.name := by
    simp [IsNew, TensorRecord.face]
  unfold push
  constructor
  · rintro ⟨id, s', h⟩
    split at h
    · cases h
    · next hnone => exact not_not.mp fun hold => hnone (hany.mpr hold)
  · intro hnew
    rw [if_neg fun h => hany.mp h hnew]
    exact ⟨_, _, rfl⟩

theorem push_of_isNew {e : TensorRecord α} (h : s.IsNew e.name) :
    push e s = .ok s.entries.length { s with entries := s.entries ++ [e] } := by
  obtain ⟨id, s', hp⟩ := push_iff.mpr h
  obtain ⟨rfl, rfl⟩ := push_eq_ok hp
  exact hp

theorem adds_push {e : TensorRecord α} (hface : e.face = (name, shape)) (hsource : e.source = none)
    (hfixed : e.role.isKept = true → e.batched = false) : Adds known name shape (push e) := by
  cases hface
  refine ⟨fun s id s' h => push_iff.mp ⟨id, s', h⟩,
    fun s hs hnew => ⟨_, push_of_isNew hnew, ?_, ?_⟩⟩
  · exact ⟨List.map_append .., rfl, rfl⟩
  · exact (tabular_firm known).added s e (.own hsource hfixed) hs

theorem adds_request (initializer : Initializer α) (lifetime : Lifetime) {role : Role}
    (hrole : role.isKept = false) (steps : List Nat) :
    Adds known name shape (request name shape initializer lifetime role steps) := by
  have hpush : ∀ s : Store α,
      Adds known name shape (push (⟨name, shape, true, initializer, lifetime, role,
      if role = .external ∨ lifetime = .run then [0, s.maxStep] else steps,
      none⟩ : TensorRecord α)) := fun s =>
    adds_push rfl rfl fun h => Bool.noConfusion (hrole.symm.trans h)
  exact ⟨fun s id s' h => (hpush s).isNew s id s' h, fun s => (hpush s).appends s⟩

theorem exists_root (h : Grounded s) {e : TensorRecord α} (he : s.entries[id]? = some e) :
    ∃ root e', s.root id = .ok root ∧ s.entries[root]? = some e' ∧ e'.source = none := by
  have hroot : s.root id = .ok (s.rootOf id) := root_eq_ok_iff.mpr ⟨⟨e, he⟩, rfl⟩
  obtain ⟨e', he', hs⟩ := h.source_of_root hroot
  exact ⟨_, e', hroot, he', hs⟩

/-- The root of a tensor has its shape. -/
theorem Firm.shape_of_root (h : Firm known s) {root : TensorRef} (hid : s.HasShape id shape)
    (hroot : s.root id = .ok root) : s.HasShape root shape := by
  obtain ⟨e, he, rfl⟩ := hid
  obtain ⟨-, rfl⟩ := root_eq_ok_iff.mp hroot
  cases hs : e.source with
  | none =>
    rw [rootOf_of_source_eq_none he hs]
    exact ⟨e, he, rfl⟩
  | some r =>
    rw [rootOf_of_source_eq_some he hs]
    exact h.level e (List.mem_of_getElem? he) r hs

/-- The steps of use do not show. -/
theorem addSteps_of_entry (h : Firm known s) {e : TensorRecord α} (he : s.entries[id]? = some e)
    (steps : List Nat) :
    ∃ s', addSteps id steps s = .ok () s' ∧ s'.entries.map (·.face) = s.entries.map (·.face) ∧
      s'.weights = s.weights ∧ s'.maxStep = s.maxStep ∧ Firm known s' := by
  obtain ⟨root, e', hroot, he', -⟩ := exists_root h.grounded he
  refine ⟨_, Action.update_of_ok (except_bind_eq_ok_iff.mpr ⟨root, hroot, rfl⟩), ?_, rfl, rfl, ?_⟩
  · exact map_modify_eq (f := TensorRecord.face) (fun _ => by rfl) s.entries root
  · exact (tabular_firm known).timed s root (fun e => e.steps ++ steps) h

theorem adds_requestShared (hknown : known id shape) (steps : List Nat) :
    Adds (α := α) known name shape (requestShared id name steps) where
  isNew s i s' h := by
    obtain ⟨root, _, hread, h⟩ := Action.bind_eq_ok_iff.mp h
    obtain ⟨-, rfl⟩ := Action.read_eq_ok_iff.mp hread
    obtain ⟨e, _, hread, h⟩ := Action.bind_eq_ok_iff.mp h
    obtain ⟨-, rfl⟩ := Action.read_eq_ok_iff.mp hread
    obtain ⟨j, s₁, hpush, -⟩ := Action.bind_eq_ok_iff.mp h
    exact push_iff.mp ⟨j, s₁, hpush⟩
  appends s hs hnew := by
    obtain ⟨e, he, hshape⟩ := hs.known id shape hknown
    obtain ⟨root, e', hroot, he', hsource⟩ := exists_root hs.grounded he
    have hshape' : e'.shape = shape := by
      obtain ⟨e'', he'', heq⟩ := hs.shape_of_root ⟨e, he, hshape⟩ hroot
      rw [he'] at he''
      cases he''
      exact heq
    let shared : TensorRecord α := { e' with name := name, steps := [], source := some root }
    have hadded : Firm known { s with entries := s.entries ++ [shared] } :=
      (tabular_firm known).added s shared (.shared name hroot (entry_eq_ok_iff.mpr he')) hs
    have hat : (s.entries ++ [shared])[s.entries.length]? = some shared :=
      List.getElem?_concat_length
    obtain ⟨s', hsteps, hfaces, hweights, hmax, hfirm⟩ := addSteps_of_entry hadded hat steps
    refine ⟨s', ?_, ⟨?_, hweights, hmax⟩, hfirm⟩
    · refine Action.bind_eq_ok_iff.mpr ⟨root, s, Action.read_of_ok hroot, ?_⟩
      refine Action.bind_eq_ok_iff.mpr ⟨e', s, Action.read_of_ok (entry_eq_ok_iff.mpr he'), ?_⟩
      refine Action.bind_eq_ok_iff.mpr ⟨_, _, push_of_isNew (e := shared) hnew, ?_⟩
      exact Action.bind_eq_ok_iff.mpr ⟨⟨⟩, s', hsteps, rfl⟩
    · rw [hfaces, List.map_append, List.map_singleton, ← hshape']
      rfl

/-- What registers the same tensor keeps two stores beside each other. -/
theorem Adds.follows {p q : Action (Store α) TensorRef} (hp : Adds known name shape p)
    (hq : Adds known name shape q) : Follows (Beside known) p q Eq := by
  intro s t id s' h hrun
  have hnew := hp.isNew s id s' hrun
  have hnew' : t.IsNew name := by
    unfold IsNew
    rw [h.faces]
    exact hnew
  obtain ⟨_, hrun₁, happ, hfirm⟩ := hp.appends s h.left hnew
  rw [hrun] at hrun₁
  cases hrun₁
  obtain ⟨t', hrun', happ', hfirm'⟩ := hq.appends t h.right hnew'
  have hlength : t.entries.length = s.entries.length := by simpa using congrArg List.length h.faces
  refine ⟨_, t', hrun', ⟨?_, ?_, ?_, hfirm, hfirm'⟩, hlength.symm⟩
  · rw [happ'.faces, happ.faces, h.faces]
  · rw [happ'.weights, happ.weights, h.weights]
  · rw [happ'.maxStep, happ.maxStep, h.maxStep]

end Adds

section Weights

theorem follows_addSteps_beside (hknown : known id shape) (steps : List Nat) :
    Follows (Beside (α := α) known) (addSteps id steps) (addSteps id steps) Eq := by
  intro s t u s' h hrun
  obtain ⟨e, he, -⟩ := h.left.known id shape hknown
  obtain ⟨e', he', -⟩ := h.right.known id shape hknown
  obtain ⟨_, hrun₁, hfaces, hweights, hmax, hfirm⟩ := addSteps_of_entry h.left he steps
  rw [hrun] at hrun₁
  cases hrun₁
  obtain ⟨t', hrun', hfaces', hweights', hmax', hfirm'⟩ := addSteps_of_entry h.right he' steps
  exact ⟨(), t', hrun', ⟨by rw [hfaces', hfaces, h.faces], by rw [hweights', hweights, h.weights],
    by rw [hmax', hmax, h.maxStep], hfirm, hfirm'⟩, rfl⟩

/-- A change of the steps of an entry. -/
theorem Beside.timed (h : Beside known s t) (id : TensorRef) (steps : List Nat) :
    Beside known
      { s with entries := s.entries.modify id fun e => { e with steps := e.steps ++ steps } }
      { t with entries := t.entries.modify id fun e => { e with steps := e.steps ++ steps } } := by
  have hfaces : ∀ s : Store α,
      (s.entries.modify id fun e => { e with steps := e.steps ++ steps }).map (·.face) =
      s.entries.map (·.face) :=
        fun s => map_modify_eq (f := TensorRecord.face) (fun _ => by rfl) s.entries id
  have hfirm := (tabular_firm (α := α) known).timed
  exact ⟨by rw [hfaces, hfaces, h.faces], h.weights, h.maxStep,
    hfirm s id (fun e => e.steps ++ steps) h.left, hfirm t id (fun e => e.steps ++ steps) h.right⟩

/-- A change of a weight that leaves its state alone. -/
theorem Beside.modifyWeight (h : Beside known s t) (w : WeightRef) {f : WeightRecord → WeightRecord}
    (hf : ∀ r, (f r).optimizerState = r.optimizerState) :
    Beside known { s with weights := s.weights.modify w f }
      { t with weights := t.weights.modify w f } :=
  ⟨h.faces, by rw [h.weights], h.maxStep, (tabular_firm known).modify h.left w f hf,
    (tabular_firm known).modify h.right w f hf⟩

theorem Beside.weight (h : Beside known s t) (w : WeightRef) : t.weight w = s.weight w := by
  unfold Store.weight
  rw [h.weights]

/-- A tensor has the same shape in both. -/
theorem Beside.hasShape (h : Beside known s t) : t.HasShape id shape ↔ s.HasShape id shape := by
  rw [hasShape_iff, hasShape_iff, h.faces]

theorem follows_joinWeight_beside (name : String) (shape : Shape) (initializer : Initializer α)
    (trainable : Bool) : Follows (Beside known) (joinWeight name shape initializer trainable)
      (joinWeight name shape initializer trainable) Eq := by
  refine Action.follows_get_bind fun s t h => ?_
  have hfind : t.findWeight? name = s.findWeight? name := by
    unfold findWeight?
    rw [h.weights]
  rw [hfind]
  cases s.findWeight? name with
  | some w =>
    refine (Action.follows_read (S := Eq) fun s t r h hr => ⟨r, (h.weight w).trans hr, rfl⟩).bind
      fun r _ hr => ?_
    subst hr
    refine (Action.follows_read (S := fun e e' => e'.shape = e.shape) fun s t e h he => ?_).bind
      fun e e' hshape => ?_
    · obtain ⟨e', he', hshape⟩ := h.hasShape.mpr ⟨e, entry_eq_ok_iff.mp he, rfl⟩
      exact ⟨e', entry_eq_ok_iff.mpr he', hshape⟩
    refine Action.Follows.guard (by rw [hshape]; exact id) ?_
    exact (Action.follows_modify fun s t h => h.modifyWeight w fun _ => rfl).bind fun _ _ _ =>
      Action.follows_pure rfl
  | none =>
    have hadds : Adds known name shape
        (push (⟨name, shape, false, initializer, .run, .weight, [], none⟩ :
        TensorRecord α)) := adds_push rfl rfl fun _ => rfl
    refine (hadds.follows hadds).bind fun value _ hvalue => ?_
    subst hvalue
    intro s t w s' h hrun
    cases hrun
    have hnew : ∀ s : Store α, Firm known s →
        Firm known { s with weights := s.weights ++ [⟨name, value, none, trainable, [], []⟩] } := by
      refine fun s hs => (tabular_firm known).weights s _ (fun r hr => ?_) hs
      rcases List.mem_append.mp hr with hr | hr
      · exact .inr ⟨r, hr, rfl⟩
      · exact .inl (by rw [List.mem_singleton.mp hr])
    refine ⟨_, _, rfl, ⟨h.faces, ?_, h.maxStep, hnew s h.left, hnew t h.right⟩, by rw [h.weights]⟩
    rw [h.weights]

theorem follows_gradientOf_beside (w : WeightRef) (name : String) (shape : Shape) :
    Follows (Beside (α := α) known) (gradientOf w name shape) (gradientOf w name shape) Eq := by
  refine (Action.follows_read (S := Eq) fun s t r h hr => ⟨r, (h.weight w).trans hr, rfl⟩).bind
    fun r _ hr => ?_
  subst hr
  cases r.gradient with
  | some g => exact Action.follows_pure rfl
  | none =>
    have hadds : Adds known (name ++ ":grad") shape
        (push (⟨name ++ ":grad", shape, false, .zeros, .backward, .gradient, [],
        none⟩ : TensorRecord α)) := adds_push rfl rfl fun _ => rfl
    refine (hadds.follows hadds).bind fun g _ hg => ?_
    subst hg
    exact (Action.follows_modify fun s t h => h.modifyWeight w fun _ => rfl).bind fun _ _ _ =>
      Action.follows_pure rfl

theorem follows_useWeight_beside (name : String) (shape : Shape) (initializer : Initializer α)
    (trainable : Bool) (forwardStep : Nat) (gradientStep : Option Nat) :
    Follows (Beside known) (useWeight name shape initializer trainable forwardStep gradientStep)
      (useWeight name shape initializer trainable forwardStep gradientStep) Eq := by
  refine (follows_joinWeight_beside _ _ _ _).bind fun w _ hw => ?_
  subst hw
  refine (Action.follows_read (S := Eq) fun s t r h hr => ⟨r, (h.weight w).trans hr, rfl⟩).bind
    fun r _ hr => ?_
  subst hr
  refine (Action.follows_modify fun s t h => h.timed r.value [forwardStep]).bind fun _ _ _ => ?_
  cases gradientStep with
  | none => exact Action.follows_pure rfl
  | some step =>
    dsimp only
    split
    · refine (follows_gradientOf_beside _ _ _).bind fun g _ hg => ?_
      subst hg
      refine (Action.follows_modify fun s t h => ?_).bind fun _ _ _ => Action.follows_pure rfl
      exact (h.timed g [step, step + 1]).modifyWeight w fun _ => rfl
    · exact Action.follows_pure rfl

end Weights

end Store

end LayerGraph
