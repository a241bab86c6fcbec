import LayerGraph.Network.Prepare
import LayerGraph.Proofs.Lockstep
import LayerGraph.Proofs.Store.Memory
import LayerGraph.Proofs.Store.Request

/-!
# Registering at another batch

What registers at one batch registers at any other: the tables are those of the first batch with the
batch axis of every batched entry set anew.
-/

namespace LayerGraph

variable {α : Type} {batch : Nat}

theorem TensorRecord.rebatched_rebatched (b c : Nat) (e : TensorRecord α) :
    (e.rebatched b).rebatched c = e.rebatched c := by
  cases h : e.batched with
  | false => rw [rebatched_of_fixed h]
  | true => simp [rebatched, h, Shape.rebatch]

theorem TensorRecord.name_rebatched (batch : Nat) (e : TensorRecord α) :
    (e.rebatched batch).name = e.name := by
  rw [rebatched_eq]

namespace Store

def rebatched (batch : Nat) (s : Store α) : Store α :=
  { s with entries := s.entries.map (·.rebatched batch) }

/-- The second store is the first at the given batch, and no weight has a batch axis. -/
structure Mirrors (batch : Nat) (s t : Store α) : Prop where
  eq : t = s.rebatched batch
  fixed : ∀ r ∈ s.weights, ∃ e, s.entries[r.value]? = some e ∧ e.batched = false

open LayerGraph.Action (Follows)

section Requests

theorem getElem?_rebatched (s : Store α) (id : Nat) :
    (s.rebatched batch).entries[id]? = (s.entries[id]?).map (·.rebatched batch) :=
  List.getElem?_map ..

theorem root_rebatched (s : Store α) (id : TensorRef) :
    (s.rebatched batch).root id = s.root id := by
  unfold root entry
  rw [getElem?_rebatched]
  cases s.entries[id]? with
  | none => rfl
  | some e =>
    rw [Option.map_some, TensorRecord.rebatched_eq]
    rfl

theorem entry_rebatched {s : Store α} {id : TensorRef} {e : TensorRecord α}
    (h : s.entry id = .ok e) : (s.rebatched batch).entry id = .ok (e.rebatched batch) := by
  rw [entry_eq_ok_iff] at h ⊢
  rw [getElem?_rebatched, h]
  rfl

theorem follows_push {e : TensorRecord α} :
    Follows (Mirrors batch) (push e) (push (e.rebatched batch)) Eq := by
  rintro s _ id s' ⟨rfl, hfixed⟩ hp
  have hnames : ((s.rebatched batch).entries.any fun e' => e'.name == (e.rebatched batch).name) =
      s.entries.any fun e' => e'.name == e.name := by
    unfold rebatched
    rw [List.any_map]
    refine congrArg (s.entries.any ·) (funext fun e' => ?_)
    rw [Function.comp_apply, TensorRecord.name_rebatched, TensorRecord.name_rebatched]
  unfold push at hp ⊢
  rw [hnames]
  split at hp
  · cases hp
  · next hnew =>
    cases hp
    rw [if_neg hnew]
    refine ⟨_, _, rfl, ⟨?_, fun r hr => ?_⟩, ?_⟩
    · simp [rebatched]
    · obtain ⟨e', he', hb⟩ := hfixed r hr
      exact ⟨e', by rw [List.getElem?_append_left (List.getElem?_eq_some_iff.mp he').1]; exact he',
        hb⟩
    · simp [rebatched]

/-- A change of the steps of an entry. -/
theorem mirrors_modify {s t : Store α} (h : Mirrors batch s t) (id : TensorRef)
    (f : List Nat → List Nat) :
    Mirrors batch { s with entries := s.entries.modify id fun e => { e with steps := f e.steps } }
      { t with entries := t.entries.modify id fun e => { e with steps := f e.steps } } := by
  obtain ⟨rfl, hfixed⟩ := h
  refine ⟨?_, fun r hr => ?_⟩
  · have hmap :=
      map_modify_comm (f := (·.rebatched batch)) (g := fun e => { e with steps := f e.steps })
      (k := fun e => { e with steps := f e.steps }) (fun e => ?_) s.entries id
    · unfold rebatched
      rw [hmap]
    · unfold TensorRecord.rebatched
      split <;> rfl
  · obtain ⟨e, he, hb⟩ := hfixed r hr
    refine ⟨_, by rw [List.getElem?_modify, he]; rfl, ?_⟩
    split <;> exact hb

/-- A change of a weight that keeps its value. -/
theorem mirrors_modifyWeight {s t : Store α} (h : Mirrors batch s t) (w : WeightRef)
    {f : WeightRecord → WeightRecord} (hf : ∀ r, (f r).value = r.value) :
    Mirrors batch { s with weights := s.weights.modify w f }
      { t with weights := t.weights.modify w f } := by
  obtain ⟨rfl, hfixed⟩ := h
  refine ⟨rfl, fun r hr => ?_⟩
  obtain ⟨i, hi⟩ := List.getElem?_of_mem hr
  rw [List.getElem?_modify] at hi
  obtain ⟨r₀, hr₀, rfl⟩ := Option.map_eq_some_iff.mp hi
  obtain ⟨e, he, hb⟩ := hfixed r₀ (List.mem_of_getElem? hr₀)
  refine ⟨e, ?_, hb⟩
  split
  · rw [hf]
    exact he
  · exact he

theorem follows_addSteps (id : TensorRef) (steps : List Nat) :
    Follows (Mirrors (α := α) batch) (addSteps id steps) (addSteps id steps) Eq := by
  refine Action.follows_update fun s t s' h hs => ?_
  obtain ⟨root, hroot, hs⟩ := except_bind_eq_ok_iff.mp hs
  cases hs
  rw [h.eq, root_rebatched, hroot]
  have := mirrors_modify h root (· ++ steps)
  rw [h.eq] at this
  exact ⟨_, rfl, this⟩

theorem follows_request (name : String) (shape : Shape) (initializer : Initializer α)
    (lifetime : Lifetime) (role : Role) (steps : List Nat) :
    Follows (Mirrors batch) (request name shape initializer lifetime role steps)
      (request name (shape.rebatch batch) initializer lifetime role steps) Eq := by
  refine Action.follows_get_bind fun s t h => ?_
  rw [h.eq]
  exact follows_push

theorem follows_requestShared (source : TensorRef) (name : String) (steps : List Nat) :
    Follows (Mirrors (α := α) batch) (requestShared source name steps)
      (requestShared source name steps) Eq := by
  refine (Action.follows_read (S := Eq) fun s t root h hroot => ⟨root, ?_, rfl⟩).bind
    fun root _ hroot => ?_
  · rw [h.eq, root_rebatched]
    exact hroot
  subst hroot
  refine (Action.follows_read (S := fun e e' => e' = e.rebatched batch) fun s t e h he =>
    ⟨_, by rw [h.eq]; exact entry_rebatched he, rfl⟩).bind fun e _ he => ?_
  subst he
  have hpush : ({ e with name := name, steps := [], source := some root } : TensorRecord
      α).rebatched batch =
      { e.rebatched batch with name := name, steps := [], source := some root } := by
    unfold TensorRecord.rebatched
    split <;> rfl
  rw [← hpush]
  refine follows_push.bind fun id _ hid => ?_
  subst hid
  exact (follows_addSteps id steps).bind fun _ _ _ => Action.follows_pure rfl

/-- A weight that is known has no batch axis, so its shape is the same at every batch. -/
theorem follows_joinWeight (name : String) (shape : Shape) (initializer : Initializer α)
    (trainable : Bool) : Follows (Mirrors batch) (joinWeight name shape initializer trainable)
      (joinWeight name shape initializer trainable) Eq := by
  intro s t w s' h hp
  have hfind : t.findWeight? name = s.findWeight? name := by
    rw [h.eq]
    rfl
  obtain ⟨_, _, hget, hp⟩ := Action.bind_eq_ok_iff.mp hp
  cases hget
  unfold joinWeight
  rw [Action.bind_of_ok (Action.get_apply t), hfind]
  cases hw : s.findWeight? name with
  | some w₀ =>
    rw [hw] at hp
    obtain ⟨r, _, hread, hp⟩ := Action.bind_eq_ok_iff.mp hp
    obtain ⟨hr, rfl⟩ := Action.read_eq_ok_iff.mp hread
    obtain ⟨e, _, hread, hp⟩ := Action.bind_eq_ok_iff.mp hp
    obtain ⟨he, rfl⟩ := Action.read_eq_ok_iff.mp hread
    obtain ⟨hshape, hp⟩ := Action.guard_eq_ok_iff.mp hp
    cases hp
    obtain ⟨e', he', hb⟩ := h.fixed r (List.mem_of_getElem? (weight_eq_ok_iff.mp hr))
    obtain rfl : e' = e := by
      rw [entry_eq_ok_iff.mp he] at he'
      exact (Option.some.inj he').symm
    have hr' : Action.read (fun s : Store α => s.weight w) t = .ok r t :=
      Action.read_of_ok (by rw [h.eq]; exact hr)
    have he' : Action.read (fun s : Store α => s.entry r.value) t = .ok e' t :=
      Action.read_of_ok (by rw [h.eq, entry_rebatched he, TensorRecord.rebatched_of_fixed hb])
    dsimp only
    rw [Action.bind_of_ok hr', Action.bind_of_ok he', if_neg hshape]
    exact ⟨w, _, rfl, mirrors_modifyWeight h w fun _ => by rfl, rfl⟩
  | none =>
    rw [hw] at hp
    obtain ⟨value, s₁, hpush, hp⟩ := Action.bind_eq_ok_iff.mp hp
    cases hp
    obtain ⟨_, t₁, hpush', h₁, rfl⟩ := follows_push s t value s₁ h hpush
    obtain ⟨rfl, rfl⟩ := push_eq_ok hpush
    dsimp only
    rw [TensorRecord.rebatched_of_fixed rfl] at hpush'
    rw [Action.bind_of_ok hpush']
    refine ⟨_, _, rfl, ⟨by rw [h₁.eq]; rfl, fun r hr => ?_⟩, by rw [h₁.eq]; rfl⟩
    rcases List.mem_append.mp hr with hr | hr
    · exact h₁.fixed r hr
    · obtain rfl := List.mem_singleton.mp hr
      exact ⟨_, List.getElem?_concat_length, rfl⟩

theorem follows_gradientOf (w : WeightRef) (name : String) (shape : Shape) :
    Follows (Mirrors (α := α) batch) (gradientOf w name shape) (gradientOf w name shape) Eq := by
  refine (Action.follows_read (S := Eq) fun s t r h hr => ⟨r, by rw [h.eq]; exact hr, rfl⟩).bind
    fun r _ hr => ?_
  subst hr
  cases r.gradient with
  | some g => exact Action.follows_pure rfl
  | none =>
    have hpush : Follows (Mirrors batch) _ _ Eq :=
      follows_push (e := (⟨name ++ ":grad", shape, false, .zeros, .backward,
      .gradient, [], none⟩ : TensorRecord α))
    rw [TensorRecord.rebatched_of_fixed rfl] at hpush
    refine hpush.bind fun g _ hg => ?_
    subst hg
    exact (Action.follows_modify fun s t h => mirrors_modifyWeight h w fun _ => by rfl).bind
      fun _ _ _ =>
      Action.follows_pure rfl

theorem follows_useWeight (name : String) (shape : Shape) (initializer : Initializer α)
    (trainable : Bool) (forwardStep : Nat) (gradientStep : Option Nat) :
    Follows (Mirrors batch) (useWeight name shape initializer trainable forwardStep gradientStep)
      (useWeight name shape initializer trainable forwardStep gradientStep) Eq := by
  refine (follows_joinWeight _ _ _ _).bind fun w _ hw => ?_
  subst hw
  refine (Action.follows_read (S := Eq) fun s t r h hr => ⟨r, by rw [h.eq]; exact hr, rfl⟩).bind
    fun r _ hr => ?_
  subst hr
  refine (Action.follows_modify fun s t h => mirrors_modify h r.value (· ++ [forwardStep])).bind
    fun _ _ _ => ?_
  cases gradientStep with
  | none => exact Action.follows_pure rfl
  | some step =>
    dsimp only
    split
    · refine (follows_gradientOf _ _ _).bind fun g _ hg => ?_
      subst hg
      refine (Action.follows_modify fun s t h => ?_).bind fun _ _ _ => Action.follows_pure rfl
      exact mirrors_modifyWeight (mirrors_modify h g (· ++ [step, step + 1])) w fun _ => by rfl
    · exact Action.follows_pure rfl

end Requests

end Store

def ScratchDecl.rebatched (batch : Nat) (decl : ScratchDecl α) : ScratchDecl α :=
  { decl with shape := decl.shape.rebatch batch }

/-- A declaration with another batch. -/
def Declaration.rebatched (batch : Nat) (d : Declaration α) : Declaration α where
  outputShapes := d.outputShapes.map (·.rebatch batch)
  weights := d.weights
  tensors := d.tensors.map (·.rebatched batch)
  label := d.label.map (·.rebatch batch)

namespace Network

open Store
open LayerGraph.Action (Follows)

variable (node : Node α) (use : BufferUse) (inputs : List Wire)

theorem follows_registerReads :
    Follows (Mirrors batch) (registerReads node inputs) (registerReads node inputs) Eq := by
  refine Action.follows_forM fun x _ => ?_
  refine (follows_addSteps _ _).bind fun _ _ _ => ?_
  cases x.derivative with
  | none => exact Action.follows_pure rfl
  | some d =>
    cases node.schedule.derivativeStep with
    | none => exact Action.follows_pure rfl
    | some t => exact follows_addSteps _ _

theorem follows_registerVariable (name : String) (shape : Shape) (steps : List Nat) :
    Follows (Mirrors batch) (registerVariable node use inputs name shape steps)
      (registerVariable node use inputs name (shape.rebatch batch) steps) Eq := by
  unfold registerVariable
  cases use <;> cases inputs.head? <;>
    first | exact follows_request _ _ _ _ _ _ | exact follows_requestShared _ _ _

theorem follows_registerDerivative (name : String) (shape : Shape) :
    Follows (Mirrors batch) (registerDerivative node use inputs name shape)
      (registerDerivative node use inputs name (shape.rebatch batch)) Eq := by
  have hsome : ∀ {p q : Action (Store α) TensorRef}, Follows (Mirrors batch) p q Eq →
      Follows (Mirrors batch) (do return some (← p)) (do return some (← q)) Eq := fun h =>
    h.bind fun _ _ heq => Action.follows_pure (congrArg some heq)
  unfold registerDerivative
  split
  · cases use <;> cases inputs.head?.bind (·.derivative) <;>
      first | exact hsome (follows_request _ _ _ _ _ _) | exact hsome (follows_requestShared _ _ _)
  · exact Action.follows_pure rfl

theorem follows_registerOutput (steps : List Nat) (output : Shape × Nat) :
    Follows (Mirrors batch) (registerOutput node use inputs steps output)
      (registerOutput node use inputs steps (output.1.rebatch batch, output.2)) Eq := by
  refine (follows_registerVariable node use inputs _ _ _).bind fun value _ hv => ?_
  refine (follows_registerDerivative node use inputs _ _).bind fun derivative _ hd => ?_
  rw [hv, hd]
  exact Action.follows_pure rfl

theorem follows_registerLabel (label : Option Shape) :
    Follows (Mirrors batch) (registerLabel node label)
      (registerLabel node (label.map (·.rebatch batch))) Eq := by
  cases label with
  | none => exact Action.follows_pure rfl
  | some shape =>
    exact (follows_request _ _ _ _ _ _).bind fun _ _ h => Action.follows_pure (congrArg some h)

theorem follows_registerWeight (owner : String) (decl : WeightDecl α) :
    Follows (Mirrors batch) (registerWeight node owner decl) (registerWeight node owner decl) Eq :=
  follows_useWeight _ _ _ _ _ _

theorem follows_registerScratch (decl : ScratchDecl α) :
    Follows (Mirrors batch) (registerScratch node decl)
      (registerScratch node (decl.rebatched batch)) Eq := by
  refine Action.follows_get_bind fun s t h => ?_
  rw [show t.maxStep = s.maxStep by rw [h.eq]; rfl]
  exact follows_request _ decl.shape decl.initializer decl.lifetime _ _

/-- What a node registers at one batch it registers at any other, under the same handles. -/
theorem follows_register (owner : String) (size : Nat) (declared : Declaration α) :
    Follows (Mirrors batch) (register node use owner size inputs declared)
      (register node use owner size inputs (declared.rebatched batch)) Eq := by
  have hzip : (declared.rebatched batch).outputShapes.zipIdx =
      declared.outputShapes.zipIdx.map fun output => (output.1.rebatch batch, output.2) := by
    simp [Declaration.rebatched, List.zipIdx_map, Prod.map]
  have houtputs : ∀ steps, Follows (Mirrors batch)
      (declared.outputShapes.zipIdx.mapM (registerOutput node use inputs steps))
      ((declared.rebatched batch).outputShapes.zipIdx.mapM (registerOutput node use inputs steps))
        Eq := by
    intro steps
    rw [hzip]
    exact Action.follows_mapM _ (g := registerOutput node use inputs steps) fun output _ =>
      follows_registerOutput node use inputs steps output
  have hweights : Follows (Mirrors batch) (declared.weights.mapM (registerWeight node owner))
      (declared.weights.mapM (registerWeight node owner)) Eq := by
    have hone : ∀ decl ∈ declared.weights, Follows (Mirrors batch) (registerWeight node owner decl)
        (registerWeight node owner decl) Eq := fun decl _ => follows_registerWeight node owner decl
    have := Action.follows_mapM id (g := registerWeight node owner) hone
    rwa [List.map_id] at this
  have hscratch : Follows (Mirrors batch) (declared.tensors.mapM (registerScratch node))
      ((declared.rebatched batch).tensors.mapM (registerScratch node)) Eq :=
    Action.follows_mapM _ (g := registerScratch node) fun decl _ =>
      follows_registerScratch node decl
  refine (follows_registerReads node inputs).bind fun _ _ _ => Action.follows_get_bind
    fun s t h => ?_
  rw [show t.maxStep = s.maxStep by rw [h.eq]; rfl]
  refine (houtputs _).bind fun outputs _ ho => hweights.bind fun weights _ hw => ?_
  refine hscratch.bind fun tensors _ ht => (follows_registerLabel node declared.label).bind
    fun label _ hl => ?_
  subst ho hw ht hl
  exact Action.follows_pure rfl

end Network

end LayerGraph
