import LayerGraph.Network.Prepare
import LayerGraph.Proofs.Store.Access

/-!
# Requests change the tables alone

Whether they end well or fail, requests leave everything but the tables of tensors and weights as it
is, and none but those for optimizer state give a weight any. What they add has a buffer of its own
or shares that of a root.
-/

namespace LayerGraph

namespace Store

variable {α : Type}

/-- Two stores that differ in their tables at most. -/
structure SameBuffers (s s' : Store α) : Prop where
  persistent : s'.persistent = s.persistent
  slots : s'.slots = s.slots
  slotOf : s'.slotOf = s.slotOf
  plan : s'.plan = s.plan
  forwardSteps : s'.forwardSteps = s.forwardSteps
  maxStep : s'.maxStep = s.maxStep
  optimize : s'.optimize = s.optimize
  memoryLimit : s'.memoryLimit = s.memoryLimit
  mode : s'.mode = s.mode
  hasWeights : s'.hasWeights = s.hasWeights

theorem SameBuffers.refl (s : Store α) : SameBuffers s s :=
  ⟨rfl, rfl, rfl, rfl, rfl, rfl, rfl, rfl, rfl, rfl⟩

/-- A change of the tables alone. -/
theorem SameBuffers.withTables {s₀ s : Store α} (h : SameBuffers s₀ s)
    (entries : List (TensorRecord α)) (weights : List WeightRecord) :
    SameBuffers s₀ { s with entries := entries, weights := weights } :=
  ⟨h.persistent, h.slots, h.slotOf, h.plan, h.forwardSteps, h.maxStep, h.optimize, h.memoryLimit,
    h.mode, h.hasWeights⟩

/-- No weight has optimizer state. -/
def Stateless (s : Store α) : Prop := ∀ r ∈ s.weights, r.optimizerState = []

/-- An entry that a request adds: one with a buffer of its own, or one that shares the buffer of a
root. -/
inductive Requested (s : Store α) : TensorRecord α → Prop where
  | own {e : TensorRecord α} (source : e.source = none) (fixed : e.role.isKept = true →
      e.batched = false) : Requested s e
  | shared {id root : TensorRef} {e : TensorRecord α} (name : String)
      (root_eq : s.root id = .ok root) (entry_eq : s.entry root = .ok e) : Requested s
        { e with name := name, steps := [], source := some root }

/-- An entry for optimizer state, which is in use all the time. -/
structure IsState (s : Store α) (e : TensorRecord α) : Prop where
  role : e.role = .optimizerState
  source : e.source = none
  fixed : e.batched = false
  lasts : s.maxStep ∈ e.steps

theorem IsState.requested {s : Store α} {e : TensorRecord α} (h : IsState s e) : Requested s e :=
  .own h.source fun _ => h.fixed

/-- A weight without its optimizer state. -/
def core (r : WeightRecord) : String × TensorRef × Option TensorRef × Bool × List Nat :=
  (r.name, r.value, r.gradient, r.trainable, r.gradientSteps)

/-- A property of stores that requests keep: it depends on the tensors by what requests add and not
by the steps of use, and on the weights only by their optimizer state. -/
structure Tabular (Q : Store α → Prop) : Prop where
  added : ∀ s e, Requested s e → Q s → Q { s with entries := s.entries ++ [e] }
  timed : ∀ s id (steps : TensorRecord α → List Nat), Q s →
    Q { s with entries := s.entries.modify id fun e => { e with steps := steps e } }
  weights : ∀ s weights, (∀ r ∈ weights, r.optimizerState = [] ∨
    ∃ r₀ ∈ s.weights, r.optimizerState = r₀.optimizerState) → Q s → Q { s with weights := weights }

/-- A property of stores that requests keep which ask for allowed steps alone. -/
structure TabularAt (allowed : Nat → Prop) (Q : Store α → Prop) : Prop where
  added : ∀ s e, Requested s e → (∀ t ∈ e.steps, allowed t) → Q s →
    Q { s with entries := s.entries ++ [e] }
  timed : ∀ s id (steps : TensorRecord α → List Nat),
    (∀ e, ∀ t ∈ steps e, t ∈ e.steps ∨ allowed t) → Q s →
    Q { s with entries := s.entries.modify id fun e => { e with steps := steps e } }
  weights : ∀ s weights, (∀ r ∈ weights, (r.optimizerState = [] ∨
    ∃ r₀ ∈ s.weights, r.optimizerState = r₀.optimizerState) ∧
    ∀ t ∈ r.gradientSteps, (∃ r₀ ∈ s.weights, t ∈ r₀.gradientSteps) ∨ allowed t) → Q s →
    Q { s with weights := weights }
  ends : ∀ s, Q s → allowed 0 ∧ allowed s.maxStep

/-- A property of stores that requests for tensors keep which ask for allowed steps alone. -/
structure TensorialAt (allowed : Nat → Prop) (Q : Store α → Prop) : Prop where
  added : ∀ s e, Requested s e → (∀ t ∈ e.steps, allowed t) → Q s →
    Q { s with entries := s.entries ++ [e] }
  timed : ∀ s id (steps : TensorRecord α → List Nat),
    (∀ e, ∀ t ∈ steps e, t ∈ e.steps ∨ allowed t) → Q s →
    Q { s with entries := s.entries.modify id fun e => { e with steps := steps e } }
  ends : ∀ s, Q s → allowed 0 ∧ allowed s.maxStep

theorem TabularAt.tensorial {allowed : Nat → Prop} {Q : Store α → Prop} (h : TabularAt allowed Q) :
    TensorialAt allowed Q := ⟨h.added, h.timed, h.ends⟩

theorem Tabular.at {Q : Store α → Prop} (h : Tabular Q) : TabularAt (fun _ => True) Q where
  added s e he _ := h.added s e he
  timed s id steps _ := h.timed s id steps
  weights s weights hold := h.weights s weights fun r hr => (hold r hr).1
  ends _ _ := ⟨trivial, trivial⟩

theorem tabular_sameBuffers (s₀ : Store α) : Tabular (SameBuffers s₀) :=
  ⟨fun _ _ _ h => h.withTables _ _, fun _ _ _ h => h.withTables _ _,
    fun _ _ _ h => h.withTables _ _⟩

theorem tabular_stateless : Tabular (Stateless (α := α)) := by
  refine ⟨fun _ _ _ h => h, fun _ _ _ h => h, fun s weights hold h r hr => ?_⟩
  rcases hold r hr with hr | ⟨r₀, hr₀, heq⟩
  · exact hr
  · exact heq.trans (h r₀ hr₀)

/-- The buffer of every alias is that of a root, and weights and optimizer state have no batch
axis. -/
structure Grounded (s : Store α) : Prop where
  rooted : ∀ e ∈ s.entries, ∀ r, e.source = some r → ∃ e', s.entries[r]? = some e' ∧
    e'.source = none
  fixed : ∀ e ∈ s.entries, e.role.isKept = true → e.batched = false

/-- The root of a tensor of a grounded store is no alias. -/
theorem Grounded.source_of_root {s : Store α} (h : Grounded s) {id root : TensorRef}
    (hr : s.root id = .ok root) : ∃ e, s.entries[root]? = some e ∧ e.source = none := by
  obtain ⟨⟨e, he⟩, rfl⟩ := root_eq_ok_iff.mp hr
  cases hs : e.source with
  | none => exact ⟨e, by rw [rootOf_of_source_eq_none he hs]; exact he, hs⟩
  | some r =>
    rw [rootOf_of_source_eq_some he hs]
    exact h.rooted e (List.mem_of_getElem? he) r hs

theorem Grounded.push {s : Store α} (h : Grounded s) {e : TensorRecord α}
    (hroot : ∀ r, e.source = some r → ∃ e', s.entries[r]? = some e' ∧ e'.source = none)
    (hfixed : e.role.isKept = true → e.batched = false) :
    Grounded { s with entries := s.entries ++ [e] } := by
  refine ⟨fun e₁ he₁ r hr => ?_, fun e₁ he₁ hk => ?_⟩
  · have hold : ∃ e', s.entries[r]? = some e' ∧ e'.source = none := by
      rcases List.mem_append.mp he₁ with he₁ | he₁
      · exact h.rooted e₁ he₁ r hr
      · obtain rfl := List.mem_singleton.mp he₁
        exact hroot r hr
    obtain ⟨e', he', hs⟩ := hold
    exact ⟨e', by rw [List.getElem?_append_left (List.getElem?_eq_some_iff.mp he').1]; exact he',
      hs⟩
  · rcases List.mem_append.mp he₁ with he₁ | he₁
    · exact h.fixed e₁ he₁ hk
    · obtain rfl := List.mem_singleton.mp he₁
      exact hfixed hk

/-- What of an entry grounds a store. -/
def grounds (e : TensorRecord α) := (e.source, e.role, e.batched)

theorem Grounded.map {s : Store α} (h : Grounded s) {entries : List (TensorRecord α)}
    (hmap : entries.map grounds = s.entries.map grounds) :
    Grounded { s with entries := entries } := by
  have hback : ∀ e ∈ entries, ∃ e₀ ∈ s.entries, e₀.source = e.source ∧ e₀.role = e.role ∧
      e₀.batched = e.batched := by
    intro e he
    obtain ⟨e₀, he₀, heq⟩ := exists_of_map_eq hmap.symm (List.mem_map_of_mem he)
    simp only [grounds, Prod.mk.injEq] at heq
    exact ⟨e₀, he₀, heq⟩
  refine ⟨fun e he r hr => ?_, fun e he hk => ?_⟩
  · obtain ⟨e₀, he₀, hsource, -⟩ := hback e he
    obtain ⟨e', he', hs'⟩ := h.rooted e₀ he₀ r (hsource.trans hr)
    obtain ⟨e'', he'', heq⟩ := getElem?_of_map_eq hmap.symm he'
    simp only [grounds, Prod.mk.injEq] at heq
    exact ⟨e'', he'', heq.1.trans hs'⟩
  · obtain ⟨e₀, he₀, -, hrole, hbatched⟩ := hback e he
    rw [← hbatched]
    exact h.fixed e₀ he₀ (by rw [hrole]; exact hk)

theorem tabular_grounded : Tabular (Grounded (α := α)) where
  added s e hadd h := by
    cases hadd with
    | own source fixed => exact h.push (fun r hr => by rw [source] at hr; cases hr) fixed
    | @shared id root e name hr he =>
      refine h.push (fun r hs => ?_) (h.fixed e (List.mem_of_getElem? (entry_eq_ok_iff.mp he)))
      cases hs
      exact h.source_of_root hr
  timed s id steps h := h.map (map_modify_eq (f := grounds) (fun _ => by rfl) s.entries id)
  weights _ _ _ h := ⟨h.rooted, h.fixed⟩

theorem Tabular.and {P Q : Store α → Prop} (hP : Tabular P) (hQ : Tabular Q) :
    Tabular fun s => P s ∧ Q s :=
  ⟨fun s e ha h => ⟨hP.added s e ha h.1, hQ.added s e ha h.2⟩,
    fun s id steps h => ⟨hP.timed s id steps h.1, hQ.timed s id steps h.2⟩,
    fun s weights hold h => ⟨hP.weights s weights hold h.1, hQ.weights s weights hold h.2⟩⟩

/-- An edit of a weight that leaves its optimizer state alone. -/
theorem TabularAt.modify {allowed : Nat → Prop} {Q : Store α → Prop} (hQ : TabularAt allowed Q)
    {s : Store α} (h : Q s) (w : WeightRef) (f : WeightRecord → WeightRecord)
    (hf : ∀ r, (f r).optimizerState = r.optimizerState)
    (ht : ∀ r, ∀ t ∈ (f r).gradientSteps, t ∈ r.gradientSteps ∨ allowed t) :
    Q { s with weights := s.weights.modify w f } := by
  refine hQ.weights s _ (fun r hr => ?_) h
  obtain ⟨i, hi⟩ := List.getElem?_of_mem hr
  rw [List.getElem?_modify] at hi
  obtain ⟨r₀, hr₀, rfl⟩ := Option.map_eq_some_iff.mp hi
  have hmem := List.mem_of_getElem? hr₀
  split
  · exact ⟨.inr ⟨r₀, hmem, hf r₀⟩, fun t hgt => (ht r₀ t hgt).imp_left fun h => ⟨r₀, hmem, h⟩⟩
  · exact ⟨.inr ⟨r₀, hmem, rfl⟩, fun t hgt => .inl ⟨r₀, hmem, hgt⟩⟩

theorem Tabular.modify {Q : Store α → Prop} (hQ : Tabular Q) {s : Store α} (h : Q s)
    (w : WeightRef) (f : WeightRecord → WeightRecord)
    (hf : ∀ r, (f r).optimizerState = r.optimizerState) :
    Q { s with weights := s.weights.modify w f } :=
  hQ.at.modify h w f hf fun _ _ _ => .inr trivial

variable {s₀ : Store α} {Q : Store α → Prop}

section Requests

theorem after_push {e : TensorRecord α} {s : Store α} (hs : Q s)
    (hadd : Q { s with entries := s.entries ++ [e] }) : Q ((push e).after s) := by
  unfold Action.after push
  split
  · next h =>
    split at h
    · cases h
    · cases h
      exact hadd
  · next h =>
    split at h
    · cases h
      exact hs
    · cases h

variable {allowed : Nat → Prop}

section Tensors

variable (hQ : TensorialAt allowed Q)
include hQ

theorem keeps_push {e : TensorRecord α} (hsource : e.source = none)
    (hfixed : e.role.isKept = true → e.batched = false) (hsteps : ∀ t ∈ e.steps, allowed t) :
    Action.Keeps Q (push e) :=
  fun s hs => after_push hs (hQ.added s e (.own hsource hfixed) hsteps hs)

theorem keeps_addSteps (id : TensorRef) {steps : List Nat} (hsteps : ∀ t ∈ steps, allowed t) :
    Action.Keeps Q (addSteps id steps) := by
  refine Action.keeps_update fun s s' hs h => ?_
  obtain ⟨r, -, h⟩ := except_bind_eq_ok_iff.mp h
  cases h
  exact hQ.timed _ _ _ (fun e t ht => (List.mem_append.mp ht).imp_right (hsteps t)) hs

theorem keeps_request (name : String) (shape : Shape) (initializer : Initializer α)
    (lifetime : Lifetime) {role : Role} (hrole : role.isKept = false) {steps : List Nat}
    (hsteps : ∀ t ∈ steps, allowed t) :
    Action.Keeps Q (request name shape initializer lifetime role steps) := by
  intro s hs
  unfold request
  rw [Action.after_get_bind]
  refine keeps_push hQ rfl (fun h => ?_) (fun t ht => ?_) s hs
  · rw [show role.isKept = true from h] at hrole
    cases hrole
  · obtain ⟨hzero, hlast⟩ := hQ.ends s hs
    dsimp only at ht
    split at ht
    · simp only [List.mem_cons, List.not_mem_nil, or_false] at ht
      rcases ht with rfl | rfl
      · exact hzero
      · exact hlast
    · exact hsteps t ht

theorem keeps_requestShared (source : TensorRef) (name : String) {steps : List Nat}
    (hsteps : ∀ t ∈ steps, allowed t) : Action.Keeps Q (requestShared source name steps) := by
  intro s hs
  refine Action.after_read_bind hs fun root hroot => ?_
  refine Action.after_read_bind hs fun e he => ?_
  exact Action.after_bind (after_push hs (hQ.added s _ (.shared name hroot he) (by simp) hs))
    fun id =>
    (keeps_addSteps hQ id hsteps).bind fun _ => Action.keeps_pure _

end Tensors

variable (hQ : TabularAt allowed Q)
include hQ

theorem keeps_joinWeight (name : String) (shape : Shape) (initializer : Initializer α)
    (trainable : Bool) : Action.Keeps Q (joinWeight name shape initializer trainable) := by
  refine Action.keeps_get.bind fun s => ?_
  cases s.findWeight? name with
  | some w =>
    refine (Action.keeps_read _).bind fun _ => (Action.keeps_read _).bind fun _ =>
      Action.Keeps.guard ?_
    exact (Action.keeps_modify fun s hs => hQ.modify hs w _ (fun _ => by rfl)
      fun _ _ ht => .inl (by exact ht)).bind fun _ =>
      Action.keeps_pure _
  | none =>
    refine (keeps_push hQ.tensorial rfl (fun _ => rfl) (by simp)).bind fun value => ?_
    intro s hs
    refine hQ.weights s _ (fun r hr => ?_) hs
    rcases List.mem_append.mp hr with hr | hr
    · exact ⟨.inr ⟨r, hr, rfl⟩, fun t ht => .inl ⟨r, hr, ht⟩⟩
    · obtain rfl := List.mem_singleton.mp hr
      exact ⟨.inl rfl, by simp⟩

theorem keeps_gradientOf (w : WeightRef) (name : String) (shape : Shape) :
    Action.Keeps Q (gradientOf w name shape) := by
  refine (Action.keeps_read _).bind fun weight => ?_
  cases weight.gradient with
  | some gradient => exact Action.keeps_pure _
  | none =>
    exact (keeps_push hQ.tensorial rfl (fun h => by cases h) (by simp)).bind fun _ =>
      (Action.keeps_modify fun s hs => hQ.modify hs w _ (fun _ => by rfl)
        fun _ _ ht => .inl (by exact ht)).bind fun _ =>
        Action.keeps_pure _

theorem keeps_useWeight (name : String) (shape : Shape) (initializer : Initializer α)
    (trainable : Bool) {forwardStep : Nat} {gradientStep : Option Nat}
    (hforward : allowed forwardStep)
    (hgradient : ∀ step, gradientStep = some step → allowed step ∧ allowed (step + 1)) :
    Action.Keeps Q (useWeight name shape initializer trainable forwardStep gradientStep) := by
  have htimed : ∀ (id : TensorRef) (steps : List Nat), (∀ t ∈ steps, allowed t) → ∀ s, Q s →
      Q { s with entries := s.entries.modify id fun e => { e with steps := e.steps ++ steps } } :=
    fun id steps hsteps s hs =>
      hQ.timed s id _ (fun e t ht => (List.mem_append.mp ht).imp_right (hsteps t)) hs
  refine (keeps_joinWeight hQ _ _ _ _).bind fun w => (Action.keeps_read _).bind fun weight => ?_
  refine (Action.keeps_modify fun s hs => htimed _ _ (by simpa using hforward) s hs).bind fun _ =>
    ?_
  cases gradientStep with
  | none => exact Action.keeps_pure _
  | some step =>
    obtain ⟨hstep, hnext⟩ := hgradient step rfl
    dsimp only
    split
    · refine (keeps_gradientOf hQ _ _ _).bind fun _ =>
        (Action.keeps_modify fun s hs => hQ.modify
          (htimed _ [step, step + 1] (by simp [hstep, hnext]) s hs) w _
          (fun _ => by rfl) fun r t ht => ?_).bind fun _ => Action.keeps_pure _
      refine (List.mem_append.mp ht).imp_right fun ht => ?_
      obtain rfl := List.mem_singleton.mp ht
      exact hstep
    · exact Action.keeps_pure _

omit hQ

/-- The store with one more tensor, which is optimizer state of a weight. -/
def withState (s : Store α) (w : WeightRef) (e : TensorRecord α) : Store α :=
  { s with
    entries := s.entries ++ [e]
    weights := s.weights.modify w fun r =>
      { r with optimizerState := r.optimizerState ++ [s.entries.length] } }

section States

variable (hadd : ∀ s w e, IsState s e → e.steps = [0, s.maxStep] → e.initializer = .zeros → Q s →
    Q (s.withState w e))
include hadd

theorem keeps_pushState_of_added (w : WeightRef) (name : String) (shape : Shape) :
    Action.Keeps Q (pushState w name shape) := by
  intro s hs
  unfold pushState push
  rw [Action.after_get_bind]
  unfold Action.after
  dsimp only [bind, EStateM.bind]
  by_cases htaken : (s.entries.any fun e => e.name == name) = true
  · rw [if_pos htaken]
    exact hs
  · rw [if_neg htaken]
    exact hadd s w _ ⟨rfl, rfl, rfl, List.mem_cons_of_mem _ List.mem_cons_self⟩ rfl rfl hs

theorem keeps_requestStates_of_added (shapes : Shape → List Shape) :
    Action.Keeps Q (requestStates shapes) := by
  refine Action.keeps_get.bind fun s => Action.keeps_forM fun w _ => (Action.keeps_read _).bind
    fun weight => ?_
  dsimp only
  split
  · exact (Action.keeps_read _).bind fun _ => Action.keeps_forM fun _ _ =>
      keeps_pushState_of_added hadd _ _ _
  · exact Action.keeps_pure _

end States

section Tables

variable (hadd : ∀ s e, IsState s e → Q s → Q { s with entries := s.entries ++ [e] })
  (hweights : ∀ s weights, weights.map core = s.weights.map core → Q s →
    Q { s with weights := weights })
include hadd hweights

theorem withState_of_added (s : Store α) (w : WeightRef) (e : TensorRecord α) (he : IsState s e)
    (_ : e.steps = [0, s.maxStep]) (_ : e.initializer = .zeros) (hs : Q s) : Q (s.withState w e) :=
  hweights { s with entries := s.entries ++ [e] } _
    (map_modify_eq (f := core) (fun _ => by rfl) s.weights w) (hadd s e he hs)

/-- Requests for optimizer state add nothing else and change no more of a weight than its state. -/
theorem keeps_pushState (w : WeightRef) (name : String) (shape : Shape) :
    Action.Keeps Q (pushState w name shape) :=
  keeps_pushState_of_added (withState_of_added hadd hweights) w name shape

theorem keeps_requestStates (shapes : Shape → List Shape) : Action.Keeps Q (requestStates shapes) :=
  keeps_requestStates_of_added (withState_of_added hadd hweights) shapes

end Tables

theorem sameBuffers_pushState (s : Store α) (w : WeightRef) (name : String) (shape : Shape) :
    SameBuffers s ((pushState w name shape).after s) :=
  keeps_pushState (fun _ _ _ h => h.withTables _ _) (fun _ _ _ h => h.withTables _ _) w name shape s
    (.refl s)

theorem sameBuffers_requestStates (s : Store α) (shapes : Shape → List Shape) :
    SameBuffers s ((requestStates shapes).after s) :=
  keeps_requestStates (fun _ _ _ h => h.withTables _ _) (fun _ _ _ h => h.withTables _ _) shapes s
    (.refl s)

end Requests

end Store

namespace Network

open Store

variable {α : Type} {Q : Store α → Prop} {allowed : Nat → Prop}

/-- The steps of a node are allowed, and the last one of the forward pass. -/
structure Punctual (allowed : Nat → Prop) (node : Node α) (size : Nat) : Prop where
  forward : allowed node.schedule.forward
  returns : ∀ t ∈ node.schedule.returnSteps, allowed t
  last : allowed (size - 1)

theorem punctual_true (node : Node α) (size : Nat) : Punctual (fun _ => True) node size :=
  ⟨trivial, fun _ _ => trivial, trivial⟩

section Register

variable {node : Node α} {size : Nat}

theorem Punctual.turn (h : Punctual allowed node size) {step : Nat}
    (hstep : node.schedule.gradientStep = some step) : allowed step ∧ allowed (step + 1) := by
  obtain ⟨turn, hturn, rfl⟩ := Option.map_eq_some_iff.mp hstep
  have hreturns := h.returns
  rw [Schedule.returnSteps, hturn] at hreturns
  exact ⟨hreturns _ (by simp), hreturns _ (by simp [BackwardTurn.derivativeStep])⟩

section Tensors

variable (hQ : TensorialAt allowed Q) (h : Punctual allowed node size) (use : BufferUse)
  (inputs : List Wire)
include hQ h

omit hQ in
theorem Punctual.readSteps : ∀ t ∈ readSteps node, allowed t :=
  List.forall_mem_cons.mpr ⟨h.forward, h.returns⟩

omit hQ in
theorem Punctual.outputSteps {maxStep : Nat} (hlast : allowed maxStep) :
    ∀ t ∈ outputSteps node size maxStep, allowed t := by
  intro t ht
  unfold Network.outputSteps at ht
  rcases List.mem_append.mp ht with ht | ht
  · rcases List.mem_append.mp ht with ht | ht
    · obtain rfl := List.mem_singleton.mp ht
      exact h.forward
    · split at ht
      · exact h.returns t ht
      · cases ht
  · split at ht
    · simp only [List.mem_cons, List.not_mem_nil, or_false] at ht
      rcases ht with rfl | rfl
      · exact h.last
      · exact hlast
    · cases ht

omit hQ in
theorem Punctual.usedAt {maxStep : Nat} (lifetime : Lifetime) (hlast : allowed maxStep) :
    ∀ t ∈ node.schedule.usedAt lifetime maxStep, allowed t := by
  cases lifetime with
  | forward => exact List.forall_mem_singleton.mpr h.forward
  | backward => exact h.returns
  | forwardToBackward => exact h.readSteps
  | iteration | run =>
    exact List.forall_mem_cons.mpr ⟨h.forward, List.forall_mem_singleton.mpr hlast⟩

theorem keeps_registerReads : Action.Keeps Q (registerReads node inputs) := by
  refine Action.keeps_forM fun x _ => (keeps_addSteps hQ _ h.readSteps).bind fun _ => ?_
  cases x.derivative with
  | none => exact Action.keeps_pure _
  | some d =>
    cases ht : node.schedule.derivativeStep with
    | none => exact Action.keeps_pure _
    | some t =>
      refine keeps_addSteps hQ _ (List.forall_mem_singleton.mpr (h.returns t ?_))
      obtain ⟨turn, hturn, rfl⟩ := Option.map_eq_some_iff.mp ht
      rw [Schedule.returnSteps, hturn]
      simp

omit h in
theorem keeps_registerVariable (name : String) (shape : Shape) {steps : List Nat}
    (hsteps : ∀ t ∈ steps, allowed t) :
    Action.Keeps Q (registerVariable node use inputs name shape steps) := by
  unfold registerVariable
  have hrole : (if node.isSource then Role.external else Role.variable).isKept =
      false := by split <;> rfl
  cases use <;> cases inputs.head? <;>
    first | exact keeps_request hQ _ _ _ _ hrole hsteps | exact keeps_requestShared hQ _ _ hsteps

theorem keeps_registerDerivative (name : String) (shape : Shape) :
    Action.Keeps Q (registerDerivative node use inputs name shape) := by
  unfold registerDerivative
  split
  · cases use <;> cases inputs.head?.bind (·.derivative) <;>
      first
        | exact (keeps_request hQ _ _ _ _ rfl h.returns).bind fun _ => Action.keeps_pure _
        | exact (keeps_requestShared hQ _ _ h.returns).bind fun _ => Action.keeps_pure _
  · exact Action.keeps_pure _

theorem keeps_registerOutput {steps : List Nat} (hsteps : ∀ t ∈ steps, allowed t)
    (output : Shape × Nat) : Action.Keeps Q (registerOutput node use inputs steps output) :=
  (keeps_registerVariable hQ use inputs _ _ hsteps).bind fun _ =>
    (keeps_registerDerivative hQ h use inputs _ _).bind fun _ => Action.keeps_pure _

theorem keeps_registerScratch (decl : ScratchDecl α) :
    Action.Keeps Q (registerScratch node decl) := by
  intro s hs
  unfold registerScratch
  rw [Action.after_get_bind]
  exact keeps_request hQ _ _ _ _ rfl (h.usedAt decl.lifetime (hQ.ends s hs).2) s hs

omit h in
theorem keeps_registerLabel (label : Option Shape) : Action.Keeps Q (registerLabel node label) := by
  cases label with
  | none => exact Action.keeps_pure _
  | some shape => exact (keeps_request hQ _ _ _ _ rfl (by simp)).bind fun _ => Action.keeps_pure _

end Tensors

variable (hQ : TabularAt allowed Q) (h : Punctual allowed node size) (use : BufferUse)
  (inputs : List Wire)
include hQ h

theorem keeps_registerWeight (owner : String) (decl : WeightDecl α) :
    Action.Keeps Q (registerWeight node owner decl) := by
  refine keeps_useWeight hQ _ _ _ _ h.forward fun step hstep => ?_
  split at hstep
  · exact h.turn hstep
  · cases hstep

theorem keeps_register_at (owner : String) (declared : Declaration α) :
    Action.Keeps Q (register node use owner size inputs declared) := by
  refine (keeps_registerReads hQ.tensorial h inputs).bind fun _ s hs => ?_
  rw [Action.after_get_bind]
  have hsteps := h.outputSteps (hQ.ends s hs).2
  refine Action.Keeps.bind ?_ (fun _ => ?_) s hs
  · exact Action.keeps_mapM fun output _ => keeps_registerOutput hQ.tensorial h
      use inputs hsteps output
  refine (Action.keeps_mapM fun decl _ => keeps_registerWeight hQ h owner decl).bind fun _ => ?_
  refine (Action.keeps_mapM fun decl _ => keeps_registerScratch hQ.tensorial h decl).bind fun _ =>
    ?_
  exact (keeps_registerLabel hQ.tensorial _).bind fun _ => Action.keeps_pure _

end Register

theorem keeps_register (hQ : Tabular Q) (node : Node α) (use : BufferUse) (inputs : List Wire)
    (owner : String) (size : Nat) (declared : Declaration α) :
    Action.Keeps Q (register node use owner size inputs declared) :=
  keeps_register_at hQ.at (punctual_true node size) use inputs owner declared

end Network

end LayerGraph
