import LayerGraph.Proofs.Network.Iteration
import Mathlib.Data.Option.Basic

/-!
# Networks that compute the same

Two networks with the same nodes, wired to the same tensors, and with the same weights find the same
in every iteration. They may differ in which nodes run in place, in the slots that tensors share,
and in whatever their buffers hold.
-/

namespace LayerGraph

open Network

variable {α τ : Type}

/-- The same reader with other shapes. -/
def Reader.reshaped (f : TensorRef → Except Error Shape) (r : Reader α) : Reader α :=
  { r with shape := f }

theorem Reader.setAll_reshaped (f : TensorRef → Except Error Shape) (r : Reader α)
    (writes : List (TensorRef × Tensor α)) : (r.reshaped f).setAll writes =
      (r.setAll writes).reshaped f := by
  induction writes generalizing r with
  | nil => rfl
  | cons w writes ih => exact ih (r.set w.1 w.2)

/-- What a node has to do, and the tensors that it works on. -/
def Node.task (a : Node α) := (design a, a.tensors)

section Task

variable {a b : Node α} (h : b.task = a.task)
include h

theorem layer_of_task : b.layer = a.layer ∧ b.tensors = a.tensors ∧ b.name = a.name ∧
    b.isLoss = a.isLoss := by
  simp only [Node.task, design, wires, Prod.mk.injEq] at h
  obtain ⟨⟨⟨hname, -, -⟩, hlayer, -⟩, htensors⟩ := h
  exact ⟨hlayer, htensors, hname, by rw [Node.isLoss, Node.isLoss, hlayer]⟩

theorem part_of_task : b.trains = a.trains ∧ b.passesDerivatives = a.passesDerivatives ∧
    b.participates = a.participates := by
  simp only [Node.task, design, Prod.mk.injEq] at h
  obtain ⟨⟨-, hlayer, htrainable, -, -, hpasses, hcollects⟩, -⟩ := h
  exact ⟨by rw [Node.trains, Node.trains, hlayer, htrainable], hpasses,
    by rw [Node.participates, Node.participates, hpasses, hcollects]⟩

theorem trainsWeight_of_task (w : WeightRef) : b.trainsWeight w = a.trainsWeight w := by
  rw [Node.trainsWeight, Node.trainsWeight, (part_of_task h).1, (layer_of_task h).2.1]

end Task

/-- The nodes of both graphs have the same tasks, in the same order. -/
structure SameTasks (g g' : NodeGraph (Node α)) : Prop where
  order : g'.order = g.order
  tasks : g'.nodes.map Node.task = g.nodes.map Node.task

namespace SameTasks

variable {g g' : NodeGraph (Node α)}

theorem symm (h : SameTasks g g') : SameTasks g' g := ⟨h.order.symm, h.tasks.symm⟩

theorem trans {g'' : NodeGraph (Node α)} (h : SameTasks g g') (h' : SameTasks g' g'') :
    SameTasks g g'' :=
  ⟨h'.order.trans h.order, h'.tasks.trans h.tasks⟩

variable (h : SameTasks g g')
include h

theorem node {p : Nat} {a : Node α} (ha : g.nodes[p]? = some a) : ∃ b, g'.nodes[p]? = some b ∧
    b.task = a.task := by
  obtain ⟨b, hb, heq⟩ := getElem?_of_map_eq h.tasks.symm ha
  exact ⟨b, hb, heq⟩

theorem none {p : Nat} (ha : g.nodes[p]? = none) : g'.nodes[p]? = none := by
  have hlen : g'.nodes.length = g.nodes.length := by simpa using congrArg List.length h.tasks
  rw [List.getElem?_eq_none_iff] at ha ⊢
  rwa [hlen]

theorem trainersIn (nodes : List NodeRef) (w : WeightRef) :
    trainersIn g' nodes w = trainersIn g nodes w := by
  unfold LayerGraph.trainersIn
  refine List.filter_congr fun p _ => ?_
  cases ha : g.nodes[p]? with
  | none => rw [h.none ha]
  | some a =>
    obtain ⟨b, hb, htask⟩ := h.node ha
    rw [hb]
    exact trainsWeight_of_task htask w

theorem place (p : Nat) : place g' p = place g p := by
  unfold LayerGraph.place
  rw [h.order]

theorem size : g'.size = g.size := by simpa [NodeGraph.size] using congrArg List.length h.tasks

theorem wires : g'.nodes.map LayerGraph.wires = g.nodes.map LayerGraph.wires := by
  have := congrArg (List.map (·.1.1)) h.tasks
  rwa [List.map_map, List.map_map] at this

theorem readBack {i q k : Nat} (hread : ReadBack g' i q k) : ReadBack g i q k := by
  rcases hread with ⟨r, j, c, hr, hc, htrains, hlt⟩ | ⟨b, hb, hneeds, hpasses, hlt⟩
  · obtain ⟨c', hc', htask⟩ := getElem?_of_map_eq h.tasks hc
    exact .inl ⟨r, j, c', hr.of_wires h.wires, hc',
      (part_of_task htask).1.trans htrains, by rw [← h.place]; exact hlt⟩
  · obtain ⟨b', hb', htask⟩ := getElem?_of_map_eq h.tasks hb
    exact .inr ⟨b', hb', (congrArg Layer.needsOutput (layer_of_task htask).1).trans hneeds,
      (part_of_task htask).2.1.trans hpasses, by rw [← h.place]; exact hlt⟩

theorem isDerivative {q k : Nat} {d : TensorRef} (hd : IsDerivative g' q k d) :
    IsDerivative g q k d := by
  obtain ⟨y, ⟨b, hb, hy⟩, hyd⟩ := hd
  obtain ⟨b', hb', htask⟩ := getElem?_of_map_eq h.tasks hb
  exact ⟨y, ⟨b', hb', by rw [(layer_of_task htask).2.1]; exact hy⟩, hyd⟩

/-- What is still to be read depends on the tasks alone. -/
theorem neededBackward {i : Nat} {id : TensorRef} (hid : NeededBackward g' i id) :
    NeededBackward g i id := by
  cases hid with
  | label node label =>
    obtain ⟨a, ha, htask⟩ := getElem?_of_map_eq h.tasks node
    exact .label ha (by rw [(layer_of_task htask).2.1]; exact label)
  | value node output read =>
    obtain ⟨b, hb, htask⟩ := getElem?_of_map_eq h.tasks node
    exact .value hb (by rw [(layer_of_task htask).2.1]; exact output) (h.readBack read)
  | derivative derivative ahead given =>
    obtain ⟨r, j, hr, hle⟩ := given
    refine .derivative (h.isDerivative derivative) (by rw [← h.place]; exact ahead) ⟨r, j,
      hr.of_wires h.wires, ?_⟩
    rw [← h.place]
    exact hle

end SameTasks

variable [Scalar α]

section Reshaped

variable {f : TensorRef → Except Error Shape} {r : Reader α} {g g' : NodeGraph (Node α)}

section Sweep

variable {s : Store α} {a b : Node α} (hf : Fits s a.layer a.tensors)
  (hshape : ∀ y ∈ a.tensors.outputs, f y.value = r.shape y.value) (htask : b.task = a.task)
include hf hshape htask

/-- A turn asks for no shapes but those of the node's outputs. -/
theorem sweep_reshaped : b.sweep (r.reshaped f) = (a.sweep r).map fun swept =>
    (swept.1, swept.2.reshaped f) := by
  obtain ⟨hlayer, htensors, -, -⟩ := layer_of_task htask
  obtain ⟨htrains, hpasses, -⟩ := part_of_task htask
  have hderivative : ∀ y ∈ a.tensors.outputs, (r.reshaped f).derivative y = r.derivative y := by
    intro y hy
    unfold Reader.derivative
    cases y.derivative with
    | some d => rfl
    | none => exact congrArg (fun sh => sh >>= fun shape => pure (Tensor.zeros shape)) (hshape y hy)
  have hcollected : b.collected (r.reshaped f) = a.collected r := by
    unfold Node.collected
    rw [htrains, hlayer, htensors]
    split
    · exact Layer.contributions_of_agree hf (fun _ _ => rfl) hderivative
    · rfl
  have hreturned : b.returned (r.reshaped f) = a.returned r := by
    unfold Node.returned
    rw [hpasses, hlayer, htensors]
    split
    · exact Layer.derivatives_of_agree hf (fun _ _ => rfl) hderivative (fun _ _ _ => rfl) fun _ _ =>
        rfl
    · rfl
  unfold Node.sweep
  rw [hcollected, hreturned, htensors]
  cases a.collected r with
  | error e => rfl
  | ok cs =>
    cases a.returned r with
    | error e => rfl
    | ok dxs =>
      simp only [except_ok_bind, Reader.setAll_reshaped]
      rfl

end Sweep

variable (h : SameTasks g g')
include h

theorem flowNode_reshaped (p : NodeRef) : flowNode g' (fun _ r => r) (r.reshaped f) p =
    (flowNode g (fun _ r => r) r p).map (·.reshaped f) := by
  unfold flowNode
  cases ha : g.nodes[p]? with
  | none =>
    rw [h.none ha]
    rfl
  | some a =>
    obtain ⟨b, hb, htask⟩ := h.node ha
    obtain ⟨hlayer, htensors, -, -⟩ := layer_of_task htask
    rw [hb]
    dsimp only
    rw [hlayer, htensors, show a.layer.results a.tensors (r.reshaped f) =
      a.layer.results a.tensors r from rfl]
    cases a.layer.results a.tensors r with
    | error e => rfl
    | ok vs =>
      simp only [except_ok_bind, Reader.setAll_reshaped]
      rfl

/-- Forward runs ask for no shapes. -/
theorem dataflow_reshaped : dataflow g' (fun _ r => r) (r.reshaped f) =
    (dataflow g (fun _ r => r) r).map (·.reshaped f) := by
  unfold dataflow
  rw [h.order]
  induction g.order generalizing r with
  | nil => rfl
  | cons p nodes ih =>
    rw [List.foldlM_cons, List.foldlM_cons, flowNode_reshaped h]
    cases flowNode g (fun _ r => r) r p with
    | error e => rfl
    | ok r' => exact ih

/-- Nor do losses. -/
theorem lossesIn_reshaped : lossesIn g' (r.reshaped f) = lossesIn g r := by
  have hall : ∀ xs ys : List (Node α), ys.map Node.task = xs.map Node.task →
      ((ys.filter (·.isLoss)).mapM fun a => a.layer.lossOf a.tensors (r.reshaped f)) =
        (xs.filter (·.isLoss)).mapM fun a => a.layer.lossOf a.tensors r := by
    intro xs
    induction xs with
    | nil =>
      rintro ys hys
      obtain rfl := List.map_eq_nil_iff.mp hys
      rfl
    | cons a xs ih =>
      intro ys hys
      obtain ⟨b, ys, rfl, htask, hys⟩ := List.map_eq_cons_iff.mp hys
      obtain ⟨hlayer, htensors, -, hloss⟩ := layer_of_task htask
      rw [List.filter_cons, List.filter_cons, hloss]
      split
      · rw [List.mapM_cons, List.mapM_cons, ih ys hys, hlayer, htensors]
        rfl
      · exact ih ys hys
  exact hall g.nodes g'.nodes h.tasks

section Ledger

/-- The same ledger with other shapes. -/
def Ledger.reshaped (f : TensorRef → Except Error Shape) (l : Ledger α) : Ledger α :=
  { l with reader := l.reader.reshaped f }

/-- A rule that neither looks at optimizer state nor changes it. -/
def LeavesState (rule : WeightState α → Action τ (WeightState α)) : Prop :=
  ∀ old state, rule { old with state := state } =
    do let new ← rule old; return { new with state := state }

omit h in
theorem forall_zip_self {β : Type} (xs : List β) : ∀ p ∈ xs.zip xs, p.2 = p.1 := by
  intro p hp
  obtain ⟨i, hi⟩ := List.getElem?_of_mem hp
  obtain ⟨h₁, h₂⟩ := List.getElem?_zip_eq_some.mp hi
  exact Option.some.inj (h₂.symm.trans h₁)

variable {same : Prop}

omit [Scalar α] h in
/-- A rule finds the same with other optimizer state, if that is the same or if it leaves it
alone. -/
theorem matches_rule {rule : WeightState α → Action τ (WeightState α)}
    (hrule : same ∨ LeavesState rule) {old : WeightState α} {state : List (Tensor α)}
    (hstate : same → state = old.state) (own : τ) :
    Action.Matches Eq Eq (fun new new' => new'.value = new.value ∧ (same → new'.state = new.state) ∧
        (({ old with state := state } : WeightState α).SameShapes new' ↔ old.SameShapes new))
      (rule old own) (rule { old with state := state } own) := by
  rcases hrule with hsame | hleaves
  · obtain rfl := hstate hsame
    cases rule old own with
    | ok new own' => exact .ok ⟨rfl, fun _ => rfl, Iff.rfl⟩ rfl
    | error e own' => exact .error rfl
  · have hself : rule old own =
        (do let new ← rule old; return { new with state := old.state } : Action τ _) own :=
      congrFun (hleaves old old.state) own
    rw [hleaves old state]
    cases hr : rule old own with
    | error e own' =>
      rw [Action.bind_of_error hr]
      exact .error rfl
    | ok new own' =>
      rw [hr, Action.bind_of_ok hr] at hself
      injection hself with hnew
      have hkept : new.state = old.state := by simpa using congrArg WeightState.state hnew
      rw [Action.bind_of_ok hr]
      refine .ok ⟨rfl, fun hsame => (hstate hsame).trans hkept.symm,
        and_congr_right fun _ => ?_⟩ rfl
      rw [hkept]
      refine iff_of_true (fun p hp => ?_) fun p hp => ?_
      · exact congrArg _ (forall_zip_self state p hp)
      · exact congrArg _ (forall_zip_self old.state p hp)

/-- Two ledgers that differ in shapes and, unless it is to be the same, in optimizer state. The
caller's state is the same. -/
structure Reshapes (same : Prop) (f sh : TensorRef → Except Error Shape) (s t : τ × Ledger α) :
    Prop where
  own : s.1 = t.1
  ledger : t.2 = { s.2.reshaped f with state := t.2.state }
  state : same → t.2.state = s.2.state
  shape : s.2.reader.shape = sh

variable {sh : TensorRef → Except Error Shape} {s t : τ × Ledger α} {names : WeightRef → String}
  {rule : String → WeightState α → Action τ (WeightState α)}

omit h in
theorem Reshapes.settle (hs : Reshapes same f sh s t)
    {rule : WeightState α → Action τ (WeightState α)} (hrule : same ∨ LeavesState rule)
    (name : String) (w : WeightRef) :
    Action.Matches (Reshapes same f sh) SameOwn (fun _ _ => True) (Ledger.settle rule name w s)
      (Ledger.settle rule name w t) := by
  obtain ⟨own, l⟩ := s
  obtain ⟨own', ⟨reader, given, state⟩⟩ := t
  obtain ⟨rfl, hledger, hstate, hshape⟩ := hs
  cases hledger
  dsimp only at hstate hshape
  generalize hl' : ({ l.reshaped f with state := state } : Ledger α) = l'
  have hhanded : l'.handed name w = (l.handed name w).map fun old =>
      { old with state := state w } := by
    subst hl'
    unfold Ledger.handed
    rw [show (l.reshaped f).given = l.given from rfl]
    cases l.given w with
    | nil => rfl
    | cons c cs =>
      dsimp only
      rw [show (l.reshaped f).reader.weight = l.reader.weight from rfl]
      cases l.reader.weight w with
      | error e => rfl
      | ok value =>
        simp only [except_ok_bind]
        cases c.sumOnto cs with
        | error e => rfl
        | ok sum => rfl
  unfold Ledger.settle
  cases hold : l.handed name w with
  | error e =>
    rw [hold] at hhanded
    rw [Action.bind_of_error (Action.read_of_error (f := fun s : τ × Ledger α => s.2.handed name w)
        (s := (own, l)) hold),
        Action.bind_of_error (Action.read_of_error (f := fun s : τ × Ledger α => s.2.handed name w)
        (s := (own, l')) hhanded)]
    exact .error rfl
  | ok old =>
    rw [hold] at hhanded
    rw [Action.bind_of_ok (Action.read_of_ok (f := fun s : τ × Ledger α => s.2.handed name w)
        (s := (own, l)) hold),
        Action.bind_of_ok (Action.read_of_ok (f := fun s : τ × Ledger α => s.2.handed name w)
        (s := (own, l')) hhanded)]
    have hofState : old.state = l.state w := by
      unfold Ledger.handed at hold
      split at hold
      · cases hold
      · obtain ⟨_, -, hold⟩ := except_bind_eq_ok_iff.mp hold
        obtain ⟨_, -, hold⟩ := except_bind_eq_ok_iff.mp hold
        cases hold
        rfl
    have hstate' : same → state w = old.state := fun hsame => by rw [hstate hsame, hofState]
    refine Action.Matches.bind
      (((matches_rule hrule hstate' own).mono (fun _ _ h => h) (fun _ _ h => h)
      fun _ _ h => h).focus (R := fun s t => s.1 = t.1 ∧ s.2 = l ∧ t.2 = l') (fun _ _ h =>
        ⟨h, rfl, rfl⟩) fun _ _ h => h) ?_
    rintro new new' ⟨own', _⟩ ⟨_, _⟩ ⟨hvalue, hnew, hshapes⟩ ⟨rfl, rfl, rfl⟩
    by_cases hsame : old.SameShapes new
    · rw [if_pos hsame, if_pos (hshapes.mpr hsame)]
      subst hl'
      refine .ok trivial ⟨rfl, ?_, fun h => ?_, hshape⟩
      · simp only [Ledger.replace, Ledger.reshaped, Reader.reshaped, hvalue]
      · simp only [Ledger.replace, hstate h, hnew h]
    · rw [if_neg hsame, if_neg fun h => hsame (hshapes.mp h)]
      exact .error rfl

omit h in
theorem shape_of_sweep {a : Node α} {r r' : Reader α} {cs : List (WeightRef × Tensor α)}
    (hsweep : a.sweep r = .ok (cs, r')) : r'.shape = r.shape := by
  obtain ⟨_, -, hsweep⟩ := except_bind_eq_ok_iff.mp hsweep
  obtain ⟨_, -, hsweep⟩ := except_bind_eq_ok_iff.mp hsweep
  cases hsweep
  exact Reader.shape_setAll

variable (hfits : ∀ (p : Nat) a, g.nodes[p]? = some a → ∃ s, Fits s a.layer a.tensors)
  (hshapes : ∀ (p : Nat) a, g.nodes[p]? = some a → ∀ y ∈ a.tensors.outputs, f y.value = sh y.value)
  (hrule : ∀ name, same ∨ LeavesState (rule name))
include hfits hshapes hrule

theorem Reshapes.turn (hs : Reshapes same f sh s t) (rest : List NodeRef) (p : NodeRef) :
    Action.Matches (Reshapes same f sh) SameOwn (fun _ _ => True)
      (Ledger.turn g names rule rest p s) (Ledger.turn g' names rule rest p t) := by
  obtain ⟨own, l⟩ := s
  obtain ⟨own', ⟨reader, given, state⟩⟩ := t
  obtain ⟨rfl, hledger, hstate, hshape⟩ := hs
  cases hledger
  unfold Ledger.turn
  cases ha : g.nodes[p]? with
  | none =>
    rw [h.none ha]
    exact .error rfl
  | some a =>
    obtain ⟨b, hb, htask⟩ := h.node ha
    obtain ⟨-, htensors, hname, -⟩ := layer_of_task htask
    obtain ⟨-, -, hparts⟩ := part_of_task htask
    obtain ⟨s₀, hfit⟩ := hfits p a ha
    rw [hb]
    dsimp only
    rw [hparts, htensors, hname]
    split
    · have hsweep' := sweep_reshaped (r := l.reader) (f := f) hfit (fun y hy => by
        change l.reader.shape = sh at hshape
        rw [hshape]
        exact hshapes p a ha y hy) htask
      cases hsweep : a.sweep l.reader with
      | error e =>
        rw [hsweep] at hsweep'
        rw [Action.bind_of_error
          (Action.read_of_error (f := fun s : τ × Ledger α => a.sweep s.2.reader) (s := (own, l))
          hsweep), Action.bind_of_error
            (Action.read_of_error (f := fun s : τ × Ledger α => b.sweep s.2.reader)
            (s := (own, { l.reshaped f with state := state })) hsweep')]
        exact .error rfl
      | ok swept =>
        rw [hsweep] at hsweep'
        rw [Action.bind_of_ok (Action.read_of_ok (f := fun s : τ × Ledger α => a.sweep s.2.reader)
            (s := (own, l)) hsweep),
            Action.bind_of_ok (Action.read_of_ok (f := fun s : τ × Ledger α => b.sweep s.2.reader)
            (s := (own, { l.reshaped f with state := state })) hsweep'),
          Action.bind_of_ok (Action.modify_apply _ _), Action.bind_of_ok (Action.modify_apply _ _)]
        refine Action.matches_forM (fun w _ s t hs => ?_) ⟨rfl, rfl, hstate,
          (shape_of_sweep hsweep).trans hshape⟩
        rw [trainsWeight_of_task htask, h.trainersIn]
        split
        · exact hs.settle (hrule a.name) _ _
        · exact .ok trivial hs
    · exact .ok trivial ⟨rfl, rfl, hstate, hshape⟩

theorem Reshapes.turns (nodes : List NodeRef) (hs : Reshapes same f sh s t) :
    Action.Matches (Reshapes same f sh) SameOwn (fun _ _ => True)
      (Ledger.turns g names rule nodes s) (Ledger.turns g' names rule nodes t) := by
  induction nodes generalizing s t with
  | nil => exact .ok trivial hs
  | cons p rest ih => exact (hs.turn h hfits hshapes hrule rest p).bind fun _ _ _ _ _ hs' => ih hs'

end Ledger

end Reshaped

namespace Network

variable {n m n' m' : Network α} {asks : (Shape → List Shape) → Prop} {mode : RunMode}
  {inputs labels : List (Tensor α)} {same : Prop}

/-- Two networks with the same nodes, wired to the same tensors, with the same faces and the same
weights, and with the same optimizer state if it is to be the same. -/
structure Twins (same : Prop) (n m : Network α) : Prop where
  tasks : SameTasks n.graph m.graph
  inputs : m.inputs = n.inputs
  labels : m.labels = n.labels
  outputs : m.outputs = n.outputs
  shape : ∀ (p : Nat) a, n.graph.nodes[p]? = some a →
    (∀ y ∈ a.tensors.outputs, m.store.shape y.value = n.store.shape y.value) ∧
      ∀ l, a.tensors.label = some l → m.store.shape l = n.store.shape l
  names : m.store.weights.map (·.name) = n.store.weights.map (·.name)
  weight : m.store.reader.weight = n.store.reader.weight
  states : ∃ state state', n.store.StatesAre state ∧ m.store.StatesAre state' ∧
    (same → state' = state)

/-- Two such networks that can run. -/
structure Paired (same : Prop) (asks : (Shape → List Shape) → Prop) (mode : RunMode)
    (n m : Network α) : Prop extends Twins same n m where
  ready : Ready asks mode n
  ready' : Ready asks mode m
  apart : n.store.StatesApart
  apart' : m.store.StatesApart
  feedsAll : FeedsAll n

omit [Scalar α] in
theorem task_of_core {g g' : NodeGraph (Node α)}
    (h : g'.nodes.map Node.core = g.nodes.map Node.core) :
    g'.nodes.map Node.task = g.nodes.map Node.task := by
  have hfst : (fun a : Node α => a.task) = (fun c => (c.1, c.2.2)) ∘ Node.core := rfl
  rw [show (Node.task : Node α → _) = (fun c => (c.1, c.2.2)) ∘ Node.core from hfst, ← List.map_map,
    h, List.map_map]

omit [Scalar α] in
/-- What is fed is in both networks the same. -/
theorem FeedsAll.of_tasks (h : FeedsAll n) (htasks : SameTasks n.graph m.graph)
    (hinputs : m.inputs = n.inputs) (hlabels : m.labels = n.labels) : FeedsAll m := by
  have hnode : ∀ {p : Nat} {b : Node α}, m.graph.nodes[p]? = some b → ∃ a,
      n.graph.nodes[p]? = some a ∧
      b.isSource = a.isSource ∧ b.tensors = a.tensors := by
    intro p b hb
    obtain ⟨a, ha, htask⟩ := getElem?_of_map_eq htasks.tasks hb
    obtain ⟨hlayer, htensors, -⟩ := layer_of_task htask
    exact ⟨a, ha, by rw [Node.isSource, Node.isSource, hlayer], htensors.symm⟩
  refine ⟨fun p b y hb hs hy => ?_, fun p b l hb hl => ?_⟩
  · obtain ⟨a, ha, hsource, htensors⟩ := hnode hb
    rw [hinputs]
    exact h.inputs p a y ha (hsource ▸ hs) (htensors ▸ hy)
  · obtain ⟨a, ha, -, htensors⟩ := hnode hb
    rw [hlabels]
    exact h.labels p a l ha (htensors ▸ hl)

namespace Paired

variable (h : Paired same asks mode n m)
include h

/-- Running changes nothing that two networks have in common but the weights, if it changes
these. -/
theorem later (hn : Framed n n') (hm : Framed m m') (hready : Ready asks mode n')
    (hready' : Ready asks mode m') (hweight : m'.store.reader.weight = n'.store.reader.weight)
    (hstates : ∃ state state', n'.store.StatesAre state ∧ m'.store.StatesAre state' ∧
      (same → state' = state)) : Paired same asks mode n' m' := by
  have htasks : SameTasks n'.graph m'.graph := by
    refine ⟨?_, ?_⟩
    · rw [hm.order, hn.order, h.tasks.order]
    · rw [task_of_core hm.nodes, task_of_core hn.nodes, h.tasks.tasks]
  have hself : SameTasks n.graph n'.graph := ⟨hn.order, task_of_core hn.nodes⟩
  refine ⟨⟨htasks, by rw [hm.inputs, hn.inputs, h.inputs], by rw [hm.labels, hn.labels, h.labels],
    by rw [hm.outputs, hn.outputs, h.outputs], fun p a ha => ?_, by
      rw [hm.layout.weights, hn.layout.weights, h.names],
    hweight, hstates⟩, hready, hready', ?_, ?_, h.feedsAll.of_tasks hself hn.inputs hn.labels⟩
  · obtain ⟨b, hb, htask⟩ := getElem?_of_map_eq hself.tasks ha
    obtain ⟨-, htensors, -⟩ := layer_of_task htask
    obtain ⟨houtputs, hlabels⟩ := h.shape p b hb
    rw [← htensors]
    simp only [hm.layout.shape, hn.layout.shape]
    exact ⟨houtputs, hlabels⟩
  · unfold Store.StatesApart
    rw [hn.layout.weights]
    exact h.apart
  · unfold Store.StatesApart
    rw [hm.layout.weights]
    exact h.apart'

/-- Running changes nothing that two networks have in common, if it leaves the weights alone. -/
theorem of_sameKept (hn : Framed n n') (hm : Framed m m') (hready : Ready asks mode n')
    (hready' : Ready asks mode m') (hkept : n.store.SameKept n'.store)
    (hkept' : m.store.SameKept m'.store) : Paired same asks mode n' m' := by
  have hreg := h.ready.prepared.registered.registry
  have hreg' := h.ready'.prepared.registered.registry
  obtain ⟨state, state', hstate, hstate', hsame⟩ := h.states
  refine h.later hn hm hready hready' ?_ ⟨state, state', hstate.of_sameKept hreg hn.layout hkept,
    hstate'.of_sameKept hreg' hm.layout hkept', hsame⟩
  rw [Store.weight_of_sameKept hreg' hm.layout hkept',
    Store.weight_of_sameKept hreg hn.layout hkept, h.weight]

/-- The same is fed to both. -/
theorem fedReader :
    m.fedReader inputs labels = (n.fedReader inputs labels).reshaped m.store.shape := by
  unfold Network.fedReader feeds
  rw [h.inputs, h.labels, h.weight, ← Reader.setAll_reshaped]
  rfl

theorem shape_of_feeds {p : TensorRef × Tensor α} (hp : p ∈ n.feeds inputs labels) :
    m.store.shape p.1 = n.store.shape p.1 := by
  rcases List.mem_append.mp hp with hp | hp
  · obtain ⟨q, a, y, ha, -, hy, heq⟩ := h.ready.prepared.faces.inputs p.1 (List.of_mem_zip hp).1
    rw [← heq]
    exact (h.shape q a ha).1 y hy
  · obtain ⟨q, a, ha, hl⟩ := h.ready.prepared.faces.labels p.1 (List.of_mem_zip hp).1
    exact (h.shape q a ha).2 _ hl

/-- Two networks that have been fed alike hold the same for a forward run. -/
theorem feed (hlabels : labels.length = n.labels.length) :
    Action.Matches (fun n' m' => Paired same asks mode n' m' ∧
        ∃ r, n'.store.Agrees (NeededForward n'.graph mode 0) r ∧
        m'.store.Agrees (NeededForward m'.graph mode 0) (r.reshaped m'.store.shape))
        (fun _ _ => True) (fun _ _ => True) (feed inputs labels n) (feed inputs labels m) := by
  have hlabels' : labels.length = m.labels.length := by rw [h.labels, hlabels]
  have hfeeds : m.feeds inputs labels = n.feeds inputs labels := by
    rw [feeds, feeds, h.inputs, h.labels]
  have hiff : (∃ n', Network.feed inputs labels n = .ok () n') ↔ ∃ m',
      Network.feed inputs labels m = .ok () m' := by
    rw [h.ready.feed_iff hlabels, h.ready'.feed_iff hlabels', h.inputs, hfeeds]
    refine and_congr_right fun _ => forall₂_congr fun p hp => ?_
    rw [h.shape_of_feeds hp]
  have hfails : ∀ {k : Network α}, (¬ ∃ k', Network.feed inputs labels k = .ok () k') →
      ∃ e k', Network.feed inputs labels k = .error e k' := by
    intro k hno
    cases hrun : Network.feed inputs labels k with
    | ok u k' => exact absurd ⟨k', hrun⟩ hno
    | error e k' => exact ⟨e, k', rfl⟩
  by_cases hends : ∃ n', Network.feed inputs labels n = .ok () n'
  · obtain ⟨n', hn⟩ := hends
    obtain ⟨m', hm⟩ := hiff.mp ⟨n', hn⟩
    rw [hn, hm]
    have hframed := (steady_framed n).keeps_feed inputs labels n h.ready.framed
    have hframed' := (steady_framed m).keeps_feed inputs labels m h.ready'.framed
    rw [Action.after_of_ok hn] at hframed
    rw [Action.after_of_ok hm] at hframed'
    obtain ⟨s, rfl, hl, hkept, hready, hagrees⟩ := h.ready.fed h.feedsAll hlabels hn
    obtain ⟨s', rfl, hl', hkept', hready', hagrees'⟩ :=
      h.ready'.fed (h.feedsAll.of_tasks h.tasks h.inputs h.labels) hlabels' hm
    refine .ok trivial ⟨h.of_sameKept hframed hframed' hready hready' hkept hkept', _, hagrees, ?_⟩
    rw [h.fedReader] at hagrees'
    rw [show s'.shape = m.store.shape from Store.shape_of_sameLayout hl']
    exact hagrees'
  · obtain ⟨e, n', hn⟩ := hfails hends
    obtain ⟨e', m', hm⟩ := hfails fun hm => hends (hiff.mpr hm)
    rw [hn, hm]
    exact .error trivial

/-- From the same start both find the same outputs and the same losses, and have the same for a
backward pass. -/
theorem forward {r : Reader α} (hagrees : n.store.Agrees (NeededForward n.graph mode 0) r)
    (hagrees' : m.store.Agrees (NeededForward m.graph mode 0) (r.reshaped m.store.shape))
    {training : Bool} (hmode : training = false ∨ mode = .train) :
    Action.Matches (fun n' m' => Paired same asks mode n' m' ∧ n'.losses = m'.losses ∧
        (mode = .train → ∃ r, n'.store.Agrees (NeededBackward n'.graph n'.graph.size) r ∧
          m'.store.Agrees (NeededBackward m'.graph m'.graph.size) (r.reshaped m'.store.shape)))
      (fun _ _ => True) Eq (forward training n) (forward training m) := by
  obtain ⟨outputs, n', r₁, hn, hready, hframed, hkept, hdata, houtputs, hlosses, hback⟩ :=
    h.ready.exists_flow hagrees hmode
  obtain ⟨outputs', m', r₂, hm, hready', hframed', hkept', hdata', houtputs', hlosses', hback'⟩ :=
    h.ready'.exists_flow hagrees' hmode
  rw [dataflow_reshaped h.tasks, hdata] at hdata'
  obtain rfl : r₁.reshaped m.store.shape = r₂ := Except.ok.inj hdata'
  have houtput : outputs' = outputs := by
    rw [h.outputs, show (r₁.reshaped m.store.shape).value = r₁.value from rfl, houtputs]
      at houtputs'
    exact (Except.ok.inj houtputs').symm
  have hloss : n'.losses = m'.losses := by
    rw [lossesIn_reshaped h.tasks, hlosses] at hlosses'
    exact List.map_injective_iff.mpr (Option.some_injective α) (Except.ok.inj hlosses')
  rw [hn, hm, houtput]
  refine .ok rfl ⟨h.of_sameKept hframed hframed' hready hready' hkept hkept', hloss,
    fun htrain => ⟨r₁, ?_, ?_⟩⟩
  · have htasks : SameTasks n.graph n'.graph := ⟨hframed.order, task_of_core hframed.nodes⟩
    rw [htasks.size]
    exact (hback htrain).mono fun id hid => htasks.neededBackward hid
  · have htasks : SameTasks m.graph m'.graph := ⟨hframed'.order, task_of_core hframed'.nodes⟩
    rw [htasks.size, show m'.store.shape = m.store.shape from Store.shape_of_sameLayout
      hframed'.layout]
    exact (hback' htrain).mono fun id hid => htasks.neededBackward hid

end Paired

section Backward

omit [Scalar α] in
/-- The name of a weight. -/
def weightName (n : Network α) (w : WeightRef) : String :=
  ((n.store.weights.map (·.name))[w]?).getD ""

omit [Scalar α] in
theorem weightName_eq {w : WeightRef} {r : WeightRecord} (hr : n.store.weights[w]? = some r) :
    n.weightName w = r.name := by
  simp [weightName, hr]

/-- A backward pass keeps to the ledger, and leaves a network with the weights and the state that
stand there. -/
theorem Ready.backward_ledger (h : Ready asks .train n) (hapart : n.store.StatesApart)
    {r : Reader α} (hagrees : n.store.Agrees (NeededBackward n.graph n.graph.size) r)
    {state : WeightRef → List (Tensor α)} (hstates : n.store.StatesAre state)
    (rule : String → WeightState α → Action τ (WeightState α)) (own : τ) :
    Action.Matches (fun s l => s.1 = l.1 ∧ Ready asks .train s.2 ∧ Framed n s.2 ∧
        s.2.store.reader.weight = l.2.reader.weight ∧ s.2.store.StatesAre l.2.state) SameOwn
        (fun _ _ => True)
        (backward (fun node => do let _ ← applyComplete node (rule node.name)) (own, n))
      (Ledger.turns n.graph n.weightName rule n.graph.order.reverse (own,
        ⟨r, fun _ => [], state⟩)) := by
  have hframed : Action.Keeps (fun s : τ × Network α => Framed n s.2)
      (backward fun node => do let _ ← applyComplete node (rule node.name)) :=
    (steady_framed n).keeps_backward fun node Q hQ => keeps_applyComplete_visit hQ node
      (rule node.name)
  have hrun : Action.Matches (fun s l => s.1 = l.1 ∧ Tracks asks n n.graph.order.reverse [] s.2 l.2)
      SameOwn (fun _ _ => True)
        (backward (fun node => do let _ ← applyComplete node (rule node.name)) (own, n))
      (Ledger.turns n.graph n.weightName rule n.graph.order.reverse (own,
        ⟨r, fun _ => [], state⟩)) := by
    rw [h.backward_apply]
    exact (h.tracks hagrees hstates).run (fun w r hr => weightName_eq hr) hapart
  refine (hrun.keeps hframed h.framed).mono (fun s l hs => ?_) (fun _ _ h => h) fun _ _ h => h
  obtain ⟨⟨hown, htracks⟩, hf⟩ := hs
  exact ⟨hown, htracks.runs.1, hf, htracks.agrees.weight, htracks.states⟩

theorem Paired.backward (h : Paired same asks .train n m) {r : Reader α}
    (hagrees : n.store.Agrees (NeededBackward n.graph n.graph.size) r)
    (hagrees' : m.store.Agrees (NeededBackward m.graph m.graph.size) (r.reshaped m.store.shape))
    {rule : String → WeightState α → Action τ (WeightState α)}
    (hrule : ∀ name, same ∨ LeavesState (rule name)) (own : τ) :
    Action.Matches (fun s t => s.1 = t.1 ∧ Paired same asks .train s.2 t.2) SameOwn
      (fun _ _ => True)
      (backward (fun node => do let _ ← applyComplete node (rule node.name)) (own, n))
      (backward (fun node => do let _ ← applyComplete node (rule node.name)) (own, m)) := by
  obtain ⟨state, state', hstate, hstate', hsame⟩ := h.states
  have hn := h.ready.backward_ledger h.apart hagrees hstate rule own
  have hm := h.ready'.backward_ledger h.apart' hagrees' hstate' rule own
  have hnames : m.weightName = n.weightName := by
    unfold weightName
    rw [h.names]
  have hledgers : Action.Matches (Reshapes same m.store.shape r.shape) SameOwn (fun _ _ => True)
      (Ledger.turns n.graph n.weightName rule n.graph.order.reverse (own, ⟨r, fun _ => [], state⟩))
      (Ledger.turns m.graph n.weightName rule n.graph.order.reverse
        (own, ⟨r.reshaped m.store.shape, fun _ => [], state'⟩)) :=
    Reshapes.turns h.tasks (fun p a ha => ⟨_, (h.ready.holds ha).fits⟩)
      (fun p a ha y hy => by rw [← hagrees.shape]; exact (h.shape p a ha).1 y hy) hrule
        n.graph.order.reverse ⟨rfl, rfl, hsame, rfl⟩
  rw [hnames, h.tasks.order] at hm
  refine ((hn.trans hledgers).trans hm.symm).mono ?_ ?_ fun _ _ _ => trivial
  · rintro ⟨own₁, n'⟩ ⟨own₂, m'⟩ ⟨⟨own₃, l'⟩, ⟨⟨own₄, l⟩, ⟨rfl, hready, hframed, hweight, hstates⟩,
      hreshapes⟩, rfl, hready', hframed', hweight', hstates'⟩
    obtain ⟨rfl, hledger, hstate, -⟩ := hreshapes
    have hvalues : l'.reader.weight = l.reader.weight := by
      dsimp only at hledger
      rw [hledger]
      rfl
    exact ⟨rfl, h.later hframed hframed' hready hready'
      ((hweight'.trans hvalues).trans hweight.symm) ⟨l.state, l'.state, hstates, hstates', hstate⟩⟩
  · rintro ⟨own₁, n'⟩ ⟨own₂, m'⟩ ⟨⟨own₃, l'⟩, ⟨⟨own₄, l⟩, h₁, h₂⟩, h₃⟩
    exact (h₁.trans h₂).trans h₃.symm

end Backward

section Iterate

theorem keeps_iterate {P : Network α → Prop} (hP : Steady P)
    (rule : String → WeightState α → Action τ (WeightState α)) :
    Action.Keeps (fun s : τ × Network α => P s.2) (iterate rule inputs labels) := by
  have hback : Action.Keeps (fun s : τ × Network α => P s.2)
      (backward fun node => do let _ ← applyComplete node (rule node.name)) :=
    hP.keeps_backward fun node Q hQ => keeps_applyComplete_visit hQ node (rule node.name)
  refine ((hP.keeps_feed inputs labels).focus (fun _ h => h) fun _ _ _ h => h).bind fun _ => ?_
  refine ((hP.keeps_forward true).focus (fun _ h => h) fun _ _ _ h => h).bind fun outputs => ?_
  exact Action.keeps_get.bind fun s => hback.bind fun _ => Action.keeps_pure _

/-- In an iteration both networks find the same outputs and the same losses, hand the same over to a
rule, and end with the same weights. -/
theorem Paired.iterate (h : Paired same asks .train n m) (hlabels : labels.length = n.labels.length)
    {rule : String → WeightState α → Action τ (WeightState α)}
    (hrule : ∀ name, same ∨ LeavesState (rule name)) (own : τ) :
    Action.Matches (fun s t => s.1 = t.1 ∧ Paired same asks .train s.2 t.2 ∧
      s.2.labels = n.labels) SameOwn Eq (Network.iterate rule inputs labels (own, n))
      (Network.iterate rule inputs labels (own, m)) := by
  have hrun : Action.Matches (fun s t => s.1 = t.1 ∧ Paired same asks .train s.2 t.2) SameOwn Eq
      (Network.iterate rule inputs labels (own, n))
        (Network.iterate rule inputs labels (own, m)) := by
    refine Action.Matches.bind (S := fun _ _ => True) ((h.feed hlabels).focus
      (R := fun s t => s.1 = t.1 ∧ Paired same asks .train s.2 t.2 ∧ ∃ r,
        s.2.store.Agrees (NeededForward s.2.graph .train 0) r ∧
          t.2.store.Agrees (NeededForward t.2.graph .train 0) (r.reshaped t.2.store.shape))
      (fun _ _ h' => ⟨rfl, h'⟩) fun _ _ _ => rfl) ?_
    rintro - - ⟨own₁, n₁⟩ ⟨_, m₁⟩ - ⟨rfl, h₁, r, hagrees, hagrees'⟩
    refine Action.Matches.bind ((h₁.forward hagrees hagrees' (.inr rfl)).focus
      (R := fun s t => s.1 = t.1 ∧ Paired same asks .train s.2 t.2 ∧ s.2.losses = t.2.losses ∧
        (RunMode.train = .train →
        ∃ r, s.2.store.Agrees (NeededBackward s.2.graph s.2.graph.size) r ∧
          t.2.store.Agrees (NeededBackward t.2.graph t.2.graph.size) (r.reshaped t.2.store.shape)))
      (fun _ _ h' => ⟨rfl, h'⟩) fun _ _ _ => rfl) ?_
    rintro outputs _ ⟨own₂, n₂⟩ ⟨_, m₂⟩ rfl ⟨rfl, h₂, hlosses, hback⟩
    obtain ⟨r₂, hagrees₂, hagrees₂'⟩ := hback rfl
    rw [Action.bind_of_ok (Action.get_apply _), Action.bind_of_ok (Action.get_apply _)]
    refine (h₂.backward hagrees₂ hagrees₂' hrule own₂).bind fun _ _ s t _ h₃ => ?_
    exact .ok (congrArg (Prod.mk outputs) hlosses) h₃
  refine (hrun.keeps (keeps_iterate (steady_framed n) rule) h.ready.framed).mono (fun s t hst => ?_)
    (fun _ _ h => h) fun _ _ h => h
  exact ⟨hst.1.1, hst.1.2, hst.2.labels⟩

/-- Any number of iterations. -/
theorem Paired.iterations (h : Paired same asks .train n m)
    {batches : List (List (Tensor α) × List (Tensor α))}
    (hlabels : ∀ b ∈ batches, b.2.length = n.labels.length)
    {rule : String → WeightState α → Action τ (WeightState α)}
    (hrule : ∀ name, same ∨ LeavesState (rule name)) (own : τ) :
    Action.Matches (fun s t => s.1 = t.1 ∧ Paired same asks .train s.2 t.2) SameOwn Eq
      (batches.mapM (fun b => Network.iterate rule b.1 b.2) (own, n))
      (batches.mapM (fun b => Network.iterate rule b.1 b.2) (own, m)) := by
  refine (Action.matches_mapM (R := fun s t => s.1 = t.1 ∧ Paired same asks .train s.2 t.2 ∧
    s.2.labels = n.labels) (fun b hb s t hst => ?_) ⟨rfl, h, rfl⟩).mono (fun _ _ h => ⟨h.1, h.2.1⟩)
    (fun _ _ h => h) fun _ _ h => h
  obtain ⟨own₁, n₁⟩ := s
  obtain ⟨_, m₁⟩ := t
  obtain ⟨rfl, h₁, hsame⟩ := hst
  refine (h₁.iterate ((hlabels b hb).trans (congrArg _ hsame.symm)) hrule own₁).mono
    (fun s t h => ⟨h.1, h.2.1, h.2.2.trans hsame⟩) (fun _ _ h => h) fun _ _ h => h

end Iterate

section Seen

/-- The names and the values of the weights. -/
def valuesSeen (n : Network α) : Except Error (List (String × Tensor α)) :=
  n.store.weights.mapM fun r => do return (r.name, ← n.store.get r.value)

/-- The optimizer state of the weights. -/
def statesSeen (n : Network α) : Except Error (List (List (Tensor α))) :=
  n.store.weights.mapM fun r => r.optimizerState.mapM n.store.get

/-- What is seen of the weights says what runs find in them. -/
theorem valuesSeen_eq_ok_iff {seen : List (String × Tensor α)} :
    n.valuesSeen = .ok seen ↔ n.store.weights.map (·.name) = seen.map (·.1) ∧
      n.store.reader.weight = fun w => ((seen[w]?).map (·.2)).elim
      (.error (.staleHandle w)) .ok := by
  have hall : n.valuesSeen = .ok seen ↔ List.Forall₂ (fun (r : WeightRecord) v => r.name = v.1 ∧
      n.store.get r.value = .ok v.2) n.store.weights seen := by
    unfold valuesSeen
    rw [except_mapM_eq_ok_iff]
    refine iff_of_eq (congrArg (fun R => List.Forall₂ R n.store.weights seen) ?_)
    funext r v
    refine propext (except_bind_eq_ok_iff.trans ⟨?_, ?_⟩)
    · rintro ⟨value, hvalue, h⟩
      cases h
      exact ⟨rfl, hvalue⟩
    · rintro ⟨hname, hvalue⟩
      exact ⟨v.2, hvalue, by rw [hname]; rfl⟩
  rw [hall]
  constructor
  · intro h
    refine ⟨?_, ?_⟩
    · rw [← List.forall₂_eq_eq_eq, List.forall₂_map_left_iff, List.forall₂_map_right_iff]
      exact h.imp fun _ _ h => h.1
    · funext w
      change (do n.store.get (← n.store.weight w).value) = _
      unfold Store.weight
      cases hw : n.store.weights[w]? with
      | none =>
        rw [List.getElem?_eq_none_iff, h.length_eq, ← List.getElem?_eq_none_iff] at hw
        rw [hw]
        rfl
      | some r =>
        obtain ⟨v, hv, -, hvalue⟩ := getElem?_of_forall₂ h hw
        rw [hv]
        exact hvalue
  · rintro ⟨hnames, hweight⟩
    refine List.forall₂_iff_get.mpr ⟨by simpa using congrArg List.length hnames, fun w hw hv => ?_⟩
    have hr : n.store.weights[w]? = some n.store.weights[w] := List.getElem?_eq_getElem hw
    have hseen : seen[w]? = some seen[w] := List.getElem?_eq_getElem hv
    refine ⟨?_, ?_⟩
    · have hname := congrArg (·[w]?) hnames
      simpa [hr, hseen] using hname
    · have hvalue := congrFun hweight w
      change (do n.store.get (← n.store.weight w).value) = _ at hvalue
      rwa [Store.weight_eq_ok_iff.mpr hr, hseen] at hvalue

theorem statesSeen_eq_ok_iff {seen : List (List (Tensor α))} :
    n.statesSeen = .ok seen ↔ n.store.weights.length = seen.length ∧
      n.store.StatesAre fun w => (seen[w]?).getD [] := by
  unfold statesSeen
  rw [except_mapM_eq_ok_iff]
  constructor
  · intro h
    refine ⟨h.length_eq, fun w r hr => ?_⟩
    obtain ⟨v, hv, hstate⟩ := getElem?_of_forall₂ h hr
    dsimp only
    rw [hv]
    exact hstate
  · rintro ⟨hlength, hstates⟩
    refine List.forall₂_iff_get.mpr ⟨hlength, fun w hw hv => ?_⟩
    have hstate := hstates w _ (List.getElem?_eq_getElem hw)
    dsimp only at hstate
    rwa [List.getElem?_eq_getElem hv] at hstate

variable (h : Twins same n m)
include h

/-- Where two networks have the same weights, the same can be seen of them. -/
theorem Twins.valuesSeen {seen : List (String × Tensor α)} (hseen : n.valuesSeen = .ok seen) :
    m.valuesSeen = .ok seen := by
  obtain ⟨hnames, hweight⟩ := valuesSeen_eq_ok_iff.mp hseen
  exact valuesSeen_eq_ok_iff.mpr ⟨h.names.trans hnames, h.weight.trans hweight⟩

theorem Twins.statesSeen (hsame : same) {seen : List (List (Tensor α))}
    (hseen : n.statesSeen = .ok seen) : m.statesSeen = .ok seen := by
  obtain ⟨hlength, hstates⟩ := statesSeen_eq_ok_iff.mp hseen
  obtain ⟨state, state', hstate, hstate', heq⟩ := h.states
  refine statesSeen_eq_ok_iff.mpr ⟨?_, fun w r hr => ?_⟩
  · rw [← hlength]
    simpa using congrArg List.length h.names
  · obtain ⟨r', hr', -⟩ := getElem?_of_map_eq h.names hr
    rw [hstate' w r hr, heq hsame, ← hstate w r' hr', hstates w r' hr']

end Seen

end Network

end LayerGraph
