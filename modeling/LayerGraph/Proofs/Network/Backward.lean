import LayerGraph.Proofs.Network.Forward
import LayerGraph.Proofs.Network.Pass
import Mathlib.Data.Nat.Basic
import Mathlib.Order.Basic

/-!
# Backward passes without sharing

In a memory that shares nothing a backward pass fills one derivative after the other. With sharing,
whatever a node reads in its turn is what it is without.
-/

namespace LayerGraph

open Network

variable {α : Type} [Scalar α]

namespace Node

/-- What a node adds to the gradients of its weights, if it trains. -/
def collected (a : Node α) (r : Reader α) : Except Error (List (Tensor α)) :=
  if a.trains then a.layer.contributions a.tensors r else .ok []

/-- What a node passes back to its inputs, if anyone takes it. -/
def returned (a : Node α) (r : Reader α) : Except Error (List (Tensor α)) :=
  if a.passesDerivatives then a.layer.derivatives a.tensors r else .ok []

/-- What a node adds to the gradients of its weights in its turn, and what it leaves of a memory
that shares nothing. -/
def sweep (a : Node α) (r : Reader α) : Except Error (List (WeightRef × Tensor α) × Reader α) := do
  let cs ← a.collected r
  let dxs ← a.returned r
  return (a.tensors.weights.zip cs, r.setAll (passedTo a.tensors.inputs dxs))

end Node

omit [Scalar α] in
theorem Fits.inputs_of_isSource {s : Store α} {layer : Layer α} {handles : Handles}
    (h : Fits s layer handles) (hs : layer.isSource = true) : handles.inputs = [] := by
  cases h with
  | input => rfl
  | fullyConnected | activation | addition | multiout | identity | loss => cases hs

section Needs

variable {g : NodeGraph (Node α)} {s s' : Store α} {batch : Nat}

/-- What is there when all nodes from place `i` on have had their turns, and is still to be read. -/
inductive NeededBackward (g : NodeGraph (Node α)) (i : Nat) : TensorRef → Prop where
  | label {p : Nat} {a : Node α} {l : TensorRef} (node : g.nodes[p]? = some a)
      (label : a.tensors.label = some l) : NeededBackward g i l
  | value {q k : Nat} {b : Node α} {y : Wire} (node : g.nodes[q]? = some b)
      (output : b.tensors.outputs[k]? = some y) (read : ReadBack g i q k) : NeededBackward
        g i y.value
  | derivative {q k : Nat} {d : TensorRef} (derivative : IsDerivative g q k d)
      (ahead : place g q < i) (given : ∃ r j, ReadsSlot g r j q k ∧
        i ≤ place g r) : NeededBackward g i d

variable (h : Registered g s batch g.order)
include h

omit [Scalar α] in
/-- What a backward pass begins with is there after a forward run. -/
theorem NeededBackward.forward {id : TensorRef} (hid : NeededBackward g g.size id) :
    NeededForward g .train g.size id := by
  have hperm := h.compiled.ordered.perm
  cases hid with
  | label node label => exact .label node label
  | value node output read =>
    exact .value node output (.inr (place_lt hperm node)) (.inr (.inr ⟨rfl, read⟩))
  | derivative _ _ given =>
    obtain ⟨r, j, hr, hle⟩ := given
    obtain ⟨c, hc⟩ := hr.reader
    exact absurd (place_lt hperm hc) (by omega)

omit [Scalar α] in
/-- What is needed by nodes that come after a step, and was there before it, is in use at that
step. -/
theorem NeededBackward.spans {i t : Nat} (hsize : g.size ≤ t)
    (hbelow : ∀ q b u, g.nodes[q]? = some b → b.schedule.backward = some u → place g q < i →
      t ≤ u.gradientStep)
    (habove : ∀ q b u, g.nodes[q]? = some b → b.schedule.backward = some u → i ≤ place g q →
      u.gradientStep + 1 ≤ t) {id : TensorRef} (hid : NeededBackward g i id) :
    s.Spans .train id t := by
  have hd := h.compiled.toDesigned
  cases hid with
  | label node label => exact ((h.holds_of_node node).label _ label).spans .train t
  | @value q k b y hb hy hread =>
    cases hs : b.isSource with
    | true =>
      exact (((h.holds_of_node hb).outputs y (List.mem_of_getElem? hy)).source hs).spans .train t
    | false =>
      have hwritten := h.usedIn_written hb hy .train hs
      have hlt := place_lt hd.ordered.perm hb
      rcases hread with ⟨r, j, c, hr, hc, htrains, hlater⟩ | ⟨b', hb', hneeds, hpasses, hlater⟩
      · obtain ⟨turn, hturn, -⟩ := hd.exists_turn hc (hd.participates_of_trains hc htrains)
        exact .of_usedIn hwritten (h.usedIn_readBack hb hy hr hc hturn) (by omega)
          (hbelow r c turn hc hturn hlater)
      · rw [hb] at hb'
        cases hb'
        obtain ⟨turn, hturn, -⟩ := hd.exists_turn hb (Node.participates_of_passes hpasses)
        have := hbelow q b turn hb hturn hlater
        exact .of_usedIn hwritten (h.usedIn_needsOutput hb hy hs hneeds hturn) (by omega) (by omega)
  | @derivative q k _ hder hahead hgiven =>
    obtain ⟨r, j, hr, hle⟩ := hgiven
    obtain ⟨c, hc⟩ := hr.reader
    obtain ⟨b, hb, hpart, -⟩ := h.participates_of_derivative hder
    obtain ⟨turn, hturn, -⟩ := hd.exists_turn hb hpart
    obtain ⟨turn', hturn', -⟩ := hd.exists_turn hc
      (Node.participates_of_passes (hd.passes_of_reads hr hc hb hpart))
    exact .of_usedIn (h.usedIn_given hder hr hc hturn')
      (h.usedIn_taken hder hb (Schedule.mem_returnSteps hturn).1) (habove r c turn' hc hturn' hle)
      (hbelow q b turn hb hturn hahead)

omit [Scalar α] in
theorem NeededBackward.isData {i : Nat} {id : TensorRef} (hid : NeededBackward g i id) :
    ∃ e, s.backing id = some e ∧ e.role.isData = true := by
  have hfits : ∀ {q k : Nat} {y : Wire}, IsOutput g q k y → (∃ e, s.backing y.value = some e ∧
      e.role.isData = true) ∧ ∀ d, y.derivative = some d → ∃ e, s.backing d = some e ∧
      e.role.isData = true := by
    intro q k y hy
    obtain ⟨width, hw⟩ := h.wireFits_of_output hy
    obtain ⟨e, he, hdata, -⟩ := hw.value
    refine ⟨⟨e, he, hdata⟩, fun d hyd => ?_⟩
    obtain ⟨e', he', hdata', -⟩ := hw.derivative d hyd
    exact ⟨e', he', hdata'⟩
  cases hid with
  | label node label =>
    obtain ⟨e, he, hs, hrole⟩ := (h.holds_of_node node).label _ label
    exact ⟨e, Store.backing_of_source_eq_none he hs, by rw [hrole]; rfl⟩
  | value node output read => exact (hfits ⟨_, node, output⟩).1
  | derivative hder hahead hgiven =>
    obtain ⟨y, hy, hyd⟩ := hder
    exact (hfits hy).2 _ hyd

section Turn

variable {p : Nat} {a : Node α} (ha : g.nodes[p]? = some a) {turn : BackwardTurn}
  (hturn : a.schedule.backward = some turn)
include ha hturn

omit [Scalar α] in
/-- The two steps of a turn. -/
theorem NeededBackward.spans_turn {id : TensorRef} :
    (NeededBackward g (place g p + 1) id → s.Spans .train id turn.gradientStep) ∧
      (NeededBackward g (place g p) id → s.Spans .train id (turn.gradientStep + 1)) := by
  have hd := h.compiled.toDesigned
  obtain ⟨turn', hturn', hsize⟩ := hd.exists_turn ha ((exists_turn_iff hd.ordered.perm ha).mpr
    ⟨turn, by rw [← hd.schedule p a ha, hturn]⟩)
  rw [hturn] at hturn'
  cases hturn'
  refine ⟨fun hid => hid.spans h hsize (fun q b u hb hu hlt => ?_) fun q b u hb hu hle => ?_,
    fun hid => hid.spans h (by omega) (fun q b u hb hu hlt => ?_) fun q b u hb hu hle => ?_⟩
  · rcases Nat.eq_or_lt_of_le (Nat.le_of_lt_succ hlt) with heq | hlt
    · obtain rfl := place_inj (h.mem_order hb) heq
      rw [ha] at hb
      cases hb
      rw [hturn] at hu
      cases hu
      exact Nat.le_refl _
    · exact (Nat.le_add_right _ 2).trans (hd.turn_lt hb ha hu hturn hlt)
  · have := hd.turn_lt ha hb hturn hu (by omega)
    omega
  · have := hd.turn_lt hb ha hu hturn hlt
    omega
  · rcases Nat.eq_or_lt_of_le hle with heq | hlt
    · obtain rfl := place_inj (h.mem_order ha) heq
      rw [ha] at hb
      cases hb
      rw [hturn] at hu
      cases hu
      exact Nat.le_refl _
    · have := hd.turn_lt ha hb hturn hu hlt
      omega

omit hturn
variable {r : Reader α} (hs : s.Agrees (NeededBackward g (place g p + 1)) r)

omit [Scalar α] in
/-- The derivatives of a node's outputs are needed in its turn. -/
theorem neededBackward_derivative {y : Wire} {d : TensorRef} (hy : y ∈ a.tensors.outputs)
    (hyd : y.derivative = some d) : NeededBackward g (place g p + 1) d := by
  obtain ⟨k, hk⟩ := List.getElem?_of_mem hy
  have hder : IsDerivative g p k d := ⟨y, ⟨a, ha, hk⟩, hyd⟩
  obtain ⟨a', ha', -, hread, -⟩ := h.participates_of_derivative hder
  rw [ha] at ha'
  cases ha'
  obtain ⟨r, j, hr⟩ := h.exists_reader ha hk hread
  exact .derivative hder (Nat.lt_succ_self _) ⟨r, j, hr, h.compiled.ordered.before _ _ _ _ hr⟩

include hs

theorem derivative_of_agrees {y : Wire} (hy : y ∈ a.tensors.outputs) :
    s.reader.derivative y = r.derivative y := by
  unfold Reader.derivative
  cases hyd : y.derivative with
  | none =>
    dsimp only
    rw [show s.reader.shape = r.shape from hs.shape]
  | some d => exact hs.value d (neededBackward_derivative h ha hy hyd)

/-- What a node adds to gradients is what it would without sharing. -/
theorem contributions_of_agrees (htrains : a.trains = true) :
    a.layer.contributions a.tensors s.reader = a.layer.contributions a.tensors r := by
  refine Layer.contributions_of_agree (h.holds_of_node ha).fits (fun x hx => hs.value _ ?_)
    fun y hy => derivative_of_agrees h ha hs hy
  obtain ⟨j, hj⟩ := List.getElem?_of_mem hx
  obtain ⟨q, k, hr, b, hb, hk⟩ := h.exists_producer ha hj
  exact .value hb hk (.inl ⟨p, j, a, hr, ha, htrains, Nat.lt_succ_self _⟩)

/-- What a node passes back is what it would without sharing. -/
theorem derivatives_of_agrees (hpasses : a.passesDerivatives = true) :
    a.layer.derivatives a.tensors s.reader = a.layer.derivatives a.tensors r := by
  refine Layer.derivatives_of_agree (h.holds_of_node ha).fits (fun w _ => congrFun hs.weight w)
    (fun y hy => derivative_of_agrees h ha hs hy) (fun hneeds y hy => hs.value _ ?_)
    fun l hl => hs.value l (.label ha hl)
  obtain ⟨k, hk⟩ := List.getElem?_of_mem hy
  exact .value ha hk (.inr ⟨a, ha, hneeds, hpasses, Nat.lt_succ_self _⟩)

omit hs [Scalar α] in
/-- What is fed takes no part in the backward pass. -/
theorem not_source_of_participates (hpart : a.participates = true) : a.isSource = false := by
  have hd := h.compiled.toDesigned
  refine Bool.eq_false_iff.mpr fun hsource => ?_
  have hnone := (h.holds_of_node ha).fits.inputs_of_isSource hsource
  have htrains : a.trains = false := by
    have hship := hd.shipped p a ha
    unfold Node.isSource at hsource
    unfold Node.trains
    cases hlayer : a.layer with
    | custom layer =>
      rw [hlayer] at hship
      cases hship
    | input => simp [Layer.isTrained]
    | fullyConnected | activation | addition | multiout | identity | loss =>
      rw [hlayer] at hsource
      cases hsource
  rw [Node.participates, hd.collects p a ha, htrains, Bool.or_false] at hpart
  obtain ⟨i, q, k, b, ⟨a', conn, ha', hi, -⟩, -⟩ := (hd.passes p a ha).mp hpart
  rw [ha] at ha'
  cases ha'
  have hlt := (List.getElem?_eq_some_iff.mp hi).1
  rw [← (h.linked_of_node ha).length, hnone] at hlt
  cases hlt

omit ha hs [Scalar α] in
/-- What is read has a derivative if its producer takes part. -/
theorem isSome_derivative_of_reads {r i q k : Nat} {b : Node α} {y : Wire}
    (hr : ReadsSlot g r i q k) (hb : g.nodes[q]? = some b) (hy : b.tensors.outputs[k]? = some y) :
    y.derivative.isSome = b.participates := by
  have htakes := ((h.holds_of_node hb).outputs y (List.mem_of_getElem? hy)).takes
  have hread : b.isTerminal = false := by
    have hlt := (h.compiled.wired.lt_iff q b k hb).mpr ⟨r, i, hr⟩
    rw [Node.isTerminal, List.isEmpty_eq_false_iff]
    exact List.ne_nil_of_length_pos (by omega)
  rw [htakes, hread]
  cases hpart : b.participates with
  | false => rfl
  | true =>
    rw [not_source_of_participates h hb hpart]
    rfl

omit hs [Scalar α] in
/-- A node that passes derivatives back has someone to pass them to. -/
theorem exists_derivative_of_passes (hpasses : a.passesDerivatives = true) :
    ∃ x ∈ a.tensors.inputs, x.derivative ≠ none := by
  obtain ⟨i, q, k, b, hr, hb, hpart⟩ := (h.compiled.passes p a ha).mp hpasses
  obtain ⟨x, hx, hi⟩ := (h.linked_of_node ha).wire i q k b hr hb
  refine ⟨x, List.mem_of_getElem? hi, fun hnone => ?_⟩
  have hsome := isSome_derivative_of_reads h hr hb hx
  rw [hnone, hpart] at hsome
  cases hsome

/-- What a node adds to gradients leaves alone what is still to be read. -/
theorem agrees_of_collect (hs' : s.SameLayout s')
    (hsame : ∀ id, s.Spans .train id turn.gradientStep →
      (∀ e, s.backing id = some e → e.role ≠ .gradient) → s'.get id = s.get id)
    (hturn : a.schedule.backward = some turn) : s'.Agrees (NeededBackward g (place g p + 1)) r := by
  refine ⟨fun id hid => ?_, (Store.shape_of_sameLayout hs').trans hs.shape, ?_⟩
  · rw [hsame id ((NeededBackward.spans_turn h ha hturn).1 hid) fun e he hrole => ?_]
    · exact hs.value id hid
    · obtain ⟨e', he', hdata⟩ := hid.isData h
      rw [he] at he'
      cases he'
      rw [hrole] at hdata
      cases hdata
  · rw [Store.weight_of_sameKept h.registry hs' fun id e he hk => ?_]
    · exact hs.weight
    · refine hsame id ⟨e, he, .inl hk⟩ fun e' he' hrole => ?_
      rw [he] at he'
      cases he'
      rw [hrole] at hk
      cases hk

omit hs [Scalar α] in
/-- What a node passes back goes to the derivatives of those slots that it reads. -/
theorem exists_slot_of_passedTo {dxs : List (Tensor α)} {w : TensorRef × Tensor α}
    (hw : w ∈ passedTo a.tensors.inputs dxs) :
    ∃ q k j, IsDerivative g q k w.1 ∧ ReadsSlot g p j q k ∧ dxs[j]? = some w.2 := by
  obtain ⟨⟨x, dx⟩, hx, hw⟩ := List.mem_filterMap.mp hw
  obtain ⟨d, hxd, rfl⟩ := Option.map_eq_some_iff.mp hw
  obtain ⟨j, hj⟩ := List.getElem?_of_mem hx
  obtain ⟨hin, hdx⟩ := List.getElem?_zip_eq_some.mp hj
  obtain ⟨q, k, hr, hy⟩ := h.exists_producer ha hin
  exact ⟨q, k, j, ⟨x, hy, hxd⟩, hr, hdx⟩

omit hs [Scalar α] in
theorem mem_passedTo_of_reads {dxs : List (Tensor α)} (hlen : dxs.length = a.tensors.inputs.length)
    {q k j : Nat} {d : TensorRef} (hder : IsDerivative g q k d) (hr : ReadsSlot g p j q k) :
    d ∈ (passedTo a.tensors.inputs dxs).map (·.1) := by
  obtain ⟨y, hy, hyd⟩ := hder
  have hin := h.input_of_reads hr ha hy
  obtain ⟨dx, hdx⟩ : ∃ dx, dxs[j]? = some dx :=
    ⟨_, List.getElem?_eq_getElem (hlen ▸ (List.getElem?_eq_some_iff.mp hin).1)⟩
  refine List.mem_map.mpr ⟨(d, dx), List.mem_filterMap.mpr ⟨(y, dx), ?_, ?_⟩, rfl⟩
  · exact List.mem_of_getElem? (List.getElem?_zip_eq_some.mpr ⟨hin, hdx⟩)
  · rw [hyd]
    rfl

/-- When a node has passed derivatives back, the store holds what is still to be read of a memory
that shares nothing. -/
theorem agrees_of_passBack (hp : s.Placed .train) (hturn : a.schedule.backward = some turn)
    (hpasses : a.passesDerivatives = true) {loss : α} {notes : List (Note α)} {u : Unit}
    {st : HookState α} (hrun : a.layer.passBack a.view ⟨s, loss, notes⟩ = .ok u st) :
    ∃ dxs, a.layer.derivatives a.tensors r = .ok dxs ∧
      st.store.Agrees (NeededBackward g (place g p))
      (r.setAll (passedTo a.tensors.inputs dxs)) := by
  have hd := h.compiled.toDesigned
  have hold := h.holds_of_node ha
  obtain ⟨writes, hset, -, -, hcase⟩ :=
    Layer.of_passBack (show Fits s a.layer a.view.handles from hold.fits) hrun
  obtain ⟨dxs, hdxs, rfl⟩ := hcase.resolve_left fun ⟨_, hnone⟩ => by
    obtain ⟨x, hx, hsome⟩ := exists_derivative_of_passes h ha hpasses
    exact hsome (hnone x hx)
  have hdxs : a.layer.derivatives a.tensors s.reader = .ok dxs := hdxs
  rw [derivatives_of_agrees h ha hs hpasses] at hdxs
  have hlen := Layer.length_of_derivatives hold.fits hdxs
  refine ⟨dxs, hdxs, ?_⟩
  refine hs.setAll h.registry hp hset (t := turn.gradientStep + 1) (fun w hw => ?_)
    (fun id hid hnot => ?_) (fun id hid => (NeededBackward.spans_turn h ha hturn).2 hid)
      fun id hid w hw hne hroot => ?_
  · obtain ⟨q, k, j, hder, hr, -⟩ := exists_slot_of_passedTo h ha hw
    exact h.usedIn_given hder hr ha hturn
  · cases hid with
    | label node label => exact .label node label
    | value node output read => exact .value node output (read.mono (Nat.le_succ _))
    | derivative hder hahead hgiven =>
      obtain ⟨r, j, hr, hle⟩ := hgiven
      refine .derivative hder (Nat.lt_succ_of_lt hahead) ⟨r, j, hr, ?_⟩
      refine Nat.lt_of_le_of_ne hle fun heq => hnot ?_
      obtain ⟨c, hc⟩ := hr.reader
      obtain rfl := place_inj (h.mem_order ha) heq
      exact mem_passedTo_of_reads h ha hlen hder hr
  · obtain ⟨q', k', j', hder', hr', -⟩ := exists_slot_of_passedTo h ha hw
    exfalso
    have hpast : ∀ {q k : Nat}, IsDerivative g q k id →
        (∃ r j, ReadsSlot g r j q k ∧ place g p ≤ place g r) →
        place g q < place g p → False := by
      rintro q k hder ⟨r, j, hr, hle⟩ hlt
      have hlt' := hd.ordered.before _ _ _ _ hr'
      have hslot : ¬ (q = q' ∧ k = k') := by
        rintro ⟨rfl, rfl⟩
        exact hne (hder.unique hder')
      rcases Nat.le_total (place g q) (place g q') with hup | hdown
      · have := (h.reader_above_of_rootOf_eq hder hder' hroot hup hr).resolve_left hslot
        omega
      · have := (h.reader_above_of_rootOf_eq hder' hder hroot.symm hdown hr').resolve_left
          fun hsame => hslot ⟨hsame.1.symm, hsame.2.symm⟩
        omega
    rcases hid with hid | hmem
    · cases hid with
      | label node label =>
        obtain ⟨y, hy, hyd⟩ := hder'
        exact (h.rootOf_ne_label node label hy).2 _ hyd hroot.symm
      | value node output read => exact h.rootOf_value_ne_derivative ⟨_, node, output⟩ hder' hroot
      | derivative hder hahead hgiven => exact hpast hder hgiven hahead
    · obtain ⟨w', hw', rfl⟩ := List.mem_map.mp hmem
      obtain ⟨q, k, j, hder, hr, -⟩ := exists_slot_of_passedTo h ha hw'
      exact hpast hder ⟨p, j, hr, Nat.le_refl _⟩ (hd.ordered.before _ _ _ _ hr)

omit hs [Scalar α] in
/-- If a node passes nothing back, less is needed once it has had its turn. -/
theorem NeededBackward.of_not_passes (hpasses : a.passesDerivatives = false) {id : TensorRef}
    (hid : NeededBackward g (place g p) id) : NeededBackward g (place g p + 1) id := by
  cases hid with
  | label node label => exact .label node label
  | value node output read => exact .value node output (read.mono (Nat.le_succ _))
  | derivative hder hahead hgiven =>
    obtain ⟨r, j, hr, hle⟩ := hgiven
    refine .derivative hder (Nat.lt_succ_of_lt hahead) ⟨r, j, hr,
      Nat.lt_of_le_of_ne hle fun heq => ?_⟩
    obtain ⟨c, hc⟩ := hr.reader
    obtain rfl := place_inj (h.mem_order ha) heq
    obtain ⟨b, hb, hpart, -⟩ := h.participates_of_derivative hder
    rw [h.compiled.passes_of_reads hr ha hb hpart] at hpasses
    cases hpasses

end Turn

end Needs

namespace Network

variable {g : NodeGraph (Node α)} {batch t : Nat} {m m₂ m₃ : Network α} {p : NodeRef}
  {a : Node α} {r : Reader α} {done rest : List NodeRef} {given : WeightRef → List (Tensor α)}
  {turn : BackwardTurn}

/-- The parts of a turn before the visit. What the gradients are given is what it would be without
sharing, and so is what is still to be read. -/
structure Swept (g : NodeGraph (Node α)) (batch : Nat) (m m₃ : Network α) (i : Nat) (r' : Reader α)
    (given : WeightRef → List (Tensor α)) (t : Nat) : Prop where
  stage : Stage .train g batch m₃
  layout : m.store.SameLayout m₃.store
  kept : m.store.SameKept m₃.store
  agrees : m₃.store.Agrees (NeededBackward g i) r'
  gathered : m₃.store.Gathered (usesOf g g.order) given t

variable (hs : Stage .train g batch m) (ha : g.nodes[p]? = some a)
  (hturn : a.schedule.backward = some turn)
  (hagrees : m.store.Agrees (NeededBackward g (place g p + 1)) r)
include hs ha hturn hagrees

theorem swept_of_collect (hsplit : g.order.reverse = done ++ p :: rest)
    (hgiven : ∀ w, (given w).length = (trainersIn g done w).length)
    (hgathered : m.store.Gathered (usesOf g g.order) given turn.gradientStep)
    (hrun : if a.collectsGradients then runHook p Layer.collectGradients m =
      .ok () m₂ else m₂ = m) : ∃ cs, a.collected r = .ok cs ∧
      Swept g batch m m₂ (place g p + 1) r
        (fun w => given w ++ ((a.tensors.weights.zip cs).lookup w).toList) turn.gradientStep := by
  have hreg := hs.registered
  have hstep : a.schedule.gradientStep = some turn.gradientStep := by
    rw [Schedule.gradientStep, hturn]
    rfl
  rw [hreg.compiled.collects p a ha] at hrun
  unfold Node.collected
  cases htrains : a.trains with
  | false =>
    rw [htrains] at hrun
    obtain rfl : m₂ = m := hrun
    refine ⟨[], rfl, hs, .refl _, .refl _, hagrees, ?_⟩
    rw [List.zip_nil_right]
    simpa using hgathered
  | true =>
    rw [htrains] at hrun
    obtain ⟨loss, st, hcollect, rfl⟩ := hs.hook Layer.collectGradients ha hrun
    obtain ⟨cs, hcs, hl, hgathered', hothers⟩ :=
      gathered_of_collect hreg hs.placed ha hsplit hstep htrains hgiven hgathered hcollect
    rw [contributions_of_agrees hreg ha hagrees htrains] at hcs
    refine ⟨cs, hcs, hs.later hl (core_keep m p st), hl,
      fun id e he hk => hothers id ⟨e, he, .inl hk⟩ ?_,
      agrees_of_collect hreg ha hagrees hl hothers hturn, hgathered'⟩
    intro e' he' hrole
    rw [he] at he'
    cases he'
    rw [hrole] at hk
    cases hk

theorem swept_of_pass (hgathered : m.store.Gathered (usesOf g g.order) given turn.gradientStep)
    (hrun : if a.passesDerivatives then runHook p Layer.passBack m = .ok () m₃ else m₃ = m) :
    ∃ dxs, a.returned r = .ok dxs ∧
      Swept g batch m m₃ (place g p) (r.setAll (passedTo a.tensors.inputs dxs)) given
      (turn.gradientStep + 1) := by
  have hreg := hs.registered
  have hstep : a.schedule.gradientStep = some turn.gradientStep := by
    rw [Schedule.gradientStep, hturn]
    rfl
  unfold Node.returned
  cases hpasses : a.passesDerivatives with
  | false =>
    rw [hpasses] at hrun
    obtain rfl : m₃ = m := hrun
    refine ⟨[], rfl, hs, .refl _, .refl _, ?_, hgathered.mono (Nat.le_succ _)⟩
    rw [passedTo, List.zip_nil_right]
    exact hagrees.mono fun id hid => hid.of_not_passes hreg ha hpasses
  | true =>
    rw [hpasses] at hrun
    obtain ⟨loss, st, hpass, rfl⟩ := hs.hook Layer.passBack ha hrun
    obtain ⟨dxs, hdxs, hagrees'⟩ := agrees_of_passBack hreg ha hagrees hs.placed hturn hpasses hpass
    obtain ⟨hl, hgathered', hkept⟩ := gathered_of_passBack hreg hs.placed ha hstep hgathered hpass
    exact ⟨dxs, hdxs, hs.later hl (core_keep m p st), hl, hkept, hagrees', hgathered'⟩

/-- What a turn comes to before the visit. -/
theorem swept_of_turn (hsplit : g.order.reverse = done ++ p :: rest)
    (hgiven : ∀ w, (given w).length = (trainersIn g done w).length)
    (hgathered : m.store.Gathered (usesOf g g.order) given turn.gradientStep)
    (hcollect : if a.collectsGradients then runHook p Layer.collectGradients m = .ok () m₂
      else m₂ = m)
    (hpass : if a.passesDerivatives then runHook p Layer.passBack m₂ = .ok () m₃ else m₃ = m₂) :
    ∃ cs r', a.sweep r = .ok (cs, r') ∧ Swept g batch m m₃ (place g p) r'
      (fun w => given w ++ (cs.lookup w).toList) (turn.gradientStep + 1) := by
  obtain ⟨cs, hcs, h₂⟩ := swept_of_collect hs ha hturn hagrees hsplit hgiven hgathered hcollect
  obtain ⟨dxs, hdxs, h₃⟩ := swept_of_pass h₂.stage ha hturn h₂.agrees h₂.gathered hpass
  refine ⟨a.tensors.weights.zip cs, _, ?_, h₃.stage, h₂.layout.trans h₃.layout,
    h₂.kept.trans h₂.layout h₃.kept, h₃.agrees, h₃.gathered⟩
  unfold Node.sweep
  rw [hcs, except_ok_bind, hdxs]
  rfl

end Network

end LayerGraph
