import LayerGraph.Proofs.Network.Derivatives
import LayerGraph.Proofs.Network.Gradients

/-!
# When tensors are used

A value is used when it is written and whenever it is read, and a derivative when it is passed back
and when it is handed on. Both are in use at the steps in between.
-/

namespace LayerGraph

open Network

variable {α : Type} {g : NodeGraph (Node α)} {s : Store α} {batch : Nat} {mode : RunMode}

theorem Store.HasWidth.usedIn {id : TensorRef} {width t : Nat} (h : s.HasWidth id width)
    (ht : t ∈ s.stepsOf id) (hmode : mode = .train ∨ t < s.forwardSteps) : s.UsedIn mode id t := by
  obtain ⟨e, he, hdata, -⟩ := h
  exact .of_stepsOf he (Role.isKept_eq_false_of_isData hdata) ht hmode

theorem Store.IsExternal.spans {id : TensorRef} (h : s.IsExternal id) (mode : RunMode) (t : Nat) :
    s.Spans mode id t := by
  obtain ⟨e, he, hs, hrole⟩ := h
  exact ⟨e, Store.backing_of_source_eq_none he hs, .inr (.inl hrole)⟩

/-- What is fed is no alias. -/
theorem Store.IsExternal.rootOf_eq {id : TensorRef} (h : s.IsExternal id) : s.rootOf id = id := by
  obtain ⟨e, he, hs, -⟩ := h
  exact Store.rootOf_of_source_eq_none he hs

theorem Store.IsExternal.backing {id : TensorRef} (h : s.IsExternal id) :
    ∃ e, s.backing id = some e := by
  obtain ⟨e, he, hs, -⟩ := h
  exact ⟨e, Store.backing_of_source_eq_none he hs⟩

namespace Scheduled

variable (h : Scheduled g) {p q : Nat} {a b : Node α}
include h

theorem forward_eq (ha : g.nodes[p]? = some a) : a.schedule.forward = place g p := by
  rw [h.schedule p a ha, scheduleOf_forward]

/-- A node that takes part has its turn after the forward steps. -/
theorem exists_turn (ha : g.nodes[p]? = some a) (hpart : a.participates = true) :
    ∃ turn, a.schedule.backward = some turn ∧ g.size ≤ turn.gradientStep := by
  obtain ⟨turn, hturn⟩ := (exists_turn_iff h.ordered.perm ha).mp hpart
  exact ⟨turn, by rw [h.schedule p a ha, hturn], le_gradientStep hturn⟩

theorem turn_lt {t u : BackwardTurn} (ha : g.nodes[p]? = some a) (hb : g.nodes[q]? = some b)
    (ht : a.schedule.backward = some t) (hu : b.schedule.backward = some u)
    (hlt : place g p < place g q) : u.gradientStep + 2 ≤ t.gradientStep := by
  rw [h.schedule p a ha] at ht
  rw [h.schedule q b hb] at hu
  exact turn_before h.ordered.perm ht hu hlt

/-- The reader of a node that takes part passes derivatives back to it. -/
theorem passes_of_reads {i k : Nat} (hr : ReadsSlot g p i q k) (ha : g.nodes[p]? = some a)
    (hb : g.nodes[q]? = some b) (hpart : b.participates = true) : a.passesDerivatives = true :=
  (h.passes p a ha).mpr ⟨i, q, k, b, hr, hb, hpart⟩

theorem participates_of_trains (ha : g.nodes[p]? = some a) (ht : a.trains = true) :
    a.participates = true := by
  rw [Node.participates, h.collects p a ha, ht, Bool.or_true]

end Scheduled

theorem ReadsSlot.reader {r j q k : Nat} (hr : ReadsSlot g r j q k) :
    ∃ c, g.nodes[r]? = some c := by
  obtain ⟨c, -, hc, -⟩ := hr
  exact ⟨c, hc⟩

theorem Node.participates_of_passes {a : Node α} (h : a.passesDerivatives = true) :
    a.participates = true := by
  rw [Node.participates, h, Bool.true_or]

theorem Schedule.mem_returnSteps {schedule : Schedule} {turn : BackwardTurn}
    (h : schedule.backward = some turn) :
    turn.gradientStep ∈ schedule.returnSteps ∧ turn.gradientStep + 1 ∈ schedule.returnSteps := by
  rw [Schedule.returnSteps, h]
  simp [BackwardTurn.derivativeStep]

namespace Registered

variable (h : Registered g s batch g.order)
include h

/-- The reader of a slot holds its output among its inputs. -/
theorem input_of_reads {r j q k : Nat} {y : Wire} {c : Node α} (hr : ReadsSlot g r j q k)
    (hc : g.nodes[r]? = some c) (hy : IsOutput g q k y) : c.tensors.inputs[j]? = some y := by
  obtain ⟨b, hb, hk⟩ := hy
  obtain ⟨x, hx, hi⟩ := (h.linked_of_node hc).wire j q k b hr hb
  rw [hk] at hx
  cases hx
  exact hi

/-- Every slot of a node that is read has a reader. -/
theorem exists_reader {q k : Nat} {b : Node α} {y : Wire} (hb : g.nodes[q]? = some b)
    (hy : b.tensors.outputs[k]? = some y) (hread : b.isTerminal = false) : ∃ r j,
      ReadsSlot g r j q k := by
  refine (h.compiled.wired.lt_iff q b k hb).mp ?_
  exact Nat.lt_of_lt_of_le (List.getElem?_eq_some_iff.mp hy).1 ((h.holds_of_node hb).slots hread)

theorem wireFits_of_output {q k : Nat} {y : Wire} (hy : IsOutput g q k y) :
    ∃ width, s.WireFits y width := by
  obtain ⟨b, hb, hk⟩ := hy
  exact (h.holds_of_node hb).fits.output (List.mem_of_getElem? hk)

theorem backing_of_output {q k : Nat} {y : Wire} (hy : IsOutput g q k y) :
    ∃ e, s.backing y.value = some e := by
  obtain ⟨width, hw⟩ := h.wireFits_of_output hy
  obtain ⟨e, he, -⟩ := hw.value
  exact ⟨e, he⟩

theorem place_lt_forwardSteps {p : Nat} {a : Node α} (ha : g.nodes[p]? = some a) :
    place g p < s.forwardSteps := by
  rw [h.forwardSteps]
  exact place_lt h.compiled.ordered.perm ha

section Values

variable {q k : Nat} {b : Node α} {y : Wire} (hb : g.nodes[q]? = some b)
  (hy : b.tensors.outputs[k]? = some y)
include hb hy

/-- The steps at which a node itself uses its output. -/
theorem usedIn_outputSteps (hs : b.isSource = false) {t : Nat}
    (ht : t ∈ outputSteps b g.size s.maxStep) (hmode : mode = .train ∨ t < s.forwardSteps) :
    s.UsedIn mode y.value t := by
  obtain ⟨width, hw⟩ := h.wireFits_of_output ⟨b, hb, hy⟩
  exact hw.value.usedIn (((h.holds_of_node hb).outputs y (List.mem_of_getElem? hy)).writes hs t ht)
    hmode

/-- A value is used at the step at which it is written. -/
theorem usedIn_written (mode : RunMode) (hs : b.isSource = false) :
    s.UsedIn mode y.value (place g q) := by
  refine h.usedIn_outputSteps hb hy hs ?_ (.inr (h.place_lt_forwardSteps hb))
  simp [outputSteps, h.compiled.forward_eq hb]

/-- A graph output is used at the last forward step. -/
theorem usedIn_terminal (mode : RunMode) (hs : b.isSource = false)
    (hterminal : b.isTerminal = true) : s.UsedIn mode y.value (g.size - 1) := by
  have hlt := h.place_lt_forwardSteps hb
  have hsize := h.forwardSteps
  exact h.usedIn_outputSteps hb hy hs (by simp [outputSteps, hterminal]) (.inr (by omega))

/-- A value is used when its node needs it to pass derivatives back. -/
theorem usedIn_needsOutput (hs : b.isSource = false) (hneeds : b.layer.needsOutput = true)
    {turn : BackwardTurn} (hturn : b.schedule.backward = some turn) :
    s.UsedIn .train y.value (turn.gradientStep + 1) := by
  refine h.usedIn_outputSteps hb hy hs ?_ (.inl rfl)
  have hmem := (Schedule.mem_returnSteps hturn).2
  simp [outputSteps, hneeds, hmem]

variable {r j : Nat} {c : Node α} (hr : ReadsSlot g r j q k) (hc : g.nodes[r]? = some c)
include hr hc

/-- The steps at which a reader uses a value. -/
theorem usedIn_readSteps {t : Nat} (ht : t ∈ readSteps c)
    (hmode : mode = .train ∨ t < s.forwardSteps) : s.UsedIn mode y.value t := by
  obtain ⟨width, hw⟩ := h.wireFits_of_output ⟨b, hb, hy⟩
  have hin := List.mem_of_getElem? (h.input_of_reads hr hc ⟨b, hb, hy⟩)
  exact hw.value.usedIn ((h.holds_of_node hc).reads y hin t ht) hmode

theorem usedIn_read (mode : RunMode) : s.UsedIn mode y.value (place g r) := by
  refine h.usedIn_readSteps hb hy hr hc ?_ (.inr (h.place_lt_forwardSteps hc))
  simp [readSteps, h.compiled.forward_eq hc]

theorem usedIn_readBack {turn : BackwardTurn} (hturn : c.schedule.backward = some turn) :
    s.UsedIn .train y.value turn.gradientStep :=
  h.usedIn_readSteps hb hy hr hc (List.mem_cons_of_mem _ (Schedule.mem_returnSteps hturn).1)
    (.inl rfl)

end Values

section Derivatives

variable {q k : Nat} {d : TensorRef} (hd : IsDerivative g q k d)
include hd

/-- A derivative is there for nodes that take part and are read. -/
theorem participates_of_derivative : ∃ b, g.nodes[q]? = some b ∧ b.participates = true ∧
    b.isTerminal = false ∧ b.isSource = false ∧ k < b.tensors.outputs.length := by
  obtain ⟨y, ⟨b, hb, hk⟩, hyd⟩ := hd
  have htakes := ((h.holds_of_node hb).outputs y (List.mem_of_getElem? hk)).takes
  rw [hyd] at htakes
  simp only [Option.isSome_some, Eq.comm (a := true), Bool.and_eq_true, Bool.not_eq_true'] at htakes
  obtain ⟨⟨hpart, hterminal⟩, hsource⟩ := htakes
  exact ⟨b, hb, hpart, hterminal, hsource, (List.getElem?_eq_some_iff.mp hk).1⟩

theorem usedIn_taken {b : Node α} (hb : g.nodes[q]? = some b) {t : Nat}
    (ht : t ∈ b.schedule.returnSteps) : s.UsedIn .train d t := by
  obtain ⟨y, ⟨b', hb', hk⟩, hyd⟩ := hd
  rw [hb] at hb'
  cases hb'
  obtain ⟨width, hw⟩ := h.wireFits_of_output ⟨b, hb, hk⟩
  exact (hw.derivative d hyd).usedIn
    (((h.holds_of_node hb).outputs y (List.mem_of_getElem? hk)).taken d hyd t ht) (.inl rfl)

theorem usedIn_given {r j : Nat} {c : Node α} (hr : ReadsSlot g r j q k) (hc : g.nodes[r]? = some c)
    {turn : BackwardTurn} (hturn : c.schedule.backward = some turn) :
    s.UsedIn .train d (turn.gradientStep + 1) := by
  obtain ⟨y, hy, hyd⟩ := hd
  obtain ⟨width, hw⟩ := h.wireFits_of_output hy
  refine (hw.derivative d hyd).usedIn ((h.holds_of_node hc).returns y
    (List.mem_of_getElem? (h.input_of_reads hr hc hy)) d _ hyd ?_) (.inl rfl)
  rw [Schedule.derivativeStep, hturn]
  rfl

end Derivatives

end Registered

end LayerGraph
