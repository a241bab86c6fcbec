import LayerGraph.Proofs.Network.Overwriting
import LayerGraph.Proofs.Network.Stage
import LayerGraph.Proofs.Network.Windows
import LayerGraph.Proofs.Store.Unshared

/-!
# Forward runs

Without sharing a forward run fills one tensor after the other. With it, nodes share buffers and
buffers share slots, but whatever is still to be read is what it is without.
-/

namespace LayerGraph

open Network

variable {α : Type} [Scalar α]

section Dataflow

/-- What a node adds to a memory that shares nothing, if it reads through `see`. -/
def flowNode (g : NodeGraph (Node α)) (see : Node α → Reader α → Reader α) (r : Reader α)
    (p : NodeRef) : Except Error (Reader α) :=
  match g.nodes[p]? with
  | none => .error (.staleHandle p)
  | some a => do
    let vs ← a.layer.results a.tensors (see a r)
    return r.setAll ((a.tensors.outputs.map (·.value)).zip vs)

/-- A forward run in a memory that shares nothing. -/
def dataflow (g : NodeGraph (Node α)) (see : Node α → Reader α → Reader α) (r : Reader α) :
    Except Error (Reader α) := g.order.foldlM (flowNode g see) r

end Dataflow

section Needs

variable {g : NodeGraph (Node α)} {s s' : Store α} {batch : Nat} {mode : RunMode}

omit [Scalar α] in
/-- Output `k` of the node `q` is read in the backward pass by a node before place `i`. -/
def ReadBack (g : NodeGraph (Node α)) (i q k : Nat) : Prop :=
  (∃ r j c, ReadsSlot g r j q k ∧ g.nodes[r]? = some c ∧ c.trains = true ∧ place g r < i) ∨
  ∃ b, g.nodes[q]? = some b ∧ b.layer.needsOutput = true ∧ b.passesDerivatives = true ∧
    place g q < i

omit [Scalar α] in
theorem ReadBack.mono {i i' q k : Nat} (h : ReadBack g i q k) (hle : i ≤ i') :
    ReadBack g i' q k := by
  rcases h with ⟨r, j, c, hr, hc, htrains, hlt⟩ | ⟨b, hb, hneeds, hpasses, hlt⟩
  · exact .inl ⟨r, j, c, hr, hc, htrains, by omega⟩
  · exact .inr ⟨b, hb, hneeds, hpasses, by omega⟩

/-- What is there once the nodes before place `i` have run forward, and is still to be read. -/
inductive NeededForward (g : NodeGraph (Node α)) (mode : RunMode) (i : Nat) : TensorRef → Prop where
  | label {p : Nat} {a : Node α} {l : TensorRef} (node : g.nodes[p]? = some a)
      (label : a.tensors.label = some l) : NeededForward g mode i l
  | value {q k : Nat} {b : Node α} {y : Wire} (node : g.nodes[q]? = some b)
      (output : b.tensors.outputs[k]? = some y) (there : b.isSource = true ∨ place g q < i)
      (needed : (∃ r j, ReadsSlot g r j q k ∧ i ≤ place g r) ∨ b.isTerminal = true ∨
        mode = .train ∧ ReadBack g g.size q k) : NeededForward g mode i y.value

variable (h : Registered g s batch g.order)
include h

omit [Scalar α] in
/-- What is needed later is in use when a node runs that comes in between. -/
theorem NeededForward.spans {p : Nat} {a : Node α} (ha : g.nodes[p]? = some a) {id : TensorRef}
    (hid : NeededForward g mode (place g p + 1) id) : s.Spans mode id (place g p) := by
  cases hid with
  | label node label => exact ((h.holds_of_node node).label _ label).spans mode _
  | @value q k b y hb hy hthere hneeded =>
    cases hs : b.isSource with
    | true =>
      exact (((h.holds_of_node hb).outputs y (List.mem_of_getElem? hy)).source hs).spans mode _
    | false =>
      have hle : place g q ≤ place g p := by
        rcases hthere with hsource | hlt
        · rw [hs] at hsource
          cases hsource
        · omega
      have hwritten := h.usedIn_written hb hy mode hs
      have hlast := place_lt h.compiled.ordered.perm ha
      rcases hneeded with ⟨r, j, hr, hafter⟩ | hterminal | ⟨rfl,
        ⟨r, j, c, hr, hc, htrains, -⟩ | hback⟩
      · obtain ⟨c, hc⟩ := hr.reader
        exact .of_usedIn hwritten (h.usedIn_read hb hy hr hc mode) hle (by omega)
      · exact .of_usedIn hwritten (h.usedIn_terminal hb hy mode hs hterminal) hle (by omega)
      · obtain ⟨turn, hturn, hsize⟩ :=
          h.compiled.exists_turn hc (h.compiled.participates_of_trains hc htrains)
        exact .of_usedIn hwritten (h.usedIn_readBack hb hy hr hc hturn) hle (by omega)
      · obtain ⟨b', hb', hneeds, hpasses, -⟩ := hback
        rw [hb] at hb'
        cases hb'
        obtain ⟨turn, hturn, hsize⟩ :=
          h.compiled.exists_turn hb (Node.participates_of_passes hpasses)
        exact .of_usedIn hwritten (h.usedIn_needsOutput hb hy hs hneeds hturn) hle (by omega)

section Shared

variable {p k : Nat} {a : Node α} {y : Wire} (ha : g.nodes[p]? = some a)
  (hy : a.tensors.outputs[k]? = some y)
include ha hy

omit [Scalar α] in
/-- Nothing that is there shares a buffer with an output that has its own. -/
theorem Registered.eq_of_own (huse : a.bufferUse = .own) {q j : Nat} {b : Node α} {z : Wire}
    (hb : g.nodes[q]? = some b) (hz : b.tensors.outputs[j]? = some z)
    (hthere : b.isSource = true ∨ place g q < place g p + 1)
    (hroot : s.rootOf z.value = s.rootOf y.value) : z.value = y.value := by
  have hown : ∀ {k : Nat} {y : Wire}, a.tensors.outputs[k]? = some y → s.rootOf y.value = y.value :=
    fun hy => ((h.holds_of_node ha).outputs _ (List.mem_of_getElem? hy)).own (.inl huse)
  rw [hown hy] at hroot
  rcases hthere with hsource | hlt
  · rw [← hroot]
    exact ((((h.holds_of_node hb).outputs z (List.mem_of_getElem? hz)).source
        hsource).rootOf_eq).symm
  · obtain ⟨q₁, k₁, y₁, hy₁, hle, hroot₁⟩ := h.exists_root ⟨b, hb, hz⟩
    rw [hroot] at hroot₁
    obtain ⟨rfl, -⟩ := h.output_eq_of_owned ⟨a, ha, hy⟩ hy₁ y.value List.mem_cons_self
      (by rw [hroot₁]; exact List.mem_cons_self)
    obtain rfl := place_inj (h.mem_order hb) (by omega : place g q = place g p)
    rw [ha] at hb
    cases hb
    rw [← hroot, hown hz]

omit [Scalar α] in
/-- What a node overwrites is not needed any more. -/
theorem not_needed_of_overwrite (huse : a.bufferUse = .overwrite) {q j : Nat}
    {b : Node α} {z : Wire} (hb : g.nodes[q]? = some b) (hz : b.tensors.outputs[j]? = some z)
    (hthere : b.isSource = true ∨ place g q < place g p + 1) (hne : z.value ≠ y.value)
    (hroot : s.rootOf z.value = s.rootOf y.value) :
    ¬ ((∃ r j', ReadsSlot g r j' q j ∧ place g p + 1 ≤ place g r) ∨
      b.isTerminal = true ∨ mode = .train ∧ ReadBack g g.size q j) := by
  have hshares : a.bufferUse ≠ .own := by rw [huse]; exact nofun
  have hmay := h.compiled.mayShare p a ha
  have hone := (h.linked_of_node ha).length.trans (hmay.single hshares)
  obtain ⟨x, hx⟩ := List.length_eq_one_iff.mp hone
  have hx₀ : a.tensors.inputs[0]? = some x := by rw [hx]; rfl
  have hrootx : s.rootOf z.value = s.rootOf x.value := by
    rw [hroot]
    exact ((h.holds_of_node ha).outputs y (List.mem_of_getElem? hy)).shares hshares x
      (by rw [hx]; rfl)
  have hlt : place g q < place g p := by
    rcases Nat.lt_trichotomy (place g q) (place g p) with hlt | heq | hgt
    · exact hlt
    · obtain rfl := place_inj (h.mem_order hb) heq
      rw [ha] at hb
      cases hb
      obtain ⟨y₀, hy₀⟩ := (h.holds_of_node ha).fits.output_unique (hmay.overwrite huse).1
      have hone : ∀ {w : Wire}, w ∈ a.tensors.outputs → w = y₀ := fun hw => by
        rw [hy₀] at hw
        exact List.mem_singleton.mp hw
      exact absurd (by rw [hone (List.mem_of_getElem? hz), hone (List.mem_of_getElem? hy)]) hne
    · -- What is fed is its own root, and the root of an output does not stand below it.
      have hsource := hthere.resolve_right (by omega)
      rw [(((h.holds_of_node hb).outputs z (List.mem_of_getElem? hz)).source hsource).rootOf_eq]
        at hroot
      obtain ⟨q₁, k₁, y₁, hy₁, hle, hroot₁⟩ := h.exists_root ⟨a, ha, hy⟩
      obtain ⟨rfl, -⟩ := h.output_eq_of_owned ⟨b, hb, hz⟩ hy₁ z.value List.mem_cons_self
        (by rw [hroot, hroot₁]; exact List.mem_cons_self)
      omega
  obtain ⟨honce, hreaders⟩ :=
    guarded_of_readOnceAbove h (hmay.overwrite huse).2 ha hx₀ q j z b hb hz hlt hrootx
  have hread : ∀ r j' c, ReadsSlot g r j' q j → g.nodes[r]? = some c →
      place g r ≤ place g p ∧ c.trains = false := by
    intro r j' c hr hc
    by_cases hrp : r = p
    · subst hrp
      rw [ha] at hc
      cases hc
      exact ⟨Nat.le_refl _, trains_eq_false_of_shares h.compiled ha hshares⟩
    · obtain ⟨hbefore, hown⟩ := hreaders r j' c hr hc hrp
      exact ⟨Nat.le_of_lt hbefore, trains_eq_false_of_shares h.compiled hc hown⟩
  have hlen := Reuse.length_outputs_of_isReadOnce honce
  simp only [Reuse.isReadOnce, Bool.and_eq_true, Bool.not_eq_true', Bool.and_eq_false_iff] at honce
  rintro (⟨r, j', hr, hafter⟩ | hterminal | ⟨-, ⟨r, j', c, hr, hc, htrains, -⟩ | ⟨b',
        hb', hneeds, hpasses, -⟩⟩)
  · obtain ⟨c, hc⟩ := hr.reader
    have := (hread r j' c hr hc).1
    omega
  · rw [Node.isTerminal, List.isEmpty_iff] at hterminal
    rw [hterminal] at hlen
    cases hlen
  · rw [(hread r j' c hr hc).2] at htrains
    cases htrains
  · rw [hb] at hb'
    cases hb'
    have hpart := Node.participates_of_passes hpasses
    rcases honce.1.2 with hno | hno
    · rw [hneeds] at hno
      cases hno
    · rw [hpart] at hno
      cases hno

end Shared

section Step

variable {p : Nat} {a : Node α} (ha : g.nodes[p]? = some a) {r : Reader α} {vs : List (Tensor α)}
  (hs : s.Agrees (NeededForward g mode (place g p)) r)
include ha

omit [Scalar α] in
/-- The inputs of a node are needed when it runs. -/
theorem neededForward_input {x : Wire} (hx : x ∈ a.tensors.inputs) :
    NeededForward g mode (place g p) x.value := by
  obtain ⟨j, hj⟩ := List.getElem?_of_mem hx
  obtain ⟨q, k, hr, b, hb, hk⟩ := h.exists_producer ha hj
  exact .value hb hk (.inr (h.compiled.ordered.before _ _ _ _ hr)) (.inl ⟨p, j, hr, Nat.le_refl _⟩)

/-- What is needed once a node has run shares its buffer with nothing that the node writes, unless
it holds just that. -/
theorem free_of_results (hvs : a.layer.results a.tensors s.reader = .ok vs) {id : TensorRef}
    (hid : NeededForward g mode (place g p + 1) id ∨ id ∈ a.tensors.outputs.map (·.value))
    {k : Nat} {y : Wire} {v : Tensor α} (hy : a.tensors.outputs[k]? = some y) (hv : v ∈ vs)
    (hne : id ≠ y.value) (hroot : s.rootOf id = s.rootOf y.value) : s.get id = .ok v := by
  have hid' : NeededForward g mode (place g p + 1) id ∨
      ∃ (j : Nat) (z : Wire), a.tensors.outputs[j]? = some z ∧ z.value = id := by
    refine hid.imp_right fun hmem => ?_
    obtain ⟨z, hz, rfl⟩ := List.mem_map.mp hmem
    obtain ⟨j, hj⟩ := List.getElem?_of_mem hz
    exact ⟨j, z, hj, rfl⟩
  have hlabel : ∀ {p' : Nat} {a' : Node α}, g.nodes[p']? = some a' → a'.tensors.label ≠ some id :=
    fun ha' hl => (h.rootOf_ne_label ha' hl ⟨a, ha, hy⟩).1 hroot.symm
  cases huse : a.bufferUse with
  | own =>
    rcases hid' with hneeded | ⟨j, z, hz, rfl⟩
    · cases hneeded with
      | label node label => exact absurd label (hlabel node)
      | value hb hz hthere _ => exact absurd (h.eq_of_own ha hy huse hb hz hthere hroot) hne
    · exact absurd (h.eq_of_own ha hy huse ha hz (.inr (Nat.lt_succ_self _)) hroot) hne
  | view =>
    obtain ⟨x, v₀, hx, hxv, hall⟩ := Layer.results_of_view (h.holds_of_node ha).fits
      ((h.compiled.mayShare p a ha).view huse) hvs
    obtain rfl := hall v hv
    have hrootx := ((h.holds_of_node ha).outputs y (List.mem_of_getElem? hy)).shares
      (by rw [huse]; exact nofun) x (by rw [hx]; rfl)
    obtain ⟨q, k₀, -, hx₀⟩ := h.exists_producer ha (i := 0) (x := x) (by rw [hx]; rfl)
    obtain ⟨e, he⟩ := h.backing_of_output hx₀
    obtain ⟨e', he'⟩ : ∃ e', s.backing id = some e' := by
      rcases hid' with hneeded | ⟨j, z, hz, rfl⟩
      · cases hneeded with
        | label node label => exact absurd label (hlabel node)
        | value hb hz _ _ => exact h.backing_of_output ⟨_, hb, hz⟩
      · exact h.backing_of_output ⟨a, ha, hz⟩
    rw [Store.get_of_rootOf_eq he he' (hroot.trans hrootx)]
    exact hxv
  | overwrite =>
    rcases hid' with hneeded | ⟨j, z, hz, rfl⟩
    · cases hneeded with
      | label node label => exact absurd label (hlabel node)
      | value hb hz hthere hneeds =>
        exact absurd hneeds (not_needed_of_overwrite h ha hy huse hb hz hthere hne hroot)
    · obtain ⟨y₀, hy₀⟩ :=
        (h.holds_of_node ha).fits.output_unique ((h.compiled.mayShare p a ha).overwrite huse).1
      have hone : ∀ {w : Wire}, w ∈ a.tensors.outputs → w = y₀ := fun hw => by
        rw [hy₀] at hw
        exact List.mem_singleton.mp hw
      exact absurd (by rw [hone (List.mem_of_getElem? hz), hone (List.mem_of_getElem? hy)]) hne

include hs

theorem results_of_agrees : a.layer.results a.tensors s.reader = a.layer.results a.tensors r :=
  Layer.results_of_agree (h.holds_of_node ha).fits
    (fun _ hx => hs.value _ (neededForward_input h ha hx)) fun w _ =>
    congrFun hs.weight w

/-- When a node has run, the store holds what is still needed of a memory that shares nothing. -/
theorem agrees_of_results (hp : s.Placed mode) (hvs : a.layer.results a.tensors s.reader = .ok vs)
    (hset : s.setAll ((a.tensors.outputs.map (·.value)).zip vs) = .ok s') :
    s'.Agrees (NeededForward g mode (place g p + 1))
      (r.setAll ((a.tensors.outputs.map (·.value)).zip vs)) := by
  have hfits := (h.holds_of_node ha).fits
  have hcount := Layer.length_of_results hfits hvs
  have hwritten : ∀ w ∈ (a.tensors.outputs.map (·.value)).zip vs, a.isSource = false ∧ w.2 ∈ vs ∧
      ∃ (k : Nat) (y : Wire), a.tensors.outputs[k]? = some y ∧ y.value = w.1 := by
    intro w hw
    obtain ⟨hw₁, hw₂⟩ := List.of_mem_zip hw
    obtain ⟨y, hy, heq⟩ := List.mem_map.mp hw₁
    obtain ⟨k, hk⟩ := List.getElem?_of_mem hy
    refine ⟨?_, hw₂, k, y, hk, heq⟩
    cases hsource : a.isSource with
    | false => rfl
    | true =>
      rw [show a.layer.isSource = true from hsource, if_pos rfl] at hcount
      rw [hcount] at hw₂
      cases hw₂
  refine hs.setAll h.registry hp hset (t := place g p) (fun w hw => ?_) (fun id hid hnot => ?_)
    (fun id hid => hid.spans h ha) fun id hid w hw hne hroot => ?_
  · obtain ⟨hsource, -, k, y, hk, heq⟩ := hwritten w hw
    rw [← heq]
    exact h.usedIn_written ha hk mode hsource
  · cases hid with
    | label node label => exact .label node label
    | @value q k b y hb hy hthere hneeded =>
      refine .value hb hy ?_ (hneeded.imp_left fun ⟨r, j, hr, hafter⟩ => ⟨r, j, hr, by omega⟩)
      cases hsource : b.isSource with
      | true => exact .inl rfl
      | false =>
        have hlt := hthere.resolve_left (by rw [hsource]; exact nofun)
        refine .inr (Nat.lt_of_le_of_ne (Nat.le_of_lt_succ hlt) fun heq => hnot ?_)
        -- The outputs of the node itself have been written.
        obtain rfl := place_inj (h.mem_order hb) heq
        rw [ha] at hb
        cases hb
        rw [show a.layer.isSource = false from hsource, if_neg nofun] at hcount
        rw [List.map_fst_zip (Nat.le_of_eq (by rw [List.length_map, hcount]))]
        exact List.mem_map_of_mem (List.mem_of_getElem? hy)
  · obtain ⟨-, hv, k, y, hk, heq⟩ := hwritten w hw
    rw [← heq] at hne hroot
    refine free_of_results h ha hvs (hid.imp_right fun hmem => ?_) hk hv hne hroot
    obtain ⟨w', hw', rfl⟩ := List.mem_map.mp hmem
    exact (List.of_mem_zip hw').1

theorem lossOf_of_agrees : a.layer.lossOf a.tensors s.reader = a.layer.lossOf a.tensors r :=
  Layer.lossOf_of_agree (h.holds_of_node ha).fits
    (fun _ hx => hs.value _ (neededForward_input h ha hx)) fun l hl => hs.value l (.label ha hl)

omit [Scalar α] hs h ha in
theorem value_setAll_outputs {id : TensorRef} (hne : ∀ y ∈ a.tensors.outputs, y.value ≠ id) :
    (r.setAll ((a.tensors.outputs.map (·.value)).zip vs)).value id = r.value id := by
  refine Reader.value_setAll_of_not_mem fun hmem => ?_
  obtain ⟨w, hw, rfl⟩ := List.mem_map.mp hmem
  obtain ⟨y, hy, heq⟩ := List.mem_map.mp (List.of_mem_zip hw).1
  exact hne y hy heq

omit [Scalar α] hs in
/-- What a node writes is no label. -/
theorem value_setAll_label {q : Nat} {b : Node α} {l : TensorRef} (hb : g.nodes[q]? = some b)
    (hl : b.tensors.label = some l) :
    (r.setAll ((a.tensors.outputs.map (·.value)).zip vs)).value l = r.value l := by
  refine value_setAll_outputs fun y hy heq => ?_
  obtain ⟨k, hk⟩ := List.getElem?_of_mem hy
  exact (h.rootOf_ne_label hb hl ⟨a, ha, hk⟩).1 (by rw [heq])

omit hs in
/-- What a node writes does not change the losses of those that have run. -/
theorem lossOf_setAll {q : Nat} {b : Node α} (hb : g.nodes[q]? = some b)
    (hle : place g q ≤ place g p) :
    b.layer.lossOf b.tensors (r.setAll ((a.tensors.outputs.map (·.value)).zip vs)) =
      b.layer.lossOf b.tensors r := by
  refine Layer.lossOf_of_agree (h.holds_of_node hb).fits (fun x hx => ?_) fun l hl =>
    value_setAll_label h ha hb hl
  refine value_setAll_outputs fun y hy heq => ?_
  obtain ⟨j, hj⟩ := List.getElem?_of_mem hx
  obtain ⟨k, hk⟩ := List.getElem?_of_mem hy
  obtain ⟨q₀, k₀, hr, hx₀⟩ := h.exists_producer hb hj
  obtain ⟨rfl, -⟩ := h.output_eq_of_owned ⟨a, ha, hk⟩ hx₀ y.value List.mem_cons_self
    (by rw [heq]; exact List.mem_cons_self)
  have := h.compiled.ordered.before _ _ _ _ hr
  omega

end Step

end Needs

namespace Network

variable {n n' m m' : Network α} {asks : (Shape → List Shape) → Prop} {mode : RunMode}
  {r₀ r : Reader α} {done rest : List NodeRef} {p : NodeRef} {a : Node α}
  {u : Unit} {training : Bool}

/-- The loss of a node is the one that it finds in a memory that shares nothing. -/
def FindsLoss (a : Node α) (r : Reader α) (m : Network α) (p : NodeRef) : Prop :=
  ∃ found, a.layer.lossOf a.tensors r = .ok found ∧
    ∀ b, m.graph.nodes[p]? = some b → ∀ l ∈ found, b.loss = l

/-- A forward run of `n` that has come through the nodes in `done`, and holds what is still needed
of `r`. -/
structure Flows (n : Network α) (mode : RunMode) (r₀ : Reader α) (done : List NodeRef)
    (r : Reader α) (m : Network α) : Prop where
  stage : Stage mode n.graph n.batchSize m
  layout : n.store.SameLayout m.store
  kept : n.store.SameKept m.store
  outputs : m.outputs = n.outputs
  computes : done.foldlM (flowNode n.graph fun _ r => r) r₀ = .ok r
  agrees : m.store.Agrees (NeededForward n.graph mode done.length) r
  losses : ∀ p ∈ done, ∀ a, n.graph.nodes[p]? = some a → FindsLoss a r m p

omit [Scalar α] in
theorem place_of_split {g : NodeGraph (Node α)} (hn : g.order.Nodup)
    (hsplit : g.order = done ++ p :: rest) : place g p = done.length := by
  unfold place
  rw [hsplit, List.idxOf_append_of_notMem (not_mem_done hn hsplit), List.idxOf_cons_self,
    Nat.add_zero]

omit [Scalar α] in
theorem exists_node_of_split {g : NodeGraph (Node α)} (hp : g.order.Perm (List.range g.size))
    (hsplit : g.order = done ++ p :: rest) : ∃ a, g.nodes[p]? = some a := by
  have hlt := (mem_order_iff hp (p := p)).mp (by rw [hsplit]; simp)
  exact ⟨_, List.getElem?_eq_getElem hlt⟩

theorem Flows.step (h : Flows n mode r₀ done r m) (hsplit : n.graph.order = done ++ p :: rest)
    (hrun : runHook p (Layer.forward · training) m = .ok u m') :
    ∃ r', Flows n mode r₀ (done ++ [p]) r' m' := by
  have hreg := h.stage.registered
  have hperm := hreg.compiled.ordered.perm
  have hplace := place_of_split (nodup_order hperm) hsplit
  obtain ⟨a, ha⟩ := exists_node_of_split hperm hsplit
  obtain ⟨loss, t, hhook, rfl⟩ := h.stage.hook (Layer.forward · training) ha hrun
  have hfits : Fits m.store a.layer a.view.handles := (hreg.holds_of_node ha).fits
  obtain ⟨vs, hvs, hset, -, hloss⟩ := Layer.of_forward hfits hhook
  have hagrees := h.agrees
  rw [← hplace] at hagrees
  have hresults := results_of_agrees hreg ha hagrees
  have hagrees' := agrees_of_results hreg ha hagrees h.stage.placed hvs hset
  have hlayout := Store.sameLayout_setAll hset
  have hunkept : m.store.SameKept t.store := Store.sameKept_of_setAll hset fun w hw => by
    obtain ⟨y, hy, heq⟩ := List.mem_map.mp (List.of_mem_zip hw).1
    obtain ⟨width, hw⟩ := hfits.output hy
    obtain ⟨e, he, hdata, -⟩ := hw.value
    exact ⟨e, heq ▸ he, Role.isKept_eq_false_of_isData hdata⟩
  refine ⟨_, h.stage.later hlayout (core_keep m p t), h.layout.trans hlayout,
    h.kept.trans h.layout hunkept,
    h.outputs, ?_, by rw [List.length_append, List.length_singleton, ← hplace]; exact hagrees',
    fun q hq b hb => ?_⟩
  · have hflow : flowNode n.graph (fun _ r => r) r p =
        .ok (r.setAll ((a.tensors.outputs.map (·.value)).zip vs)) := by
      unfold flowNode
      rw [ha]
      dsimp only
      rw [← hresults, show a.layer.results a.tensors m.store.reader = .ok vs from hvs]
      rfl
    rw [List.foldlM_append, h.computes, except_ok_bind, List.foldlM_cons, hflow]
    rfl
  · have hnode : ∀ {q : Nat} {b' : Node α}, (m.keep p t).graph.nodes[q]? = some b' →
        ∃ b, m.graph.nodes[q]? = some b ∧ b' = if p = q then { b with loss := t.loss } else b := by
      intro q b' hb'
      rw [show (m.keep p t).graph = m.graph.modifyNode p fun node => { node with loss := t.loss }
        from rfl, getElem?_modifyNode] at hb'
      obtain ⟨b, hb, rfl⟩ := Option.map_eq_some_iff.mp hb'
      exact ⟨b, hb, rfl⟩
    unfold FindsLoss
    rcases List.mem_append.mp hq with hq | hq
    · have hpairs := pairwise_place hperm
      rw [hsplit] at hpairs
      have hlt := (List.pairwise_append.mp hpairs).2.2 q hq p List.mem_cons_self
      obtain ⟨found, hfound, hall⟩ := h.losses q hq b hb
      rw [lossOf_setAll hreg ha hb (Nat.le_of_lt hlt)]
      refine ⟨found, hfound, fun b' hb' => ?_⟩
      obtain ⟨b₀, hb₀, rfl⟩ := hnode hb'
      rw [if_neg fun heq => Nat.lt_irrefl _ (heq ▸ hlt)]
      exact hall b₀ hb₀
    · obtain rfl := List.mem_singleton.mp hq
      rw [ha] at hb
      cases hb
      obtain ⟨found, hfound, heq⟩ := hloss fun l hl => by
        rw [hagrees'.value l (.label ha hl), value_setAll_label hreg ha ha hl]
        exact (hagrees.value l (.label ha hl)).symm
      refine ⟨found, ?_, fun b' hb' l hl => ?_⟩
      · rw [lossOf_setAll hreg ha ha (Nat.le_refl _), ← lossOf_of_agrees hreg ha hagrees]
        exact hfound
      · obtain ⟨b₀, -, rfl⟩ := hnode hb'
        rw [if_pos rfl]
        rw [heq, Option.mem_def.mp hl]
        rfl

/-- A forward run finds what it would without sharing: its outputs, its losses, and everything that
a backward pass is still to read. -/
theorem Ready.flows (h : Ready asks mode n)
    (hstart : n.store.Agrees (NeededForward n.graph mode 0) r₀) {outputs : List (Tensor α)}
    (hrun : forward training n = .ok outputs n') :
    ∃ r, Flows n mode r₀ n.graph.order r n' ∧ dataflow n.graph (fun _ r => r) r₀ = .ok r ∧
      n.outputs.mapM r.value = .ok outputs := by
  obtain ⟨_, _, hread, hrun⟩ := Action.bind_eq_ok_iff.mp hrun
  obtain ⟨-, rfl⟩ := Action.read_eq_ok_iff.mp hread
  obtain ⟨_, _, hget, hrun⟩ := Action.bind_eq_ok_iff.mp hrun
  cases hget
  obtain ⟨-, hrun⟩ := Action.guard_eq_ok_iff.mp hrun
  obtain ⟨_, _, hget, hrun⟩ := Action.bind_eq_ok_iff.mp hrun
  cases hget
  obtain ⟨_, n₁, hloop, hrun⟩ := Action.bind_eq_ok_iff.mp hrun
  obtain ⟨houtputs, rfl⟩ := Action.read_eq_ok_iff.mp hrun
  obtain ⟨r, hflows⟩ := Action.forM_prefix (fun done m => ∃ r, Flows n mode r₀ done r m) hloop
    ⟨r₀, h.stage, .refl _, .refl _, rfl, rfl, hstart, nofun⟩
    fun done p rest m m' u hsplit ⟨r, hm⟩ hstep => hm.step hsplit hstep
  refine ⟨r, hflows, hflows.computes, ?_⟩
  rw [← hflows.outputs, ← (show n₁.outputs.mapM n₁.store.get = .ok outputs from houtputs)]
  refine except_mapM_congr fun id hid => (hflows.agrees.value id ?_).symm
  rw [hflows.outputs] at hid
  obtain ⟨p, a, y, ha, hterminal, hy, rfl⟩ := h.prepared.faces.outputs id hid
  obtain ⟨k, hk⟩ := List.getElem?_of_mem hy
  have hperm := h.prepared.registered.compiled.ordered.perm
  refine .value ha hk (.inr ?_) (.inr (.inl hterminal))
  rw [length_order hperm]
  exact place_lt hperm ha

end Network

end LayerGraph
