import LayerGraph.Proofs.Layer.Dataflow
import LayerGraph.Proofs.Network.Buffers
import LayerGraph.Proofs.Network.Sound
import LayerGraph.Single

/-!
# Overwriting a buffer

A node that overwrites its input is the last to need what stands in that buffer. Whatever shares the
buffer by then belongs to nodes with one reader each, all of which have run before, and none of
which comes back to it in the backward pass.
-/

namespace LayerGraph

variable {α : Type} {g : NodeGraph (Node α)}

namespace Reuse

/-- The walk up from a node to a producer with a buffer of its own, without a bound on its
length. -/
inductive Follows (g : NodeGraph (Node α)) : Node α → BufferUse → Prop where
  | top {a : Node α} (producers : g.producersOf a = .ok []) : Follows g a .own
  | needed {a b : Node α} {q : NodeRef} {qs : List NodeRef}
      (producers : g.producersOf a = .ok (q :: qs))
      (node : g.nodes[q]? = some b) (once : isReadOnce b = false) : Follows g a .own
  | found {a b : Node α} {q : NodeRef} {qs : List NodeRef}
      (producers : g.producersOf a = .ok (q :: qs))
      (node : g.nodes[q]? = some b) (once : isReadOnce b = true) (own : b.bufferUse = .own) :
      Follows g a .overwrite
  | up {a b : Node α} {q : NodeRef} {qs : List NodeRef} {use : BufferUse}
      (producers : g.producersOf a = .ok (q :: qs)) (node : g.nodes[q]? = some b)
      (once : isReadOnce b = true) (shared : b.bufferUse ≠ .own)
        (above : Follows g b use) : Follows g a use

theorem exists_producersOf (hw : Wired g) {p : Nat} {a : Node α} (ha : g.nodes[p]? = some a) :
    ∃ qs, g.producersOf a = .ok qs := by
  refine except_mapM_exists fun conn hconn => ?_
  obtain ⟨i, hi⟩ := List.getElem?_of_mem hconn
  have hi : a.inputs[i]? = some conn := hi
  obtain ⟨q, k, a', conn', ha', hi', hq, -⟩ := hw.resolved p a i conn ha hi
  rw [ha] at ha'
  cases ha'
  rw [hi] at hi'
  cases hi'
  exact ⟨q, by rw [hq]⟩

/-- In an ordered graph the walk ends, and no longer bound than the place of the node makes a
difference. -/
theorem exists_follows (hw : Wired g) (ho : Ordered g) {p : Nat} {a : Node α}
    (ha : g.nodes[p]? = some a) :
    ∃ use, Follows g a use ∧ ∀ bound, place g p < bound → followBuffer g bound a = .ok use := by
  induction hplace : place g p using Nat.strongRecOn generalizing p a with
  | ind bound ih =>
    obtain ⟨qs, hqs⟩ := exists_producersOf hw ha
    cases qs with
    | nil =>
      refine ⟨.own, .top hqs, fun bound hb => ?_⟩
      obtain ⟨bound, rfl⟩ := Nat.exists_eq_add_one_of_ne_zero (by omega : bound ≠ 0)
      rw [followBuffer, hqs]
      rfl
    | cons q qs =>
      obtain ⟨k, hr⟩ := Network.readsSlot_of_producersOf ha hqs rfl
      obtain ⟨b, hb⟩ := hr.producer hw.distinct
      have hlt := ho.before _ _ _ _ hr
      have hstep : ∀ bound, followBuffer g (bound + 1) a =
          if !isReadOnce b then .ok .own else if b.bufferUse = .own then .ok .overwrite
          else followBuffer g bound b := fun bound => by
        rw [followBuffer, hqs, except_ok_bind, List.head?_cons]
        dsimp only
        rw [hb]
        rfl
      cases honce : isReadOnce b with
      | false =>
        refine ⟨.own, .needed hqs hb honce, fun bound hbound => ?_⟩
        obtain ⟨bound, rfl⟩ := Nat.exists_eq_add_one_of_ne_zero (by omega : bound ≠ 0)
        rw [hstep, honce]
        rfl
      | true =>
        by_cases hown : b.bufferUse = .own
        · refine ⟨.overwrite, .found hqs hb honce hown, fun bound hbound => ?_⟩
          obtain ⟨bound, rfl⟩ := Nat.exists_eq_add_one_of_ne_zero (by omega : bound ≠ 0)
          rw [hstep, honce, if_pos hown]
          rfl
        · obtain ⟨use, habove, hbound⟩ := ih _ (by omega) hb rfl
          refine ⟨use, .up hqs hb honce hown habove, fun bound hb' => ?_⟩
          obtain ⟨bound, rfl⟩ := Nat.exists_eq_add_one_of_ne_zero (by omega : bound ≠ 0)
          rw [hstep, honce, if_neg hown]
          exact hbound bound (by omega)

/-- A node that is read once has one slot. -/
theorem length_outputs_of_isReadOnce {b : Node α} (h : isReadOnce b = true) :
    b.outputs.length = 1 := by
  unfold isReadOnce at h
  split at h
  · next readers houtputs => rw [houtputs]; rfl
  · simp at h

/-- A node that is read once has one reader. -/
theorem reader_unique (hw : Wired g) {q r r' i i' k k' : Nat} {b : Node α}
    (hb : g.nodes[q]? = some b) (h : isReadOnce b = true) (hr : ReadsSlot g r i q k)
    (hr' : ReadsSlot g r' i' q k') : r = r' := by
  have hlen := length_outputs_of_isReadOnce h
  have hk := (hw.lt_iff q b k hb).mpr ⟨r, i, hr⟩
  have hk' := (hw.lt_iff q b k' hb).mpr ⟨r', i', hr'⟩
  obtain rfl : k = k' := by omega
  exact (hw.single r i r' i' q k hr hr').1

end Reuse

section Guarded

variable {s : Store α} {batch : Nat}

/-- Whatever shares the buffer of `x` before the node `p` runs has one reader, which has run as well
and shares the buffer itself. -/
def Guarded (g : NodeGraph (Node α)) (s : Store α) (p : NodeRef) (x : Wire) : Prop :=
  ∀ q k y b, g.nodes[q]? = some b → b.tensors.outputs[k]? = some y → place g q < place g p →
    s.rootOf y.value = s.rootOf x.value → Reuse.isReadOnce b = true ∧
      ∀ r i c, ReadsSlot g r i q k → g.nodes[r]? = some c → r ≠ p → place g r < place g p ∧
      c.bufferUse ≠ .own

variable (h : Registered g s batch g.order) {p q : Nat} {k : Nat} {b : Node α} {x : Wire}
include h

/-- The buffer of a producer that is read once is shared by nobody before its reader. -/
theorem guarded_of_own (hr : ReadsSlot g p 0 q k) (hb : g.nodes[q]? = some b)
    (honce : Reuse.isReadOnce b = true) (hx : b.tensors.outputs[k]? = some x)
    (hown : b.bufferUse = .own) : Guarded g s p x := by
  have hw := h.compiled.wired
  have hroot := ((h.holds_of_node hb).outputs x (List.mem_of_getElem? hx)).own (.inl hown)
  have honly : ∀ q' k' y', IsOutput g q' k' y' → place g q' < place g p →
      s.rootOf y'.value = x.value →
      q' = q := by
    intro q' k' y' hy' hlt heq
    obtain ⟨b', hb', hk'⟩ := hy'
    induction hplace : place g q' using Nat.strongRecOn generalizing q' k' y' b' with
    | ind bound ih =>
      rcases h.rootOf_output hb' hk' with hself | ⟨-, x', hx', hshare⟩
      · exact (h.output_eq_of_owned ⟨b', hb', hk'⟩ ⟨b, hb, hx⟩ x.value
          (by rw [← heq, hself]; exact List.mem_cons_self) List.mem_cons_self).1
      · obtain ⟨q₁, k₁, hr₁, b₁, hb₁, hk₁⟩ := h.exists_producer hb' hx'
        have hlt₁ := h.compiled.ordered.before _ _ _ _ hr₁
        obtain rfl := ih _ (by omega) q₁ k₁ x' (by omega) (hshare.symm.trans heq) b₁ hb₁ hk₁ rfl
        obtain rfl := Reuse.reader_unique hw hb honce hr hr₁
        omega
  intro q' k' y' b' hb' hk' hlt heq
  obtain rfl := honly q' k' y' ⟨b', hb', hk'⟩ hlt (heq.trans hroot)
  rw [hb] at hb'
  cases hb'
  exact ⟨honce, fun r i c hr' _ hne => absurd (Reuse.reader_unique hw hb honce hr' hr) hne⟩

/-- Nothing new shares the buffer between a producer that shares it and its reader. -/
theorem guarded_of_shared (hr : ReadsSlot g p 0 q k) (hb : g.nodes[q]? = some b)
    (honce : Reuse.isReadOnce b = true) (hshared : b.bufferUse ≠ .own) {x₁ : Wire}
    (hx₁ : b.tensors.inputs[0]? = some x₁) (hroot : s.rootOf x.value = s.rootOf x₁.value)
    (habove : Guarded g s q x₁) : Guarded g s p x := by
  have hw := h.compiled.wired
  have hqp := h.compiled.ordered.before _ _ _ _ hr
  have hbetween : ∀ q' k' y', IsOutput g q' k' y' → place g q < place g q' →
      place g q' < place g p → s.rootOf y'.value ≠ s.rootOf x₁.value := by
    intro q' k' y' hy' hle hlt heq
    obtain ⟨b', hb', hk'⟩ := hy'
    induction hplace : place g q' using Nat.strongRecOn generalizing q' k' y' b' with
    | ind bound ih =>
      obtain ⟨q₂, k₂, hr₂, hy₂⟩ := h.exists_producer hb hx₁
      have hlt₂ := h.compiled.ordered.before _ _ _ _ hr₂
      rcases h.rootOf_output hb' hk' with hself | ⟨-, x', hx', hshare⟩
      · obtain ⟨q₃, k₃, y₃, hy₃, hle₃, hroot₃⟩ := h.exists_root hy₂
        have := (h.output_eq_of_owned ⟨b', hb', hk'⟩ hy₃ y₃.value
          (by rw [← hroot₃, ← heq, hself]; exact List.mem_cons_self) List.mem_cons_self).1
        subst this
        omega
      · obtain ⟨q₁, k₁, hr₁, b₁, hb₁, hk₁⟩ := h.exists_producer hb' hx'
        have hlt₁ := h.compiled.ordered.before _ _ _ _ hr₁
        have heq₁ : s.rootOf x'.value = s.rootOf x₁.value := hshare.symm.trans heq
        rcases Nat.lt_trichotomy (place g q₁) (place g q) with hlt' | heq' | hlt'
        · have hne : q' ≠ q := fun he => by subst he; omega
          have := ((habove q₁ k₁ x' b₁ hb₁ hk₁ hlt' heq₁).2 q' 0 b' hr₁ hb' hne).1
          omega
        · obtain rfl := place_inj (h.mem_order hb₁) heq'
          obtain rfl := Reuse.reader_unique hw hb honce hr hr₁
          omega
        · exact ih _ (by omega) q₁ k₁ x' hlt' (by omega) heq₁ b₁ hb₁ hk₁ rfl
  intro q' k' y' b' hb' hk' hlt heq
  rcases Nat.lt_trichotomy (place g q') (place g q) with hlt' | heq' | hlt'
  · obtain ⟨honce', hreaders⟩ := habove q' k' y' b' hb' hk' hlt' (heq.trans hroot)
    refine ⟨honce', fun r i c hr' hc hne => ?_⟩
    by_cases hrq : r = q
    · subst hrq
      rw [hb] at hc
      cases hc
      exact ⟨hqp, hshared⟩
    · obtain ⟨hplace, huse⟩ := hreaders r i c hr' hc hrq
      exact ⟨by omega, huse⟩
  · obtain rfl := place_inj (h.mem_order hb') heq'
    rw [hb] at hb'
    cases hb'
    exact ⟨honce, fun r i c hr' _ hne => absurd (Reuse.reader_unique hw hb honce hr' hr) hne⟩
  · exact absurd (heq.trans hroot) (hbetween q' k' y' ⟨b', hb', hk'⟩ hlt' hlt)

theorem guarded_of_readOnceAbove (habove : ReadOnceAbove g p) {a : Node α}
    (ha : g.nodes[p]? = some a) (hx : a.tensors.inputs[0]? = some x) : Guarded g s p x := by
  induction habove generalizing a x with
  | @here p q k b hr hb honce hown =>
    obtain ⟨x', hx', hi⟩ := (h.linked_of_node ha).wire 0 q k b hr hb
    rw [hx] at hi
    cases hi
    exact guarded_of_own h hr hb honce hx' hown
  | @next p q k b hr hb honce _ ih =>
    obtain ⟨x', hx', hi⟩ := (h.linked_of_node ha).wire 0 q k b hr hb
    rw [hx] at hi
    cases hi
    by_cases hown : b.bufferUse = .own
    · exact guarded_of_own h hr hb honce hx' hown
    · have hlen : b.tensors.inputs.length = 1 :=
        (h.linked_of_node hb).length.trans ((h.compiled.mayShare q b hb).single hown)
      obtain ⟨x₁, hx₁⟩ := List.length_eq_one_iff.mp hlen
      have hshares := ((h.holds_of_node hb).outputs x (List.mem_of_getElem? hx')).shares hown x₁
        (by rw [hx₁]; rfl)
      have hfirst : b.tensors.inputs[0]? = some x₁ := by rw [hx₁]; rfl
      exact guarded_of_shared h hr hb honce hown hfirst hshares (ih hb hfirst)

end Guarded

section Need

variable [Scalar α]

/-- Two readers that find the same everywhere but in the given tensors. -/
structure Reader.AgreeOff (ids : List TensorRef) (r r' : Reader α) : Prop where
  value : ∀ id, id ∉ ids → r'.value id = r.value id
  shape : r'.shape = r.shape
  weight : r'.weight = r.weight

/-- In the backward pass the node adds and passes back the same, whatever its outputs hold by
then. -/
def Node.ForgetsOutputs (a : Node α) : Prop :=
  ∀ r r' : Reader α, r.AgreeOff (a.tensors.outputs.map (·.value)) r' →
    a.layer.contributions a.tensors r' = a.layer.contributions a.tensors r ∧
      a.layer.derivatives a.tensors r' = a.layer.derivatives a.tensors r

theorem Registered.forgetsOutputs {s : Store α} {batch : Nat} (h : Registered g s batch g.order)
    {q : Nat} {b : Node α} (hb : g.nodes[q]? = some b) (hneeds : b.layer.needsOutput = false) :
    b.ForgetsOutputs := by
  have hfits := (h.holds_of_node hb).fits
  intro r r' hr
  have hd : ∀ y ∈ b.tensors.outputs, r'.derivative y = r.derivative y := by
    intro y hy
    obtain ⟨k, hk⟩ := List.getElem?_of_mem hy
    unfold Reader.derivative
    cases hyd : y.derivative with
    | none => simp only [hr.shape]
    | some d =>
      refine hr.value d fun hmem => ?_
      obtain ⟨y', hy', heq⟩ := List.mem_map.mp hmem
      obtain ⟨k', hk'⟩ := List.getElem?_of_mem hy'
      have hmem : d ∈ y.owned := by simp [Wire.owned, hyd]
      obtain rfl :=
        (h.output_eq_of_owned ⟨b, hb, hk⟩ ⟨b, hb, hk'⟩ d hmem (heq ▸ List.mem_cons_self)).2
      rw [hk] at hk'
      cases hk'
      have hn := (List.nodup_flatMap.mp (List.nodup_append.mp (h.nodup_owned hb)).1).1 y hy
      simp [Wire.owned, hyd, heq] at hn
  refine ⟨Layer.contributions_of_agree hfits (fun x hx => hr.value _ fun hmem => ?_) hd,
    Layer.derivatives_of_forgets hfits hneeds (fun w _ => congrFun hr.weight w) hd⟩
  obtain ⟨i, hi⟩ := List.getElem?_of_mem hx
  obtain ⟨q', k', hread, hout⟩ := h.exists_producer hb hi
  obtain ⟨y, hy, heq⟩ := List.mem_map.mp hmem
  obtain ⟨k, hk⟩ := List.getElem?_of_mem hy
  have hlt := h.compiled.ordered.before _ _ _ _ hread
  have := (h.output_eq_of_owned ⟨b, hb, hk⟩ hout y.value List.mem_cons_self
    (heq ▸ List.mem_cons_self)).1
  subst this
  omega

end Need

namespace Network

variable {n n' : Network α} {asks : (Shape → List Shape) → Prop}

section Marks

/-- A node that has decided to share the buffer of its input finds that its outputs have the shape
of it. -/
theorem settleUse_of_declares {a : Node α} {use : BufferUse} {site : Site}
    {declared : Declaration α} (hdeclares : Declares site a.layer declared)
    (hlen : use ≠ .own → site.inputShapes.length = 1)
    (hreuse : use ≠ .own → a.layer.reuse ≠ .none) :
    settleUse use site.inputShapes declared.outputShapes = use := by
  by_cases hown : use = .own
  · rcases settleUse_eq_or use site.inputShapes declared.outputShapes with heq | heq
    · exact heq
    · rw [heq, hown]
  have hsame : ∀ shape, site.inputShapes = [shape] → ∀ sh ∈ declared.outputShapes, sh = shape := by
    have hreuse := hreuse hown
    generalize a.layer = layer at hdeclares hreuse
    intro shape hshape sh hsh
    cases hdeclares with
    | input | fullyConnected | addition => exact absurd rfl hreuse
    | activation ins | identity ins | loss ins =>
      rw [hshape] at ins
      cases ins
      exact List.mem_singleton.mp hsh
    | multiout ins =>
      rw [hshape] at ins
      cases ins
      exact List.eq_of_mem_replicate hsh
  obtain ⟨shape, hshape⟩ := List.length_eq_one_iff.mp (hlen hown)
  have hall : declared.outputShapes.all (· = shape) = true := by
    simpa using hsame shape hshape
  rw [hshape, settleUse, if_pos hall]

theorem reuse_ne_none {g : NodeGraph (Node α)} {p : Nat} {a : Node α} (h : MayShare g p a)
    (hu : a.bufferUse ≠ .own) : a.layer.reuse ≠ .none := by
  cases huse : a.bufferUse with
  | own => exact absurd huse hu
  | view =>
    rw [h.view huse]
    exact nofun
  | overwrite =>
    rw [(h.overwrite huse).1]
    exact nofun

/-- A node that shares the buffer of its input has nothing to train. -/
theorem trains_eq_false_of_shares {g : NodeGraph (Node α)} (h : Compiled g) {p : Nat} {a : Node α}
    (ha : g.nodes[p]? = some a) (hu : a.bufferUse ≠ .own) : a.trains = false := by
  have hreuse := reuse_ne_none (h.mayShare p a ha) hu
  have hship := h.shipped p a ha
  unfold Node.trains
  cases hlayer : a.layer with
  | fullyConnected =>
    rw [hlayer] at hreuse
    exact absurd rfl hreuse
  | custom =>
    rw [hlayer] at hship
    cases hship
  | input | activation | addition | multiout | identity | loss => simp [Layer.isTrained]

/-- Finalizing a node leaves its decision as it is. -/
theorem bufferUse_of_prepareNode {done : List NodeRef} {p : NodeRef} {u : Unit}
    (h : Registered n.graph n.store n.batchSize done) (hp : prepareNode p n = .ok u n') :
    n'.graph.nodes.map (·.bufferUse) = n.graph.nodes.map (·.bufferUse) := by
  obtain ⟨a, owner, inputs, inputShapes, declared, use, handles, s', ha, -, hinputs,
    hshapes, hdeclare, huse, -, rfl⟩ := stages_of_prepareNode hp
  have hshare := h.compiled.mayShare p a ha
  have hdeclares := declares_of_declare (h.compiled.shipped p a ha) hdeclare
  have hkeep : use = a.bufferUse := by
    rw [huse]
    refine settleUse_of_declares hdeclares (fun hu => ?_) (reuse_ne_none hshare)
    show inputShapes.length = 1
    rw [except_mapM_length hshapes, except_mapM_length hinputs, hshare.single hu]
  refine List.ext_getElem? fun q => ?_
  rw [List.getElem?_map, List.getElem?_map, getElem?_modifyNode]
  by_cases hpq : p = q
  · subst hpq
    rw [ha]
    simpa [finalized] using hkeep
  · cases n.graph.nodes[q]? with
    | none => rfl
    | some b => simp [hpq]

theorem bufferUse_of_prepare {inputs labels : List String} {u : Unit} (h : Drawn n)
    (hp : prepare inputs labels n = .ok u n') :
    n'.graph.nodes.map (·.bufferUse) = n.graph.nodes.map (·.bufferUse) := by
  obtain ⟨n₁, hall, rfl⟩ := prepareAll_of_prepare hp
  obtain ⟨_, _, hget, h₁⟩ := Action.bind_eq_ok_iff.mp hall
  cases hget
  obtain ⟨_, n₂, hnodes, h₂⟩ := Action.bind_eq_ok_iff.mp h₁
  obtain ⟨_, _, hread, h₃⟩ := Action.bind_eq_ok_iff.mp h₂
  obtain ⟨-, rfl⟩ := Action.read_eq_ok_iff.mp hread
  obtain ⟨_, _, hread, h₄⟩ := Action.bind_eq_ok_iff.mp h₃
  obtain ⟨-, rfl⟩ := Action.read_eq_ok_iff.mp hread
  cases h₄
  refine (Action.forM_prefix (fun done n₁ => Registered n₁.graph n₁.store n₁.batchSize done ∧
    Settling n.graph n₁.graph ∧ n₁.graph.nodes.map (·.bufferUse) = n.graph.nodes.map (·.bufferUse))
    hnodes ⟨registered_nil h, .refl _, rfl⟩ fun done p rest n₁ n₂ u hsplit hd hstep => ?_).2.2
  obtain ⟨hreg, hset, huse⟩ := hd
  have hsplit' : n₁.graph.order = done ++ p :: rest := hset.order.trans hsplit
  obtain ⟨hreg', hset'⟩ := registered_step hreg hsplit' hstep
  have huse' := bufferUse_of_prepareNode hreg hstep
  obtain ⟨_, _, _, _, _, _, _, _, -, -, -, -, -, -, -, rfl⟩ := stages_of_prepareNode hstep
  exact ⟨hreg', hset.trans hset', huse'.trans huse⟩

end Marks

/-- Nobody needs what the node `p` overwrites once it has run: whatever shares the buffer of its
input by then is no input and no output of the graph, it is not read again in the backward pass by
the node that has written it, and all that read it, but for `p` itself, run before `p` and do not
come back to it. -/
def LastToNeed [Scalar α] (n : Network α) (p : NodeRef) (x : Wire) : Prop :=
  ∀ q k y b, n.graph.nodes[q]? = some b → b.tensors.outputs[k]? = some y →
    place n.graph q < place n.graph p → n.store.rootOf y.value = n.store.rootOf x.value →
    b.isSource = false ∧ b.isTerminal = false ∧ y.value ∉ n.outputs ∧
    (b.participates = true → b.ForgetsOutputs) ∧
    ∀ r i c, ReadsSlot n.graph r i q k → n.graph.nodes[r]? = some c → (r, i) ≠ (p, 0) →
      place n.graph r < place n.graph p ∧ c.trains = false

theorem Prepared.lastToNeed [Scalar α] (h : Prepared asks n) {p : Nat} {w : Node α}
    (hw : n.graph.nodes[p]? = some w) (hu : w.bufferUse = .overwrite) :
    ∃ x, w.tensors.inputs = [x] ∧ LastToNeed n p x := by
  have hreg := h.registered
  have hshare := hreg.compiled.mayShare p w hw
  have hone : w.inputs.length = 1 := hshare.single (by rw [hu]; exact nofun)
  obtain ⟨x, hx⟩ := List.length_eq_one_iff.mp ((hreg.linked_of_node hw).length.trans hone)
  have hguarded := guarded_of_readOnceAbove hreg (hshare.overwrite hu).2 hw
    (x := x) (by rw [hx]; rfl)
  refine ⟨x, hx, fun q k y b hb hy hlt hroot => ?_⟩
  obtain ⟨honce, hreaders⟩ := hguarded q k y b hb hy hlt hroot
  have hlen := Reuse.length_outputs_of_isReadOnce honce
  simp only [Reuse.isReadOnce, Bool.and_eq_true, Bool.not_eq_true', Bool.and_eq_false_iff] at honce
  obtain ⟨⟨hsource, hneeds⟩, -⟩ := honce
  have hterminal : b.isTerminal = false := by
    unfold Node.isTerminal
    cases hout : b.outputs with
    | nil => simp [hout] at hlen
    | cons => rfl
  refine ⟨hsource, hterminal, fun hmem => ?_, fun hpart => ?_, fun r i c hr hc hne => ?_⟩
  · obtain ⟨q', b', y', hb', hterminal', hy', heq⟩ := h.faces.outputs _ hmem
    obtain ⟨k', hk'⟩ := List.getElem?_of_mem hy'
    have hq := (hreg.output_eq_of_owned ⟨b, hb, hy⟩ ⟨b', hb', hk'⟩ y.value List.mem_cons_self
      (heq ▸ List.mem_cons_self)).1
    subst hq
    rw [hb] at hb'
    cases hb'
    rw [hterminal] at hterminal'
    cases hterminal'
  · exact hreg.forgetsOutputs hb (hneeds.resolve_right (by rw [hpart]; exact nofun))
  · by_cases hrp : r = p
    · subst hrp
      obtain ⟨c', conn, hc', hi, -⟩ := hr
      rw [hw] at hc'
      cases hc'
      have hi := (List.getElem?_eq_some_iff.mp hi).1
      exact absurd (by rw [show i = 0 by omega]) hne
    · obtain ⟨hplace, huse⟩ := hreaders r i c hr hc hrp
      refine ⟨hplace, ?_⟩
      exact trains_eq_false_of_shares hreg.compiled hc huse

/-- In a compiled network the walk by which a node decides ends, whatever has been decided by then,
before it comes to its bound. Preparing changes no decision, and in a prepared network a node that
overwrites its input is the last to need it. -/
theorem overwrite_safe [Scalar α] (h : Reached asks n) (hc : n.isCompiled = true) :
    (∀ g : NodeGraph (Node α), g.order = n.graph.order →
      g.nodes.map design = n.graph.nodes.map design →
      ∀ a ∈ g.nodes, ∃ use, Reuse.Follows g a use ∧
        ∀ bound, g.size ≤ bound → Reuse.followBuffer g bound a = .ok use) ∧
    (∀ inputs labels n', prepare inputs labels n = .ok () n' →
      n'.graph.nodes.map (·.bufferUse) = n.graph.nodes.map (·.bufferUse)) ∧
    (n.isPrepared = true → ∀ p w, n.graph.nodes[p]? = some w → w.bufferUse = .overwrite →
      ∃ x, w.tensors.inputs = [x] ∧ LastToNeed n p x) := by
  have hsound := sound_of_reached h
  have hcompiled : Compiled n.graph := by
    rcases hsound with hdraft | hdrawn | hprep
    · rw [hdraft.open_] at hc
      cases hc
    · exact hdrawn.compiled
    · exact hprep.registered.compiled
  refine ⟨fun g ho hd a ha => ?_, fun inputs labels n' hp => ?_, fun hp p w hw hu => ?_⟩
  · have hg := hcompiled.toDesigned.of_design ho hd
    obtain ⟨p, hp⟩ := List.getElem?_of_mem ha
    obtain ⟨use, hfollows, hbound⟩ := Reuse.exists_follows hg.wired hg.ordered hp
    exact ⟨use, hfollows, fun bound hle => hbound bound
      (Nat.lt_of_lt_of_le (place_lt hg.ordered.perm hp) hle)⟩
  · rcases hsound with hdraft | hdrawn | hprep
    · rw [hdraft.open_] at hc
      cases hc
    · exact bufferUse_of_prepare hdrawn hp
    · obtain ⟨_, _, hget, hp⟩ := Action.bind_eq_ok_iff.mp hp
      cases hget
      obtain ⟨-, hp⟩ := Action.guard_eq_ok_iff.mp hp
      obtain ⟨_, _, hget, hp⟩ := Action.bind_eq_ok_iff.mp hp
      cases hget
      exact absurd hprep.prepared (Action.guard_eq_ok_iff.mp hp).1
  · rcases hsound.cases with hbare | hprep
    · rw [hbare.unprepared] at hp
      cases hp
    · exact hprep.lastToNeed hw hu

section Stack

/-- A frozen layer, a view of its output, and two activations in a row. -/
def stack : Network Float32 :=
  (add (.ofLayer (.activation .sigmoid) "s" [⟨"r", 0⟩])).after
    ((add (.ofLayer (.activation .relu) "r" [⟨"v", 0⟩])).after
      ((add (.ofLayer .identity "v" [⟨"f", 0⟩])).after
        ((add { Node.ofLayer (.fullyConnected 1 .zeros .zeros) "f" [⟨"x", 0⟩] with trainable :=
          false }).after ((add (.ofLayer (.input 1) "x" [])).after
            (ofSettings ⟨1, true, none, []⟩)))))

/-- What compiling makes of it: both activations overwrite the output of the frozen layer. -/
def stackCompiled : Network Float32 :=
  { (ofSettings ⟨1, true, none, []⟩ : Network Float32) with
    graph := ⟨[
      { Node.ofLayer (.input 1) "x" [] with outputs := [[⟨"f", 0⟩]] },
      { Node.ofLayer (.fullyConnected 1 .zeros .zeros) "f" [⟨"x", 0⟩] with
        outputs := [[⟨"v", 0⟩]], trainable := false, schedule := .oneWay 1 },
      { Node.ofLayer .identity "v" [⟨"f", 0⟩] with
        outputs := [[⟨"r", 0⟩]], schedule := .oneWay 2, bufferUse := .view },
      { Node.ofLayer (.activation .relu) "r" [⟨"v", 0⟩] with
        outputs := [[⟨"s", 0⟩]], schedule := .oneWay 3, bufferUse := .overwrite },
      { Node.ofLayer (.activation .sigmoid) "s" [⟨"r", 0⟩] with
        schedule := .oneWay 4, bufferUse := .overwrite }], [0, 1, 2, 3, 4]⟩
    store := (Store.empty true none).setBounds 5 4
    isCompiled := true }

theorem compile_stack : compile none stack = .ok () stackCompiled := by cbv

/-- What preparing it comes to. -/
def stacked : Network Float32 := (prepare [] []).after stackCompiled

theorem reached_stacked : Reached (fun _ : Shape → List Shape => False) stacked := by
  have h : Reached (fun _ => False) ((prepare [] []).after ((compile none).after stack)) :=
    .prepare _ _
      (.compile _ (.add _ (Node.isPlain_ofLayer rfl _ _) (.add _ (Node.isPlain_ofLayer rfl _ _)
      (.add _ (Node.isPlain_ofLayer rfl _ _)
        (.add _ ⟨rfl, rfl⟩ (.add _ (Node.isPlain_ofLayer rfl _ _) (.settings _)))))))
  rwa [Action.after_of_ok compile_stack] at h

theorem stacked_nodes : stacked.isCompiled = true ∧ stacked.isPrepared = true ∧
    stacked.graph.nodes.map (fun a => (a.name, a.bufferUse)) =
      [("x", .own), ("f", .own), ("v", .view), ("r", .overwrite), ("s", .overwrite)] := by
  decide +kernel

theorem stacked_safe : ∃ (p : NodeRef) (w : Node Float32) (x : Wire),
    stacked.graph.nodes[p]? = some w ∧ w.name = "s" ∧ w.bufferUse = .overwrite ∧
    w.tensors.inputs = [x] ∧ LastToNeed stacked p x := by
  obtain ⟨hcompiled, hprepared, hnodes⟩ := stacked_nodes
  obtain ⟨w, hw, heq⟩ := exists_of_map_eq hnodes (y := ("s", .overwrite)) (by simp)
  simp only [Prod.mk.injEq] at heq
  obtain ⟨p, hp⟩ := List.getElem?_of_mem hw
  obtain ⟨x, hx, hlast⟩ := (overwrite_safe reached_stacked hcompiled).2.2 hprepared p w hp heq.2
  exact ⟨p, w, x, hp, heq.1, heq.2, hx, hlast⟩

end Stack

end Network

end LayerGraph
