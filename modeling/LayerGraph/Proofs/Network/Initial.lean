import LayerGraph.Proofs.Network.Optimized
import LayerGraph.Proofs.Network.Sharing
import LayerGraph.Proofs.Network.Timeline
import LayerGraph.Proofs.Rational
import LayerGraph.Proofs.Store.Initial

/-!
# Weights that are shared start from the first user

Nodes register their weights in sorted order, so a weight starts from the initializer of the first
node with its owner. That need not be the owner itself: where the owner reads what a node that
shares its weights has computed, its own initializers are never looked at.
-/

namespace LayerGraph

variable {α : Type}

/-- The initializers that a node asks for, by the names of its weights. -/
def Node.initials (a : Node α) : List (String × Initializer α) :=
  match a.layer with
  | .fullyConnected _ weight bias =>
    [(a.owner ++ ":" ++ "weight", weight), (a.owner ++ ":" ++ "bias", bias)]
  | _ => []

namespace Network

open Store Layer

section Prepare

variable {s s' : Store α} {claims : List (String × Initializer α)} {n n' : Network α}

theorem starts_register {node : Node α} {use : BufferUse} {owner : String} {size : Nat}
    {inputs : List Wire} {declared : Declaration α} {handles : Handles} (h : Starts claims s)
    (hreg : register node use owner size inputs declared s = .ok handles s') :
    Starts (claims ++ declared.weights.map fun decl => (owner ++ ":" ++ decl.name,
      decl.initializer)) s' := by
  obtain ⟨_, s₁, hreads, h₁⟩ := Action.bind_eq_ok_iff.mp hreg
  obtain ⟨_, _, hget, h₂⟩ := Action.bind_eq_ok_iff.mp h₁
  cases hget
  obtain ⟨outputs, s₂, houtputs, h₃⟩ := Action.bind_eq_ok_iff.mp h₂
  obtain ⟨weights, s₃, hweights, h₄⟩ := Action.bind_eq_ok_iff.mp h₃
  obtain ⟨tensors, s₄, htensors, h₅⟩ := Action.bind_eq_ok_iff.mp h₄
  obtain ⟨label, s₅, hlabel, h₆⟩ := Action.bind_eq_ok_iff.mp h₅
  cases h₆
  have htrue := punctual_true node size
  have hsteps : ∀ t ∈ outputSteps node size s₁.maxStep, True := htrue.outputSteps trivial
  -- Whatever is registered besides the weights changes nothing.
  have hs₁ := (keeps_registerReads (tensorialAt_starts claims) htrue inputs).of_ok h hreads
  have hs₂ := (Action.keeps_mapM fun output _ =>
    keeps_registerOutput (tensorialAt_starts claims) htrue use inputs hsteps output).of_ok
      hs₁ houtputs
  have hs₃ := Action.mapM_prefix (fun done _ s => Starts (claims ++ done.map fun decl =>
    (owner ++ ":" ++ decl.name, decl.initializer)) s) hweights (by simpa using hs₂)
    fun done decl _ _ s w s' _ hs hw => by simpa using starts_useWeight hs hw
  have hs₄ := (Action.keeps_mapM fun decl _ => keeps_registerScratch (tensorialAt_starts _) htrue
    decl).of_ok hs₃ htensors
  exact (keeps_registerLabel (tensorialAt_starts _) declared.label).of_ok hs₄ hlabel

theorem initials_of_declares {a : Node α} {site : Site} {declared : Declaration α}
    (h : Declares site a.layer declared) :
    declared.weights.map (fun decl => (a.owner ++ ":" ++ decl.name, decl.initializer)) =
      a.initials := by
  unfold Node.initials
  generalize a.layer = layer at h
  cases h with
  | fullyConnected | input | activation | addition | multiout | identity | loss => rfl

theorem starts_step {batch : Nat} {done rest : List NodeRef} {p : NodeRef} {u : Unit}
    (hreg : Registered n.graph n.store batch done) (hsplit : n.graph.order = done ++ p :: rest)
    (h : Starts (gather n.graph done Node.initials) n.store) (hp : prepareNode p n = .ok u n') :
    Starts (gather n'.graph (done ++ [p]) Node.initials) n'.store := by
  obtain ⟨a, owner, inputs, inputShapes, declared, use, handles, s', ha, howner, -, -, hdeclare,
      -, hregister, rfl⟩ :=
    stages_of_prepareNode hp
  have hdesigned := hreg.compiled.toDesigned
  have hstarts := starts_register h hregister
  rw [ownerOf_eq_ok howner,
    initials_of_declares (declares_of_declare (hdesigned.shipped p a ha) hdeclare)] at hstarts
  change Starts (gather (n.graph.modifyNode p _) (done ++ [p]) Node.initials) s'
  rw [gather_modifyNode (not_mem_done (nodup_order hdesigned.ordered.perm) hsplit) ha]
  exact hstarts

/-- The weights of a network that has just been prepared start from what its nodes ask for, in
sorted order. -/
theorem starts_of_prepare {inputs labels : List String} {u : Unit} (hd : Drawn n)
    (hp : prepare inputs labels n = .ok u n') :
    Starts (gather n'.graph n'.graph.order Node.initials) n'.store := by
  obtain ⟨n₁, hall, rfl⟩ := prepareAll_of_prepare hp
  obtain ⟨_, _, hget, h₁⟩ := Action.bind_eq_ok_iff.mp hall
  cases hget
  obtain ⟨_, n₂, hloop, h₂⟩ := Action.bind_eq_ok_iff.mp h₁
  obtain ⟨inputs, _, hread, h₃⟩ := Action.bind_eq_ok_iff.mp h₂
  obtain ⟨-, rfl⟩ := Action.read_eq_ok_iff.mp hread
  obtain ⟨labels, _, hread, h₄⟩ := Action.bind_eq_ok_iff.mp h₃
  obtain ⟨-, rfl⟩ := Action.read_eq_ok_iff.mp hread
  cases h₄
  obtain ⟨-, hset, hstarts⟩ :=
    Action.forM_prefix (fun done n₂ => Registered n₂.graph n₂.store n₂.batchSize done ∧
    Settling n.graph n₂.graph ∧ Starts (gather n₂.graph done Node.initials) n₂.store) hloop
    ⟨registered_nil hd, .refl _, starts_nil hd.blank.weights⟩
      fun done p rest n₂ n₃ u hsplit hdone hstep => by
      obtain ⟨hreg, hset, hstarts⟩ := hdone
      rw [← hset.order] at hsplit
      obtain ⟨hreg', hset'⟩ := registered_step hreg hsplit hstep
      have hstarts' := starts_step hreg hsplit hstarts hstep
      obtain ⟨_, _, _, _, _, _, _, _, -, -, -, -, -, -, -, rfl⟩ := stages_of_prepareNode hstep
      exact ⟨hreg', hset.trans hset', hstarts'⟩
  rw [← hset.order] at hstarts
  exact hstarts

end Prepare

section First

theorem weightName_ne_biasName (owner owner' : String) :
    owner ++ ":" ++ "weight" ≠ owner' ++ ":" ++ "bias" := by
  intro h
  have := congrArg (·.toList.getLast?) h
  simp at this

/-- The first of these nodes with this owner, whose initializers count. -/
theorem exists_first_of_owner {nodes : List (Node α)} {owner : String}
    (h : ∃ a ∈ nodes, a.layer.isFullyConnected = true ∧ a.owner = owner) :
    ∃ before f after units weight bias, nodes = before ++ f :: after ∧
      f.layer = .fullyConnected units weight bias ∧
      f.owner = owner ∧ (∀ a ∈ before, a.layer.isFullyConnected = true → a.owner ≠ owner) ∧
      (nodes.flatMap Node.initials).lookup (owner ++ ":" ++ "weight") = some weight ∧
      (nodes.flatMap Node.initials).lookup (owner ++ ":" ++ "bias") = some bias := by
  obtain ⟨a, ha, hlayer, howner⟩ := h
  have hfound : (nodes.find? fun a => a.layer.isFullyConnected && a.owner == owner).isSome = true :=
    List.find?_isSome.mpr ⟨a, ha, by simp [hlayer, howner]⟩
  obtain ⟨f, hf⟩ := Option.isSome_iff_exists.mp hfound
  obtain ⟨hfirst, before, after, rfl, hbefore⟩ := List.find?_eq_some_iff_append.mp hf
  obtain ⟨hlayer, howner⟩ := Bool.and_eq_true_iff.mp hfirst
  have howner := beq_iff_eq.mp howner
  have hother : ∀ a ∈ before, a.layer.isFullyConnected = true → a.owner ≠ owner := by
    intro a ha hl heq
    have := hbefore a ha
    simp [hl, heq] at this
  obtain ⟨units, weight, bias, hf⟩ : ∃ units weight bias,
      f.layer = .fullyConnected units weight bias := by
    cases hf : f.layer with
    | fullyConnected units weight bias => exact ⟨units, weight, bias, rfl⟩
    | input | activation | addition | multiout | identity | loss | custom =>
      rw [hf] at hlayer
      cases hlayer
  -- What comes before asks for weights of other owners.
  have hnone : ∀ name : String, (name = "weight" ∨ name = "bias") →
      (before.flatMap Node.initials).lookup (owner ++ ":" ++ name) = none := by
    intro name hname
    refine List.lookup_eq_none_iff.mpr fun p hp => bne_iff_ne.mpr ?_
    obtain ⟨a, ha, hp⟩ := List.mem_flatMap.mp hp
    have hne := hother a ha
    unfold Node.initials at hp
    split at hp
    · next hl =>
      have hne := hne (by rw [hl]; rfl)
      simp only [List.mem_cons, List.not_mem_nil, or_false] at hp
      rcases hp with rfl | rfl <;> rcases hname with rfl | rfl
      · exact fun h => hne (owner_eq_of_weightName h).symm
      · exact fun h => weightName_ne_biasName _ _ h.symm
      · exact weightName_ne_biasName _ _
      · exact fun h => hne (owner_eq_of_weightName h).symm
    · cases hp
  refine ⟨before, f, after, units, weight, bias, rfl, hf, howner, hother, ?_, ?_⟩ <;>
    rw [List.flatMap_append, List.lookup_append, hnone _ (by simp), List.flatMap_cons,
      Node.initials, hf, howner]
  · simp
  · rw [Option.none_or, List.cons_append, List.lookup_cons,
      beq_false_of_ne (weightName_ne_biasName owner owner).symm]
    simp

end First

section Calls

variable [Scalar α] {d n₀ n n' : Network α}

/-- The weight has the value that this initializer gives. -/
def StartsAs (s : Store α) (w : WeightRef) (init : Initializer α) : Prop :=
  ∃ r seed shape, s.weights[w]? = some r ∧ s.get r.value = .ok (init.fill seed shape)

omit [Scalar α] in
theorem map_initializer_rebatched (batch : Nat) (entries : List (TensorRecord α)) :
    (entries.map (·.rebatched batch)).map (·.initializer) = entries.map (·.initializer) := by
  rw [List.map_map]
  exact List.map_congr_left fun e _ => by rw [Function.comp_apply, e.rebatched_eq batch]

omit [Scalar α] in
theorem starts_of_kin {batch : Nat} {passed : Prop} {m s : Store α}
    {claims : List (String × Initializer α)} (h : Starts claims m) (hk : Kin batch passed m s) :
    Starts claims s := by
  refine h.of_tables ?_ ?_
  · have := congrArg (List.map fun r : String × TensorRef × Option TensorRef × Bool × List Nat =>
      (r.1, r.2.1)) hk.weights
    rw [List.map_map, List.map_map] at this
    exact this
  · obtain ⟨states, -, hentries⟩ := hk.entries
    rw [← map_initializer_rebatched batch s.entries]
    rcases hentries with heq | ⟨-, heq⟩
    · rw [heq, List.map_append]
      exact List.prefix_append _ _
    · rw [heq, List.map_append, List.map_map]
      refine (List.map_congr_left fun e _ => ?_) ▸ List.prefix_append _ _
      rw [Function.comp_apply, (e.lasting_eq m.maxStep).1]

omit [Scalar α] in
theorem entry_of_starts {batch : Nat} {s : Store α} {claims : List (String × Initializer α)}
    (h : Starts claims s) (hreg : Registry batch s) {w : WeightRef} {r : WeightRecord}
    (hr : s.weights[w]? = some r) {init : Initializer α}
    (hclaim : claims.lookup r.name = some init) :
    ∃ e, s.entries[r.value]? = some e ∧ e.initializer = init ∧ isKeptRoot e = true := by
  rw [← h.initial, initialOf] at hclaim
  obtain ⟨value, hvalue, hinit⟩ := Option.bind_eq_some_iff.mp hclaim
  obtain ⟨before, after, hsplit, -⟩ := List.lookup_eq_some_iff.mp hvalue
  obtain ⟨v, hv⟩ := List.getElem?_of_mem (show (r.name, value) ∈ s.named by rw [hsplit]; simp)
  rw [named, List.getElem?_map] at hv
  obtain ⟨r', hr', heq⟩ := Option.map_eq_some_iff.mp hv
  simp only [Prod.mk.injEq] at heq
  obtain rfl := hreg.name_inj v w r' r hr' hr heq.1
  rw [hr] at hr'
  cases hr'
  rw [← heq.2, List.getElem?_map] at hinit
  obtain ⟨e, he, rfl⟩ := Option.map_eq_some_iff.mp hinit
  obtain ⟨e', he', hsource, hkept⟩ := hreg.isKept hr (.inl rfl)
  rw [he] at he'
  cases he'
  exact ⟨e, he, rfl, by rw [isKeptRoot, hsource, hkept]; rfl⟩

theorem startsAs_of_filled {batch : Nat} {s : Store α} {claims : List (String × Initializer α)}
    (h : Starts claims s) (hreg : Registry batch s) {w : WeightRef} {name : String}
    (hw : s.HasWeightName w name) {init : Initializer α} (hclaim : claims.lookup name = some init)
    (maxStep : Nat) : StartsAs (s.filled maxStep) w init := by
  obtain ⟨r, hr, rfl⟩ := hw
  obtain ⟨e, he, rfl, hk⟩ := entry_of_starts h hreg hr hclaim
  exact ⟨r, r.value, e.shape, hr, get_of_filled he hk maxStep⟩

omit [Scalar α] in
theorem gather_of_sameTasks {g g' : NodeGraph (Node α)} (h : SameTasks g g') :
    gather g' g'.order Node.initials = gather g g.order Node.initials := by
  rw [h.order]
  refine gather_congr fun p _ => ?_
  cases ha : g.nodes[p]? with
  | none =>
    have hlen : g'.nodes.length = g.nodes.length := by simpa using congrArg List.length h.tasks
    rw [List.getElem?_eq_none_iff.mpr (hlen ▸ List.getElem?_eq_none_iff.mp ha)]
  | some a =>
    obtain ⟨b, hb, htask⟩ := h.node ha
    simp only [Node.task, design, wires, Prod.mk.injEq] at htask
    obtain ⟨⟨⟨hname, -, -⟩, hlayer, -, hshared, -⟩, -⟩ := htask
    rw [hb, Option.map_some, Option.map_some, Node.initials, Node.initials, Node.owner, Node.owner,
      hlayer, hshared, hname]

omit [Scalar α] in
theorem gather_order {β : Type} (g : NodeGraph (Node α)) (f : Node α → List β) :
    gather g g.order f = g.sortedNodes.flatMap f := by
  unfold gather NodeGraph.sortedNodes
  induction g.order with
  | nil => rfl
  | cons p order ih =>
    rw [List.flatMap_cons, List.filterMap_cons, ih]
    cases g.nodes[p]? with
    | none => rfl
    | some a => rw [List.flatMap_cons]; rfl

/-- What calls leave of what the weights start from. -/
theorem starts_of_calls {loss : Option String} {inputs labels : List String}
    {u : Unit} (hd : Draft d) (hbuild : build loss inputs labels d = .ok u n₀)
    (hcalls : Relation.ReflTransGen Call n₀ n) :
    Starts (n.graph.sortedNodes.flatMap Node.initials) n.store ∧ Prepared (fun _ => True) n := by
  obtain ⟨_, n₁, hcompile, hprepare⟩ := Action.bind_eq_ok_iff.mp hbuild
  have hdrawn := drawn_of_compile hd hcompile
  have hdesc := (descends_refl hdrawn hprepare n.batchSize).of_calls hcalls
  have hrebatched : Starts (gather n₀.graph n₀.graph.order Node.initials)
      (n₀.rebatched n.batchSize).store := by
    refine (starts_of_prepare hdrawn hprepare).of_tables rfl ?_
    change _ <+: (n₀.store.entries.map (·.rebatched n.batchSize)).map (·.initializer)
    rewrite [map_initializer_rebatched]
    exact List.prefix_rfl
  have hstarts := starts_of_kin hrebatched hdesc.alike.store
  rw [← gather_of_sameTasks hdesc.sameTasks, gather_order] at hstarts
  exact ⟨hstarts, hdesc.sound.prepared hdesc.alike.prepared⟩

/-- Whatever has been called on a network since it was built, when its weights are filled those that
a node shares with another one start from the initializers of the first node in sorted order that
uses them. They are those of the owner exactly if the first user has the same. -/
theorem starts_as_first {loss : Option String} {inputs labels : List String}
    {u u' : Unit} (hd : Draft d) (hbuild : build loss inputs labels d = .ok u n₀)
    (hcalls : Relation.ReflTransGen Call n₀ n) (hempty : n.store.hasWeights = false)
    (hfill : fillWeights n = .ok u' n') {s o : Node α} (hs : s ∈ n.graph.nodes)
    (ho : o ∈ n.graph.nodes) (hls : s.layer.isFullyConnected = true)
    (hlo : o.layer.isFullyConnected = true) (hshare : s.sharedFrom = some o.name)
    (hown : o.sharedFrom = none) :
    ∃ before f after units weight bias w b, n.graph.sortedNodes = before ++ f :: after ∧
      f.layer = .fullyConnected units weight bias ∧ f.owner = o.name ∧
      (∀ a ∈ before, a.layer.isFullyConnected = true → a.owner ≠ o.name) ∧
      s.tensors.weights = [w, b] ∧ o.tensors.weights = [w, b] ∧
      StartsAs n'.store w weight ∧ StartsAs n'.store b bias := by
  obtain ⟨hstarts, hprep⟩ := starts_of_calls hd hbuild hcalls
  have hreg := hprep.registered
  have hperm := hreg.compiled.toDesigned.ordered.perm
  have howner : s.owner = o.name := by rw [Node.owner, hshare]; rfl
  have howner' : o.owner = o.name := by rw [Node.owner, hown]; rfl
  have hstore : n'.store = n.store.filled n.store.maxStep := by
    rcases Store.fillWeights_eq_ok_iff.mp (store_of_fillWeights hfill) with ⟨hfilled,
      -⟩ | ⟨-, -, heq⟩
    · rw [hempty] at hfilled
      cases hfilled
    · exact heq
  obtain ⟨before, f, after, units, weight, bias, hsplit, hf, hfo, hbefore, hweight, hbias⟩ :=
    exists_first_of_owner ⟨o, (sortedNodes_perm hperm).mem_iff.mpr ho, hlo, howner'⟩
  have hshared := (weights_eq_iff hreg hs ho _ (weightNames_of_isFullyConnected hls)
    (weightNames_of_isFullyConnected hlo) (by simp)).mpr (howner.trans howner'.symm)
  obtain ⟨p, hp⟩ := List.getElem?_of_mem ho
  have hnames := (hreg.holds p (mem_order_of_node hperm hp) o hp).weights
  rw [weightNames_of_isFullyConnected hlo, howner'] at hnames
  rw [hshared]
  generalize o.tensors.weights = ws at hnames
  obtain - | ⟨hw, - | ⟨hb, ⟨⟩⟩⟩ := hnames
  refine ⟨before, f, after, units, weight, bias, _, _, hsplit, hf, hfo, hbefore, rfl, rfl, ?_, ?_⟩
  · rw [hstore]
    exact startsAs_of_filled hstarts hreg.registry hw hweight _
  · rw [hstore]
    exact startsAs_of_filled hstarts hreg.registry hb hbias _

end Calls

section Borrow

/-- The layer `s` shares the weights of `o`, which reads from it and asks for other initial
values. -/
def borrowing : Network ℚ :=
  (add (.ofLayer (.fullyConnected 1 (.constant 5) (.constant 7)) "o" [⟨"s", 0⟩])).after
    ((add { Node.ofLayer (.fullyConnected 1 (.constant 2) (.constant 3)) "s" [⟨"x", 0⟩] with
        sharedFrom := some "o" }).after
      ((add (.ofLayer (.input 1) "x" [])).after (ofSettings ⟨1, true, none, []⟩)))

theorem draft_borrowing : Draft borrowing :=
  keeps_draft_add (Node.isPlain_ofLayer rfl _ _) _ (keeps_draft_add ⟨rfl, rfl⟩ _
    (keeps_draft_add (Node.isPlain_ofLayer rfl _ _) _ (draft_ofSettings _)))

/-- What compiling makes of it. -/
def borrowingCompiled : Network ℚ :=
  { (ofSettings ⟨1, true, none, []⟩ : Network ℚ) with
    graph := ⟨[
      { Node.ofLayer (.input 1) "x" [] with outputs := [[⟨"s", 0⟩]] },
      { Node.ofLayer (.fullyConnected 1 (.constant 2) (.constant 3)) "s" [⟨"x", 0⟩] with
        outputs := [[⟨"o", 0⟩]]
        sharedFrom := some "o"
        schedule := .bothWays 1 1 3
        collectsGradients := true },
      { Node.ofLayer (.fullyConnected 1 (.constant 5) (.constant 7)) "o" [⟨"s", 0⟩] with
        schedule := .bothWays 2 0 3
        passesDerivatives := true
        collectsGradients := true }], [0, 1, 2]⟩
    store := (Store.empty true none).setBounds 3 6
    isCompiled := true }

theorem compile_borrowing : compile none borrowing = .ok () borrowingCompiled := by cbv

/-- What preparing it comes to. -/
def borrowed : Network ℚ := (prepare [] []).after borrowingCompiled

theorem prepare_borrowing : prepare [] [] borrowingCompiled = .ok () borrowed :=
  Action.eq_ok_of_endsWell (by decide +kernel)

theorem build_borrowing : build none [] [] borrowing = .ok () borrowed :=
  (Action.bind_of_ok compile_borrowing).trans prepare_borrowing

theorem borrowed_nodes : borrowed.store.hasWeights = false ∧
    (fillWeights : Action (Network ℚ) Unit).endsWell borrowed = true ∧
    borrowed.graph.nodes.map (fun a => (a.name, a.layer.isFullyConnected, a.sharedFrom,
      a.tensors.weights)) = [("x", false, none, []), ("s", true, some "o", [0, 1]),
      ("o", true, none, [0, 1])] ∧
    (borrowed.graph.nodes[2]?).map Node.initials =
      some [("o:weight", .constant 5), ("o:bias", .constant 7)] := by
  decide +kernel

theorem exists_borrowed : ∃ s ∈ borrowed.graph.nodes, ∃ o ∈ borrowed.graph.nodes,
    s.layer.isFullyConnected = true ∧
    o.layer.isFullyConnected = true ∧ s.sharedFrom = some o.name ∧ o.sharedFrom = none ∧
    s.tensors.weights = [0, 1] ∧
    o.initials = [("o:weight", .constant 5), ("o:bias", .constant 7)] := by
  obtain ⟨-, -, hnodes, hinitials⟩ := borrowed_nodes
  obtain ⟨s, hs, hseq⟩ := exists_of_map_eq hnodes (y := ("s", true, some "o", [0, 1])) (by simp)
  obtain ⟨o, ho, hinitials⟩ := Option.map_eq_some_iff.mp hinitials
  have hoeq := congrArg (·[2]?) hnodes
  simp only [List.getElem?_map, ho, Option.map_some] at hoeq
  simp only [List.getElem?_cons_succ, List.getElem?_cons_zero, Option.some.injEq, Prod.mk.injEq]
    at hoeq hseq
  exact ⟨s, hs, o, List.mem_of_getElem? ho, hseq.2.1, hoeq.2.1,
    hseq.2.2.1.trans (congrArg some hoeq.1.symm), hoeq.2.2.1, hseq.2.2.2, hinitials⟩

/-- What filling its weights comes to. -/
def borrowedFilled : Network ℚ := fillWeights.after borrowed

theorem fill_borrowed : fillWeights borrowed = .ok () borrowedFilled :=
  Action.eq_ok_of_endsWell borrowed_nodes.2.1

theorem borrowed_starts : ∃ s ∈ borrowed.graph.nodes, ∃ o ∈ borrowed.graph.nodes,
    s.sharedFrom = some o.name ∧ ∃ weight bias : Initializer ℚ, ∃ w b,
      s.tensors.weights = [w, b] ∧ StartsAs borrowedFilled.store w weight ∧
      StartsAs borrowedFilled.store b bias := by
  obtain ⟨s, hs, o, ho, hls, hlo, hshare, hown, -⟩ := exists_borrowed
  obtain ⟨-, -, -, -, weight, bias, w, b, -, -, -, -, hweights, -, hweight, hbias⟩ :=
    starts_as_first draft_borrowing build_borrowing .refl borrowed_nodes.1 fill_borrowed
      hs ho hls hlo hshare hown
  exact ⟨s, hs, o, ho, hshare, weight, bias, w, b, hweights, hweight, hbias⟩

theorem borrowed_values : (borrowedFilled.store.weights.map fun r =>
    (borrowedFilled.store.get r.value).toOption.map fun v => v.values.toList) =
      [some [2], some [3]] := by
  decide +kernel

theorem not_startsAs_of_values {s : Store ℚ} {w : WeightRef} {x y : ℚ} (hne : x ≠ y)
    (h : (s.weights.map fun r => (s.get r.value).toOption.map fun v => v.values.toList)[w]? =
      some (some [x])) : ¬ StartsAs s w (.constant y) := by
  rintro ⟨r, seed, shape, hr, hget⟩
  rw [List.getElem?_map, hr, Option.map_some, hget] at h
  have hvalues : (Tensor.const shape y).values.toList = [x] := Option.some.inj (Option.some.inj h)
  have hmem : x ∈ (Tensor.const shape y).values.toList := hvalues ▸ List.mem_cons_self
  simp only [Tensor.const, Tensor.ofFn, Array.mem_toList_iff, Array.mem_ofFn] at hmem
  obtain ⟨-, heq⟩ := hmem
  exact hne heq.symm

/-- The layer `s` starts from its own initial values and not from those that the layer `o` asks for,
which owns the weights. -/
theorem borrowed_apart : ∃ n₁ n₂ n₃, compile none borrowing = .ok () n₁ ∧
    prepare [] [] n₁ = .ok () n₂ ∧ fillWeights n₂ = .ok () n₃ ∧
    ∃ o ∈ n₂.graph.nodes, ∃ s ∈ n₂.graph.nodes, o.layer.isFullyConnected = true ∧
      o.sharedFrom = none ∧ o.initials = [("o:weight", .constant 5), ("o:bias", .constant 7)] ∧
      s.layer.isFullyConnected = true ∧ s.sharedFrom = some o.name ∧
      ∃ w b, s.tensors.weights = [w, b] ∧ ¬ StartsAs n₃.store w (.constant 5) ∧
        ¬ StartsAs n₃.store b (.constant 7) := by
  obtain ⟨s, hs, o, ho, hls, hlo, hshare, hown, hweights, hinitials⟩ := exists_borrowed
  refine ⟨_, _, _, compile_borrowing, prepare_borrowing, fill_borrowed, o, ho, s, hs, hlo, hown,
    hinitials, hls, hshare, 0, 1, hweights, ?_, ?_⟩
  · exact not_startsAs_of_values (x := 2) (by decide) (by rw [borrowed_values]; rfl)
  · exact not_startsAs_of_values (x := 3) (by decide) (by rw [borrowed_values]; rfl)

end Borrow

end Network

end LayerGraph
