import LayerGraph.Proofs.Lowering.Renaming
import LayerGraph.Proofs.Network.Initial
import LayerGraph.Proofs.Network.Timeline
import LayerGraph.Proofs.Store.Accepted
import Mathlib.Data.List.Sigma

/-!
# Which networks can be prepared

What a node registers has its name before it, and no two nodes register the same. So a compiled
network can be prepared if every layer accepts what its node reads, as it does in a network whose
nodes read first slots only and have as many inputs as their layers take.
-/

namespace LayerGraph

variable {α : Type}

/-- The names of what is registered for a declaration, behind the name of the node. -/
def Declaration.suffixes (declared : Declaration α) : List String :=
  (declared.outputShapes.zipIdx.flatMap fun o => ["output" ++ toString o.2,
    "output" ++ toString o.2 ++ ":grad"]) ++
      ((declared.weights.flatMap fun decl => [decl.name, decl.name ++ ":grad"]) ++
      (declared.tensors.map (·.name) ++ declared.label.toList.map fun _ => "label"))

/-- What may stand behind the name of a node: a text without a colon, or such a text and ":grad". -/
def IsSuffix (s : String) : Prop :=
  ∃ t : String, ':' ∉ t.toList ∧ t ≠ "grad" ∧ (s = t ∨ s = t ++ ":grad")

theorem eq_of_append_colon {x y s t : String} (hs : ':' ∉ s.toList) (ht : ':' ∉ t.toList)
    (h : x ++ ":" ++ s = y ++ ":" ++ t) : x = y ∧ s = t := by
  have hlast : ∀ {x s : String}, ':' ∉ s.toList → (x ++ ":" ++ s).toList.reverse.takeWhile
      (· ≠ ':') = s.toList.reverse := by
    intro x s hs
    rw [String.toList_append, String.toList_append, List.reverse_append, List.reverse_append,
      List.takeWhile_append_of_pos fun c hc => ?_]
    · simp
    · rw [decide_eq_true_eq]
      rintro rfl
      exact hs (List.mem_reverse.mp hc)
  have hlists := congrArg (fun text => text.toList.reverse.takeWhile (· ≠ ':')) h
  rw [hlast hs, hlast ht, List.reverse_inj] at hlists
  obtain rfl := String.toList_injective hlists
  refine ⟨?_, rfl⟩
  rw [String.append_left_inj, String.append_left_inj] at h
  exact h

/-- The name of a node can be told from what has something behind it. -/
theorem eq_of_append_suffix {x y s t : String} (hs : IsSuffix s) (ht : IsSuffix t)
    (h : x ++ ":" ++ s = y ++ ":" ++ t) : x = y := by
  obtain ⟨s, hs, hne, rfl | rfl⟩ := hs
  · obtain ⟨t, ht, hne', rfl | rfl⟩ := ht
    · exact (eq_of_append_colon hs ht h).1
    · exact absurd (eq_of_append_colon (t := "grad") (y := y ++ ":" ++ t) hs (by decide) (by
        rw [h]; simp only [String.append_assoc]; rfl)).2 hne
  · obtain ⟨t, ht, hne', rfl | rfl⟩ := ht
    · exact absurd (eq_of_append_colon (s := "grad") (x := x ++ ":" ++ s) (by decide) ht (by
        rw [← h]; simp only [String.append_assoc]; rfl)).2.symm hne'
    · rw [← String.append_assoc, ← String.append_assoc, String.append_left_inj] at h
      exact (eq_of_append_colon hs ht h).1

theorem isSuffix_of_plain {t : String} (ht : ':' ∉ t.toList) (hne : t ≠ "grad") :
    IsSuffix t ∧ IsSuffix (t ++ ":grad") :=
  ⟨⟨t, ht, hne, .inl rfl⟩, ⟨t, ht, hne, .inr rfl⟩⟩

/-- The names of outputs have a number each. -/
theorem colon_not_mem_output (k : Nat) : ':' ∉ ("output" ++ toString k).toList := by
  rw [String.toList_append, List.mem_append, not_or]
  refine ⟨by decide, fun hc => ?_⟩
  rw [show (toString k).toList = Nat.toDigits 10 k from Nat.toList_repr] at hc
  exact absurd (Nat.isDigit_of_mem_toDigits (by decide) (by decide) hc) (by decide)

theorem head?_output (k : Nat) : ("output" ++ toString k).toList.head? = some 'o' ∧
    ("output" ++ toString k ++ ":grad").toList.head? = some 'o' := by
  constructor <;> simp only [String.toList_append] <;> rfl

theorem output_ne_output_grad (j k : Nat) : "output" ++ toString j ≠ "output" ++
    toString k ++ ":grad" := by
  intro heq
  refine colon_not_mem_output j ?_
  rw [heq, String.toList_append]
  exact List.mem_append_right _ (by decide)

theorem nodup_outputNames (shapes : List Shape) :
    (shapes.zipIdx.flatMap fun o => ["output" ++ toString o.2, "output" ++ toString o.2 ++
      ":grad"]).Nodup := by
  have hinj : ∀ {j k : Nat}, "output" ++ toString j = "output" ++ toString k → j = k := fun heq =>
    toString_nat_injective ((String.append_right_inj _).mp heq)
  refine List.nodup_flatMap.mpr ⟨fun o _ => ?_,
    (List.pairwise_map.mp (List.nodup_zipIdx_map_snd shapes)).imp fun hne => ?_⟩
  · exact List.nodup_cons.mpr ⟨by simpa using output_ne_output_grad o.2 o.2, List.nodup_singleton _⟩
  · intro x hx hx'
    simp only [List.mem_cons, List.not_mem_nil, or_false] at hx hx'
    rcases hx with rfl | rfl <;> rcases hx' with heq | heq
    · exact hne (hinj heq)
    · exact output_ne_output_grad _ _ heq
    · exact output_ne_output_grad _ _ heq.symm
    · exact hne (hinj ((String.append_left_inj _).mp heq))

/-- The names of what a layer of the library declares. -/
theorem Declares.suffixes {site : Site} {layer : Layer α} {declared : Declaration α}
    (h : Declares site layer declared) :
    declared.suffixes.Nodup ∧ ∀ s ∈ declared.suffixes, IsSuffix s := by
  have houtputs : ∀ s ∈ declared.outputShapes.zipIdx.flatMap fun o => ["output" ++ toString o.2,
      "output" ++ toString o.2 ++ ":grad"], s.toList.head? = some 'o' ∧ IsSuffix s := by
    intro s hs
    obtain ⟨o, -, hs⟩ := List.mem_flatMap.mp hs
    have hne : "output" ++ toString o.2 ≠ "grad" := fun heq => by
      have hhead := (head?_output o.2).1
      rw [heq] at hhead
      exact absurd hhead (by decide)
    obtain ⟨hplain, hgrad⟩ := isSuffix_of_plain (colon_not_mem_output o.2) hne
    rcases List.mem_cons.mp hs with rfl | hs
    · exact ⟨(head?_output o.2).1, hplain⟩
    · obtain rfl := List.mem_singleton.mp hs
      exact ⟨(head?_output o.2).2, hgrad⟩
  -- Behind the outputs stand a few names, of which none starts as those of outputs do.
  have hrest : ∀ rest : List String, rest.Nodup → (∀ s ∈ rest, s.toList.head? ≠ some 'o') →
      (∀ s ∈ rest, IsSuffix s) →
      declared.suffixes = (declared.outputShapes.zipIdx.flatMap fun o =>
        ["output" ++ toString o.2, "output" ++ toString o.2 ++ ":grad"]) ++ rest →
      declared.suffixes.Nodup ∧ ∀ s ∈ declared.suffixes, IsSuffix s := by
    intro rest hnodup hhead hsuffix heq
    rw [heq]
    refine ⟨List.nodup_append'.mpr ⟨nodup_outputNames _, hnodup, fun s hs hs' => hhead s hs'
        (houtputs s hs).1⟩, fun s hs => ?_⟩
    exact (List.mem_append.mp hs).elim (fun hs => (houtputs s hs).2) (hsuffix s)
  cases h with
  | input | activation | addition | multiout | identity =>
    exact hrest [] .nil (by simp) (by simp) rfl
  | fullyConnected =>
    obtain ⟨hw, hwg⟩ := isSuffix_of_plain (t := "weight") (by decide) (by decide)
    obtain ⟨hb, hbg⟩ := isSuffix_of_plain (t := "bias") (by decide) (by decide)
    refine hrest ["weight", "weight" ++ ":grad", "bias", "bias" ++ ":grad"] (by decide)
      (by decide) ?_ rfl
    simp only [List.mem_cons, List.not_mem_nil, or_false, forall_eq_or_imp, forall_eq]
    exact ⟨hw, hwg, hb, hbg⟩
  | loss =>
    refine hrest ["label"] (by decide) (by decide) ?_ rfl
    simpa using (isSuffix_of_plain (t := "label") (by decide) (by decide)).1

/-- The layer can be finalized with any `count` inputs. -/
inductive Layer.Takes : Layer α → Nat → Prop where
  | input {width : Nat} (pos : width ≠ 0) : Takes (.input width) 0
  | fullyConnected {units : Nat} (pos : units ≠ 0) (weight bias : Initializer α) : Takes
      (.fullyConnected units weight bias) 1
  | activation (f : Activation) : Takes (.activation f) 1
  | identity : Takes .identity 1
  | loss {kind : Loss} (fused : kind ≠ .cross) : Takes (.loss kind) 1

theorem Layer.Takes.exists_declare {layer : Layer α} {site : Site}
    (h : layer.Takes site.inputShapes.length) : ∃ declared, layer.declare site = .ok declared := by
  generalize hcount : site.inputShapes.length = count at h
  have hone : count = 1 → ∃ shape, site.onlyInput = .ok shape := by
    rintro rfl
    obtain ⟨shape, hshape⟩ := List.length_eq_one_iff.mp hcount
    exact ⟨shape, by rw [Site.onlyInput, hshape]⟩
  cases h with
  | @input width pos =>
    refine ⟨⟨[⟨site.batch, width⟩], [], [], none⟩, ?_⟩
    rw [Layer.declare, Layer.declaration, Site.requireInputs, if_pos hcount, except_ok_bind,
      if_neg pos]
    rfl
  | fullyConnected pos weight bias =>
    obtain ⟨shape, hshape⟩ := hone rfl
    exact ⟨_, by rw [Layer.declare, Layer.declaration, hshape, except_ok_bind, if_neg pos]; rfl⟩
  | activation | identity =>
    obtain ⟨shape, hshape⟩ := hone rfl
    exact ⟨_, by rw [Layer.declare, Layer.declaration, hshape, except_ok_bind]; rfl⟩
  | loss fused =>
    obtain ⟨shape, hshape⟩ := hone rfl
    exact ⟨_, by rw [Layer.declare, Layer.declaration, hshape, except_ok_bind, if_neg fused]; rfl⟩

theorem Layer.Takes.isShipped {layer : Layer α} {count : Nat} (h : layer.Takes count) :
    layer.isShipped = true := by
  cases h <;> rfl

theorem Layer.Takes.isSource_eq_false {layer : Layer α} (h : layer.Takes 1) :
    layer.isSource = false := by
  cases h <;> rfl

namespace Network

open Store (Registers Adds)

variable {n n' : Network α} {known : TensorRef → Shape → Prop} {node : Node α} {use : BufferUse}
  {inputs : List Wire} {shape : Shape}

section Register

theorem registers_registerReads (node : Node α) (hknown : KnownInputs known inputs) :
    Registers known [] 0 (registerReads node inputs) := by
  refine Registers.forM fun x hx => ?_
  obtain ⟨⟨_, hvalue⟩, hderivative⟩ := hknown x hx
  refine (Store.registers_addSteps hvalue _).after fun _ => ?_
  cases hd : x.derivative with
  | none => exact .pure _
  | some d =>
    cases node.schedule.derivativeStep with
    | none => exact .pure _
    | some t =>
      obtain ⟨_, hknown⟩ := hderivative d hd
      exact Store.registers_addSteps hknown _

theorem registers_registerOutput (node : Node α) (hfit : Fitting known use inputs shape)
    (steps : List Nat) (k : Nat) :
    Registers known [node.name ++ ":output" ++ toString k, node.name ++ ":output" ++
      toString k ++ ":grad"] 0 (registerOutput node use inputs steps (shape, k)) := by
  have hdisjoint : [node.name ++ ":output" ++ toString k].Disjoint [node.name ++ ":output" ++
      toString k ++ ":grad"] := by
    rw [List.singleton_disjoint, List.mem_singleton]
    intro heq
    have := congrArg String.length heq
    rw [String.length_append] at this
    exact absurd this (by simp)
  refine (adds_registerVariable hfit _ _).registers.bind hdisjoint (show ∀ _,
    Registers known _ 0 _ from fun value => ?_)
  refine Registers.before ?_ _
  obtain ⟨p, hp, hform⟩ :=
    exists_registerDerivative node hfit (node.name ++ ":output" ++ toString k ++ ":grad")
  rw [hform]
  split
  · exact hp.registers.before _
  · exact (Registers.pure _).mono (List.nil_subset _)

theorem registers_registerScratch (node : Node α) (decl : ScratchDecl α) :
    Registers known [node.name ++ ":" ++ decl.name] 0 (registerScratch node decl) :=
  Registers.get_bind fun _ => (Store.adds_request _ _ rfl _).registers

theorem registers_registerLabel (node : Node α) (label : Option Shape) :
    Registers known (label.toList.map fun _ => node.name ++ ":label") 0
      (registerLabel node label) := by
  cases label with
  | none => exact .pure _
  | some shape => exact ((Store.adds_request _ _ rfl _).registers).before _

/-- What a node registers has its name before it. -/
theorem registers_register {owner : String} {size : Nat} {declared : Declaration α}
    (howner : owner = node.name) (hknown : KnownInputs known inputs)
    (hfit : ∀ shape ∈ declared.outputShapes, Fitting known use inputs shape)
    (hnodup : declared.suffixes.Nodup) :
    Registers known (declared.suffixes.map (node.name ++ ":" ++ ·)) declared.weights.length
      (register node use owner size inputs declared) := by
  subst howner
  have hall : (declared.suffixes.map (node.name ++ ":" ++ ·)).Nodup :=
    hnodup.map fun _ _ h => (String.append_right_inj _).mp h
  have hassoc : ∀ x y z : String, x ++ y ++ z = x ++ (y ++ z) := fun _ _ _ => String.append_assoc
  have houtputs : ∀ steps, ∀ o ∈ declared.outputShapes.zipIdx, Registers known
      (["output" ++ toString o.2, "output" ++ toString o.2 ++ ":grad"].map (node.name ++ ":" ++ ·))
        0 (registerOutput node use inputs steps o) := by
    intro steps o ho
    have h := registers_registerOutput node (hfit o.1 (List.fst_mem_of_mem_zipIdx ho)) steps o.2
    rw [show node.name ++ ":output" ++ toString o.2 = node.name ++ ":" ++
      ("output" ++ toString o.2) by
      rw [hassoc, hassoc, ← hassoc ":"]; rfl, hassoc (node.name ++ ":")] at h
    exact h
  have hweights : ∀ decl ∈ declared.weights,
      Registers known ([decl.name, decl.name ++ ":grad"].map (node.name ++ ":" ++ ·)) 1
      (registerWeight node node.name decl) := by
    intro decl _
    have hne : node.name ++ ":" ++ decl.name ++ ":grad" ≠ node.name ++ ":" ++ decl.name := by
      intro heq
      have := congrArg String.length heq
      rw [String.length_append] at this
      exact absurd this (by simp)
    rw [List.map_cons, List.map_singleton, ← hassoc (node.name ++ ":")]
    exact Store.registers_useWeight hne _ _ _ _ _
  have hscratch : ∀ decl ∈ declared.tensors, Registers known [node.name ++ ":" ++ decl.name] 0
      (registerScratch node decl) :=
    fun decl _ => registers_registerScratch node decl
  have hlabel : Registers known (declared.label.toList.map fun _ => node.name ++ ":" ++ "label") 0
      (registerLabel node declared.label) := by
    rw [hassoc]
    exact registers_registerLabel node declared.label
  have hnames : declared.suffixes.map (node.name ++ ":" ++ ·) =
      (declared.outputShapes.zipIdx.flatMap fun o =>
        ["output" ++ toString o.2, "output" ++ toString o.2 ++ ":grad"].map
          (node.name ++ ":" ++ ·)) ++
      ((declared.weights.flatMap fun decl => [decl.name, decl.name ++ ":grad"].map
          (node.name ++ ":" ++ ·)) ++
          ((declared.tensors.flatMap fun decl => [node.name ++ ":" ++ decl.name]) ++
          declared.label.toList.map fun _ => node.name ++ ":" ++ "label")) := by
    rw [Declaration.suffixes, List.map_append, List.map_append, List.map_append, List.map_flatMap,
      List.map_flatMap, List.map_map, List.map_map, List.map_eq_flatMap]
    rfl
  rw [hnames] at hall ⊢
  obtain ⟨hnodup₁, hall, hdisjoint₁⟩ := List.nodup_append'.mp hall
  obtain ⟨hnodup₂, hall, hdisjoint₂⟩ := List.nodup_append'.mp hall
  obtain ⟨hnodup₃, -, hdisjoint₃⟩ := List.nodup_append'.mp hall
  refine (registers_registerReads node hknown).after fun _ => Registers.get_bind fun s => ?_
  have hcount : declared.weights.length = 0 * declared.outputShapes.zipIdx.length +
      (1 * declared.weights.length + (0 * declared.tensors.length + 0)) := by omega
  rw [hcount]
  refine (Registers.mapM (houtputs _) hnodup₁).bind hdisjoint₁ fun outputs => ?_
  refine (Registers.mapM hweights hnodup₂).bind hdisjoint₂ fun weights => ?_
  refine (Registers.mapM hscratch hnodup₃).bind hdisjoint₃ fun tensors => ?_
  exact hlabel.before _

end Register

/-- Nodes that can be finalized one after the other: none shares the weights of another, all inputs
are first slots, and each layer takes the number of its inputs. -/
structure Preparable (nodes : List (Node α)) : Prop where
  own : ∀ a ∈ nodes, a.sharedFrom = none
  first : ∀ a ∈ nodes, ∀ c ∈ a.inputs, c.index = 0
  takes : ∀ a ∈ nodes, a.layer.Takes a.inputs.length

section Step

variable {done rest : List NodeRef} {r : NodeRef}

/-- All names that are taken are those of nodes that are done, with something behind them, and the
weights are those of these nodes. -/
structure Progressed (g : NodeGraph (Node α)) (done : List NodeRef) (s : Store α) : Prop where
  firm : Store.Firm (fun _ _ => False) s
  taken : ∀ x ∈ s.taken, ∃ q ∈ done, ∃ a, g.nodes[q]? = some a ∧ ∃ suffix, IsSuffix suffix ∧
    x = a.name ++ ":" ++ suffix
  weights : s.weights.length = (gather g done fun a => a.layer.weightNames).length

/-- Every node has an output. -/
theorem exists_first_output {s : Store α} {layer : Layer α} {handles : Handles}
    (h : Fits s layer handles) : ∃ y, handles.outputs[0]? = some y := by
  cases h with
  | input | fullyConnected | activation | addition | multiout | identity | loss => exact ⟨_, rfl⟩

/-- What a node reads has been registered where the nodes before it are done, if they have as many
outputs. -/
theorem exists_inputSlot {a : Node α} {c : Connection}
    (hreg : Registered n.graph n.store n.batchSize done)
    (hsplit : n.graph.order = done ++ r :: rest) (ha : n.graph.nodes[r]? = some a)
    (hc : c ∈ a.inputs)
    (hslot : ∀ i q b, ReadsSlot n.graph r i q c.index → q ∈ done → n.graph.nodes[q]? = some b →
      ∃ y, b.tensors.outputs[c.index]? = some y) : ∃ x, n.inputSlot a c = .ok x := by
  have hd := hreg.compiled.wired.distinct
  obtain ⟨i, hi⟩ := List.getElem?_of_mem hc
  obtain ⟨q, k, hread⟩ := hreg.compiled.wired.resolved r a i c ha hi
  have hdone := producer_done hreg hsplit hread
  obtain ⟨a', c', ha', hi', hq, hk⟩ := id hread
  rw [ha] at ha'
  cases ha'
  rw [hi] at hi'
  cases hi'
  obtain ⟨b, hb, hname⟩ := (NodeGraph.indexOf?_eq_some_iff hd).mp hq
  obtain ⟨y, hy⟩ := hslot i q b (hk ▸ hread) hdone hb
  refine ⟨y, ?_⟩
  rw [inputSlot, (NodeGraph.find?_eq_some_iff hd).mpr ⟨List.mem_of_getElem? hb, hname⟩]
  dsimp only
  rw [hy]

/-- The next node can be finalized if its layer accepts the shapes of what it reads. -/
theorem exists_prepareNode_of_declare (hreg : Registered n.graph n.store n.batchSize done)
    (hsplit : n.graph.order = done ++ r :: rest) (hprogress : Progressed n.graph done n.store)
    {a : Node α} (ha : n.graph.nodes[r]? = some a) (hown : a.sharedFrom = none) {inputs : List Wire}
    {inputShapes : List Shape} {declared : Declaration α}
    (hinputs : a.inputs.mapM (n.inputSlot a) = .ok inputs)
    (hshapes : inputs.mapM (fun x => n.store.shape x.value) = .ok inputShapes)
    (hdeclare : a.layer.declare ⟨a.name, inputShapes, a.outputCount, n.batchSize, a.trains⟩ =
      .ok declared) :
    ∃ use handles n', prepareNode r n = .ok ⟨⟩ n' ∧ Progressed n'.graph (done ++ [r]) n'.store ∧
      n'.graph = n.graph.modifyNode r (finalized use inputShapes declared.outputShapes handles) ∧
      n'.batchSize = n.batchSize := by
  have hd := hreg.compiled.wired.distinct
  have hregistry := hreg.registry
  have howner : n.ownerOf a = .ok a.name := by rw [ownerOf, hown]
  obtain ⟨hfits, -⟩ := inputs_of_inputSlot hreg hsplit ha hinputs
  have hdeclares := declares_of_declare (hreg.compiled.shipped r a ha) hdeclare
  obtain ⟨hnodup, hsuffix⟩ := hdeclares.suffixes
  have hcount : declared.weights.length = a.layer.weightNames.length := by
    rw [← hdeclares.weightNames, List.length_map]
  have hknown : KnownInputs n.store.HasShape inputs := by
    intro x hx
    obtain ⟨width, hwire⟩ := hfits x hx
    exact ⟨⟨_, hasShape_of_shape hregistry (hwire.value.shape hregistry)⟩,
      fun d hd => ⟨_, hasShape_of_shape hregistry ((hwire.derivative d hd).shape hregistry)⟩⟩
  have hpd : r ∉ done := not_mem_done (nodup_order hreg.compiled.ordered.perm) hsplit
  have hfree : ∀ x ∈ declared.suffixes.map (a.name ++ ":" ++ ·), x ∉ n.store.taken := by
    intro x hx hmem'
    obtain ⟨suffix, hmem, rfl⟩ := List.mem_map.mp hx
    obtain ⟨q, hq, b, hb, suffix', hsuffix', heq⟩ := hprogress.taken _ hmem'
    obtain rfl : r = q :=
      getElem?_inj_of_nodup_map hd ha hb (eq_of_append_suffix (hsuffix _ hmem) hsuffix' heq)
    exact hpd hq
  obtain ⟨handles, s', hregister, hfirm, htaken, hlength⟩ := registers_register rfl hknown
    (fitting_of_settleUse hregistry hfits hshapes) hnodup n.store
    ⟨hprogress.firm.grounded, hprogress.firm.level, fun _ _ => id⟩ hfree
  refine ⟨_, handles, _, prepareNode_of_stages ha howner hinputs hshapes hdeclare rfl hregister,
    ⟨⟨hfirm.grounded, hfirm.level, fun _ _ => False.elim⟩, fun x hx => ?_, ?_⟩, rfl, rfl⟩
  · rcases List.mem_append.mp (htaken hx) with hx | hx
    · obtain ⟨q, hq, b, hb, hx⟩ := hprogress.taken x hx
      have hqr : r ≠ q := fun heq => hpd (heq ▸ hq)
      refine ⟨q, List.mem_append_left _ hq, b, ?_, hx⟩
      rw [getElem?_modifyNode, hb, Option.map_some, if_neg hqr]
    · obtain ⟨suffix, hmem, rfl⟩ := List.mem_map.mp hx
      have hself := getElem?_modifyNode (g := n.graph) (p := r) (q := r)
        (f := finalized (settleUse a.bufferUse inputShapes declared.outputShapes) inputShapes
          declared.outputShapes handles)
      rw [ha, Option.map_some, if_pos rfl] at hself
      exact ⟨r, by simp, _, hself, suffix, hsuffix suffix hmem, rfl⟩
  · rw [hlength, hprogress.weights, hcount, gather_modifyNode hpd ha, List.length_append]
    rfl

/-- The next node can be finalized. -/
theorem exists_prepareNode (hreg : Registered n.graph n.store n.batchSize done)
    (hsplit : n.graph.order = done ++ r :: rest) (hprogress : Progressed n.graph done n.store)
    (h : Preparable n.graph.nodes) :
    ∃ n', prepareNode r n = .ok ⟨⟩ n' ∧ Progressed n'.graph (done ++ [r]) n'.store := by
  obtain ⟨a, ha⟩ : ∃ a, n.graph.nodes[r]? = some a := by
    have hr : r ∈ n.graph.order := by simp [hsplit]
    exact ⟨_, List.getElem?_eq_getElem ((mem_order_iff hreg.compiled.ordered.perm).mp hr)⟩
  have hmem := List.mem_of_getElem? ha
  obtain ⟨inputs, hinputs⟩ : ∃ inputs, a.inputs.mapM (n.inputSlot a) = .ok inputs :=
    except_mapM_exists fun c hc => exists_inputSlot hreg hsplit ha hc fun i q b _ hq hb => by
      rw [h.first a hmem c hc]
      exact exists_first_output (hreg.holds q hq b hb).fits
  obtain ⟨hfits, -⟩ := inputs_of_inputSlot hreg hsplit ha hinputs
  obtain ⟨inputShapes, hshapes⟩ : ∃ shapes, inputs.mapM (fun x => n.store.shape x.value) =
      .ok shapes := by
    refine except_mapM_exists fun x hx => ?_
    obtain ⟨width, hwire⟩ := hfits x hx
    exact ⟨_, hwire.value.shape hreg.registry⟩
  have htakes := h.takes a hmem
  rw [← except_mapM_length hinputs, ← except_mapM_length hshapes] at htakes
  obtain ⟨declared, hdeclare⟩ : ∃ declared,
      a.layer.declare ⟨a.name, inputShapes, a.outputCount, n.batchSize, a.trains⟩ = .ok declared :=
        htakes.exists_declare
  obtain ⟨_, _, n', hrun, hprogress', -⟩ :=
    exists_prepareNode_of_declare hreg hsplit hprogress ha (h.own a hmem) hinputs hshapes hdeclare
  exact ⟨n', hrun, hprogress'⟩

theorem preparable_of_design {nodes nodes' : List (Node α)}
    (hdesign : nodes'.map design = nodes.map design) (h : Preparable nodes) :
    Preparable nodes' := by
  have hnode : ∀ b ∈ nodes', ∃ a ∈ nodes, b.inputs = a.inputs ∧ b.layer = a.layer ∧
      b.sharedFrom = a.sharedFrom := by
    intro b hb
    obtain ⟨a, ha, heq⟩ := List.mem_map.mp (hdesign ▸ List.mem_map_of_mem hb)
    simp only [design, wires, Prod.mk.injEq] at heq
    exact ⟨a, ha, heq.1.2.1.symm, heq.2.1.symm, heq.2.2.2.1.symm⟩
  constructor
  · intro b hb
    obtain ⟨a, ha, -, -, hshared⟩ := hnode b hb
    rw [hshared, h.own a ha]
  · intro b hb
    obtain ⟨a, ha, hinputs, -⟩ := hnode b hb
    rw [hinputs]
    exact h.first a ha
  · intro b hb
    obtain ⟨a, ha, hinputs, hlayer, -⟩ := hnode b hb
    rw [hinputs, hlayer]
    exact h.takes a ha

/-- A compiled network each of whose nodes can be finalized once those before it are, can be
prepared, and has the weights of its layers then. -/
theorem exists_prepare_of_steps {I : List NodeRef → Network α → Prop} (hdrawn : Drawn n)
    (hstart : I [] n)
    (hstep : ∀ done r rest n₁, n.graph.order = done ++ r :: rest →
      Registered n₁.graph n₁.store n₁.batchSize done → Settling n.graph n₁.graph →
      Progressed n₁.graph done n₁.store → I done n₁ →
      ∃ n₂, prepareNode r n₁ = .ok ⟨⟩ n₂ ∧ Progressed n₂.graph (done ++ [r]) n₂.store ∧
      I (done ++ [r]) n₂) :
    ∃ n', prepare [] [] n = .ok ⟨⟩ n' ∧
      n'.store.weights.length = (n.graph.nodes.flatMap fun a => a.layer.weightNames).length := by
  have hblank : Progressed n.graph [] n.store :=
    ⟨firm_of_isBlank hdrawn.blank, by
      simp [Store.taken, hdrawn.blank.entries, hdrawn.blank.weights],
      by simp [gather, hdrawn.blank.weights]⟩
  obtain ⟨n₁, hall, ⟨hreg, hsettling⟩, hprogress, -⟩ :=
    Action.exists_forM (fun done (n₁ : Network α) =>
    (Registered n₁.graph n₁.store n₁.batchSize done ∧ Settling n.graph n₁.graph) ∧
      Progressed n₁.graph done n₁.store ∧ I done n₁)
    (f := prepareNode) ⟨⟨registered_nil hdrawn, .refl _⟩, hblank, hstart⟩
      fun done r rest n₁ hsplit hn₁ => by
      obtain ⟨⟨hreg, hsettling⟩, hprogress, hI⟩ := hn₁
      obtain ⟨n₂, hrun, hn₂⟩ := hstep done r rest n₁ hsplit hreg hsettling hprogress hI
      exact ⟨n₂, hrun, registered_of_prepareNode hreg hsettling hsplit hrun, hn₂⟩
  have hrun : ∃ n₂, prepareAll [] [] n = .ok ⟨⟩ n₂ ∧ n₂.store = n₁.store := by
    unfold prepareAll
    rw [Action.bind_of_ok (Action.get_apply _), Action.bind_of_ok hall]
    exact ⟨_, rfl, rfl⟩
  obtain ⟨n₂, hrun, hstore⟩ := hrun
  refine ⟨_, prepare_of_prepareAll hdrawn.closed hdrawn.unprepared hrun, ?_⟩
  have hlayers : n₁.graph.nodes.flatMap (fun a => a.layer.weightNames) = n.graph.nodes.flatMap
      fun a => a.layer.weightNames := by
    have hsame := congrArg (List.map fun d => d.2.1) hsettling.design
    rw [List.map_map, List.map_map] at hsame
    have hfront := congrArg (List.flatMap Layer.weightNames) hsame
    rwa [List.flatMap_map, List.flatMap_map] at hfront
  rw [← hlayers]
  show n₂.store.weights.length = _
  rw [hstore, hprogress.weights, ← hsettling.order, gather_order]
  exact ((sortedNodes_perm hreg.compiled.ordered.perm).flatMap_right _).length_eq

theorem exists_prepare (hdrawn : Drawn n) (h : Preparable n.graph.nodes) :
    ∃ n', prepare [] [] n = .ok ⟨⟩ n' ∧
    n'.store.weights.length = (n.graph.nodes.flatMap fun a => a.layer.weightNames).length :=
  exists_prepare_of_steps (I := fun _ _ => True) hdrawn
    trivial fun done r rest n₁ hsplit hreg hsettling hprogress _ => by
    obtain ⟨n₂, hrun, hprogress'⟩ :=
      exists_prepareNode hreg (hsettling.order.trans hsplit) hprogress
      (preparable_of_design hsettling.design h)
    exact ⟨n₂, hrun, hprogress', trivial⟩

/-- What a network is fed and what is read off it, if no names choose among them. -/
theorem faces_of_prepare {u : Unit} (hp : prepare [] [] n = .ok u n') :
    n'.inputs = (n'.graph.sortedNodes.filter (·.isSource)).filterMap
      (fun node => node.tensors.outputs.head?.map (·.value)) ∧
      n'.labels = (n'.graph.sortedNodes.filter (·.isLoss)).filterMap (·.tensors.label) ∧
      n'.outputs = (n'.graph.sortedNodes.filter (·.isTerminal)).flatMap fun node =>
        node.tensors.outputs.map (·.value) := by
  obtain ⟨n₁, hall, rfl⟩ := prepareAll_of_prepare hp
  obtain ⟨_, _, -, h₁⟩ := Action.bind_eq_ok_iff.mp hall
  obtain ⟨_, n₂, -, h₂⟩ := Action.bind_eq_ok_iff.mp h₁
  obtain ⟨inputs, _, hread, h₃⟩ := Action.bind_eq_ok_iff.mp h₂
  obtain ⟨hinputs, rfl⟩ := Action.read_eq_ok_iff.mp hread
  obtain ⟨labels, _, hread, h₄⟩ := Action.bind_eq_ok_iff.mp h₃
  obtain ⟨hlabels, rfl⟩ := Action.read_eq_ok_iff.mp hread
  cases h₄
  cases hinputs
  cases hlabels
  exact ⟨rfl, rfl, rfl⟩

end Step

end Network

end LayerGraph
