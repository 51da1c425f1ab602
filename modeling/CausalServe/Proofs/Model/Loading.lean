import CausalServe.Proofs.Model.Assembled
import CausalServe.Proofs.Model.Inventory
import CausalServe.Proofs.Table

/-! How a model is assembled. The tensors of the inventory are taken out and no others, in an order
of their own, and the first that is missing or has another shape ends it. -/

namespace CausalServe

/-! ## Tensors taken out in turn -/

namespace ModelWeights

/-- What keeps the tensor of an entry from being taken, if anything does. -/
def fault (w : ModelWeights) (e : TensorEntry) : Option LoadFault :=
  match w.get? e.name with
  | none => some (.missing e.name)
  | some t => if shapeFits t.shape e.shape then none else some (.shape e.name t.shape e.shape)

/-- Takes out the tensors of entries in turn, up to the first fault. -/
def drain : List TensorEntry → ModelWeights → Except Error ModelWeights
  | [], w => .ok w
  | e :: es, w => match w.fault e with
    | some fault => .error (.load fault)
    | none => drain es (w.erase e.name)

structure Headless (w : ModelWeights) : Prop where
  decoded : ∃ ds, w.DecodedFrom ds
  head : w.get? "lm_head" = none

variable {w w' : ModelWeights} {e : TensorEntry} {es : List TensorEntry}

theorem get?_erase (w : ModelWeights) (name other : String) :
    (w.erase name).get? other = if other = name then none else w.get? other :=
  lookup_filter_ne name other w.tensors

/-- Taking out one tensor makes no other one faulty. -/
theorem fault_erase {name : String} (h : e.name ≠ name) : (w.erase name).fault e = w.fault e := by
  rw [fault, get?_erase, if_neg h, ← fault]

theorem Headless.erase (h : w.Headless) (name : String) : (w.erase name).Headless := by
  obtain ⟨ds, hds⟩ := h.decoded
  refine ⟨⟨ds, hds.erase name⟩, ?_⟩
  rw [get?_erase, h.head, ite_self]

theorem Headless.drain (h : w.Headless) (hw : w.drain es = .ok w') : w'.Headless := by
  induction es generalizing w with
  | nil =>
    cases hw
    exact h
  | cons e es ih =>
    unfold ModelWeights.drain at hw
    split at hw
    next => cases hw
    next => exact ih (h.erase e.name) hw

theorem drain_append (xs ys : List TensorEntry) (w : ModelWeights) :
    w.drain (xs ++ ys) = w.drain xs >>= fun w => w.drain ys := by
  induction xs generalizing w with
  | nil => rfl
  | cons e xs ih =>
    rw [List.cons_append, drain, drain]
    split
    next => rfl
    next => exact ih _

/-- Entries without a fault are all taken out, where their names are distinct. -/
theorem drain_eq_ok (hnames : (es.map TensorEntry.name).Nodup) (h : ∀ e ∈ es, w.fault e = none) :
    w.drain es =
      .ok ⟨w.tensors.filter fun entry => entry.1 ∉ es.map TensorEntry.name⟩ := by
  induction es generalizing w with
  | nil => simp [drain]
  | cons e es ih =>
    obtain ⟨he, hes⟩ := List.forall_mem_cons.mp h
    obtain ⟨hname, hnames⟩ := List.nodup_cons.mp hnames
    have hothers : ∀ x ∈ es, (w.erase e.name).fault x = none := by
      intro x hx
      have hne : x.name ≠ e.name := fun hsame => hname (hsame ▸ List.mem_map_of_mem hx)
      rw [fault_erase hne, hes x hx]
    rw [drain, he]
    refine (ih hnames hothers).trans ?_
    simp only [erase, List.filter_filter, List.map_cons, List.mem_cons, not_or, Bool.decide_and,
      Bool.and_comm, ne_eq]

/-- Of entries with distinct names, the only faulty one is told. -/
theorem drain_eq_error (hnames : (es.map TensorEntry.name).Nodup) (he : e ∈ es) {f : LoadFault}
    (hf : w.fault e = some f) (hothers : ∀ x ∈ es, x.name ≠ e.name → w.fault x = none) :
    w.drain es = .error (.load f) := by
  induction es generalizing w with
  | nil => cases he
  | cons x es ih =>
    obtain ⟨hx, hes⟩ := List.forall_mem_cons.mp hothers
    obtain ⟨hname, hnames⟩ := List.nodup_cons.mp hnames
    by_cases hsame : x.name = e.name
    · have hxe : w.fault x = some f := by
        rcases List.mem_cons.mp he with rfl | he
        · exact hf
        · exact absurd (hsame ▸ List.mem_map_of_mem he) hname
      rw [drain, hxe]
    · -- the first entry is taken out, which leaves the fault of the later one as it is
      have hes' : e ∈ es := (List.mem_cons.mp he).resolve_left fun h => hsame (h ▸ rfl)
      rw [drain, hx hsame]
      refine ih hnames hes' ((fault_erase (Ne.symm hsame)).trans hf) fun y hy hne => ?_
      have hother : y.name ≠ x.name := fun h => hname (h ▸ List.mem_map_of_mem hy)
      rw [fault_erase hother, hes y hy hne]

end ModelWeights

/-- A step that takes out the tensors of the entries in turn and no others: it fails with the first
fault, and where there is none, `P` holds of what it yields. -/
structure Drains {α : Type} (a : Action ModelWeights α) (es : List TensorEntry) (P : α → Prop) :
    Prop where
  ok : ∀ {w w' : ModelWeights}, w.Headless → w.drain es = .ok w' →
    ∃ x, Action.exec a w = (.ok x, w') ∧ P x
  error : ∀ {w : ModelWeights} {e : Error}, w.Headless → w.drain es = .error e →
    (Action.exec a w).1 = .error e

namespace Drains

variable {α β : Type} {P : α → Prop} {Q : β → Prop} {xs ys : List TensorEntry}

theorem ofExcept {r : Except Error α} (h : ∃ x, r = .ok x ∧ P x) :
    Drains (Action.ofExcept r) [] P := by
  obtain ⟨x, rfl, hx⟩ := h
  refine ⟨fun _ hw => ?_, fun _ hw => nomatch hw⟩
  cases hw
  exact ⟨x, rfl, hx⟩

theorem pure {x : α} (h : P x) : Drains (Pure.pure x) [] P := ofExcept ⟨x, rfl, h⟩

theorem bind {a : Action ModelWeights α} {f : α → Action ModelWeights β} (ha : Drains a xs P)
    (hf : ∀ x, P x → Drains (f x) ys Q) : Drains (a >>= f) (xs ++ ys) Q := by
  constructor
  · intro w w' hw hdrain
    rw [ModelWeights.drain_append] at hdrain
    obtain ⟨u, hu, hdrain⟩ := bind_eq_ok.mp hdrain
    obtain ⟨x, hx, hP⟩ := ha.ok hw hu
    rw [Action.exec_bind_ok hx]
    exact (hf x hP).ok (hw.drain hu) hdrain
  · intro w e hw hdrain
    rw [ModelWeights.drain_append] at hdrain
    -- the fault is among the entries of the first step, or else among those of the second
    cases hu : w.drain xs with
    | error e' =>
      rw [hu] at hdrain
      cases hdrain
      rw [Action.exec_bind_error (Prod.ext (ha.error hw hu) rfl)]
    | ok u =>
      rw [hu] at hdrain
      obtain ⟨x, hx, hP⟩ := ha.ok hw hu
      rw [Action.exec_bind_ok hx]
      exact (hf x hP).error (hw.drain hu) hdrain

theorem mapM {ι : Type} {f : ι → Action ModelWeights α} {es : ι → List TensorEntry}
    (is : List ι) (hf : ∀ i ∈ is, Drains (f i) (es i) fun _ => True) :
    Drains (is.mapM f) (is.flatMap es) fun _ => True := by
  induction is with
  | nil => exact pure trivial
  | cons i is ih =>
    obtain ⟨hi, his⟩ := List.forall_mem_cons.mp hf
    rw [List.mapM_cons, List.flatMap_cons]
    refine hi.bind fun x _ => ?_
    have hrest := (ih his).bind fun xs _ => pure (x := x :: xs) (P := fun _ => True) trivial
    rwa [List.append_nil] at hrest

end Drains

/-! ## Assembling -/

namespace ModelWeights

variable {w : ModelWeights} {e : TensorEntry}

theorem take_of_fault {f : LoadFault} (h : w.fault e = some f) :
    (Action.exec (take e.name e.shape) w).1 = .error (.load f) := by
  rw [exec_take]
  unfold fault at h
  cases hget : w.get? e.name with
  | none =>
    rw [hget] at h
    cases h
    rfl
  | some t =>
    rw [hget] at h
    simp only at h ⊢
    split at h
    next => cases h
    next hfits =>
      cases h
      rw [if_neg hfits]

theorem take_of_sound (h : w.fault e = none) : ∃ t, w.get? e.name = some t ∧
    shapeFits t.shape e.shape = true ∧
    Action.exec (take e.name e.shape) w = (.ok t, w.erase e.name) := by
  rw [exec_take]
  unfold fault at h
  cases hget : w.get? e.name with
  | none =>
    rw [hget] at h
    cases h
  | some t =>
    rw [hget] at h
    simp only at h ⊢
    split at h
    next hfits => exact ⟨t, rfl, hfits, if_pos hfits⟩
    next => cases h

/-- The tensor of an entry is taken out with a shape that fits. -/
theorem drains_take (e : TensorEntry) : Drains (take e.name e.shape) [e] fun t =>
    (∃ d, Tensor.ofDescriptor d = .ok t) ∧ shapeFits t.shape e.shape = true := by
  constructor
  · intro w w' hw hdrain
    unfold drain at hdrain
    split at hdrain
    next => cases hdrain
    next hfault =>
      cases hdrain
      obtain ⟨t, hget, hfits, htake⟩ := take_of_sound hfault
      obtain ⟨ds, hds⟩ := hw.decoded
      obtain ⟨d, -, hd⟩ := hds.of_get? hget
      exact ⟨t, htake, ⟨d, hd⟩, hfits⟩
  · intro w x _ hdrain
    unfold drain at hdrain
    split at hdrain
    next f hfault =>
      cases hdrain
      exact take_of_fault hfault
    next => cases hdrain

end ModelWeights

/-- A matrix with all of its elements can be projected by, however it is kept. -/
theorem exists_linear {t : Tensor Float32} {outputs inputs : Nat} (dequantize : Bool)
    (hshape : t.shape = [outputs, inputs]) (hlength : t.toList.length = outputs * inputs)
    (hsize : outputs * inputs < wordSize) : ∃ l, Linear.ofTensor t dequantize = .ok l := by
  have hdims : t.dims2 = .ok (outputs, inputs) := by rw [Tensor.dims2, hshape]
  obtain ⟨u, hu, -⟩ := Tensor.transpose_transpose hshape hlength hsize
  unfold Linear.ofTensor
  rw [hdims, hu]
  cases t.data with
  | dense => exact ⟨_, rfl⟩
  | quantized q =>
    cases dequantize with
    | false => exact ⟨_, rfl⟩
    | true => exact ⟨_, rfl⟩

namespace Transformer

variable {c : ModelConfig}

theorem drains_takeLinear (dequantize : Bool) (name : String) {outputs inputs : Nat}
    (hsize : outputs * inputs < wordSize) :
    Drains (takeLinear dequantize name outputs inputs) [⟨name, [outputs, inputs], .projection⟩]
      fun _ => True := by
  refine (ModelWeights.drains_take ⟨name, [outputs, inputs], .projection⟩).bind ?_
  rintro t ⟨⟨d, hd⟩, hfits⟩
  have hshape := shapeFits_matrix hfits
  have hprod : d.shape.prod = outputs * inputs := by
    rw [← shape_of_decoded hd, hshape, prod_matrix]
  obtain ⟨l, hl⟩ := exists_linear dequantize hshape
    ((length_of_decoded hd (hprod ▸ hsize)).trans hprod) hsize
  exact .ofExcept ⟨l, hl, trivial⟩

theorem drains_takeNorm (c : ModelConfig) (name : String) :
    Drains (takeNorm c name) [⟨name, [c.hiddenSize], .norm⟩] fun _ => True :=
  ((ModelWeights.drains_take ⟨name, [c.hiddenSize], .norm⟩).bind fun _ _ =>
    Drains.pure (P := fun _ => True) trivial).bind fun _ _ => .pure trivial

/-- The tensors of a layer in the order in which they are taken out: the projections come first. -/
def takenOfLayer (c : ModelConfig) (i : Nat) : List TensorEntry :=
  (c.layerInventory i).filter (fun e => e.role = .projection) ++
    (c.layerInventory i).filter fun e => !decide (e.role = .projection)

theorem drains_takeLayer (dequantize : Bool) (i : Nat)
    (hsize : ∀ e ∈ c.layerInventory i, e.shape.prod < wordSize) :
    Drains (takeLayer c dequantize i) (takenOfLayer c i) fun _ => True := by
  have hlinear : ∀ {name outputs inputs},
      (⟨ModelConfig.layerTensor i name, [outputs, inputs], .projection⟩ : TensorEntry) ∈
        c.layerInventory i →
      Drains (takeLinear dequantize (ModelConfig.layerTensor i name) outputs inputs)
        [⟨ModelConfig.layerTensor i name, [outputs, inputs], .projection⟩] fun _ => True :=
    fun hmem => drains_takeLinear dequantize _ (prod_matrix _ _ ▸ hsize _ hmem)
  have hnorm := fun name => drains_takeNorm c (ModelConfig.layerTensor i name)
  exact (hlinear (by simp [ModelConfig.layerInventory])).bind fun _ _ =>
    (hlinear (by simp [ModelConfig.layerInventory])).bind fun _ _ =>
    (hlinear (by simp [ModelConfig.layerInventory])).bind fun _ _ =>
    (hlinear (by simp [ModelConfig.layerInventory])).bind fun _ _ =>
    (hlinear (by simp [ModelConfig.layerInventory])).bind fun _ _ =>
    (hlinear (by simp [ModelConfig.layerInventory])).bind fun _ _ =>
    (hlinear (by simp [ModelConfig.layerInventory])).bind fun _ _ =>
    (hnorm "input_layernorm").bind fun _ _ =>
    (hnorm "post_attention_layernorm").bind fun _ _ => .pure trivial

/-- The tensors of a model in the order in which they are taken out. -/
def taken (c : ModelConfig) : List TensorEntry :=
  ⟨"embed_tokens", [c.vocabSize, c.hiddenSize], .embedding⟩ ::
    (List.range c.numLayers).flatMap (takenOfLayer c) ++ [⟨"norm", [c.hiddenSize], .norm⟩]

/-- Every tensor of the inventory is taken out once, and no other. -/
theorem taken_perm (c : ModelConfig) : (taken c).Perm c.inventory := by
  have hlayers : ((List.range c.numLayers).flatMap (takenOfLayer c)).Perm
      ((List.range c.numLayers).flatMap c.layerInventory) :=
    List.Perm.flatMap_left _ fun i _ => List.filter_append_perm _ _
  exact (hlayers.append_right _).cons _

/-- Without a head of its own, a model projects by its embedding, and takes out nothing for it. -/
theorem drains_takeHead (dequantize : Bool) (hsize : c.vocabSize * c.hiddenSize < wordSize)
    {embedding : List Float32} (hlength : embedding.length = c.vocabSize * c.hiddenSize) :
    Drains (takeHead c dequantize embedding) [] fun _ => True := by
  refine ⟨fun {w w'} hw hdrain => ?_, fun _ hdrain => nomatch hdrain⟩
  cases hdrain
  have hheadless : w.contains "lm_head" = false := by
    rw [ModelWeights.contains, hw.head]
    rfl
  -- the embedding has as many elements as its shape tells, since their count does not wrap
  have hlist : Tensor.ofList embedding [c.vocabSize, c.hiddenSize] =
      .ok ⟨[c.vocabSize, c.hiddenSize], .dense embedding⟩ :=
    if_neg (not_not.mpr (hlength.trans (elementCount_matrix hsize).symm))
  obtain ⟨l, hl⟩ := exists_linear (t := ⟨[c.vocabSize, c.hiddenSize], .dense embedding⟩) true rfl
    hlength hsize
  refine ⟨l, ?_, trivial⟩
  unfold takeHead
  rw [Action.exec_bind_ok (Action.exec_get w), hheadless, hlist]
  exact congrArg (·, w) hl

theorem drains_takeEmbedding (hsize : c.vocabSize * c.hiddenSize < wordSize) :
    Drains (takeValues "embed_tokens" [c.vocabSize, c.hiddenSize])
      [⟨"embed_tokens", [c.vocabSize, c.hiddenSize], .embedding⟩]
      fun values => values.length = c.vocabSize * c.hiddenSize := by
  refine (ModelWeights.drains_take
    ⟨"embed_tokens", [c.vocabSize, c.hiddenSize], .embedding⟩).bind ?_
  rintro t ⟨⟨d, hd⟩, hfits⟩
  have hprod : d.shape.prod = c.vocabSize * c.hiddenSize := by
    rw [← shape_of_decoded hd, shapeFits_matrix hfits, prod_matrix]
  exact .pure ((length_of_decoded hd (hprod ▸ hsize)).trans hprod)

/-- Assembling takes out the tensors of the inventory, each in the shape that is told there. -/
theorem drains_assemble (kernels : Dispatcher) (dequantize : Bool)
    (hvalid : c.validate = .ok ()) (hc : c.Storable) :
    Drains (assemble c kernels dequantize) (taken c) fun _ => True := by
  have hsize : ∀ e ∈ c.inventory, e.shape.prod < wordSize := fun e he =>
    e.prod_le_bytes.trans_lt (hc e he)
  have hvocab : c.vocabSize * c.hiddenSize < wordSize :=
    prod_matrix _ _ ▸ hsize ⟨"embed_tokens", [c.vocabSize, c.hiddenSize], .embedding⟩
      List.mem_cons_self
  have hlayer : ∀ i ∈ List.range c.numLayers,
      Drains (takeLayer c dequantize i) (takenOfLayer c i) fun _ => True := fun i hi =>
    drains_takeLayer dequantize i fun e he =>
      hsize e (ModelConfig.mem_inventory_of_layer hi he)
  exact (Drains.ofExcept ⟨(), hvalid, trivial⟩).bind fun _ (_ : True) =>
    (drains_takeEmbedding hvocab).bind fun embedding hlength =>
    (Drains.mapM _ hlayer).bind fun _ _ =>
    (drains_takeNorm c "norm").bind fun _ _ =>
    (drains_takeHead dequantize hvocab hlength).bind fun _ _ => .pure trivial

end Transformer

end CausalServe
