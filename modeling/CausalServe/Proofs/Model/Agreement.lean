import CausalServe.Proofs.Model.Loading
import CausalServe.Proofs.Model.Soundness

/-! The tensors that are generated for a model are those that it is assembled from: all of them,
each in its own shape. Without any one of them the model is refused, and the tensor named. -/

namespace CausalServe

/-! ## Stored tensors -/

namespace ModelWeights

structure Holding (w : ModelWeights) (ds : List TensorDescriptor) : Prop where
  decoded : w.DecodedFrom ds
  names : w.tensors.map Prod.fst = ds.map TensorDescriptor.name
  get : ∀ d ∈ ds, ∃ t, Tensor.ofDescriptor d = .ok t ∧ w.get? d.name = some t

variable {w : ModelWeights} {ds : List TensorDescriptor} {d : TensorDescriptor} {e : TensorEntry}
  {t : Tensor Float32}

theorem get?_eq_none {name : String} (h : name ∉ w.tensors.map Prod.fst) : w.get? name = none := by
  refine List.lookup_eq_none_iff.mpr fun entry hentry => ?_
  rw [bne_iff_ne]
  rintro rfl
  exact h (List.mem_map_of_mem hentry)

theorem get?_of_mem {name : String} (hnames : (w.tensors.map Prod.fst).Nodup)
    (h : (name, t) ∈ w.tensors) : w.get? name = some t := by
  obtain ⟨before, after, hsplit⟩ := List.append_of_mem h
  refine List.lookup_eq_some_iff.mpr ⟨before, after, hsplit, fun entry hentry => ?_⟩
  rw [hsplit, List.map_append, List.map_cons, List.nodup_append] at hnames
  rw [bne_iff_ne]
  exact (hnames.2.2 _ (List.mem_map_of_mem hentry) _ List.mem_cons_self).symm

theorem insert_ok (hd : Tensor.ofDescriptor d = .ok t) (hname : w.get? d.name = none) :
    w.insert d = .ok ⟨w.tensors ++ [(d.name, t)]⟩ := by
  have hdecode : decode d = .ok t := by rw [decode, hd]
  unfold insert
  rw [hdecode]
  simp only [contains, hname]
  rfl

/-- Tensors under new names are put in one after another. -/
theorem foldlM_insert
    (hnames : (w.tensors.map Prod.fst ++ ds.map TensorDescriptor.name).Nodup)
    (hdecode : ∀ d ∈ ds, ∃ t, Tensor.ofDescriptor d = .ok t) :
    ∃ added, ds.foldlM insert w = .ok ⟨w.tensors ++ added⟩ ∧
      List.Forall₂ (fun d entry => entry.1 = d.name ∧ Tensor.ofDescriptor d = .ok entry.2)
        ds added := by
  induction ds generalizing w with
  | nil => exact ⟨[], by rw [List.append_nil]; rfl, .nil⟩
  | cons d ds ih =>
    obtain ⟨⟨t, ht⟩, hdecode⟩ := List.forall_mem_cons.mp hdecode
    have hnew : d.name ∉ w.tensors.map Prod.fst := fun h =>
      (List.nodup_append.mp hnames).2.2 _ h _ List.mem_cons_self rfl
    obtain ⟨added, hadded, hall⟩ := ih (w := ⟨w.tensors ++ [(d.name, t)]⟩)
      (by simpa using hnames) hdecode
    refine ⟨(d.name, t) :: added, ?_, .cons ⟨rfl, ht⟩ hall⟩
    rw [List.foldlM_cons, insert_ok ht (get?_eq_none hnew)]
    refine hadded.trans ?_
    rw [List.append_assoc, List.singleton_append]

/-- Stored tensors with distinct names are all held, if each of them can be decoded. -/
theorem ofDescriptors_ok (hnames : (ds.map TensorDescriptor.name).Nodup)
    (hdecode : ∀ d ∈ ds, ∃ t, Tensor.ofDescriptor d = .ok t) :
    ∃ w, ofDescriptors ds = .ok w ∧ w.Holding ds := by
  obtain ⟨added, hadded, hall⟩ := foldlM_insert (w := {}) hnames hdecode
  have hkeys : added.map Prod.fst = ds.map TensorDescriptor.name :=
    (map_eq_of_forall₂ hall fun d entry h => h.1.symm).symm
  refine ⟨⟨added⟩, hadded, decoded_of_descriptors hadded, hkeys, fun d hd => ?_⟩
  obtain ⟨entry, hentry, hname, ht⟩ := exists_of_forall₂ hall hd
  refine ⟨entry.2, ht, get?_of_mem (w := ⟨added⟩) (hkeys ▸ hnames) ?_⟩
  rwa [← hname]

/-- A tensor that cannot be decoded ends the loading. -/
theorem ofDescriptors_error {before after : List TensorDescriptor} {x : Error}
    (hnames : (before.map TensorDescriptor.name).Nodup)
    (hdecode : ∀ d ∈ before, ∃ t, Tensor.ofDescriptor d = .ok t) (hd : decode d = .error x) :
    ofDescriptors (before ++ d :: after) = .error x := by
  obtain ⟨w, hw, -⟩ := ofDescriptors_ok hnames hdecode
  unfold ofDescriptors at hw ⊢
  rw [List.foldlM_append, hw]
  change insert w d >>= _ = _
  unfold insert
  rw [hd]
  rfl

/-- Floats that cannot be decoded are refused by name, since only their number can be wrong. -/
theorem decode_floats (hfloats : ∀ encoding, d.elementType ≠ .quantized encoding) :
    (∃ t, Tensor.ofDescriptor d = .ok t) ∨ ∃ op expected actual,
      decode d = .error (.load (.payload d.name op expected actual)) := by
  have hresult : (∃ t, Tensor.ofDescriptor d = .ok t) ∨ ∃ op expected actual,
      Tensor.ofDescriptor d = .error (.shape op expected actual) := by
    unfold Tensor.ofDescriptor
    cases htype : d.elementType with
    | f32 => exact ofFloatBytes_or_shape _ _ _ d
    | f16 => exact ofFloatBytes_or_shape _ _ _ d
    | quantized encoding => exact absurd htype (hfloats encoding)
  refine hresult.imp_right fun ⟨op, expected, actual, h⟩ => ⟨op, expected, actual, ?_⟩
  rw [decode, h]

namespace Holding

theorem headless (h : w.Holding ds) (hhead : "lm_head" ∉ ds.map TensorDescriptor.name) :
    w.Headless := ⟨⟨ds, h.decoded⟩, get?_eq_none (h.names ▸ hhead)⟩

/-- A stored tensor is only refused for its shape. -/
theorem fault_of_mem (h : w.Holding ds) (hd : d ∈ ds) (hname : d.name = e.name) :
    w.fault e =
      if shapeFits d.shape e.shape then none else some (.shape e.name d.shape e.shape) := by
  obtain ⟨t, ht, hget⟩ := h.get d hd
  rw [fault, ← hname, hget]
  simp only [shape_of_decoded ht]

theorem fault_of_notMem (h : w.Holding ds) (he : e.name ∉ ds.map TensorDescriptor.name) :
    w.fault e = some (.missing e.name) := by
  rw [fault, get?_eq_none (h.names ▸ he)]

end Holding

end ModelWeights

/-! ## Complete sets of tensors -/

/-- Stored tensors of a model, of which all but the named one must be there. -/
structure CompleteBut (c : ModelConfig) (name : String) (ds : List TensorDescriptor) : Prop where
  names : (ds.map TensorDescriptor.name).Nodup
  known : ∀ d ∈ ds, d.name ∈ c.inventory.map TensorEntry.name
  decoded : ∀ d ∈ ds, ∃ t, Tensor.ofDescriptor d = .ok t
  stored : ∀ e ∈ c.inventory, e.name ≠ name → ∃ d ∈ ds, d.name = e.name ∧ d.shape = e.shape

/-- A vector fits as the only row of a matrix too, and all else in its own shape only. -/
theorem ModelConfig.shapeFits_iff {c : ModelConfig} {e : TensorEntry} (he : e ∈ c.inventory)
    (shape : List Nat) : ModelWeights.shapeFits shape e.shape = true ↔
      shape = e.shape ∨ e.shape = [c.hiddenSize] ∧ shape = [1, c.hiddenSize] := by
  rcases shape_of_mem he with ⟨-, hshape⟩ | ⟨-, rows, cols, hshape⟩
  · rw [hshape]
    simp [ModelWeights.shapeFits]
  · rw [hshape]
    simp [ModelWeights.shapeFits]

namespace Transformer

/-- A model is assembled from the stored tensors, and none of them is left over. -/
def Loads (c : ModelConfig) (kernels : Dispatcher) (dequantize : Bool)
    (ds : List TensorDescriptor) : Prop :=
  ∃ w t, ModelWeights.ofDescriptors ds = .ok w ∧
    Action.exec (assemble c kernels dequantize) w = (.ok t, {})

/-- The stored tensors are read, but no model is assembled from them. -/
def LoadFails (c : ModelConfig) (kernels : Dispatcher) (dequantize : Bool)
    (ds : List TensorDescriptor) (fault : LoadFault) : Prop :=
  ∃ w, ModelWeights.ofDescriptors ds = .ok w ∧
    ofWeights c w kernels dequantize = .error (.load fault)

theorem nodup_taken (c : ModelConfig) : ((taken c).map TensorEntry.name).Nodup :=
  ((taken_perm c).map _).nodup_iff.mpr c.nodup_names

end Transformer

namespace CompleteBut

variable {c : ModelConfig} {kernels : Dispatcher} {dequantize : Bool}
  {ds rest : List TensorDescriptor} {d : TensorDescriptor} {e : TensorEntry} {name : String}

theorem perm (h : CompleteBut c name ds) (hperm : ds.Perm rest) : CompleteBut c name rest where
  names := (hperm.map _).nodup_iff.mp h.names
  known d hd := h.known d (hperm.mem_iff.mpr hd)
  decoded d hd := h.decoded d (hperm.mem_iff.mpr hd)
  stored e he hname := by
    obtain ⟨d, hd, hstored⟩ := h.stored e he hname
    exact ⟨d, hperm.mem_iff.mp hd, hstored⟩

/-- The named tensor is put back in any shape in which it can be decoded. -/
theorem cons (h : CompleteBut c name rest) (hname : d.name = name)
    (hnew : name ∉ rest.map TensorDescriptor.name)
    (hknown : name ∈ c.inventory.map TensorEntry.name)
    (hdecoded : ∃ t, Tensor.ofDescriptor d = .ok t) : CompleteBut c name (d :: rest) where
  names := List.nodup_cons.mpr ⟨hname ▸ hnew, h.names⟩
  known := List.forall_mem_cons.mpr ⟨hname ▸ hknown, h.known⟩
  decoded := List.forall_mem_cons.mpr ⟨hdecoded, h.decoded⟩
  stored e he hother := by
    obtain ⟨d', hd', hstored⟩ := h.stored e he hother
    exact ⟨d', List.mem_cons_of_mem _ hd', hstored⟩

/-- Without the named tensor, the others are still there. -/
theorem tail (h : CompleteBut c d.name (d :: rest)) :
    CompleteBut c d.name rest ∧ d.name ∉ rest.map TensorDescriptor.name := by
  obtain ⟨hnew, hnames⟩ := List.nodup_cons.mp h.names
  refine ⟨⟨hnames, (List.forall_mem_cons.mp h.known).2, (List.forall_mem_cons.mp h.decoded).2,
    fun e he hother => ?_⟩, hnew⟩
  obtain ⟨x, hx, hname, hshape⟩ := h.stored e he hother
  refine ⟨x, (List.mem_cons.mp hx).resolve_left ?_, hname, hshape⟩
  rintro rfl
  exact hother hname.symm

theorem eraseIdx (h : CompleteBut c d.name ds) {i : Nat} (hi : ds[i]? = some d) :
    CompleteBut c d.name (ds.eraseIdx i) ∧
      d.name ∉ (ds.eraseIdx i).map TensorDescriptor.name := by
  obtain ⟨hlt, rfl⟩ := List.getElem?_eq_some_iff.mp hi
  exact (h.perm (List.getElem_cons_eraseIdx_perm hlt).symm).tail

theorem set (h : CompleteBut c d.name ds) {i : Nat} (hi : ds[i]? = some d) {d' : TensorDescriptor}
    (hname : d'.name = d.name) (hdecoded : ∃ t, Tensor.ofDescriptor d' = .ok t) :
    CompleteBut c d.name (ds.set i d') := by
  obtain ⟨hrest, hnew⟩ := h.eraseIdx hi
  have hput := hrest.cons hname hnew (h.known d (List.mem_of_getElem? hi)) hdecoded
  exact hput.perm (List.set_perm_cons_eraseIdx (List.getElem?_eq_some_iff.mp hi).1 d').symm

/-- The tensors are held, and none but the named one is faulty. -/
theorem holding (h : CompleteBut c name ds) : ∃ w, ModelWeights.ofDescriptors ds = .ok w ∧
    w.Holding ds ∧ w.Headless ∧ ∀ e ∈ c.inventory, e.name ≠ name → w.fault e = none := by
  obtain ⟨w, hw, hholding⟩ := ModelWeights.ofDescriptors_ok h.names h.decoded
  have hhead : "lm_head" ∉ ds.map TensorDescriptor.name := by
    intro hmem
    obtain ⟨d, hd, hname⟩ := List.mem_map.mp hmem
    exact c.head_notMem_names (hname ▸ h.known d hd)
  refine ⟨w, hw, hholding, hholding.headless hhead, fun e he hname => ?_⟩
  obtain ⟨d, hd, hsame, hshape⟩ := h.stored e he hname
  rw [hholding.fault_of_mem hd hsame,
    if_pos ((ModelConfig.shapeFits_iff he _).mpr (.inl hshape))]

theorem loads (h : CompleteBut c e.name ds) (hvalid : c.validate = .ok ()) (hc : c.Storable)
    (he : e ∈ c.inventory) (hd : d ∈ ds) (hname : d.name = e.name)
    (hfits : ModelWeights.shapeFits d.shape e.shape = true) :
    Transformer.Loads c kernels dequantize ds := by
  obtain ⟨w, hw, hholding, hheadless, hothers⟩ := h.holding
  have hfaults : ∀ x ∈ Transformer.taken c, w.fault x = none := by
    intro x hx
    have hx := (Transformer.taken_perm c).mem_iff.mp hx
    by_cases hsame : x.name = e.name
    · rw [List.inj_on_of_nodup_map c.nodup_names hx he hsame, hholding.fault_of_mem hd hname,
        if_pos hfits]
    · exact hothers x hx hsame
  -- every stored tensor is one of the inventory, so that taking these out leaves nothing
  have hnone : w.tensors.filter (fun entry =>
      entry.1 ∉ (Transformer.taken c).map TensorEntry.name) = [] := by
    refine List.filter_eq_nil_iff.mpr fun entry hentry => ?_
    have hmem : entry.1 ∈ ds.map TensorDescriptor.name :=
      hholding.names ▸ List.mem_map_of_mem hentry
    obtain ⟨d, hd, hname⟩ := List.mem_map.mp hmem
    have htaken := ((Transformer.taken_perm c).map TensorEntry.name).mem_iff.mpr (h.known d hd)
    simpa [← hname] using htaken
  have hdrain := ModelWeights.drain_eq_ok (Transformer.nodup_taken c) hfaults
  rw [hnone] at hdrain
  obtain ⟨t, ht, -⟩ :=
    (Transformer.drains_assemble kernels dequantize hvalid hc).ok hheadless hdrain
  exact ⟨w, t, hw, ht⟩

theorem loadFails (h : CompleteBut c e.name ds) (hvalid : c.validate = .ok ()) (hc : c.Storable)
    (he : e ∈ c.inventory) {fault : LoadFault}
    (hfault : ∀ w : ModelWeights, w.Holding ds → w.fault e = some fault) :
    Transformer.LoadFails c kernels dequantize ds fault := by
  obtain ⟨w, hw, hholding, hheadless, hothers⟩ := h.holding
  have hperm := Transformer.taken_perm c
  have hdrain := ModelWeights.drain_eq_error (Transformer.nodup_taken c) (hperm.mem_iff.mpr he)
    (hfault w hholding) fun x hx => hothers x (hperm.mem_iff.mp hx)
  exact ⟨w, hw, (Transformer.drains_assemble kernels dequantize hvalid hc).error hheadless hdrain⟩

end CompleteBut

/-! ## Generated tensors -/

namespace Synthetic

variable {c : ModelConfig} {ds : List TensorDescriptor} {d d' : TensorDescriptor} {i : Nat}

theorem names_eq (h : List.Forall₂ TensorEntry.Stores c.inventory ds) :
    c.inventory.map TensorEntry.name = ds.map TensorDescriptor.name :=
  map_eq_of_forall₂ h fun _ _ hstores => hstores.name.symm

theorem complete (hc : c.Storable) (h : List.Forall₂ TensorEntry.Stores c.inventory ds)
    (name : String) : CompleteBut c name ds where
  names := names_eq h ▸ c.nodup_names
  known _ hd := names_eq h ▸ List.mem_map_of_mem hd
  decoded d hd := by
    obtain ⟨e, he, hstores⟩ := exists_of_forall₂ h.flip hd
    exact hstores.decoded (hc e he)
  stored e he _ := by
    obtain ⟨d, hd, hstores⟩ := exists_of_forall₂ h he
    exact ⟨d, hd, hstores.name, hstores.shape⟩

/-- One of the generated tensors with another number of elements is refused as it is read. -/
theorem unreadable_named (hc : c.Storable) (h : List.Forall₂ TensorEntry.Stores c.inventory ds)
    (hi : ds[i]? = some d) (hname : d'.name = d.name) (htype : d'.elementType = d.elementType) :
    (∃ t, Tensor.ofDescriptor d' = .ok t) ∨ ∃ op expected actual,
      ModelWeights.ofDescriptors (ds.set i d') =
        .error (.load (.payload d.name op expected actual)) := by
  obtain ⟨e, -, hstores⟩ := exists_of_forall₂ h.flip (List.mem_of_getElem? hi)
  have hcomplete := complete hc h d.name
  have hsub := List.take_subset i ds
  have hnames : ((ds.take i).map TensorDescriptor.name).Nodup :=
    hcomplete.names.sublist ((List.take_sublist i ds).map _)
  refine (ModelWeights.decode_floats (htype ▸ hstores.notQuantized)).imp_right ?_
  rintro ⟨op, expected, actual, hd⟩
  refine ⟨op, expected, actual, ?_⟩
  rw [List.set_eq_take_append_cons_drop, if_pos (List.getElem?_eq_some_iff.mp hi).1, ← hname]
  exact ModelWeights.ofDescriptors_error hnames (fun x hx => hcomplete.decoded x (hsub hx)) hd

end Synthetic

namespace Transformer

variable {c : ModelConfig} {ds : List TensorDescriptor} {d d' : TensorDescriptor} {i : Nat}

section Generated

variable (kernels : Dispatcher) (dequantize : Bool) (hvalid : c.validate = .ok ())
  (hc : c.Storable) (h : List.Forall₂ TensorEntry.Stores c.inventory ds)

include hvalid hc h

theorem loads_generated : Loads c kernels dequantize ds := by
  have hembedding : (⟨"embed_tokens", [c.vocabSize, c.hiddenSize], .embedding⟩ : TensorEntry) ∈
    c.inventory := List.mem_cons_self
  obtain ⟨d, hd, hstores⟩ := exists_of_forall₂ h hembedding
  exact (Synthetic.complete hc h _).loads hvalid hc hembedding hd hstores.name
    ((ModelConfig.shapeFits_iff hembedding _).mpr (.inl hstores.shape))

theorem missing_named (hi : ds[i]? = some d) :
    LoadFails c kernels dequantize (ds.eraseIdx i) (.missing d.name) := by
  obtain ⟨hrest, hnew⟩ := (Synthetic.complete hc h d.name).eraseIdx hi
  obtain ⟨e, he, hstores⟩ := exists_of_forall₂ h.flip (List.mem_of_getElem? hi)
  rw [hstores.name] at hrest hnew ⊢
  exact hrest.loadFails hvalid hc he fun w hw => hw.fault_of_notMem hnew

theorem misshaped_named (hi : ds[i]? = some d) {t : Tensor Float32} (hname : d'.name = d.name)
    (hother : d'.shape ≠ d.shape) (ht : Tensor.ofDescriptor d' = .ok t) :
    if d.shape = [c.hiddenSize] ∧ d'.shape = [1, c.hiddenSize] then
      Loads c kernels dequantize (ds.set i d')
    else LoadFails c kernels dequantize (ds.set i d') (.shape d.name d'.shape d.shape) := by
  have hset := (Synthetic.complete hc h d.name).set hi hname ⟨t, ht⟩
  have hmem : d' ∈ ds.set i d' := List.mem_set (List.getElem?_eq_some_iff.mp hi).1 d'
  obtain ⟨e, he, hstores⟩ := exists_of_forall₂ h.flip (List.mem_of_getElem? hi)
  have hfits := ModelConfig.shapeFits_iff he d'.shape
  rw [hstores.name] at hset hname ⊢
  rw [hstores.shape] at hother ⊢
  split
  next hrow => exact hset.loads hvalid hc he hmem hname (hfits.mpr (.inr hrow))
  next hrow =>
    refine hset.loadFails hvalid hc he fun w hw => ?_
    rw [hw.fault_of_mem hmem hname, if_neg fun hfit => (hfits.mp hfit).elim hother hrow]

end Generated

/-- What is generated for a model and what the model is assembled from agree on every tensor. All of
the generated tensors are taken and nothing is left over. Without any one of them the model is
refused, and so it is with any one in another shape, except that a norm may be the only row of a
matrix. -/
theorem inventory_agrees {c : ModelConfig} (hvalid : c.validate = .ok ()) (hc : c.Storable)
    (seed : Nat) (kernels : Dispatcher) (dequantize : Bool) :
    ∃ ds, Synthetic.descriptors c none seed = .ok ds ∧
      ds.map (fun d => (d.name, d.shape)) = c.inventory.map (fun e => (e.name, e.shape)) ∧
      (ds.map TensorDescriptor.name).Nodup ∧ Loads c kernels dequantize ds ∧
      ∀ i d, ds[i]? = some d →
        LoadFails c kernels dequantize (ds.eraseIdx i) (.missing d.name) ∧
        (∀ d' t, d'.name = d.name → d'.shape ≠ d.shape → Tensor.ofDescriptor d' = .ok t →
          if d.shape = [c.hiddenSize] ∧ d'.shape = [1, c.hiddenSize] then
            Loads c kernels dequantize (ds.set i d')
          else LoadFails c kernels dequantize (ds.set i d') (.shape d.name d'.shape d.shape)) ∧
        ∀ d', d'.name = d.name → d'.elementType = d.elementType →
          (∃ t, Tensor.ofDescriptor d' = .ok t) ∨ ∃ op expected actual,
            ModelWeights.ofDescriptors (ds.set i d') =
              .error (.load (.payload d.name op expected actual)) := by
  obtain ⟨ds, hds, hstored⟩ := Synthetic.descriptors_ok hc seed
  have hinventory : ds.map (fun d => (d.name, d.shape)) =
      c.inventory.map (fun e => (e.name, e.shape)) :=
    (map_eq_of_forall₂ hstored fun e d h => by rw [h.name, h.shape]).symm
  refine ⟨ds, hds, hinventory, (Synthetic.complete hc hstored "").names,
    loads_generated kernels dequantize hvalid hc hstored, fun i d hi => ⟨?_, ?_, ?_⟩⟩
  · exact missing_named kernels dequantize hvalid hc hstored hi
  · intro d' t hname hother ht
    exact misshaped_named kernels dequantize hvalid hc hstored hi hname hother ht
  · intro d' hname htype
    exact Synthetic.unreadable_named hc hstored hi hname htype

/-- The norm before the first layer of a generated model is missed where it is taken away, and may
be stored as a row but not as a column. -/
theorem first_norm_told : ∃ ds, Synthetic.descriptors .least none 7 = .ok ds ∧
    Loads .least { kernel := .scalar, config := {} } false ds ∧
    LoadFails .least { kernel := .scalar, config := {} } false (ds.eraseIdx 1)
      (.missing "layers.0.input_layernorm") ∧
    Loads .least { kernel := .scalar, config := {} } false
      (ds.set 1 (.ofFloats "layers.0.input_layernorm" [1, 2] [0, 0])) ∧
    LoadFails .least { kernel := .scalar, config := {} } false
      (ds.set 1 (.ofFloats "layers.0.input_layernorm" [2, 1] [0, 0]))
      (.shape "layers.0.input_layernorm" [2, 1] [2]) := by
  obtain ⟨ds, hds, hinventory, -, hloads, hone⟩ :=
    inventory_agrees (c := .least) rfl (by decide) 7 { kernel := .scalar, config := {} } false
  obtain ⟨d, hd, hentry⟩ : ∃ d, ds[1]? = some d ∧
      (d.name, d.shape) = ("layers.0.input_layernorm", [2]) := by
    have hsecond := congrArg (·[1]?) hinventory
    rw [List.getElem?_map] at hsecond
    exact Option.map_eq_some_iff.mp hsecond
  obtain ⟨hname, hshape⟩ := Prod.mk.inj hentry
  obtain ⟨hmissing, hother, -⟩ := hone 1 d hd
  rw [hname, hshape] at hother
  rw [hname] at hmissing
  have hrow := hother (.ofFloats "layers.0.input_layernorm" [1, 2] [0, 0]) _ rfl (by decide) rfl
  rw [if_pos ⟨rfl, rfl⟩] at hrow
  have hcolumn := hother (.ofFloats "layers.0.input_layernorm" [2, 1] [0, 0]) _ rfl (by decide) rfl
  rw [if_neg (by decide)] at hcolumn
  exact ⟨ds, hds, hloads, hmissing, hrow, hcolumn⟩

set_option maxRecDepth 4000 in
/-- A count of elements that wraps to zero lets a model be generated without an embedding, which
then has no head. -/
theorem hollow_embedding_refused : ∃ ds w, ModelConfig.vast.validate = .ok () ∧
    Synthetic.descriptors .vast none 1 = .ok ds ∧ ModelWeights.ofDescriptors ds = .ok w ∧
    ofWeights .vast w { kernel := .scalar, config := {} } false =
      .error (.contract "a matrix of a size that overflows") :=
  ⟨_, _, rfl, rfl, rfl, rfl⟩

end Transformer

end CausalServe
