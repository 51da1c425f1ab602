import CausalServe.Model.Synthetic
import CausalServe.Proofs.Tensor.RoundTrip

/-! The tensors of a model, as they are generated. No two of them have one name, however many layers
there are, and each is stored with the shape that the inventory tells. -/

namespace CausalServe

namespace ModelConfig

/-! ## Names -/

theorem toList_layerTensor (i : Nat) (name : String) : (layerTensor i name).toList =
    "layers.".toList ++ (Nat.toDigits 10 i ++ '.' :: name.toList) := by
  change ("layers." ++ toString i ++ "." ++ name).toList = _
  simp

/-- The digits of a number hold no period, so that the number ends at the first one. -/
theorem takeWhile_digits (i : Nat) (rest : List Char) :
    (Nat.toDigits 10 i ++ '.' :: rest).takeWhile (· != '.') = Nat.toDigits 10 i := by
  have hdigits : ∀ c ∈ Nat.toDigits 10 i, (c != '.') = true := by
    intro c hc
    have hdigit := Nat.isDigit_of_mem_toDigits (by decide) (by decide) hc
    rw [bne_iff_ne]
    rintro rfl
    exact absurd hdigit (by decide)
  rw [List.takeWhile_append_of_pos hdigits, List.takeWhile_cons_of_neg (by decide),
    List.append_nil]

/-- The name of a tensor tells its layer. -/
theorem layerTensor_inj {i j : Nat} {m n : String} :
    layerTensor i m = layerTensor j n ↔ i = j ∧ m = n := by
  refine ⟨fun h => ?_, fun ⟨hi, hm⟩ => hi ▸ hm ▸ rfl⟩
  have hlist := congrArg String.toList h
  rw [toList_layerTensor, toList_layerTensor] at hlist
  have hrest := List.append_cancel_left hlist
  have hdigits := congrArg (List.takeWhile (· != '.')) hrest
  rw [takeWhile_digits, takeWhile_digits] at hdigits
  rw [hdigits] at hrest
  have hname := (List.cons.inj (List.append_cancel_left hrest)).2
  exact ⟨by simpa using congrArg (Nat.ofDigitChars 10 · 0) hdigits, String.toList_inj.mp hname⟩

def layerNames : List String :=
  ["input_layernorm", "self_attn.q_proj", "self_attn.k_proj", "self_attn.v_proj",
    "self_attn.o_proj", "post_attention_layernorm", "mlp.gate_proj", "mlp.up_proj",
    "mlp.down_proj"]

variable {c : ModelConfig}

theorem names_layerInventory (c : ModelConfig) (i : Nat) :
    (c.layerInventory i).map TensorEntry.name = layerNames.map (layerTensor i) := rfl

theorem names_inventory (c : ModelConfig) : c.inventory.map TensorEntry.name =
    "embed_tokens" :: ((List.range c.numLayers).flatMap fun i => layerNames.map (layerTensor i)) ++
      ["norm"] := by
  simp only [inventory, List.cons_append, List.map_cons, List.map_append, List.map_flatMap,
    names_layerInventory, List.map_nil]

/-- The names of layers are told from all others by how they begin. -/
theorem starts_of_layer {name : String}
    (h : name ∈ (List.range c.numLayers).flatMap fun i => layerNames.map (layerTensor i)) :
    "layers.".toList <+: name.toList := by
  obtain ⟨i, -, h⟩ := List.mem_flatMap.mp h
  obtain ⟨n, -, rfl⟩ := List.mem_map.mp h
  exact ⟨_, (toList_layerTensor i n).symm⟩

/-- The names of all tensors are distinct, whatever the number of layers. -/
theorem nodup_names (c : ModelConfig) : (c.inventory.map TensorEntry.name).Nodup := by
  have hlayers :
      ((List.range c.numLayers).flatMap fun i => layerNames.map (layerTensor i)).Nodup := by
    refine List.nodup_flatMap.mpr ⟨fun i _ => ?_, ?_⟩
    · exact (List.nodup_map_iff fun m n h => (layerTensor_inj.mp h).2).mpr (by decide)
    · refine List.nodup_range.imp fun hne name hi hj => hne ?_
      obtain ⟨m, -, rfl⟩ := List.mem_map.mp hi
      obtain ⟨n, -, hn⟩ := List.mem_map.mp hj
      exact (layerTensor_inj.mp hn).1.symm
  have hembedding : "embed_tokens" ∉ (List.range c.numLayers).flatMap fun i =>
      layerNames.map (layerTensor i) := fun h => absurd (starts_of_layer h) (by decide)
  have hnorm : "norm" ∉ (List.range c.numLayers).flatMap fun i =>
      layerNames.map (layerTensor i) := fun h => absurd (starts_of_layer h) (by decide)
  rw [names_inventory, List.cons_append, List.nodup_cons, List.nodup_append]
  refine ⟨?_, hlayers, List.nodup_singleton _, fun name hname other hother => ?_⟩
  · rw [List.mem_append, List.mem_singleton, not_or]
    exact ⟨hembedding, by decide⟩
  · rw [List.mem_singleton.mp hother]
    rintro rfl
    exact hnorm hname

/-- A head of its own is not part of the inventory. -/
theorem head_notMem_names (c : ModelConfig) : "lm_head" ∉ c.inventory.map TensorEntry.name := by
  rw [names_inventory, List.mem_append, List.mem_cons, List.mem_singleton]
  rintro ((hembedding | hlayer) | hnorm)
  · exact absurd hembedding (by decide)
  · exact absurd (starts_of_layer hlayer) (by decide)
  · exact absurd hnorm (by decide)

end ModelConfig

/-! ## Generated tensors -/

namespace TensorEntry

def elementType (e : TensorEntry) : ElementType :=
  match e.role with
  | .embedding => .f16
  | _ => .f32

def bytes (e : TensorEntry) : Nat := e.elementType.bytesFor e.shape.prod

structure Stores (e : TensorEntry) (d : TensorDescriptor) : Prop where
  name : d.name = e.name
  shape : d.shape = e.shape
  elementType : d.elementType = e.elementType
  data : d.data.length = e.bytes

theorem prod_le_bytes (e : TensorEntry) : e.shape.prod ≤ e.bytes := by
  unfold bytes elementType
  cases e.role
  all_goals exact Nat.le_mul_of_pos_right _ (by decide)

end TensorEntry

namespace TensorEntry.Stores

variable {e : TensorEntry} {d : TensorDescriptor}

theorem notQuantized (h : e.Stores d) (encoding : Encoding) :
    d.elementType ≠ .quantized encoding := by
  rw [h.elementType, TensorEntry.elementType]
  cases e.role
  all_goals nofun

/-- A tensor of a size that is a word can be decoded. -/
theorem decoded (h : e.Stores d) (hbytes : e.bytes < wordSize) :
    ∃ t, Tensor.ofDescriptor d = .ok t := by
  refine (exists_ofDescriptor_iff (h.data ▸ hbytes)).mpr ?_
  rw [TensorDescriptor.holds_iff h.notQuantized, h.data, h.elementType, h.shape,
    elementCount_eq (e.prod_le_bytes.trans_lt hbytes)]
  rfl

end TensorEntry.Stores

/-- The bytes of every tensor, as it is generated, can be counted by a 64-bit word. -/
def ModelConfig.Storable (c : ModelConfig) : Prop := ∀ e ∈ c.inventory, e.bytes < wordSize

instance (c : ModelConfig) : Decidable c.Storable :=
  inferInstanceAs (Decidable (∀ e ∈ c.inventory, e.bytes < wordSize))

theorem ModelConfig.mem_inventory_of_layer {c : ModelConfig} {e : TensorEntry} {i : Nat}
    (hi : i ∈ List.range c.numLayers) (he : e ∈ c.layerInventory i) : e ∈ c.inventory := by
  rw [inventory, List.mem_append, List.mem_cons]
  exact .inl (.inr (List.mem_flatMap.mpr ⟨i, hi, he⟩))

/-- Norms are vectors, and all others matrices. -/
theorem ModelConfig.shape_of_mem {c : ModelConfig} {e : TensorEntry} (he : e ∈ c.inventory) :
    e.role = .norm ∧ e.shape = [c.hiddenSize] ∨
      e.role ≠ .norm ∧ ∃ rows cols, e.shape = [rows, cols] := by
  rw [inventory, List.cons_append, List.mem_cons, List.mem_append, List.mem_singleton] at he
  rcases he with rfl | hlayers | rfl
  · exact .inr ⟨nofun, _, _, rfl⟩
  · obtain ⟨i, -, hi⟩ := List.mem_flatMap.mp hlayers
    simp only [layerInventory, List.mem_cons, List.not_mem_nil, or_false] at hi
    rcases hi with rfl | rfl | rfl | rfl | rfl | rfl | rfl | rfl | rfl
    all_goals first
      | exact .inl ⟨rfl, rfl⟩
      | exact .inr ⟨nofun, _, _, rfl⟩
  · exact .inl ⟨rfl, rfl⟩

theorem Stream.length_words (s : Stream) (count : Nat) : (s.words count).length = count := by
  have hblock : ∀ words ∈ (List.range' (s.drawn / 16) (count / 16 + 2)).map
      (ChaChaState.output s.key), words.length = 16 := by
    intro words hwords
    obtain ⟨block, -, rfl⟩ := List.mem_map.mp hwords
    exact Vector.length_toList
  unfold words
  rw [List.length_take, List.length_drop, List.flatMap_def, length_flatten_of_width hblock,
    List.length_map, List.length_range']
  omega

namespace Synthetic

theorem exec_matrix (rows cols : Nat) (s : Stream) : ∃ values t,
    Action.exec (matrix rows cols) s = (.ok values, t) ∧ values.length = wordMul rows cols :=
  ⟨_, _, rfl, (List.length_map _).trans (s.length_words _)⟩

theorem length_data_ofHalves (name : String) (shape : List Nat) (bits : List UInt32) :
    (TensorDescriptor.ofHalves name shape bits).data.length = bits.length * 2 := by
  have hwidth : ∀ bytes ∈ bits.map Bytes.ofHalf, bytes.length = 2 := by
    intro bytes hbytes
    obtain ⟨b, -, rfl⟩ := List.mem_map.mp hbytes
    exact Bytes.length_ofNat 2 _
  rw [TensorDescriptor.ofHalves, List.flatMap_def, length_flatten_of_width hwidth, List.length_map]

/-- Every tensor of the inventory is generated, with the name and the shape of its entry. -/
theorem exec_tensor {c : ModelConfig} {e : TensorEntry} (he : e ∈ c.inventory)
    (hbytes : e.bytes < wordSize) (s : Stream) :
    ∃ d t, Action.exec (tensor none e) s = (.ok d, t) ∧ e.Stores d := by
  have hcount : ∀ {rows cols}, e.shape = [rows, cols] → wordMul rows cols = e.shape.prod := by
    intro rows cols hshape
    rw [wordMul, ← prod_matrix, ← hshape, Nat.mod_eq_of_lt (e.prod_le_bytes.trans_lt hbytes)]
  obtain ⟨name, shape, role⟩ := e
  rcases ModelConfig.shape_of_mem he with ⟨hrole, hshape⟩ | ⟨hrole, rows, cols, hshape⟩
  · cases hrole
    cases hshape
    refine ⟨_, _, rfl, rfl, rfl, rfl, ?_⟩
    rw [TensorDescriptor.length_data_ofFloats, List.length_replicate]
    exact congrArg (· * 4) List.prod_singleton.symm
  · cases hshape
    obtain ⟨values, t, hmatrix, hlength⟩ := exec_matrix rows cols s
    rw [hcount rfl] at hlength
    cases role with
    | norm => exact absurd rfl hrole
    | embedding =>
      refine ⟨_, _, Action.exec_bind_ok hmatrix _, rfl, rfl, rfl, ?_⟩
      rw [length_data_ofHalves, List.length_map, hlength]
      rfl
    | projection =>
      refine ⟨_, _, Action.exec_bind_ok hmatrix _, rfl, rfl, rfl, ?_⟩
      rw [TensorDescriptor.length_data_ofFloats, List.length_map, hlength]
      rfl

/-- From any seed the tensors of the inventory are generated in its order. -/
theorem descriptors_ok {c : ModelConfig} (hc : c.Storable) (seed : Nat) :
    ∃ ds, descriptors c none seed = .ok ds ∧ List.Forall₂ TensorEntry.Stores c.inventory ds := by
  obtain ⟨ds, t, hds, hstored⟩ :=
    Action.exists_exec_mapM (fun e he => exec_tensor he (hc e he)) (Stream.ofSeed seed)
  exact ⟨ds, congrArg Prod.fst hds, hstored⟩

end Synthetic

end CausalServe
