import CausalServe.Config.Basic

/-! The tensors that a model is assembled from, in the order they are stored in. A model without a
head of its own uses its embedding as one. -/

namespace CausalServe

inductive TensorRole
  | embedding
  | norm
  | projection
deriving DecidableEq, Repr

/-- A tensor that a model has, by name. -/
structure TensorEntry where
  name : String
  shape : List Nat
  role : TensorRole
deriving DecidableEq, Repr

namespace ModelConfig

def layerTensor (i : Nat) (name : String) : String := s!"layers.{i}.{name}"

/-- The tensors of one layer. -/
def layerInventory (c : ModelConfig) (i : Nat) : List TensorEntry :=
  let norm (name : String) : TensorEntry := ⟨layerTensor i name, [c.hiddenSize], .norm⟩
  let projection (name : String) (outputs inputs : Nat) : TensorEntry :=
    ⟨layerTensor i name, [outputs, inputs], .projection⟩
  [norm "input_layernorm",
    projection "self_attn.q_proj" c.queryWidth c.hiddenSize,
    projection "self_attn.k_proj" c.kvWidth c.hiddenSize,
    projection "self_attn.v_proj" c.kvWidth c.hiddenSize,
    projection "self_attn.o_proj" c.hiddenSize c.queryWidth,
    norm "post_attention_layernorm",
    projection "mlp.gate_proj" c.intermediateSize c.hiddenSize,
    projection "mlp.up_proj" c.intermediateSize c.hiddenSize,
    projection "mlp.down_proj" c.hiddenSize c.intermediateSize]

/-- All tensors but a head. -/
def inventory (c : ModelConfig) : List TensorEntry :=
  ⟨"embed_tokens", [c.vocabSize, c.hiddenSize], .embedding⟩ ::
    (List.range c.numLayers).flatMap c.layerInventory ++ [⟨"norm", [c.hiddenSize], .norm⟩]

end ModelConfig

end CausalServe
