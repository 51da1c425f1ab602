import CausalServe.Model.Decoder
import CausalServe.Model.Inventory
import CausalServe.Model.LanguageModel
import CausalServe.Model.Weights

/-! A decoder-only transformer: embedding, layers, norm and head. The rows of all sequences of a
batch go through the layers together, and the last row of each goes on to the head. -/

namespace CausalServe

structure Transformer where
  config : ModelConfig
  kernels : Dispatcher
  /-- One row for each token. -/
  embedding : List (List Float32)
  layers : List DecoderLayer
  norm : RmsNorm
  head : Linear Float32
  rotary : Rotary

namespace Transformer

/-! ## Assembling -/

def takeValues (name : String) (shape : List Nat) : Action ModelWeights (List Float32) :=
  return (← ModelWeights.take name shape).toList

def takeLinear (dequantize : Bool) (name : String) (outputs inputs : Nat) :
    Action ModelWeights (Linear Float32) := do
  Action.ofExcept (Linear.ofTensor (← ModelWeights.take name [outputs, inputs]) dequantize)

def takeNorm [Elementary] (c : ModelConfig) (name : String) : Action ModelWeights RmsNorm :=
  return .new (← takeValues name [c.hiddenSize]) c.normEps

def takeLayer [Elementary] (c : ModelConfig) (dequantize : Bool) (i : Nat) :
    Action ModelWeights DecoderLayer := do
  let linear (name : String) := takeLinear dequantize (ModelConfig.layerTensor i name)
  let norm (name : String) := takeNorm c (ModelConfig.layerTensor i name)
  let query ← linear "self_attn.q_proj" c.queryWidth c.hiddenSize
  let key ← linear "self_attn.k_proj" c.kvWidth c.hiddenSize
  let value ← linear "self_attn.v_proj" c.kvWidth c.hiddenSize
  let output ← linear "self_attn.o_proj" c.hiddenSize c.queryWidth
  let gate ← linear "mlp.gate_proj" c.intermediateSize c.hiddenSize
  let up ← linear "mlp.up_proj" c.intermediateSize c.hiddenSize
  let down ← linear "mlp.down_proj" c.hiddenSize c.intermediateSize
  let inputNorm ← norm "input_layernorm"
  let postNorm ← norm "post_attention_layernorm"
  let attention : Attention :=
    { query := query, key := key, value := value, output := output, numHeads := c.numHeads
      numKvHeads := c.numKvHeads, headDim := c.headDim, layer := i }
  return { inputNorm := inputNorm, attention := attention, postNorm := postNorm
           feedForward := ⟨gate, up, down⟩ }

/-- The projection to logits: a tensor of its own, or the embedding. -/
def takeHead (c : ModelConfig) (dequantize : Bool) (embedding : List Float32) :
    Action ModelWeights (Linear Float32) := do
  if (← get).contains "lm_head" then takeLinear dequantize "lm_head" c.vocabSize c.hiddenSize
  else
    let t ← Action.ofExcept (Tensor.ofList embedding [c.vocabSize, c.hiddenSize])
    Action.ofExcept (Linear.ofTensor t true)

/-- Takes the tensors of a model out of the weights, and puts them together. -/
def assemble [Elementary] (c : ModelConfig) (kernels : Dispatcher) (dequantize : Bool) :
    Action ModelWeights Transformer := do
  Action.ofExcept c.validate
  let embedding ← takeValues "embed_tokens" [c.vocabSize, c.hiddenSize]
  let layers ← (List.range c.numLayers).mapM (takeLayer c dequantize)
  let norm ← takeNorm c "norm"
  let head ← takeHead c dequantize embedding
  return { config := c, kernels := kernels, embedding := pieces c.hiddenSize embedding
           layers := layers, norm := norm, head := head
           rotary := .new c.headDim c.maxPositions c.ropeTheta }

def ofWeights [Elementary] (c : ModelConfig) (weights : ModelWeights) (kernels : Dispatcher)
    (dequantize : Bool) : Except Error Transformer :=
  (Action.exec (assemble c kernels dequantize) weights).1

/-! ## Running -/

/-- The embedded tokens of an entry. -/
def embed (t : Transformer) (tokens : List Token) : Except Error (List (List Float32)) :=
  tokens.mapM fun token =>
    if t.config.vocabSize ≤ token then
      .error (.invalidRequest (.token token t.config.vocabSize))
    else match t.embedding[token]? with
      | some row => .ok row
      | none => .error (.contract "an embedding without a row for each token")

/-- The spans of the entries and the rows that enter the first layer. -/
def prepare (t : Transformer) (cache : Cache) :
    Nat → List BatchEntry → Except Error (List RowSpan × List (List Float32))
  | _, [] => .ok ([], [])
  | row, entry :: rest => do
    if entry.tokens = [] then throw (.invalidRequest (.emptyEntry entry.slot))
    let embedded ← t.embed entry.tokens
    let position ← cache.nextPosition entry.slot
    let len := entry.tokens.length
    let (spans, rows) ← t.prepare cache (row + len) rest
    return (⟨entry.slot, row, len, position⟩ :: spans, embedded ++ rows)

/-- The last row of each span. -/
def lastRows (rows : List (List Float32)) (spans : List RowSpan) : List Float32 :=
  spans.flatMap fun s => rows.getD (s.startRow + s.len - 1) []

def forward (t : Transformer) (entries : List BatchEntry) : Action Cache (List (List Float32)) := do
  if entries = [] then return []
  let (spans, rows) ← Action.ofExcept (t.prepare (← get) 0 entries)
  let context : BatchContext :=
    { kernels := t.kernels, rotary := t.rotary, spans := spans, rows := rows.length }
  let hidden ← t.layers.foldlM (fun hidden layer => layer.forward context hidden) rows.flatten
  let last := lastRows (pieces t.config.hiddenSize hidden) spans
  let normed ← Action.ofExcept (t.norm.forward last)
  let logits ← Action.ofExcept (t.head.forward t.kernels normed spans.length)
  return pieces t.config.vocabSize logits

def toModel (t : Transformer) : LanguageModel := ⟨t.config, t.forward⟩

end Transformer

end CausalServe
