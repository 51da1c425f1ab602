import CausalServe.Config.Reading
import CausalServe.Json.Printer

/-! Configurations as JSON, with every field written out. -/

namespace CausalServe

open Json.Value (ofNat ofString ofOption ofFields)

def SchedulerConfig.toJson (c : SchedulerConfig) : Json.Value :=
  ofFields [
    ("max_num_seqs", ofNat c.maxSeqs),
    ("max_prefill_tokens", ofNat c.maxPrefillTokens),
    ("enable_priority", .bool c.enablePriority),
    ("truncate_long_prompts", .bool c.truncateLongPrompts)]

def CacheConfig.toJson (c : CacheConfig) : Json.Value :=
  ofFields [
    ("max_context", ofNat c.maxContext),
    ("block_size", ofNat c.blockSize),
    ("memory_budget_bytes", ofOption ofNat c.memoryBudget),
    ("overflow_policy", ofString c.overflowPolicy.name),
    ("pressure_policy", ofString c.pressurePolicy.name)]

def KernelConfig.toJson (c : KernelConfig) : Json.Value :=
  ofFields [
    ("parallel_row_threshold", ofNat c.parallelRowThreshold),
    ("tiny_work_threshold", ofNat c.tinyWorkThreshold),
    ("force_level", ofOption (ofString ∘ SimdLevel.name) c.forceLevel)]

def EngineConfig.toJson (c : EngineConfig) : Json.Value :=
  ofFields [
    ("scheduler", c.scheduler.toJson),
    ("cache", c.cache.toJson),
    ("kernels", c.kernels.toJson),
    ("dequantize_at_load", .bool c.dequantizeAtLoad)]

def ModelConfig.toJson (c : ModelConfig) : Json.Value :=
  ofFields [
    ("vocab_size", ofNat c.vocabSize),
    ("hidden_size", ofNat c.hiddenSize),
    ("intermediate_size", ofNat c.intermediateSize),
    ("num_hidden_layers", ofNat c.numLayers),
    ("num_attention_heads", ofNat c.numHeads),
    ("num_key_value_heads", ofNat c.numKvHeads),
    ("rms_norm_eps", .number (.ofFloat c.normEps)),
    ("rope_theta", .number (.ofFloat c.ropeTheta)),
    ("max_position_embeddings", ofNat c.maxPositions),
    ("eos_token_id", ofOption ofNat c.eosToken)]

end CausalServe
