import CausalServe.Config.Basic
import CausalServe.Json.Decode

/-! Configurations from JSON. An absent field takes the default of its record; the six sizes of a
model have none. -/

namespace CausalServe

open Json.Value (record? orDefault required toBool? toSize? toToken? toFloat? toFloat32? toList?
  toOption? toChoice? toNat?)

def SimdLevel.ofJson? : Json.Value → Option SimdLevel :=
  toChoice? (SimdLevel.all.map fun l => (l.name, l))

def OverflowPolicy.ofJson? : Json.Value → Option OverflowPolicy :=
  toChoice? (OverflowPolicy.all.map fun p => (p.name, p))

def PressurePolicy.ofJson? : Json.Value → Option PressurePolicy :=
  toChoice? (PressurePolicy.all.map fun p => (p.name, p))

def SchedulerConfig.ofJson? (v : Json.Value) : Option SchedulerConfig := do
  let fields ← record?
    ["max_num_seqs", "max_prefill_tokens", "enable_priority", "truncate_long_prompts"] v
  match fields with
  | [maxSeqs, maxPrefillTokens, enablePriority, truncateLongPrompts] =>
    let d : SchedulerConfig := {}
    return {
      maxSeqs := ← orDefault toSize? d.maxSeqs maxSeqs
      maxPrefillTokens := ← orDefault toSize? d.maxPrefillTokens maxPrefillTokens
      enablePriority := ← orDefault toBool? d.enablePriority enablePriority
      truncateLongPrompts := ← orDefault toBool? d.truncateLongPrompts truncateLongPrompts }
  | _ => none

def CacheConfig.ofJson? (v : Json.Value) : Option CacheConfig := do
  let fields ← record?
    ["max_context", "block_size", "memory_budget_bytes", "overflow_policy", "pressure_policy"] v
  match fields with
  | [maxContext, blockSize, memoryBudget, overflowPolicy, pressurePolicy] =>
    let d : CacheConfig := {}
    return {
      maxContext := ← orDefault toSize? d.maxContext maxContext
      blockSize := ← orDefault toSize? d.blockSize blockSize
      memoryBudget := ← orDefault (toOption? toSize?) d.memoryBudget memoryBudget
      overflowPolicy := ← orDefault OverflowPolicy.ofJson? d.overflowPolicy overflowPolicy
      pressurePolicy := ← orDefault PressurePolicy.ofJson? d.pressurePolicy pressurePolicy }
  | _ => none

def KernelConfig.ofJson? (v : Json.Value) : Option KernelConfig := do
  let fields ← record? ["parallel_row_threshold", "tiny_work_threshold", "force_level"] v
  match fields with
  | [parallelRowThreshold, tinyWorkThreshold, forceLevel] =>
    let d : KernelConfig := {}
    return {
      parallelRowThreshold := ← orDefault toSize? d.parallelRowThreshold parallelRowThreshold
      tinyWorkThreshold := ← orDefault toSize? d.tinyWorkThreshold tinyWorkThreshold
      forceLevel := ← orDefault (toOption? SimdLevel.ofJson?) d.forceLevel forceLevel }
  | _ => none

def EngineConfig.ofJson? (v : Json.Value) : Option EngineConfig := do
  let fields ← record? ["scheduler", "cache", "kernels", "dequantize_at_load"] v
  match fields with
  | [scheduler, cache, kernels, dequantizeAtLoad] =>
    return {
      scheduler := ← orDefault SchedulerConfig.ofJson? {} scheduler
      cache := ← orDefault CacheConfig.ofJson? {} cache
      kernels := ← orDefault KernelConfig.ofJson? {} kernels
      dequantizeAtLoad := ← orDefault toBool? false dequantizeAtLoad }
  | _ => none

def SamplingConfig.ofJson? (v : Json.Value) : Option SamplingConfig := do
  let fields ← record?
    ["temperature", "top_k", "top_p", "max_tokens", "stop_sequences", "seed"] v
  match fields with
  | [temperature, topK, topP, maxTokens, stopSequences, seed] =>
    let d : SamplingConfig := {}
    return {
      temperature := ← orDefault toFloat32? d.temperature temperature
      topK := ← orDefault toSize? d.topK topK
      topP := ← orDefault toFloat32? d.topP topP
      maxTokens := ← orDefault toSize? d.maxTokens maxTokens
      stopSequences := ← orDefault (toList? (toList? toToken?)) d.stopSequences stopSequences
      seed := ← orDefault (toOption? toSize?) d.seed seed }
  | _ => none

def ModelConfig.ofJson? (v : Json.Value) : Option ModelConfig := do
  let fields ← record?
    ["vocab_size", "hidden_size", "intermediate_size", "num_hidden_layers",
      "num_attention_heads", "num_key_value_heads", "rms_norm_eps", "rope_theta",
      "max_position_embeddings", "eos_token_id"] v
  match fields with
  | [vocabSize, hiddenSize, intermediateSize, numLayers, numHeads, numKvHeads, normEps, ropeTheta,
      maxPositions, eosToken] =>
    return {
      vocabSize := ← required toSize? vocabSize
      hiddenSize := ← required toSize? hiddenSize
      intermediateSize := ← required toSize? intermediateSize
      numLayers := ← required toSize? numLayers
      numHeads := ← required toSize? numHeads
      numKvHeads := ← required toSize? numKvHeads
      normEps := ← orDefault toFloat? 1e-5 normEps
      ropeTheta := ← orDefault toFloat? 10000 ropeTheta
      maxPositions := ← orDefault toSize? 2048 maxPositions
      eosToken := ← orDefault (toOption? toToken?) none eosToken }
  | _ => none

/-- The configuration that a text spells, with its values checked. -/
def EngineConfig.ofText (text : String) : Except Error EngineConfig :=
  match (Json.parse? text).bind EngineConfig.ofJson? with
  | none => .error .malformedJson
  | some config => do
    config.validate
    return config

end CausalServe
