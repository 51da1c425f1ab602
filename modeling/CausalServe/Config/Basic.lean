import CausalServe.Error
import CausalServe.Ids
import CausalServe.Kernel.Level

/-! What a deployment chooses: admission, cache, kernels, sampling and the shape of the model. -/

namespace CausalServe

/-- Admission and batching. -/
structure SchedulerConfig where
  /-- How many requests may run at once. -/
  maxSeqs : Nat := 16
  /-- Prompt tokens admitted in one tick, the first request apart. -/
  maxPrefillTokens : Nat := 4096
  /-- Admit by priority before arrival. -/
  enablePriority : Bool := true
  /-- Keep the tail of an over-long prompt instead of refusing it. -/
  truncateLongPrompts : Bool := false
deriving DecidableEq, Repr

/-- What an append to a full slot does. -/
inductive OverflowPolicy
  | reject
  /-- Drop the oldest position. -/
  | slidingWindow
deriving DecidableEq, Repr

/-- What the scheduler does when the byte budget is used up. -/
inductive PressurePolicy
  /-- Reserve the worst case of each request at admission. -/
  | refuseAdmission
  /-- Fail the running request whose slot was extended least recently. -/
  | evictLeastRecent
  /-- Queue that request again. -/
  | preemptLeastRecent
deriving DecidableEq, Repr

def OverflowPolicy.all : List OverflowPolicy := [.reject, .slidingWindow]

def PressurePolicy.all : List PressurePolicy :=
  [.refuseAdmission, .evictLeastRecent, .preemptLeastRecent]

def OverflowPolicy.name : OverflowPolicy → String
  | reject => "reject"
  | slidingWindow => "sliding_window"

def PressurePolicy.name : PressurePolicy → String
  | refuseAdmission => "refuse_admission"
  | evictLeastRecent => "evict_least_recent"
  | preemptLeastRecent => "preempt_least_recent"

structure CacheConfig where
  /-- Positions of one slot. -/
  maxContext : Nat := 2048
  /-- Storage grows by this many positions. -/
  blockSize : Nat := 16
  /-- Bytes over all slots; `none` sets no limit. -/
  memoryBudget : Option Nat := none
  overflowPolicy : OverflowPolicy := .reject
  pressurePolicy : PressurePolicy := .refuseAdmission
deriving DecidableEq, Repr

/-- Tuning of the kernels. Rows of a product are independent, so splitting them never changes a
result; the work threshold selects between two orders of the same steps. -/
structure KernelConfig where
  parallelRowThreshold : Nat := 64
  tinyWorkThreshold : Nat := 512
  /-- The instruction set to use instead of the widest one. -/
  forceLevel : Option SimdLevel := none
deriving DecidableEq, Repr

structure EngineConfig where
  scheduler : SchedulerConfig := {}
  cache : CacheConfig := {}
  kernels : KernelConfig := {}
  /-- Expand quantized weights once instead of row by row at each use. -/
  dequantizeAtLoad : Bool := false
deriving DecidableEq, Repr

structure SamplingConfig where
  /-- Zero or less is greedy. -/
  temperature : Float32 := 1
  /-- Zero keeps every candidate. -/
  topK : Nat := 0
  /-- One keeps every candidate. -/
  topP : Float32 := 1
  maxTokens : Nat := 256
  /-- Generation ends when the output ends with one of these. -/
  stopSequences : List (List Token) := []
  seed : Option Nat := none

def SamplingConfig.greedy (maxTokens : Nat) : SamplingConfig :=
  { temperature := 0, maxTokens := maxTokens }

/-- The shape of a decoder-only model. -/
structure ModelConfig where
  vocabSize : Nat
  hiddenSize : Nat
  intermediateSize : Nat
  numLayers : Nat
  numHeads : Nat
  /-- Heads of keys and values, each shared by a group of query heads. -/
  numKvHeads : Nat
  normEps : Float := 1e-5
  ropeTheta : Float := 10000
  maxPositions : Nat := 2048
  eosToken : Option Token := none

namespace ModelConfig

def standard : ModelConfig :=
  { vocabSize := 32000, hiddenSize := 2048, intermediateSize := 5632, numLayers := 22
    numHeads := 32, numKvHeads := 4, eosToken := some 2 }

def tiny : ModelConfig :=
  { vocabSize := 64, hiddenSize := 32, intermediateSize := 64, numLayers := 2
    numHeads := 4, numKvHeads := 2, maxPositions := 256 }

def headDim (c : ModelConfig) : Nat := c.hiddenSize / c.numHeads

/-- Query heads to one head of keys and values. -/
def groupSize (c : ModelConfig) : Nat := c.numHeads / c.numKvHeads

def queryWidth (c : ModelConfig) : Nat := c.numHeads * c.headDim

def kvWidth (c : ModelConfig) : Nat := c.numKvHeads * c.headDim

/-- Sizes are not zero and head counts divide evenly. -/
def validate (c : ModelConfig) : Except Error Unit := do
  if c.vocabSize = 0 ∨ c.hiddenSize = 0 then
    throw (.config (.emptyModel c.vocabSize c.hiddenSize))
  if c.numHeads = 0 ∨ c.numKvHeads = 0 then throw (.config .noHeads)
  if c.hiddenSize % c.numHeads ≠ 0 then throw (.config (.unevenHeads c.hiddenSize c.numHeads))
  if c.numHeads % c.numKvHeads ≠ 0 then throw (.config (.unevenGroups c.numHeads c.numKvHeads))
  if c.headDim % 2 ≠ 0 then throw (.config .oddHeadDim)

end ModelConfig

/-- Every limit and size that must be positive is. -/
def EngineConfig.validate (c : EngineConfig) : Except Error Unit := do
  if c.scheduler.maxSeqs = 0 then throw (.config (.tooSmall "max_num_seqs"))
  if c.scheduler.maxPrefillTokens = 0 then throw (.config (.tooSmall "max_prefill_tokens"))
  if c.cache.maxContext = 0 then throw (.config (.tooSmall "max_context"))
  if c.cache.blockSize = 0 then throw (.config (.tooSmall "block_size"))
  if c.kernels.parallelRowThreshold = 0 then
    throw (.config (.tooSmall "parallel_row_threshold"))

end CausalServe
