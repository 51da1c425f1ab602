import CausalServe.Engine.Generation

/-! The figures of one tick. -/

namespace CausalServe

structure StepMetrics where
  /-- Ticks are counted from one. -/
  step : Nat
  batchSize : Nat
  prefillTokens : Nat
  decodeTokens : Nat
  /-- Tokens that were sampled. -/
  generated : Nat
  /-- The requests that got their first token. -/
  firstTokens : List RequestId
  cacheUsed : Nat
  /-- Filled positions over the capacity of all live slots. -/
  cacheOccupancy : Float
  /-- Requests that wait for admission, with submissions that no tick has taken up. -/
  queueDepth : Nat
  numRunning : Nat
  numFinished : Nat
  numPreempted : Nat

/-- The outcome of one tick. -/
structure StepOutput where
  /-- The requests that ended. -/
  finished : List GenerationOutput
  metrics : StepMetrics

end CausalServe
