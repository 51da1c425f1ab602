import CausalServe.Cache.Basic

/-! What the engine asks of a model. -/

namespace CausalServe

/-- The share of one sequence in a forward pass. -/
structure BatchEntry where
  slot : SlotId
  /-- The tokens to feed: what is not cached of a prompt, or the last token. -/
  tokens : List Token
deriving DecidableEq, Repr

structure LanguageModel where
  config : ModelConfig
  /-- Runs all entries in one pass, puts their keys and values into the cache, and returns for each
  entry the logits of its next token. -/
  forward : List BatchEntry → Action Cache (List (List Float32))

end CausalServe
