import CausalServe.Config.Basic

/-! What the cache keeps of one position: for every layer and every head of keys and values, one
key and one value of `headDim` floats. -/

namespace CausalServe

structure Layout where
  numLayers : Nat
  numHeads : Nat
  numKvHeads : Nat
  headDim : Nat
deriving DecidableEq, Repr

namespace Layout

def ofModel (c : ModelConfig) : Layout :=
  { numLayers := c.numLayers, numHeads := c.numHeads, numKvHeads := c.numKvHeads
    headDim := c.headDim }

/-- The head of keys and values that a query head reads: neighbouring query heads share one. -/
def kvHeadFor (l : Layout) (head : Nat) : Nat := head / max (l.numHeads / l.numKvHeads) 1

/-- Floats of one key over all heads. -/
def kvWidth (l : Layout) : Nat := l.numKvHeads * l.headDim

/-- Bytes of one position over all layers, keys and values. -/
def bytesPerPosition (l : Layout) : Nat := l.numLayers * 2 * l.kvWidth * 4

end Layout

end CausalServe
