import CausalServe.Cache.Basic
import CausalServe.Kernel.Attention
import CausalServe.Model.Linear
import CausalServe.Model.Rotary

/-! Self-attention with heads of keys and values that groups of query heads share. The projections
run over all rows of a batch at once; then every row is rotated, put into the cache, and attends
over all that its slot holds. That a row is in the cache before it attends, and later rows are not,
makes the attention causal. -/

namespace CausalServe

/-- Rows of a batch that belong to one sequence. -/
structure RowSpan where
  slot : SlotId
  startRow : Nat
  len : Nat
  /-- The place of the first row in its sequence. -/
  startPos : Nat
deriving DecidableEq, Repr

/-- What the layers of one forward pass share. -/
structure BatchContext where
  kernels : Dispatcher
  rotary : Rotary
  spans : List RowSpan
  /-- Rows over all spans. -/
  rows : Nat

/-- One row of a batch and where it goes. -/
structure RowPlace where
  slot : SlotId
  row : Nat
  position : Nat
deriving DecidableEq, Repr

def RowSpan.places (s : RowSpan) : List RowPlace :=
  (List.range s.len).map fun t => ⟨s.slot, s.startRow + t, s.startPos + t⟩

def BatchContext.places (c : BatchContext) : List RowPlace := c.spans.flatMap RowSpan.places

structure Attention where
  query : Linear Float32
  key : Linear Float32
  value : Linear Float32
  output : Linear Float32
  numHeads : Nat
  numKvHeads : Nat
  headDim : Nat
  /-- The layer of the cache that belongs to it. -/
  layer : Nat

/-- The projected rows of a batch, and what attention has put in their places so far. -/
structure AttentionRows where
  queries : List (List Float32)
  keys : List (List Float32)
  values : List (List Float32)
  outs : List (List Float32)

namespace Attention

def queryWidth (a : Attention) : Nat := a.numHeads * a.headDim

def kvWidth (a : Attention) : Nat := a.numKvHeads * a.headDim

/-- Query heads to one head of keys and values. -/
def groupSize (a : Attention) : Nat := max (a.numHeads / a.numKvHeads) 1

/-- Attends with each head of a query row over its share of the cache. -/
def attendHeads (a : Attention) (d : Dispatcher) (view : CacheView) (query : List Float32) :
    Except Error (List Float32) := do
  let heads ← (pieces a.headDim query).zipIdx.mapM fun (head, h) =>
    match view.head? (h / a.groupSize) with
    | none => throw (.contract "a head that the cache does not hold")
    | some (keys, values) =>
      Attended.out <$> d.attend head keys values a.headDim (List.replicate a.headDim 0)
  return heads.flatten

/-- Rotates one row, appends it to its slot, and attends over the slot. -/
def attendRow (a : Attention) (c : BatchContext) (rows : AttentionRows) (place : RowPlace) :
    Action Cache AttentionRows := do
  match rows.queries[place.row]?, rows.keys[place.row]?, rows.values[place.row]? with
  | some query, some key, some value =>
    let query := c.rotary.applyHeads query place.position
    let key := c.rotary.applyHeads key place.position
    Cache.append place.slot a.layer key value
    let view ← Action.ofExcept ((← get).read place.slot a.layer)
    let out ← Action.ofExcept (a.attendHeads c.kernels view query)
    return { rows with
      queries := rows.queries.set place.row query
      keys := rows.keys.set place.row key
      outs := rows.outs.set place.row out }
  | _, _, _ => throw (.contract "a span beyond the rows of the batch")

/-- Attends with every row of `x`, and projects back to the hidden size. -/
def forward (a : Attention) (c : BatchContext) (x : List Float32) :
    Action Cache (List Float32) := do
  let queries ← Action.ofExcept (a.query.forward c.kernels x c.rows)
  let keys ← Action.ofExcept (a.key.forward c.kernels x c.rows)
  let values ← Action.ofExcept (a.value.forward c.kernels x c.rows)
  let start : AttentionRows :=
    { queries := pieces a.queryWidth queries
      keys := pieces a.kvWidth keys
      values := pieces a.kvWidth values
      outs := List.replicate c.rows (List.replicate a.queryWidth 0) }
  let rows ← c.places.foldlM (a.attendRow c) start
  Action.ofExcept (a.output.forward c.kernels rows.outs.flatten c.rows)

end Attention

end CausalServe
