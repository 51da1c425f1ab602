import CausalServe.Config.Basic
import CausalServe.Kernel.Product

/-! Checked entry points to one kernel. Every length is checked before anything is computed, and
what was in an output buffer before never shows in the result. -/

namespace CausalServe

structure Dispatcher where
  kernel : Kernel
  config : KernelConfig := {}
deriving DecidableEq, Repr

namespace Dispatcher

/-- Binds the forced instruction set, or the widest kernel. -/
def new (config : KernelConfig) : Except Error Dispatcher :=
  match config.forceLevel with
  | none => .ok ⟨.widest, config⟩
  | some level => match level.kernel? with
    | some kernel => .ok ⟨kernel, config⟩
    | none => .error (.unsupportedKernel level.name)

variable {α : Type} [Scalar α]

/-- The rows of a product, tiled or, below the work threshold, plain. Sums over nothing are zero. -/
def product (d : Dispatcher) (a b : List α) (m k n : Nat) : List α :=
  if m = 0 ∨ n = 0 then []
  else if k = 0 then List.replicate (m * n) Scalar.zero
  else
    let right := pieces n b
    if m * k * n ≤ d.config.tinyWorkThreshold then
      (pieces k a).flatMap (Kernel.directRow n right)
    else (pieces k a).flatMap (d.kernel.row n right)

/-- The operands of a product must have the sizes of an `m × k` and a `k × n` matrix. -/
def checkOperands (a b : List α) (m k n : Nat) : Except Error Unit := do
  if a.length ≠ m * k then throw (.shape "matmul lhs" [m, k] [a.length])
  if b.length ≠ k * n then throw (.shape "matmul rhs" [k, n] [b.length])

/-- The product of an `m × k` and a `k × n` matrix, in place of an `m × n` buffer. -/
def matmulInto (d : Dispatcher) (a b : List α) (m k n : Nat) (out : List α) :
    Except Error (List α) := do
  checkOperands a b m k n
  if out.length ≠ m * n then throw (.shape "matmul out" [m, n] [out.length])
  return d.product a b m k n

def matmul (d : Dispatcher) (a b : List α) (m k n : Nat) : Except Error (List α) := do
  checkOperands a b m k n
  return d.product a b m k n

/-- The product of an `m × k` matrix and the transpose of an `n × k` one, in place of an `m × n`
buffer. -/
def matmulTransposedInto (d : Dispatcher) (a b : List α) (m k n : Nat) (out : List α) :
    Except Error (List α) := do
  if a.length ≠ m * k then throw (.shape "matmul_transposed lhs" [m, k] [a.length])
  if b.length ≠ n * k then throw (.shape "matmul_transposed rhs" [n, k] [b.length])
  if out.length ≠ m * n then throw (.shape "matmul_transposed out" [m, n] [out.length])
  if m = 0 ∨ n = 0 then return out
  if k = 0 then return List.replicate (m * n) Scalar.zero
  return (pieces k a).flatMap fun x => (pieces k b).map (d.kernel.dot x)

/-- The inner products of a query with each of `len` keys. -/
def attentionScoresInto (d : Dispatcher) (q keys : List α) (headSize len : Nat) :
    Except Error (List α) := do
  if headSize = 0 ∨ q.length ≠ headSize then
    throw (.shape "attention_scores query" [headSize] [q.length])
  if keys.length ≠ len * headSize then
    throw (.shape "attention_scores keys" [len, headSize] [keys.length])
  return (pieces headSize keys).map (d.kernel.dot q)

def attentionScores (d : Dispatcher) (q keys : List α) (headSize : Nat) :
    Except Error (List α) :=
  d.attentionScoresInto q keys headSize (keys.length / headSize)

def dot (d : Dispatcher) (x y : List α) : Except Error α := do
  if x.length ≠ y.length then throw (.shape "dot" [x.length] [y.length])
  return d.kernel.dot x y

end Dispatcher

end CausalServe
