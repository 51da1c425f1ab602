import CausalServe.Tensor.Basic

/-! Linear projections without a bias, over dense or quantized weights. -/

namespace CausalServe

inductive Weight (α : Type)
  /-- One row for each input. -/
  | dense (transposed : List α)
  /-- One row for each output, expanded when it is used. -/
  | quantized (matrix : QuantizedMatrix α)

structure Linear (α : Type) where
  weight : Weight α
  inFeatures : Nat
  outFeatures : Nat

namespace Linear

def isQuantized {α : Type} (l : Linear α) : Bool :=
  match l.weight with
  | .dense _ => false
  | .quantized _ => true

variable {α : Type} [Scalar α]

/-- The projection by a matrix with one row for each output. A quantized one is kept as it is, or
expanded now. -/
def ofTensor (t : Tensor α) (dequantize : Bool) : Except Error (Linear α) := do
  let (outputs, inputs) ← t.dims2
  let dense := do return Weight.dense (← t.transpose).toList
  let weight ← match t.data with
    | .quantized q => if dequantize then dense else pure (.quantized q)
    | .dense _ => dense
  return ⟨weight, inputs, outputs⟩

/-- Projects the `m` rows of `x`. -/
def forward (l : Linear α) (d : Dispatcher) (x : List α) (m : Nat) : Except Error (List α) := do
  if x.length ≠ m * l.inFeatures then throw (.shape "linear" [m, l.inFeatures] [x.length])
  let out := List.replicate (m * l.outFeatures) Scalar.zero
  match l.weight with
  | .dense w => d.matmulInto x w m l.inFeatures l.outFeatures out
  | .quantized q => q.matmulTransposed d x m out

end Linear

end CausalServe
