import CausalServe.Tensor.Descriptor

/-! Row-major tensors, dense or quantized. -/

namespace CausalServe

inductive TensorData (α : Type)
  | dense (values : List α)
  | quantized (matrix : QuantizedMatrix α)

structure Tensor (α : Type) where
  shape : List Nat
  data : TensorData α

namespace Tensor

/-- Halves are widened, so that no tensor holds them. -/
def elementType {α : Type} (t : Tensor α) : ElementType :=
  match t.data with
  | .dense _ => .f32
  | .quantized q => .quantized q.encoding

def numel {α : Type} (t : Tensor α) : Nat := elementCount t.shape

def sizeBytes {α : Type} (t : Tensor α) : Nat :=
  match t.data with
  | .dense values => values.length * 4
  | .quantized q => q.sizeBytes

def ofList {α : Type} (values : List α) (shape : List Nat) : Except Error (Tensor α) := do
  if values.length ≠ elementCount shape then throw (.shape "tensor" shape [values.length])
  return ⟨shape, .dense values⟩

def ofMatrix {α : Type} (q : QuantizedMatrix α) : Tensor α := ⟨[q.rows, q.cols], .quantized q⟩

/-! ## Decoding -/

/-- Floats of `width` bytes each, as whatever they are read. -/
def ofFloatBytes {α : Type} (op : String) (width : Nat) (read : List UInt8 → α)
    (d : TensorDescriptor) : Except Error (Tensor α) := do
  let bytes := wordMul (elementCount d.shape) width
  if d.data.length ≠ bytes then throw (.shape op [bytes] [d.data.length])
  ofList ((pieces width d.data).map read) d.shape

/-- A stored matrix, or a vector as its only row. -/
def ofCodes (e : Encoding) (d : TensorDescriptor) : Except Error (Tensor Float32) := do
  let (rows, cols) ← match d.shape with
    | [cols] => pure (1, cols)
    | [rows, cols] => pure (rows, cols)
    | shape => throw (.quantization (.rank d.name shape))
  return ⟨d.shape, .quantized (← QuantizedMatrix.ofRaw e rows cols d.data d.scales)⟩

def ofDescriptor (d : TensorDescriptor) : Except Error (Tensor Float32) :=
  match d.elementType with
  | .f32 => ofFloatBytes "f32 tensor bytes" 4 Bytes.toFloat d
  | .f16 => ofFloatBytes "f16 tensor bytes" 2 Bytes.toHalf d
  | .quantized e => ofCodes e d

/-! ## Operations -/

variable {α : Type} [Scalar α]

def zeros (shape : List Nat) : Tensor α :=
  ⟨shape, .dense (List.replicate (elementCount shape) Scalar.zero)⟩

/-- The rows and columns of a matrix. -/
def dims2 (t : Tensor α) : Except Error (Nat × Nat) :=
  match t.shape with
  | [rows, cols] => .ok (rows, cols)
  | shape => .error (.shape "dims2" [2] [shape.length])

/-- The elements in order, decoded if need be. -/
def toList (t : Tensor α) : List α :=
  match t.data with
  | .dense values => values
  | .quantized q => q.dequantize

def dequantize (t : Tensor α) : Except Error (Tensor α) :=
  match t.data with
  | .dense _ => .ok t
  | .quantized q => ofList q.dequantize t.shape

/-- The transpose of a matrix, decoded. The elements must be as many as the shape says. -/
def transpose (t : Tensor α) : Except Error (Tensor α) := do
  let (rows, cols) ← t.dims2
  let values := t.toList
  if values.length ≠ rows * cols then throw (.contract "a matrix of a size that overflows")
  ofList (interleave cols (pieces cols values)) [cols, rows]

/-- The product of two dense matrices. -/
def matmul (t u : Tensor α) (d : Dispatcher) : Except Error (Tensor α) := do
  let (m, k) ← t.dims2
  let (k', n) ← u.dims2
  if k ≠ k' then throw (.shape "matmul" [k, n] [k', n])
  match t.data, u.data with
  | .dense a, .dense b => do ofList (← d.matmul a b m k n) [m, n]
  | _, _ => throw (.quantization .packedOperand)

end Tensor

end CausalServe
