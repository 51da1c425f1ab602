import CausalServe.Kernel.Dispatch
import CausalServe.Number.Word
import CausalServe.Quant.Block

/-! Quantized matrices: the packed codes of all blocks in row-major order, and one scale for each
block. Sizes that describe a stored payload are 64-bit words, and their products wrap. -/

namespace CausalServe

structure QuantizedMatrix (α : Type) where
  encoding : Encoding
  rows : Nat
  cols : Nat
  data : List UInt8
  scales : List α

namespace QuantizedMatrix

/-- Quantizes block after block; the first block that holds a value that is not finite stops it. -/
def quantizeBlocks (e : Encoding) (cols : Nat) :
    Nat → List (List Float32) → Except Error (List Block)
  | _, [] => .ok []
  | i, values :: rest => do
    let block := Block.quantize (Vector.ofFn fun j => values.getD j 0) e
    if !block.scale.isFinite then
      throw (.quantization (.nonFinite i (i * blockSize / cols)))
    return block :: (← quantizeBlocks e cols (i + 1) rest)

def quantize (values : List Float32) (rows cols : Nat) (e : Encoding) :
    Except Error (QuantizedMatrix Float32) := do
  if cols % blockSize ≠ 0 then
    let padded := wordMul ((cols + blockSize - 1) / blockSize) blockSize
    throw (.shape "quantize" [rows, padded] [rows, cols])
  if values.length ≠ wordMul rows cols then
    throw (.shape "quantize" [rows, cols] [values.length])
  let blocks ← quantizeBlocks e cols 0 (pieces blockSize values)
  return ⟨e, rows, cols, blocks.flatMap Block.toBytes, blocks.map Block.scale⟩

/-- Stored bytes and scales, with their numbers and the scales checked. -/
def ofRaw (e : Encoding) (rows cols : Nat) (data : List UInt8) (scales : List Float32) :
    Except Error (QuantizedMatrix Float32) := do
  if cols % blockSize ≠ 0 then throw (.shape "quantized matrix" [rows, blockSize] [rows, cols])
  let blocks := wordMul rows cols / blockSize
  if scales.length ≠ blocks then throw (.shape "quantized scales" [blocks] [scales.length])
  let bytes := wordMul blocks e.bytesPerBlock
  if data.length ≠ bytes then throw (.shape "quantized data" [bytes] [data.length])
  scales.forM checkScale
  return ⟨e, rows, cols, data, scales⟩

/-- Bytes of codes and scales. -/
def sizeBytes {α : Type} (q : QuantizedMatrix α) : Nat := q.data.length + q.scales.length * 4

variable {α : Type} [Scalar α]

def blocksPerRow (q : QuantizedMatrix α) : Nat := q.cols / blockSize

/-- The elements of successive blocks. -/
def expand (e : Encoding) (bytes : List UInt8) (scales : List α) : List α :=
  ((pieces e.bytesPerBlock bytes).zip scales).flatMap fun (codes, scale) =>
    (e.unpack codes).map fun c => Scalar.ofCode c * scale

/-- The elements of one row. -/
def row (q : QuantizedMatrix α) (r : Nat) : List α :=
  let perBlock := q.encoding.bytesPerBlock
  let bytes := (q.data.drop (r * q.blocksPerRow * perBlock)).take (q.blocksPerRow * perBlock)
  expand q.encoding bytes ((q.scales.drop (r * q.blocksPerRow)).take q.blocksPerRow)

/-- One row in place of a buffer of `outLen` elements. -/
def dequantizeRow (q : QuantizedMatrix α) (r outLen : Nat) : Except Error (List α) := do
  if q.rows ≤ r then throw (.shape "dequantize_row" [q.rows] [r])
  if outLen ≠ q.cols then throw (.shape "dequantize_row" [q.cols] [outLen])
  return q.row r

/-- All elements, row by row. -/
def dequantize (q : QuantizedMatrix α) : List α := expand q.encoding q.data q.scales

/-- The product of an `m × cols` matrix and the transpose of this one, in place of an `m × rows`
buffer. One row at a time is expanded, and gives one column of the product. There must be a column
to cut the rows of `x` by. -/
def matmulTransposed (q : QuantizedMatrix α) (d : Dispatcher) (x : List α) (m : Nat)
    (out : List α) : Except Error (List α) := do
  if x.length ≠ m * q.cols then throw (.shape "quantized linear input" [m, q.cols] [x.length])
  if out.length ≠ m * q.rows then
    throw (.shape "quantized linear output" [m, q.rows] [out.length])
  if m = 0 ∨ q.rows = 0 then return out
  if q.cols = 0 then throw (.contract "a product over no columns")
  let columns ← (List.range q.rows).mapM fun r => do
    let weights ← q.dequantizeRow r q.cols
    (pieces q.cols x).mapM fun row => d.dot row weights
  return interleave m columns

end QuantizedMatrix

end CausalServe
