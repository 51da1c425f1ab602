import CausalServe.Kernel.Buffer
import CausalServe.Model.Elementwise
import CausalServe.Quant.Matrix

/-! Decoding as it is written: block after block over the runs of a row, and row after row over a
whole buffer, each found by its own offsets into bytes and scales. `QuantizedMatrix.row` and
`QuantizedMatrix.dequantize` tell the same elements without a buffer. Offsets are 64-bit words. -/

namespace CausalServe

/-- The part of a list from one index up to another, neither of which may lie beyond the end. -/
def cut {α : Type} (start stop : Nat) (xs : List α) : Except Error (List α) :=
  if start ≤ stop ∧ stop ≤ xs.length then .ok (slice start (stop - start) xs)
  else .error (.contract "a part beyond the end of a list")

namespace QuantizedMatrix

variable {α : Type} [Scalar α]

/-- Decodes blocks over successive runs of a buffer, as long as there are a run, the bytes of a block
and a scale. What is not reached stays as it is. -/
def fillBlocks (e : Encoding) : List (List UInt8) → List α → List α → List α
  | bytes :: blocks, scale :: scales, out =>
    if out.length < blockSize then out
    else
      zipOnto (fun _ c => Scalar.ofCode c * scale) (out.take blockSize) (e.unpack bytes) ++
        fillBlocks e blocks scales (out.drop blockSize)
  | _, _, out => out

/-- Decodes one row over a buffer. -/
def dequantizeRowInto (q : QuantizedMatrix α) (r : Nat) (out : List α) :
    Except Error (List α) := do
  if q.rows ≤ r then throw (.shape "dequantize_row" [q.rows] [r])
  if out.length ≠ q.cols then throw (.shape "dequantize_row" [q.cols] [out.length])
  let perBlock := q.encoding.bytesPerBlock
  let first := wordMul r q.blocksPerRow
  let stop := wordAdd first q.blocksPerRow
  let bytes ← cut (wordMul first perBlock) (wordMul stop perBlock) q.data
  let scales ← cut first stop q.scales
  return fillBlocks q.encoding (pieces perBlock bytes) scales out

/-- Decodes row `r` and those after it over as many rows of a buffer. -/
def dequantizeRowsFrom (q : QuantizedMatrix α) : Nat → Nat → List α → Except Error (List α)
  | 0, _, out => .ok out
  | count + 1, r, out => do
    let row ← q.dequantizeRowInto r (out.take q.cols)
    return row ++ (← q.dequantizeRowsFrom count (r + 1) (out.drop q.cols))

/-- Decodes all rows over a buffer of zeros. -/
def dequantizeRows (q : QuantizedMatrix α) : Except Error (List α) :=
  let out := List.replicate (wordMul q.rows q.cols) Scalar.zero
  if q.cols = 0 then .ok out
  else q.dequantizeRowsFrom ((out.length + q.cols - 1) / q.cols) 0 out

end QuantizedMatrix

end CausalServe
