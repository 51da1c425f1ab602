import CausalServe.Error
import CausalServe.Kernel.Product
import CausalServe.Number.Elementary

/-! Root mean square normalization: each row is divided by the root of the mean of its squares, and
then weighted. -/

namespace CausalServe

structure RmsNorm where
  weight : List Float32
  /-- Keeps the root away from zero. -/
  eps : Float32

namespace RmsNorm

def new [Elementary] (weight : List Float32) (eps : Float) : RmsNorm :=
  ⟨weight, Elementary.narrow eps⟩

def row (n : RmsNorm) (x : List Float32) : List Float32 :=
  let mean := Kernel.sum (x.map fun v => v * v) / Float32.ofNat n.weight.length
  let inverse := 1 / (mean + n.eps).sqrt
  List.zipWith (fun s w => s * inverse * w) x n.weight

/-- Normalizes every row of `x`. -/
def forward (n : RmsNorm) (x : List Float32) : Except Error (List Float32) := do
  let width := n.weight.length
  if width = 0 ∨ x.length % width ≠ 0 then throw (.shape "rms_norm" [width] [x.length])
  return (pieces width x).flatMap n.row

end RmsNorm

end CausalServe
