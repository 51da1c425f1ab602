import CausalServe.Number.Binary32

/-! The arithmetic that products of matrices run on. Kernels use nothing of their entries but this,
so that what holds of them holds in single precision and in exact arithmetic alike. -/

namespace CausalServe

/-- `zero` starts an accumulator and `sumStart` a plain sum; they are apart because a plain sum of
floats starts from `-0`, which adding `-0` leaves as it is. -/
class Scalar (α : Type) extends Add α, Mul α where
  zero : α
  sumStart : α
  /-- The value of a quantized code. -/
  ofCode : Int → α

instance : Scalar Float32 where
  zero := 0
  sumStart := Binary32.negZero
  ofCode := Float32.ofInt

end CausalServe
