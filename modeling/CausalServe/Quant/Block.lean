import CausalServe.Error
import CausalServe.Kernel.Scalar
import CausalServe.Quant.Pack

/-! One quantized block. The scale maps the largest magnitude to the top code, the codes are the
nearest multiples of the scale, and decoding multiplies back. -/

namespace CausalServe

/-- Scales that a decoder accepts: finite and not below zero. -/
def checkScale (scale : Float32) : Except Error Unit :=
  if !scale.isFinite || scale < 0 then .error (.quantization (.scale scale)) else .ok ()

structure Block where
  encoding : Encoding
  scale : Float32
  codes : Vector Int blockSize

namespace Block

/-- The largest magnitude; NaN if any element is NaN. -/
def absMax (values : List Float32) : Float32 :=
  if values.any Float32.isNaN then Binary32.nan
  else values.foldl (fun m v => if m < v.abs then v.abs else m) 0

/-- The least scale from `n` upward, by its bits, that brings `amax` within half a step of the top
code. `amax` itself always does, so the search ends there at the latest. -/
def raiseScale (amax top : Float32) (n : Nat) : Nat :=
  if n < Binary32.magnitude amax ∧ top + 0.5 < amax / Binary32.ofMagnitude n then
    raiseScale amax top (n + 1)
  else n
termination_by Binary32.magnitude amax - n

/-- The greatest scale from `n` downward, by its bits, whose top code decodes to a finite value. -/
def lowerScale (top : Float32) : Nat → Nat
  | 0 => 0
  | n + 1 =>
    if (Binary32.ofMagnitude (n + 1) * top).isFinite then n + 1 else lowerScale top n

/-- The scale of a block whose largest magnitude is `amax`. The quotient by the top code loses
precision in the subnormal range and can round up near the largest float; it is mended one place at
a time. A magnitude that is not finite is kept, and no decoder accepts it. -/
def scaleFor (amax top : Float32) : Float32 :=
  if amax == 0 then 0
  else if !amax.isFinite then amax
  else
    let start := Binary32.larger (amax / top) Binary32.tiniest
    Binary32.ofMagnitude
      (lowerScale top (raiseScale amax top (Binary32.magnitude start)))

def codeFor (e : Encoding) (scale value : Float32) : Int :=
  max e.minCode (min e.maxCode (Binary32.nearestInt (value / scale)))

/-- Quantizes thirty-two values. A value that is not finite makes the scale so. -/
def quantize (values : Vector Float32 blockSize) (e : Encoding) : Block :=
  let scale := scaleFor (absMax values.toList) (Float32.ofInt e.maxCode)
  let codes :=
    if scale.isFinite && 0 < scale then values.map (codeFor e scale)
    else Vector.replicate blockSize 0
  ⟨e, scale, codes⟩

/-- A block from stored parts: the scale is checked first, then the range of the codes. -/
def ofParts (e : Encoding) (scale : Float32) (codes : Vector Int blockSize) :
    Except Error Block := do
  checkScale scale
  match codes.toList.find? fun c => !e.inRange c with
  | some code => throw (.quantization (.code code e.name))
  | none => return ⟨e, scale, codes⟩

/-- A block from its packed bytes. -/
def ofBytes (e : Encoding) (scale : Float32) (bytes : List UInt8) : Except Error Block := do
  if bytes.length ≠ e.bytesPerBlock then
    throw (.shape "quantized block" [e.bytesPerBlock] [bytes.length])
  let codes := e.unpack bytes
  ofParts e scale (Vector.ofFn fun i => codes.getD i 0)

def toBytes (b : Block) : List UInt8 := b.encoding.pack b.codes.toList

/-- Each code times the scale. -/
def dequantize (b : Block) : Except Error (List Float32) := do
  checkScale b.scale
  return b.codes.toList.map fun c => Scalar.ofCode c * b.scale

end Block

end CausalServe
