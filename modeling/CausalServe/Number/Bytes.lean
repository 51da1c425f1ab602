import CausalServe.Number.Binary16

/-! Numbers as bytes, the lowest first. -/

namespace CausalServe.Bytes

/-- The lowest `count` bytes of a number. -/
def ofNat : Nat → Nat → List UInt8
  | 0, _ => []
  | count + 1, n => UInt8.ofNat n :: ofNat count (n / 256)

def toNat : List UInt8 → Nat
  | [] => 0
  | b :: bs => b.toNat + 256 * toNat bs

/-- The bytes of a single-precision value with the given bits. -/
def ofFloat (bits : UInt32) : List UInt8 := ofNat 4 bits.toNat

/-- The bits of a single-precision value that was stored. -/
def toBits (bs : List UInt8) : UInt32 := UInt32.ofNat (toNat bs)

def toFloat (bs : List UInt8) : Float32 := Float32.ofBits (toBits bs)

/-- The bytes of the nearest half-precision value. -/
def ofHalf (bits : UInt32) : List UInt8 := ofNat 2 (Binary16.narrow bits.toNat)

def toHalf (bs : List UInt8) : Float32 := Binary16.widen (toNat bs)

end CausalServe.Bytes
