import CausalServe.Number.Binary32

/-! Half-precision floats as their sixteen bits: rounding a single-precision value to one, and
widening it back, in exact integer arithmetic. -/

namespace CausalServe.Binary16

/-- The significand bits that single precision has more: a unit of the half-precision significand
is this many of the other. -/
def lowerBits : Nat := 0x2000

/-- The difference of the two exponent offsets, in the place of the single-precision exponent. -/
def rebias : Nat := 112 * Binary32.implicitBit

/-- The nearest multiple of `unit`, counted in units; a half goes to the even neighbour. -/
def nearestEven (n unit : Nat) : Nat :=
  let q := n / unit
  let twice := 2 * (n % unit)
  if unit < twice ∨ twice = unit ∧ q % 2 = 1 then q + 1 else q

/-- The half-precision magnitude nearest to a single-precision one, both as bits. Bits of normal
numbers are rounded as they are, since a carry out of the significand raises the exponent; smaller
values are counted in units of `2 ^ -24`. -/
def narrowMagnitude (n : Nat) : Nat :=
  if 0x7F800000 < n then 0x7E00 + n % 0x400000 / lowerBits
  else if 0x38800000 ≤ n then min 0x7C00 (nearestEven (n - rebias) lowerBits)
  else
    let d := Binary32.Dyadic.ofMagnitude n
    nearestEven d.mantissa (1 <<< (-24 - d.exponent).toNat)

/-- The half-precision bits of single-precision ones. A NaN keeps its sign and the upper part of its
payload. -/
def narrow (bits : Nat) : Nat :=
  bits / 0x80000000 % 2 * 0x8000 + narrowMagnitude (bits % 0x80000000)

/-- The single-precision magnitude with the value of a half-precision one. -/
def widenMagnitude (m : Nat) : Nat :=
  if 0x7C00 < m then 0x7FC00000 + m % 0x200 * lowerBits
  else if m = 0x7C00 then 0x7F800000
  else if 0x400 ≤ m then m * lowerBits + rebias
  else if m = 0 then 0
  else (m.log2 + 102) * Binary32.implicitBit + m <<< (23 - m.log2)

def widen (h : Nat) : Float32 :=
  Binary32.ofMagnitude (h / 0x8000 % 2 * 0x80000000 + widenMagnitude (h % 0x8000))

end CausalServe.Binary16
