/-! Single-precision floats by their bits: the magnitude as an exact dyadic number, floats
from bits, and rounding to an integer. Everything here is exact integer
arithmetic on the bit pattern. -/

namespace CausalServe.Binary32

def isNegative (x : Float32) : Bool := 0x80000000 ≤ x.toBits.toNat

/-- The bits without the sign; on finite values they are ordered like the magnitudes. -/
def magnitude (x : Float32) : Nat := x.toBits.toNat % 0x80000000

def ofMagnitude (n : Nat) : Float32 := Float32.ofBits (UInt32.ofNat n)

def infinity : Float32 := ofMagnitude 0x7F800000

def negInfinity : Float32 := ofMagnitude 0xFF800000

def nan : Float32 := ofMagnitude 0x7FC00000

def negZero : Float32 := ofMagnitude 0x80000000

/-- The leading significand bit of a normal number, which is not stored; the exponent field starts
with it. -/
def implicitBit : Nat := 0x800000

/-- The least positive value. -/
def tiniest : Float32 := ofMagnitude 1

/-- `mantissa * 2 ^ exponent`. -/
structure Dyadic where
  mantissa : Nat
  exponent : Int
deriving DecidableEq, Repr

/-- What a finite magnitude denotes. -/
def Dyadic.ofMagnitude (n : Nat) : Dyadic :=
  if n < implicitBit then ⟨n, -149⟩
  else ⟨implicitBit + n % implicitBit, (n / implicitBit : Nat) - 150⟩

/-- The nearest integer to a finite value, halves away from zero. -/
def nearestInt (x : Float32) : Int :=
  let d := Dyadic.ofMagnitude (magnitude x)
  let n := match d.exponent with
    | .ofNat e => d.mantissa <<< e
    | .negSucc e => (d.mantissa + 1 <<< e) >>> (e + 1)
  if isNegative x then -n else n

/-- A key that sorts all values: by sign, then by magnitude, so that `-0` lies below `+0`. A NaN lies
below everything else. -/
def totalKey (x : Float32) : Int :=
  if x.isNaN then -0x100000000
  else if isNegative x then -(magnitude x : Int) - 1
  else magnitude x

/-- The larger of two values; a NaN gives way to the other, and of two zeros the second is taken. -/
def larger (x y : Float32) : Float32 :=
  if x.isNaN then y else if y.isNaN then x else if y < x then x else y

end CausalServe.Binary32
