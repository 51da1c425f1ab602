import CausalServe.Number.Binary32

/-! Decimal text of single-precision floats: the fewest digits that read back to the value,
written positionally, never with an exponent. -/

namespace CausalServe.Decimal

/-- `digits * 10 ^ scale`. -/
structure Digits where
  digits : Nat
  scale : Int
deriving DecidableEq, Repr

/-- Compares `a * 10 ^ i` with `n * 2 ^ j`. -/
def compareScaled (a : Nat) (i : Int) (n : Nat) (j : Int) : Ordering :=
  compare ((a * Nat.pow 10 i.toNat) <<< (-j).toNat) ((n * Nat.pow 10 (-i).toNat) <<< j.toNat)

/-- A finite positive value between the two ends of what rounds to it. The ends are counted in
quarters of the last binary place. -/
structure Interval where
  mantissa : Nat
  exponent : Int
  low : Nat
  high : Nat
  /-- Both ends round to the value itself exactly when its mantissa is even. -/
  closed : Bool

/-- Below a power of two the next value is only half as far away. -/
def Interval.ofMagnitude (n : Nat) : Interval :=
  let d := Binary32.Dyadic.ofMagnitude n
  let narrow := n % Binary32.implicitBit == 0 && 2 * Binary32.implicitBit ≤ n
  { mantissa := d.mantissa
    exponent := d.exponent
    low := if narrow then 4 * d.mantissa - 1 else 4 * d.mantissa - 2
    high := 4 * d.mantissa + 2
    closed := d.mantissa % 2 == 0 }

/-- Whether the decimal reads back to the value. -/
def Interval.holds (v : Interval) (d : Digits) : Bool :=
  let below := compareScaled d.digits d.scale v.low (v.exponent - 2)
  let above := compareScaled d.digits d.scale v.high (v.exponent - 2)
  (below == .gt || (v.closed && below == .eq)) && (above == .lt || (v.closed && above == .eq))

/-- The value divided by `10 ^ scale`, rounded down. -/
def Interval.scaledDown (v : Interval) (scale : Int) : Nat :=
  (v.mantissa * Nat.pow 10 (-scale).toNat) <<< v.exponent.toNat /
    Nat.pow 10 scale.toNat <<< (-v.exponent).toNat

/-- The nearer of the value's two neighbours among the multiples of `10 ^ scale`, if one of them
reads back. The upper one wins a tie. -/
def Interval.nearestAt? (v : Interval) (scale : Int) : Option Digits :=
  let lower : Digits := ⟨v.scaledDown scale, scale⟩
  let upper : Digits := ⟨lower.digits + 1, scale⟩
  match v.holds lower, v.holds upper with
  | true, true =>
    let middle := compareScaled (lower.digits + upper.digits) scale (2 * v.mantissa) v.exponent
    some (if middle == .gt then lower else upper)
  | true, false => some lower
  | false, true => some upper
  | false, false => none

/-- Single-precision values lie between `10 ^ -46` and `10 ^ 39`: coarse grids are tried first. -/
def Interval.shortest (v : Interval) : Digits :=
  ((List.range 100).findSome? fun (i : Nat) => v.nearestAt? (39 - i)).getD ⟨v.mantissa, 0⟩

/-- The decimal without an exponent: zeros fill the gap to the point on either side. -/
def Digits.positional (d : Digits) : String :=
  let text := (toString d.digits).toList
  match d.scale with
  | .ofNat e => String.ofList (text ++ List.replicate e '0')
  | .negSucc e =>
    let places := e + 1
    let padded := List.replicate (places + 1 - text.length) '0' ++ text
    let whole := padded.length - places
    String.ofList (padded.take whole ++ '.' :: padded.drop whole)

/-- The text of a float in a message. -/
def text (x : Float32) : String :=
  if x.isNaN then "NaN"
  else
    let sign := if Binary32.isNegative x then "-" else ""
    let body :=
      if x.isInf then "inf"
      else if Binary32.magnitude x = 0 then "0"
      else (Interval.ofMagnitude (Binary32.magnitude x)).shortest.positional
    sign ++ body

end CausalServe.Decimal
