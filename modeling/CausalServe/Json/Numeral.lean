import CausalServe.Number.Word

/-! JSON number literals: their grammar, and what they denote as a natural number or a float.

A literal is read into a 64-bit significand and a power of ten. Digits that would overflow the
significand are dropped (before the point each still counts as a factor of ten), and the power is
applied by one multiplication or division. The result can therefore be one place off the nearest
double; a literal whose value overflows is refused. -/

namespace CausalServe.Json

structure Numeral where
  negative : Bool
  whole : List Nat
  /-- The digits after the point; a point is followed by at least one. -/
  fraction : List Nat
  /-- Whether the exponent is negative, and its digits. -/
  exponent : Option (Bool × List Nat)
deriving DecidableEq, Repr

namespace Numeral

def digit? (c : Char) : Option Nat :=
  if '0' ≤ c ∧ c ≤ '9' then some (c.toNat - '0'.toNat) else none

/-- The leading digits of a text, and the rest. -/
def digits : List Char → List Nat × List Char
  | [] => ([], [])
  | c :: rest => match digit? c with
    | some d => let (ds, left) := digits rest; (d :: ds, left)
    | none => ([], c :: rest)

def exponent? : List Char → Option (Option (Bool × List Nat))
  | [] => some none
  | e :: rest =>
    if e = 'e' ∨ e = 'E' then
      let (negative, body) := match rest with
        | '-' :: body => (true, body)
        | '+' :: body => (false, body)
        | body => (false, body)
      match digits body with
      | (d :: ds, []) => some (some (negative, d :: ds))
      | _ => none
    else none

/-- An optional minus, digits without a leading zero, then an optional fraction and exponent. -/
def ofChars? (cs : List Char) : Option Numeral := do
  let (negative, cs) := match cs with
    | '-' :: rest => (true, rest)
    | rest => (false, rest)
  let (whole, cs) := digits cs
  match whole with
  | [] | 0 :: _ :: _ => none
  | _ =>
    match cs with
    | '.' :: rest =>
      let (fraction, rest) := digits rest
      if fraction.isEmpty then none else
      let exponent ← exponent? rest
      some ⟨negative, whole, fraction, exponent⟩
    | rest =>
      let exponent ← exponent? rest
      some ⟨negative, whole, [], exponent⟩

/-- Takes up digits while the significand fits a 64-bit word, and returns those left over. -/
def absorb (significand : Nat) : List Nat → Nat × List Nat
  | [] => (significand, [])
  | d :: ds =>
    if significand * 10 + d < wordSize then absorb (significand * 10 + d) ds
    else (significand, d :: ds)

/-- The value of an integer literal whose digits fit 64 bits. -/
def magnitude? (n : Numeral) : Option Nat :=
  if n.fraction.isEmpty ∧ n.exponent.isNone then
    match absorb 0 n.whole with
    | (value, []) => some value
    | _ => none
  else none

/-- A natural number below the limit, which is at most `wordSize`. A minus is refused even before a
zero. -/
def toNat? (limit : Nat) (n : Numeral) : Option Nat :=
  match n.magnitude? with
  | some value => if n.negative = false ∧ value < limit then some value else none
  | none => none

/-- An integer between the two ends, both included. -/
def toInt? (low high : Int) (n : Numeral) : Option Int :=
  match n.magnitude? with
  | some value =>
    let i : Int := if n.negative then -value else value
    if (n.negative = true → 0 < value) ∧ low ≤ i ∧ i ≤ high then some i else none
  | none => none

def powerOfTen (e : Nat) : Float := Float.ofScientific 1 false e

/-- Multiplies by a power of ten, at most `10 ^ 308` at a time; none if that overflows. -/
def scaled? (f : Float) (e : Int) : Option Float :=
  if e.natAbs ≤ 308 then
    if 0 ≤ e then
      let product := f * powerOfTen e.natAbs
      if product.isInf then none else some product
    else some (f / powerOfTen e.natAbs)
  else if f == 0 then some f
  else if 0 ≤ e then none
  else scaled? (f / powerOfTen 308) (e + 308)
termination_by e.natAbs

/-- The exponent as written; none when it does not fit 31 bits. -/
def exponentValue? (digits : List Nat) : Option Nat :=
  digits.foldlM (fun e d => if e * 10 + d < 0x80000000 then some (e * 10 + d) else none) 0

/-- The magnitude as a double, read by significand and power of ten. -/
def scientific? (n : Numeral) : Option Float :=
  let (significand, dropped) := absorb 0 n.whole
  let (significand, ignored) := absorb significand n.fraction
  let power : Int := dropped.length - (n.fraction.length - ignored.length : Nat)
  let start := significand.toUInt64.toFloat
  match n.exponent with
  | none => scaled? start power
  | some (negative, digits) =>
    match exponentValue? digits with
    | some e => scaled? start (if negative then power - e else power + e)
    | none => if significand = 0 ∨ negative then some 0 else none

def toFloat? (n : Numeral) : Option Float :=
  let magnitude := match n.magnitude? with
    | some value => some value.toUInt64.toFloat
    | none => n.scientific?
  magnitude.map fun f => if n.negative then -f else f

/-- Integers of 64 bits are rounded once; any other literal is read as a double first. -/
def toFloat32? (n : Numeral) : Option Float32 :=
  match n.magnitude? with
  | some value =>
    if n.negative then
      if 0 < value ∧ value ≤ wordSize / 2 then some (-value.toUInt64.toFloat32)
      else n.toFloat?.map Float.toFloat32
    else some value.toUInt64.toFloat32
  | none => n.toFloat?.map Float.toFloat32

end Numeral

end CausalServe.Json
