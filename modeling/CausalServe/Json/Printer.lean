import CausalServe.Json.Value

/-! The compact text of JSON values, and values from strings, numbers and options. -/

namespace CausalServe.Json

namespace Numeral

/-- The digits of a number, the highest first. -/
def digitsOf (n : Nat) : List Nat := (Nat.toDigits 10 n).map fun c => c.toNat - '0'.toNat

/-- The lowest `count` digits of a number, the highest first. -/
def lowDigits : Nat → Nat → List Nat
  | 0, _ => []
  | count + 1, n => lowDigits count (n / 10) ++ [n % 10]

def ofInt (i : Int) : Numeral := ⟨i < 0, digitsOf i.natAbs, [], none⟩

/-- Drops zeros at the end, but for a zero that stands alone. -/
def trimmed (ds : List Nat) : List Nat :=
  match (ds.reverse.dropWhile (· == 0)).reverse with
  | [] => [0]
  | kept => kept

/-- A number of decimal units of the given place. It always has a fraction. -/
def ofUnits (negative : Bool) (units places : Nat) : Numeral :=
  ⟨negative, digitsOf (units / Nat.pow 10 places), trimmed (lowDigits places units), none⟩

/-- The mantissa and the binary exponent of a finite double without its sign. -/
def binaryParts (x : Float) : Nat × Int :=
  let bits := x.toBits.toNat
  let implicitBit := 1 <<< 52
  let e : Nat := bits >>> 52 % 0x800
  (if e = 0 then bits % implicitBit else implicitBit + bits % implicitBit,
    (max e 1 : Nat) - (1075 : Int))

def isNegative (x : Float) : Bool := 1 <<< 63 ≤ x.toBits.toNat

/-- The exact decimal expansion of a finite double. -/
def ofFloat (x : Float) : Numeral :=
  match binaryParts x with
  | (mantissa, .ofNat k) => ofUnits (isNegative x) (mantissa <<< k * 10) 1
  | (mantissa, .negSucc k) =>
    ofUnits (isNegative x) (mantissa * Nat.pow 5 (k + 1)) (k + 1)

/-- The whole part of a finite double without its sign. -/
def wholePart (x : Float) : Nat :=
  match binaryParts x with
  | (mantissa, .ofNat k) => mantissa <<< k
  | (mantissa, .negSucc k) => mantissa >>> (k + 1)

def digitsText (ds : List Nat) : String := String.join (ds.map toString)

def text (n : Numeral) : String :=
  (if n.negative then "-" else "") ++ digitsText n.whole ++
    (if n.fraction.isEmpty then "" else "." ++ digitsText n.fraction) ++
    match n.exponent with
    | none => ""
    | some (negative, ds) => (if negative then "e-" else "e") ++ digitsText ds

end Numeral

def hexDigit (n : Nat) : Char := Nat.digitChar (n % 16)

/-- The lowest `count` hexadecimal digits of a number, the highest first. -/
def hexText : Nat → Nat → String
  | 0, _ => ""
  | count + 1, n => hexText count (n / 16) ++ String.singleton (hexDigit n)

/-- Quotes, backslashes and control characters are escaped. -/
def escaped (c : Char) : String :=
  if c = '"' then "\\\"" else if c = '\\' then "\\\\"
  else if c.toNat < 0x20 then "\\u" ++ hexText 4 c.toNat
  else String.singleton c

/-- A literal that no string can hold is written as the replacement character. -/
def Text.quoted (t : Text) : String :=
  "\"" ++ String.join ((t.getD "\ufffd").toList.map escaped) ++ "\""

namespace Value

mutual

def text : Value → String
  | null => "null"
  | bool b => if b then "true" else "false"
  | number n => n.text
  | string t => t.quoted
  | array items => "[" ++ ",".intercalate (itemTexts items) ++ "]"
  | object fields => "\x7b" ++ ",".intercalate (fieldTexts fields) ++ "\x7d"

def itemTexts : List Value → List String
  | [] => []
  | v :: vs => v.text :: itemTexts vs

def fieldTexts : List (Text × Value) → List String
  | [] => []
  | f :: fs => fieldText f :: fieldTexts fs

def fieldText : Text × Value → String
  | (name, v) => name.quoted ++ ":" ++ v.text

end

def ofString (s : String) : Value := string (some s)

/-- Two hexadecimal digits for each byte. -/
def ofBytes (bs : List UInt8) : Value :=
  ofString (String.join (bs.map fun b => hexText 2 b.toNat))

def ofNat (n : Nat) : Value := number (.ofInt n)

/-- A float rounded to four decimal places, halves away from zero; there is no negative zero. What is
not finite is written as a string. -/
def ofRounded (x : Float) : Value :=
  if x.isNaN then ofString "nan"
  else if x.isInf then ofString (if x < 0 then "-inf" else "inf")
  else
    let units := Numeral.wholePart (x * 10000).round
    number (.ofUnits (x < 0 && 0 < units) units 4)

def ofOption {α : Type} (item : α → Value) : Option α → Value
  | none => null
  | some a => item a

/-- An object with its fields in order. -/
def ofFields (fields : List (String × Value)) : Value :=
  object (fields.map fun (name, v) => (some name, v))

end Value

end CausalServe.Json
