import CausalServe.Json.Numeral

/-! JSON values as written: numbers keep their literal, objects keep the order and the repetition
of their keys. -/

namespace CausalServe.Json

/-- The characters of a string literal; `none` for a literal that escapes only half of a surrogate
pair, which no string can hold. -/
abbrev Text := Option String

inductive Value
  | null
  | bool (b : Bool)
  | number (n : Numeral)
  | string (text : Text)
  | array (items : List Value)
  | object (fields : List (Text × Value))

end CausalServe.Json
