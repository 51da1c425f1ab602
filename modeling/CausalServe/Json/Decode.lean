import CausalServe.Json.Reader

/-! Strict decoding of JSON values. A record is an object, in which a field may stand once and
unknown keys are skipped, or an array of its fields in order. Only optional fields accept null. -/

namespace CausalServe.Json.Value

def toBool? : Value → Option Bool
  | bool b => some b
  | _ => none

def toNat? (limit : Nat) : Value → Option Nat
  | number n => n.toNat? limit
  | _ => none

/-- A 64-bit size. -/
def toSize? : Value → Option Nat := toNat? wordSize

/-- A token of a 32-bit vocabulary. -/
def toToken? : Value → Option Nat := toNat? 0x100000000

def toFloat? : Value → Option Float
  | number n => n.toFloat?
  | _ => none

def toFloat32? : Value → Option Float32
  | number n => n.toFloat32?
  | _ => none

def toText? : Value → Option String
  | string text => text
  | _ => none

/-- Bytes spelled by two hexadecimal digits each. -/
def bytesOf? : List Char → Option (List UInt8)
  | [] => some []
  | [_] => none
  | high :: low :: rest => do
    return UInt8.ofNat (← Token.hexValue? [high, low]) :: (← bytesOf? rest)

def toBytes? (v : Value) : Option (List UInt8) := v.toText?.bind fun text => bytesOf? text.toList

def toList? {α : Type} (item : Value → Option α) : Value → Option (List α)
  | array items => items.mapM item
  | _ => none

/-- Null, or a value that the reader of the items accepts. -/
def toOption? {α : Type} (item : Value → Option α) : Value → Option (Option α)
  | null => some none
  | v => (item v).map some

/-- One of several names, as a string or as the only key of an object, with null under it. -/
def toChoice? {α : Type} (choices : List (String × α)) : Value → Option α
  | string (some name) => choices.lookup name
  | object [(some name, null)] => choices.lookup name
  | _ => none

/-- Puts a field in its place; a known field that is already there is refused. -/
def place? (names : List String) (found : List (Option Value)) (name : String) (v : Value) :
    Option (List (Option Value)) :=
  match names.idxOf? name with
  | none => some found
  | some i => if (found[i]?.join).isSome then none else some (found.set i (some v))

/-- The fields of a record, in the order of their names. -/
def record? (names : List String) : Value → Option (List (Option Value))
  | object fields =>
    fields.foldlM (fun found (key, v) => key.bind fun name => place? names found name v)
      (List.replicate names.length none)
  | array items =>
    if items.length ≤ names.length then
      some (items.map some ++ List.replicate (names.length - items.length) none)
    else none
  | _ => none

/-- An absent field takes its default. -/
def orDefault {α : Type} (item : Value → Option α) (default : α) : Option Value → Option α
  | none => some default
  | some v => item v

/-- An absent field is refused. -/
def required {α : Type} (item : Value → Option α) (v : Option Value) : Option α :=
  v.bind item

end CausalServe.Json.Value
