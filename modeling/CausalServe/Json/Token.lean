import CausalServe.Json.Value

/-! The tokens of a JSON text, found by a machine that looks at one character at a time. -/

namespace CausalServe.Json

inductive Token
  | openArray
  | closeArray
  | openObject
  | closeObject
  | comma
  | colon
  | string (text : Text)
  /-- A literal name or a number. -/
  | scalar (v : Value)

namespace Token

/-- Joins surrogate pairs; the units are those of escapes, all else are whole characters. -/
def join : List Nat → Option (List Char)
  | [] => some []
  | high :: low :: rest =>
    if 0xD800 ≤ high ∧ high < 0xDC00 ∧ 0xDC00 ≤ low ∧ low < 0xE000 then
      let code := 0x10000 + (high - 0xD800) * 0x400 + (low - 0xDC00)
      (join rest).map (Char.ofNat code :: ·)
    else if 0xD800 ≤ high ∧ high < 0xE000 then none
    else (join (low :: rest)).map (Char.ofNat high :: ·)
  | [code] => if 0xD800 ≤ code ∧ code < 0xE000 then none else some [Char.ofNat code]

/-- A run of characters that are neither blank, quote nor punctuation. -/
def ofWord? (word : List Char) : Option Token :=
  if word = "null".toList then some (.scalar .null)
  else if word = "true".toList then some (.scalar (.bool true))
  else if word = "false".toList then some (.scalar (.bool false))
  else (Numeral.ofChars? word).map fun n => .scalar (.number n)

def ofPunctuation? (c : Char) : Option Token :=
  if c = '[' then some .openArray
  else if c = ']' then some .closeArray
  else if c = '\x7b' then some .openObject
  else if c = '\x7d' then some .closeObject
  else if c = ',' then some .comma
  else if c = ':' then some .colon
  else none

def isBlank (c : Char) : Bool :=
  c == ' ' || c == '\n' || c == '\t' || c == '\r'

def escape? (c : Char) : Option Nat :=
  match c with
  | '"' | '\\' | '/' => some c.toNat
  | 'b' => some 8
  | 'f' => some 12
  | 'n' => some 10
  | 'r' => some 13
  | 't' => some 9
  | _ => none

def hexDigit? (c : Char) : Option Nat :=
  if '0' ≤ c ∧ c ≤ '9' then some (c.toNat - '0'.toNat)
  else if 'a' ≤ c ∧ c ≤ 'f' then some (c.toNat - 'a'.toNat + 10)
  else if 'A' ≤ c ∧ c ≤ 'F' then some (c.toNat - 'A'.toNat + 10)
  else none

/-- The number that hexadecimal digits spell, the highest first. -/
def hexValue? (cs : List Char) : Option Nat :=
  cs.foldlM (fun n c => (hexDigit? c).map fun d => n * 16 + d) 0

/-- What the machine is in the middle of. Characters and units are kept in reverse. -/
inductive Mode
  | between
  | word (read : List Char)
  | string (read : List Nat)
  | escape (read : List Nat)
  | hex (read : List Nat) (left value : Nat)

/-- The mode, and the tokens found so far in reverse. -/
structure Scanner where
  mode : Mode
  found : List Token

/-- A character outside strings. -/
def Scanner.outside (found : List Token) (c : Char) : Scanner :=
  if isBlank c then ⟨.between, found⟩
  else if c = '"' then ⟨.string [], found⟩
  else match ofPunctuation? c with
    | some t => ⟨.between, t :: found⟩
    | none => ⟨.word [c], found⟩

def Scanner.next (s : Scanner) (c : Char) : Option Scanner :=
  match s.mode with
  | .between => some (Scanner.outside s.found c)
  | .word read =>
    if isBlank c ∨ c = '"' ∨ (ofPunctuation? c).isSome then
      (ofWord? read.reverse).map fun t => Scanner.outside (t :: s.found) c
    else some ⟨.word (c :: read), s.found⟩
  | .string read =>
    if c = '"' then some ⟨.between, .string ((join read.reverse).map String.ofList) :: s.found⟩
    else if c = '\\' then some ⟨.escape read, s.found⟩
    else if c.toNat < 0x20 then none
    else some ⟨.string (c.toNat :: read), s.found⟩
  | .escape read =>
    if c = 'u' then some ⟨.hex read 4 0, s.found⟩
    else (escape? c).map fun code => ⟨.string (code :: read), s.found⟩
  | .hex read left value =>
    (hexDigit? c).map fun d =>
      let value := value * 16 + d
      if left ≤ 1 then ⟨.string (value :: read), s.found⟩ else ⟨.hex read (left - 1) value, s.found⟩

def Scanner.finish (s : Scanner) : Option (List Token) :=
  match s.mode with
  | .between => some s.found.reverse
  | .word read => (ofWord? read.reverse).map fun t => (t :: s.found).reverse
  | _ => none

def scan? (cs : List Char) : Option (List Token) := do
  let s ← cs.foldlM Scanner.next ⟨.between, []⟩
  s.finish

end Token

end CausalServe.Json
