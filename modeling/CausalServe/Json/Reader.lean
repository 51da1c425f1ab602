import CausalServe.Json.Token

/-! Values from tokens. The containers part way through are kept in a stack, so that depth of
nesting is bounded by the text alone. -/

namespace CausalServe.Json

/-- A container part way through; what it holds so far is in reverse. -/
inductive Frame
  | items (done : List Value)
  | fields (done : List (Text × Value)) (key : Text)

inductive Expecting
  | value
  /-- The first item of an array, or its end. -/
  | item
  /-- The first key of an object, or its end. -/
  | field
  | key (done : List (Text × Value))
  | colon (done : List (Text × Value)) (key : Text)
  /-- A value is complete. -/
  | rest (v : Value)

structure Reader where
  expecting : Expecting
  stack : List Frame

namespace Reader

def value (stack : List Frame) : Token → Option Reader
  | .scalar v => some ⟨.rest v, stack⟩
  | .string text => some ⟨.rest (.string text), stack⟩
  | .openArray => some ⟨.item, stack⟩
  | .openObject => some ⟨.field, stack⟩
  | _ => none

def next (r : Reader) (t : Token) : Option Reader :=
  match r.expecting, t with
  | .value, _ => value r.stack t
  | .item, .closeArray => some ⟨.rest (.array []), r.stack⟩
  | .item, _ => value (.items [] :: r.stack) t
  | .field, .closeObject => some ⟨.rest (.object []), r.stack⟩
  | .field, .string key => some ⟨.colon [] key, r.stack⟩
  | .key done, .string key => some ⟨.colon done key, r.stack⟩
  | .colon done key, .colon => some ⟨.value, .fields done key :: r.stack⟩
  | .rest v, t =>
    match r.stack, t with
    | .items done :: outer, .comma => some ⟨.value, .items (v :: done) :: outer⟩
    | .items done :: outer, .closeArray => some ⟨.rest (.array (v :: done).reverse), outer⟩
    | .fields done key :: outer, .comma => some ⟨.key ((key, v) :: done), outer⟩
    | .fields done key :: outer, .closeObject =>
      some ⟨.rest (.object ((key, v) :: done).reverse), outer⟩
    | _, _ => none
  | _, _ => none

end Reader

/-- The value that a whole text spells. -/
def parse? (text : String) : Option Value := do
  let tokens ← Token.scan? text.toList
  let r ← tokens.foldlM Reader.next ⟨.value, []⟩
  match r.expecting, r.stack with
  | .rest v, [] => some v
  | _, _ => none

end CausalServe.Json
