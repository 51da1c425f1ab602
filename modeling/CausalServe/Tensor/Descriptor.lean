import CausalServe.Json.Decode
import CausalServe.Number.Bytes
import CausalServe.Quant.Matrix

/-! Tensors as they are stored: a shape, an element type and bytes, which nothing ties together
until they are decoded. -/

namespace CausalServe

inductive ElementType
  | f32
  | f16
  | quantized (encoding : Encoding)
deriving DecidableEq, Repr

namespace ElementType

def name : ElementType → String
  | f32 => "f32"
  | f16 => "f16"
  | quantized e => e.name

def all : List ElementType := [f32, f16, quantized .q8, quantized .q4]

def ofJson? : Json.Value → Option ElementType :=
  Json.Value.toChoice? (all.map fun t => (t.name, t))

end ElementType

/-- How many elements a shape has, as a 64-bit word. -/
def elementCount (shape : List Nat) : Nat := shape.foldl wordMul 1

structure TensorDescriptor where
  name : String
  shape : List Nat
  elementType : ElementType
  /-- Floats with the lowest byte first, or packed codes. -/
  data : List UInt8
  /-- The scales of the blocks, if quantized. -/
  scales : List Float32 := []

namespace TensorDescriptor

/-- Stores values given by their bits, so that every NaN stays the one that it is. -/
def ofFloats (name : String) (shape : List Nat) (values : List UInt32) : TensorDescriptor :=
  { name := name, shape := shape, elementType := .f32, data := values.flatMap Bytes.ofFloat }

/-- Keeps the nearest half-precision values. -/
def ofHalves (name : String) (shape : List Nat) (values : List UInt32) : TensorDescriptor :=
  { name := name, shape := shape, elementType := .f16, data := values.flatMap Bytes.ofHalf }

def ofQuantized (name : String) (q : QuantizedMatrix Float32) : TensorDescriptor :=
  { name := name, shape := [q.rows, q.cols], elementType := .quantized q.encoding
    data := q.data, scales := q.scales }

open Json.Value (record? orDefault required toText? toNat? toSize? toFloat32? toList?)

def ofJson? (v : Json.Value) : Option TensorDescriptor := do
  let fields ← record? ["name", "shape", "dtype", "data", "scales"] v
  match fields with
  | [name, shape, elementType, data, scales] =>
    let bytes ← required (toList? (toNat? 256)) data
    return {
      name := ← required toText? name
      shape := ← required (toList? toSize?) shape
      elementType := ← required ElementType.ofJson? elementType
      data := bytes.map UInt8.ofNat
      scales := ← orDefault (toList? toFloat32?) [] scales }
  | _ => none

end TensorDescriptor

end CausalServe
