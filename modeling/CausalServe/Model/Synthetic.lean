import CausalServe.Action
import CausalServe.Model.Inventory
import CausalServe.Random.Stream
import CausalServe.Tensor.Descriptor

/-! Random weights for a model, all drawn from one seeded stream in the order of the inventory. -/

namespace CausalServe.Synthetic

/-- A matrix with entries of the size that keeps the variance of its products near one. They are
counted by a 64-bit word. -/
def matrix (rows cols : Nat) : Action Stream (List Float32) := do
  let bound := 1 / (Float32.ofNat cols).sqrt
  let count := wordMul rows cols
  let s ← get
  set (s.skip count)
  return (s.words count).map (uniform (-bound) bound)

/-- A projection as it is stored: quantized, if an encoding is given. -/
def projection (name : String) (rows cols : Nat) (encoding : Option Encoding)
    (values : List Float32) : Except Error TensorDescriptor :=
  match encoding with
  | none => .ok (.ofFloats name [rows, cols] (values.map Float32.toBits))
  | some e => TensorDescriptor.ofQuantized name <$> QuantizedMatrix.quantize values rows cols e

/-- One tensor of the inventory. Norms are ones, and draw nothing. -/
def tensor (encoding : Option Encoding) (t : TensorEntry) : Action Stream TensorDescriptor :=
  let rows := t.shape.getD 0 0
  let cols := t.shape.getD 1 0
  match t.role with
  | .norm => return .ofFloats t.name t.shape (List.replicate rows (1 : Float32).toBits)
  | .embedding => return .ofHalves t.name t.shape ((← matrix rows cols).map Float32.toBits)
  | .projection => do
    let values ← matrix rows cols
    Action.ofExcept (projection t.name rows cols encoding values)

/-- The weights of a model from a seed. -/
def descriptors (c : ModelConfig) (encoding : Option Encoding) (seed : Nat) :
    Except Error (List TensorDescriptor) :=
  (Action.exec (c.inventory.mapM (tensor encoding)) (Stream.ofSeed seed)).1

end CausalServe.Synthetic
