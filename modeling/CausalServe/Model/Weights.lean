import CausalServe.Action
import CausalServe.Tensor.Basic

/-! Decoded tensors by name. Assembling a model takes them out one after another. -/

namespace CausalServe

structure ModelWeights where
  tensors : List (String × Tensor Float32) := []

namespace ModelWeights

def get? (w : ModelWeights) (name : String) : Option (Tensor Float32) := w.tensors.lookup name

def contains (w : ModelWeights) (name : String) : Bool := (w.get? name).isSome

def size (w : ModelWeights) : Nat := w.tensors.length

def find (w : ModelWeights) (name : String) : Except Error (Tensor Float32) :=
  match w.get? name with
  | some t => .ok t
  | none => .error (.load (.missing name))

def erase (w : ModelWeights) (name : String) : ModelWeights :=
  { tensors := w.tensors.filter fun (n, _) => n ≠ name }

/-- A tensor, with its name put into an error about its size. -/
def decode (d : TensorDescriptor) : Except Error (Tensor Float32) :=
  match Tensor.ofDescriptor d with
  | .error (.shape op expected actual) => .error (.load (.payload d.name op expected actual))
  | r => r

/-- Decodes one more tensor, whose name must be new. -/
def insert (w : ModelWeights) (d : TensorDescriptor) : Except Error ModelWeights := do
  let t ← decode d
  if w.contains d.name then throw (.load (.duplicate d.name))
  return { tensors := w.tensors ++ [(d.name, t)] }

def ofDescriptors (ds : List TensorDescriptor) : Except Error ModelWeights := ds.foldlM insert {}

/-- A vector may be stored as the only row of a matrix. -/
def shapeFits (actual expected : List Nat) : Bool :=
  actual == expected || expected.length == 1 && actual == 1 :: expected

/-- Takes out a tensor, which is gone even where its shape is not the expected one. -/
def take (name : String) (shape : List Nat) : Action ModelWeights (Tensor Float32) := do
  let t ← Action.ofExcept ((← get).find name)
  modify (·.erase name)
  if !shapeFits t.shape shape then throw (.load (.shape name t.shape shape))
  return t

end ModelWeights

end CausalServe
