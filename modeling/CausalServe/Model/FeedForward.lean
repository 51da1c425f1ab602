import CausalServe.Model.Elementwise
import CausalServe.Model.Linear

/-! The gated feed-forward network of a layer. -/

namespace CausalServe

structure FeedForward where
  gate : Linear Float32
  up : Linear Float32
  down : Linear Float32

namespace FeedForward

def hiddenSize (f : FeedForward) : Nat := f.gate.inFeatures

def intermediateSize (f : FeedForward) : Nat := f.gate.outFeatures

/-- Runs the `m` rows of `x`: the activated gate times the up projection is projected down. -/
def forward (f : FeedForward) (d : Dispatcher) (x : List Float32) (m : Nat) :
    Except Error (List Float32) := do
  let gate ← f.gate.forward d x m
  let up ← f.up.forward d x m
  f.down.forward d (zipOnto (fun g u => silu g * u) gate up) m

end FeedForward

end CausalServe
