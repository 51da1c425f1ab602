import CausalServe.Kernel.Dispatch

/-! Softmax, and attention of one query over the keys and values of its past. -/

namespace CausalServe

def maximum (xs : List Float32) : Float32 :=
  xs.foldl Binary32.larger Binary32.negInfinity

/-- Softmax, shifted by the maximum. Values that are not finite show in the result. -/
def softmax (xs : List Float32) : List Float32 :=
  let top := maximum xs
  let exps := xs.map fun x => (x - top).exp
  let total := exps.foldl (· + ·) 0
  if 0 < total then exps.map (· / total) else exps

/-- What attention yields, and the probabilities it gave to the positions; none when there is no
position to look at. -/
structure Attended where
  out : List Float32
  probabilities : Option (List Float32)

/-- Attends one query head over cached positions, in place of an output buffer. -/
def Dispatcher.attend (d : Dispatcher) (q keys values : List Float32) (headDim : Nat)
    (out : List Float32) : Except Error Attended := do
  if keys.length ≠ values.length then
    throw (.shape "attention values" [keys.length] [values.length])
  if out.length ≠ headDim then throw (.shape "attention out" [headDim] [out.length])
  if headDim = 0 ∨ keys = [] then return ⟨List.replicate out.length 0, none⟩
  let len := keys.length / headDim
  let scores ← d.attentionScoresInto q keys headDim len
  let scale := 1 / (Float32.ofNat headDim).sqrt
  let probabilities := softmax (scores.map (· * scale))
  let out ← d.matmulInto probabilities values 1 len headDim out
  return ⟨out, some probabilities⟩

end CausalServe
