import CausalServe.Error
import CausalServe.Random.Stream

/-! Choosing an index with a probability proportional to its weight, from one random word. -/

namespace CausalServe

structure Weighted where
  /-- The sums of the leading weights, but for the sum of all. -/
  cumulative : List Float32
  /-- The width of the range that a fraction is mapped to. -/
  scale : Float32

namespace Weighted

/-- The sums of the leading weights, and the sum of all. -/
def sums (total : Float32) : List Float32 → List Float32 × Float32
  | [] => ([], total)
  | w :: ws =>
    let (others, all) := sums (total + w) ws
    (total :: others, all)

/-- The greatest fraction. -/
def topFraction : Float32 := Binary32.ofMagnitude 0x3F7FFFFE

/-- The greatest scale from `n` downward, by its bits, that maps every fraction below `total`. -/
def lowerScale (total : Float32) : Nat → Float32
  | 0 => 0
  | n + 1 =>
    let scale := Binary32.ofMagnitude (n + 1)
    if total ≤ scale * topFraction then lowerScale total n else scale

def ofWeights : List Float32 → Except WeightFault Weighted
  | [] => .error .noWeights
  | w :: ws =>
    if (w :: ws).any fun x => !(0 ≤ x) then .error .negative
    else
      let (cumulative, total) := sums w ws
      if total == 0 then .error .allZero
      else .ok ⟨cumulative, lowerScale total (Binary32.magnitude total)⟩

/-- How many leading sums the mapped fraction reaches. -/
def choose (w : Weighted) (word : UInt32) : Nat :=
  let chosen := fraction word * w.scale + 0
  w.cumulative.countP fun sum => sum ≤ chosen

end Weighted

end CausalServe
