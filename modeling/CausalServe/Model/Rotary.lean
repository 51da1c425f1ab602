import CausalServe.Kernel.Product
import CausalServe.Number.Elementary

/-! Rotary position embeddings: element `i` of a head and its partner half a head further are turned
by an angle that grows with the position. -/

namespace CausalServe

/-- The cosine and the sine of an angle. -/
abbrev Turn := Float32 × Float32

structure Rotary where
  /-- The width of a head. -/
  dim : Nat
  /-- The angle from one position to the next, for each pair. -/
  frequencies : List Float32
  /-- The turn by an angle. -/
  turn : Float32 → Turn
  /-- The turns of the first positions. -/
  table : Array (List Turn)

namespace Rotary

/-- Each pair turns slower than the one before it. -/
def frequencyList [Elementary] (dim : Nat) (theta : Float) : List Float32 :=
  (List.range (dim / 2)).map fun i =>
    1 / Elementary.narrow (theta.pow (2 * Float.ofNat i / Float.ofNat dim))

def turnsAt (turn : Float32 → Turn) (frequencies : List Float32) (position : Nat) : List Turn :=
  frequencies.map fun f => turn (Float32.ofNat position * f)

/-- Keeps the turns of the positions below `count`; others are computed when they are used. Where
there is no pair to turn nothing is kept. -/
def new [Elementary] (dim count : Nat) (theta : Float) : Rotary :=
  let frequencies := frequencyList dim theta
  let turn (angle : Float32) : Turn := (Elementary.cos angle, Elementary.sin angle)
  let kept := if frequencies.isEmpty then 0 else count
  { dim := dim, frequencies := frequencies, turn := turn
    table := ((List.range kept).map (turnsAt turn frequencies)).toArray }

def turns (r : Rotary) (position : Nat) : List Turn :=
  match r.table[position]? with
  | some turns => turns
  | none => turnsAt r.turn r.frequencies position

/-- Turns each pair of `xs` and `ys`; elements without a turn stay. -/
def rotate : List Turn → List Float32 → List Float32 → List Float32 × List Float32
  | (cos, sin) :: turns, x :: xs, y :: ys =>
    let (left, right) := rotate turns xs ys
    ((x * cos - y * sin) :: left, (y * cos + x * sin) :: right)
  | _, xs, ys => (xs, ys)

/-- Rotates one head at an absolute position. -/
def apply (r : Rotary) (head : List Float32) (position : Nat) : List Float32 :=
  let half := r.dim / 2
  let (left, right) := rotate (r.turns position) (head.take half) (head.drop half)
  left ++ right

/-- Rotates every head of a row. -/
def applyHeads (r : Rotary) (row : List Float32) (position : Nat) : List Float32 :=
  (pieces r.dim row).flatMap (fun head => r.apply head position) ++
    row.drop (row.length / r.dim * r.dim)

end Rotary

end CausalServe
