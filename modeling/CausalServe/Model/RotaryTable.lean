import CausalServe.Model.Rotary
import CausalServe.Quant.Buffer

/-! Rotations as they are written: nested loops fill two flat tables, a head finds the turns of its
position at an offset into them, and its pairs are turned in place one after another. Positions
beyond the tables have their turns computed when they are used. `Rotary` tells the same rotations
without offsets. -/

namespace CausalServe

/-- The arithmetic that rotations run on. They use nothing of it but this. -/
class Trigonometric (α : Type) extends Add α, Sub α, Mul α, Div α where
  one : α
  ofFloat : Float → α
  ofPosition : Nat → α
  cos : α → α
  sin : α → α
  /-- The sine and the cosine of an angle, found together. -/
  sinCos : α → α × α

instance : Trigonometric Float32 where
  one := 1
  ofFloat := Float.toFloat32
  ofPosition := Float32.ofNat
  cos := Float32.cos
  sin := Float32.sin
  sinCos x := (x.sin, x.cos)

/-- The element at an index, which may not lie beyond the end. -/
def element {α : Type} (i : Nat) (xs : List α) : Except Error α :=
  match xs[i]? with
  | some x => .ok x
  | none => .error (.contract "an index beyond the end of a list")

structure RotaryTable (α : Type) where
  /-- The width of a head. -/
  dim : Nat
  /-- How many positions have their turns in the tables. -/
  positions : Nat
  /-- The angle from one position to the next, for each pair. -/
  frequencies : List α
  /-- Position after position, a cosine for each pair. -/
  cosines : Array α
  sines : Array α

namespace RotaryTable

open Trigonometric

variable {α : Type} [Trigonometric α]

def frequency (dim : Nat) (theta : Float) (i : Nat) : α :=
  one / ofFloat (theta.pow (2 * Float.ofNat i / Float.ofNat dim))

/-- Appends the turns of one position. -/
def addPosition (frequencies : List α) (tables : Array α × Array α) (position : Nat) :
    Array α × Array α :=
  frequencies.foldl (fun (cosines, sines) f =>
    let angle := ofPosition position * f
    (cosines.push (cos angle), sines.push (sin angle))) tables

/-- Tables for the positions below `count`. Where there is no pair to turn they stay empty. -/
def new (dim count : Nat) (theta : Float) : RotaryTable α :=
  let frequencies := (List.range (dim / 2)).map (frequency dim theta)
  let filled := if frequencies.isEmpty then 0 else count
  let (cosines, sines) := (List.range filled).foldl (addPosition frequencies) (#[], #[])
  ⟨dim, count, frequencies, cosines, sines⟩

/-- Turns pair `i` of the two halves of a head in place, by a cosine and a sine. -/
def rotatePair (turn : α × α) (i : Nat) (halves : List α × List α) :
    Except Error (List α × List α) := do
  let (cos, sin) := turn
  let a ← element i halves.1
  let b ← element i halves.2
  return (halves.1.set i (a * cos - b * sin), halves.2.set i (b * cos + a * sin))

/-- Turns one pair after another, each by the turn that is found for it. -/
def rotatePairs (turn : Nat → Except Error (α × α)) (pairs : Nat) (halves : List α × List α) :
    Except Error (List α × List α) :=
  (List.range pairs).foldlM (fun halves i => do rotatePair (← turn i) i halves) halves

/-- Rotates one head in place at an absolute position. Offsets lie within a table, so that they are
words as its length is. -/
def apply (r : RotaryTable α) (head : List α) (position : Nat) : Except Error (List α) := do
  let half := r.dim / 2
  if head.length < half then throw (.contract "a head of less than half the width")
  let halves := (head.take half, head.drop half)
  let (left, right) ←
    if position < r.positions then do
      let cosines ← cut (position * half) ((position + 1) * half) r.cosines.toList
      let sines ← cut (position * half) ((position + 1) * half) r.sines.toList
      rotatePairs (fun i => return (← element i cosines, ← element i sines)) half halves
    else
      rotatePairs (fun i => do
        let (sin, cos) := sinCos (ofPosition position * (← element i r.frequencies))
        return (cos, sin)) half halves
  return left ++ right

/-- Rotates every head of a row in place. -/
def applyHeads (r : RotaryTable α) (row : List α) (position : Nat) : Except Error (List α) := do
  if r.dim = 0 then throw (.contract "heads of no width")
  let heads ← (pieces r.dim row).mapM (r.apply · position)
  return heads.flatten ++ row.drop (row.length / r.dim * r.dim)

end RotaryTable

end CausalServe
