import CausalServe.Kernel.Level
import CausalServe.Kernel.Scalar

/-! Rows of a matrix product and inner products, each kernel with its own order of additions.
Matrices are row-major lists. -/

namespace CausalServe

/-- The first `count` runs of `width` elements. -/
def takePieces {α : Type} (width : Nat) : Nat → List α → List (List α)
  | 0, _ => []
  | count + 1, xs => xs.take width :: takePieces width count (xs.drop width)

/-- The full runs of `width` elements; a shorter rest is left out. -/
def pieces {α : Type} (width : Nat) (xs : List α) : List (List α) :=
  takePieces width (xs.length / width) xs

/-- The first entry of each list, then the second of each, and so on up to the `n`th. Of the rows
of a matrix with `n` columns this is the transpose. -/
def interleave {α : Type} : Nat → List (List α) → List α
  | _, [] => []
  | 0, _ :: _ => []
  | n + 1, first :: others =>
    (first :: others).flatMap (·.take 1) ++ interleave n ((first :: others).map (·.drop 1))

namespace Kernel

variable {α : Type} [Scalar α]

/-! ## Products -/

/-- Accumulators of neighbouring columns, over the rows of `b` in order: each row adds its entries
times the matching entry of `a`. -/
def accumulate (start : List α) (a : List α) (b : List (List α)) : List α :=
  (a.zip b).foldl (fun acc (x, row) => List.zipWith (fun s y => s + x * y) acc row) start

/-- The first `count` tiles of `width` columns, and the columns that are left. -/
def tiles (width : Nat) (a : List α) : Nat → List (List α) → List α × List (List α)
  | 0, b => ([], b)
  | count + 1, b =>
    let first := accumulate (List.replicate width Scalar.zero) a (b.map (·.take width))
    let (others, left) := tiles width a count (b.map (·.drop width))
    (first ++ others, left)

/-- Tiles of each width in turn as long as they fit, then the last columns one by one. -/
def columns (tailStart : α) (a : List α) : List Nat → Nat → List (List α) → List α
  | [], n, b => accumulate (List.replicate n tailStart) a b
  | width :: narrower, n, b =>
    let (tiled, left) := tiles width a (n / width) b
    tiled ++ columns tailStart a narrower (n % width) left

/-- The columns whose accumulators are kept in registers together. -/
def tileWidths : Kernel → List Nat
  | sse => [16, 4]
  | scalar => [4]

/-- What a column outside the tiles starts from: the scalar kernel takes a plain sum there. -/
def tailStart : Kernel → α
  | sse => Scalar.zero
  | scalar => Scalar.sumStart

/-- One row of a product with `n` columns. -/
def row (k : Kernel) (n : Nat) (b : List (List α)) (a : List α) : List α :=
  columns k.tailStart a k.tileWidths n b

/-- One row of a product without tiles. -/
def directRow (n : Nat) (b : List (List α)) (a : List α) : List α :=
  accumulate (List.replicate n Scalar.zero) a b

/-! ## Inner products -/

/-- A plain sum. -/
def sum (xs : List α) : α := xs.foldl (· + ·) Scalar.sumStart

/-- Adds the first `count` runs of `width` terms to the lanes, and returns the terms left. -/
def lanes (width : Nat) : Nat → List α → List α → List α × List α
  | 0, acc, terms => (acc, terms)
  | count + 1, acc, terms =>
    lanes width count (List.zipWith (· + ·) acc (terms.take width)) (terms.drop width)

/-- All full runs of `width` terms. -/
def fillLanes (width : Nat) (acc terms : List α) : List α × List α :=
  lanes width (terms.length / width) acc terms

/-- Four lanes, added in pairs; the rest is summed apart and added last. -/
def scalarTotal (terms : List α) : α :=
  let (acc, rest) := fillLanes 4 (List.replicate 4 Scalar.zero) terms
  let lane (i : Nat) : α := acc.getD i Scalar.zero
  (lane 0 + lane 1) + (lane 2 + lane 3) + sum rest

/-- Sixteen lanes in four registers. Full registers that remain go to the first one; the lanes are
summed in order, and what is left is added term by term. -/
def sseTotal (terms : List α) : α :=
  let (acc, rest) := fillLanes 16 (List.replicate 16 Scalar.zero) terms
  let (first, rest) := fillLanes 4 (acc.take 4) rest
  rest.foldl (· + ·) (sum (first ++ acc.drop 4))

def total : Kernel → List α → α
  | sse => sseTotal
  | scalar => scalarTotal

/-- The inner product of two vectors of one length. -/
def dot (k : Kernel) (x y : List α) : α := k.total (List.zipWith (· * ·) x y)

end Kernel

end CausalServe
