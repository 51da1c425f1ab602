import CausalServe.Action
import CausalServe.Kernel.Dispatch

/-! Products as the kernels write them: loops over the columns and the rows of an output buffer,
each store in place of what the buffer held. `Dispatcher.matmulInto` tells the same product without
the buffer. -/

namespace CausalServe

/-! ## Loops -/

/-- Steps `p`, `p + 1` and so on below `k`. -/
def countUp {σ : Type} (step : Nat → σ → σ) (k p : Nat) (s : σ) : σ :=
  if p < k then countUp step k (p + 1) (step p s) else s
termination_by k - p

/-- Four steps at a time as long as four are left, then one by one. -/
def countUpByFours {σ : Type} (step : Nat → σ → σ) (k p : Nat) (s : σ) : σ :=
  if p + 4 ≤ k then countUpByFours step k (p + 4) (countUp step (p + 4) p s)
  else countUp step k p s
termination_by k - p

variable {α : Type}

def slice (place width : Nat) (buffer : List α) : List α := (buffer.drop place).take width

def store (place : Nat) (entries buffer : List α) : List α :=
  buffer.take place ++ entries ++ buffer.drop (place + entries.length)

/-! ## Rows -/

section Rows

variable [Scalar α]

/-- Adds row `p` of `b`, times its entry of `a`, to the accumulators of `width` columns from `j`
on. -/
def addRow (a b : List α) (n j width p : Nat) (acc : List α) : List α :=
  List.zipWith (fun s y => s + a.getD p Scalar.zero * y) acc (slice (p * n + j) width b)

/-- One way to go over the columns of a row: how many are kept together, whether the rows of `b` are
taken four at a time, and what the accumulators start from. -/
structure Sweep (α : Type) where
  width : Nat
  unrolled : Bool
  start : α
  wide : 0 < width := by decide

namespace Sweep

/-- The accumulators of the columns from `j` on, after all rows of `b`. -/
def tile (s : Sweep α) (a b : List α) (n j : Nat) : List α :=
  let add := addRow a b n j s.width
  if s.unrolled then countUpByFours add a.length 0 (List.replicate s.width s.start)
  else countUp add a.length 0 (List.replicate s.width s.start)

/-- Stores tile after tile as long as one fits, and returns the first column after them. -/
def run (s : Sweep α) (a b : List α) (n j : Nat) (row : List α) : Nat × List α :=
  if j + s.width ≤ n then s.run a b n (j + s.width) (store j (s.tile a b n j) row) else (j, row)
termination_by n - j
decreasing_by
  have := s.wide
  omega

/-- Sweeps one after another, each from the column that the one before it has come to. -/
def runAll (a b : List α) (n : Nat) : List (Sweep α) → Nat → List α → List α
  | [], _, row => row
  | s :: sweeps, j, row =>
    let (j, row) := s.run a b n j row
    runAll a b n sweeps j row

end Sweep

namespace Kernel

/-- Wide tiles first, and the last columns one by one. -/
def sweeps : Kernel → List (Sweep α)
  | sse => [⟨16, true, Scalar.zero, by decide⟩, ⟨4, false, Scalar.zero, by decide⟩,
      ⟨1, false, Scalar.zero, by decide⟩]
  | scalar => [⟨4, true, Scalar.zero, by decide⟩, ⟨1, false, Scalar.sumStart, by decide⟩]

/-- Writes one row of a product over `row`. -/
def fillRow (kernel : Kernel) (a b row : List α) : List α :=
  Sweep.runAll a b row.length kernel.sweeps 0 row

end Kernel

/-- Clears a row, and adds the rows of `b` to it one after another. -/
def fillDirect (a b row : List α) : List α :=
  countUp (addRow a b row.length 0 row.length) a.length 0 (row.map fun _ => Scalar.zero)

end Rows

/-! ## Products -/

/-- Fills the rows of an `m × n` buffer in order, each from its row of the `m × k` matrix `a`. -/
def fillRows (fill : List α → List α → List α) (m k n : Nat) (a out : List α) : List α :=
  countUp
    (fun i out => store (i * n) (fill (slice (i * k) k a) (slice (i * n) n out)) out) m 0 out

/-- Each worker fills the rows of its own part of the buffer, and sees nothing of the others. -/
def fillParts (fill : List α → List α → List α) (k n : Nat) :
    List Nat → List α → List α → List α
  | [], _, out => out
  | rows :: parts, a, out =>
    fillRows fill rows k n (a.take (rows * k)) (out.take (rows * n)) ++
      fillParts fill k n parts (a.drop (rows * k)) (out.drop (rows * n))

namespace Dispatcher

/-- The rows that each worker takes. Few rows are not worth a split. -/
def parts (d : Dispatcher) (workers m : Nat) : List Nat :=
  if d.config.parallelRowThreshold ≤ m ∧ 1 < workers then
    let rows := (m + workers - 1) / workers
    List.replicate (m / rows) rows ++ if m % rows = 0 then [] else [m % rows]
  else [m]

variable [Scalar α]

/-- Writes the product of an `m × k` and a `k × n` matrix into an `m × n` buffer, with the rows cut
into consecutive parts unless the product is small. -/
def fillInto (d : Dispatcher) (parts : List Nat) (a b : List α) (m k n : Nat) :
    Action (List α) Unit := do
  Action.ofExcept (checkOperands a b m k n)
  let out ← get
  if out.length ≠ m * n then throw (.shape "matmul out" [m, n] [out.length])
  if m = 0 ∨ n = 0 then return
  if k = 0 then
    set (out.map fun _ => (Scalar.zero : α))
  else if m * k * n ≤ d.config.tinyWorkThreshold then
    set (fillRows (fillDirect · b) m k n a out)
  else
    set (fillParts (d.kernel.fillRow · b) k n parts a out)

end Dispatcher

end CausalServe
