import CausalServe.Proofs.Kernel.Rows

/-! Products entry by entry. However the columns of the right matrix are tiled, each entry of a
product adds up the products of one row and one column from the left. Rows are given by labels of
their entries, so that a tile of columns is a run of the labels. -/

namespace CausalServe

variable {α γ δ : Type}

/-! ## Matrices as lists -/

section Matrix

variable {m n : Nat}

def matrixRows (M : Matrix (Fin m) (Fin n) α) : List (List α) :=
  (List.finRange m).map fun i => (List.finRange n).map (M i)

def rowMajor (M : Matrix (Fin m) (Fin n) α) : List α := (matrixRows M).flatten

theorem rowMajor_eq_flatMap (M : Matrix (Fin m) (Fin n) α) :
    rowMajor M = (List.finRange m).flatMap fun i => (List.finRange n).map (M i) := by
  rw [rowMajor, matrixRows, List.flatMap_def]

theorem length_matrixRows (M : Matrix (Fin m) (Fin n) α) : (matrixRows M).length = m := by
  rw [matrixRows, List.length_map, List.length_finRange]

theorem length_of_mem_matrixRows {M : Matrix (Fin m) (Fin n) α} {row : List α}
    (h : row ∈ matrixRows M) : row.length = n := by
  obtain ⟨i, -, rfl⟩ := List.mem_map.mp h
  rw [List.length_map, List.length_finRange]

theorem length_rowMajor (M : Matrix (Fin m) (Fin n) α) : (rowMajor M).length = m * n := by
  rw [rowMajor, length_flatten_of_width fun _ => length_of_mem_matrixRows, length_matrixRows]

theorem pieces_rowMajor (hn : 0 < n) (M : Matrix (Fin m) (Fin n) α) :
    pieces n (rowMajor M) = matrixRows M :=
  pieces_flatten hn fun _ => length_of_mem_matrixRows

theorem interleave_matrixRows (M : Matrix (Fin m) (Fin n) α) :
    interleave n (matrixRows M) = rowMajor M.transpose := by
  have h := interleave_map M (List.finRange m) (List.finRange n)
  rwa [List.length_finRange] at h

/-- Also where there are no columns to cut the rows by. -/
theorem interleave_pieces_rowMajor (M : Matrix (Fin m) (Fin n) α) :
    interleave n (pieces n (rowMajor M)) = rowMajor M.transpose := by
  rcases Nat.eq_zero_or_pos n with rfl | hn
  · have hnone : (rowMajor M.transpose).length = 0 := (length_rowMajor _).trans (Nat.zero_mul _)
    rw [List.length_eq_zero_iff.mp hnone, pieces, Nat.div_zero]
    rfl
  · rw [pieces_rowMajor hn, interleave_matrixRows]

theorem getElem?_rowMajor (M : Matrix (Fin m) (Fin n) α) (i : Fin m) (j : Fin n) :
    (rowMajor M)[(i : Nat) * n + j]? = some (M i j) := by
  rw [rowMajor, getElem?_flatten_of_width (fun _ => length_of_mem_matrixRows) _ j.isLt, matrixRows]
  simp

/-- Every list of the right length is a matrix. -/
theorem exists_rowMajor {values : List α} (h : values.length = m * n) :
    ∃ M : Matrix (Fin m) (Fin n) α, rowMajor M = values := by
  let entry (i : Fin (m * n)) : α := values.get (i.cast h.symm)
  refine ⟨fun i j => entry ⟨i * n + j, ?_⟩, ?_⟩
  · calc (i : Nat) * n + j < i * n + n := Nat.add_lt_add_left j.isLt _
      _ = (i + 1) * n := (Nat.succ_mul ..).symm
      _ ≤ m * n := Nat.mul_le_mul_right n i.isLt
  · have hall : List.ofFn entry = values :=
      (List.ofFn_congr h values.get).symm.trans (List.ofFn_get values)
    rw [← hall, List.ofFn_mul]
    simp only [rowMajor, matrixRows, List.ofFn_eq_map]

end Matrix

/-! ## Rows -/

namespace Kernel

variable [Scalar α]

/-- One entry of a product: the products of a row and a column, added from the left. -/
def entry (a b : δ → α) (inner : List δ) (start : α) : α :=
  inner.foldl (fun acc p => acc + a p * b p) start

/-- What the columns start from. Those that no tile takes may be apart. -/
def starts (tailStart : α) : List Nat → Nat → List α
  | [], n => List.replicate n tailStart
  | width :: narrower, n =>
    List.replicate (n / width * width) Scalar.zero ++ starts tailStart narrower (n % width)

variable (a : δ → α) (b : δ → γ → α) (inner : List δ)

/-- Each accumulator keeps to its own column. -/
theorem accumulate_map {starts : List α} {columns : List γ}
    (h : starts.length = columns.length) :
    accumulate starts (inner.map a) (inner.map fun p => columns.map (b p)) =
      List.zipWith (fun start j => entry a (b · j) inner start) starts columns := by
  induction inner generalizing starts with
  | nil =>
    refine List.ext_getElem ?_ fun i _ hi => ?_
    · rw [List.length_zipWith, h, Nat.min_self]
      exact h
    · rw [List.getElem_zipWith]
      rfl
  | cons p inner ih =>
    have hlen : (List.zipWith (fun s y => s + a p * y) starts (columns.map (b p))).length =
        columns.length := by
      rw [List.length_zipWith, List.length_map, h, Nat.min_self]
    refine (ih hlen).trans (List.ext_getElem ?_ fun i _ _ => ?_)
    · rw [List.length_zipWith, hlen, Nat.min_self, List.length_zipWith, h, Nat.min_self]
    · rw [List.getElem_zipWith, List.getElem_zipWith, List.getElem_zipWith, List.getElem_map]
      rfl

/-- Tiles leave the columns after them as they are. -/
theorem tiles_map {width count : Nat} {columns : List γ} (h : count * width ≤ columns.length) :
    tiles width (inner.map a) count (inner.map fun p => columns.map (b p)) =
      (List.zipWith (fun start j => entry a (b · j) inner start)
          (List.replicate (count * width) Scalar.zero) (columns.take (count * width)),
        inner.map fun p => (columns.drop (count * width)).map (b p)) := by
  induction count generalizing columns with
  | zero =>
    rw [Nat.zero_mul]
    rfl
  | succ count ih =>
    rw [Nat.add_mul, Nat.one_mul] at h ⊢
    have hrest : count * width ≤ (columns.drop width).length := by
      rw [List.length_drop]
      omega
    have hfirst : (List.replicate width (Scalar.zero : α)).length =
        (columns.take width).length := by
      rw [List.length_replicate, List.length_take]
      omega
    have htake : (inner.map fun p => columns.map (b p)).map (·.take width) =
        inner.map fun p => (columns.take width).map (b p) := by
      simp only [List.map_map, Function.comp_def, List.map_take]
    have hdrop : (inner.map fun p => columns.map (b p)).map (·.drop width) =
        inner.map fun p => (columns.drop width).map (b p) := by
      simp only [List.map_map, Function.comp_def, List.map_drop]
    rw [tiles, htake, hdrop, ih hrest, accumulate_map a b inner hfirst]
    simp only [List.drop_drop]
    rw [Nat.add_comm (count * width), List.take_add, List.replicate_add, List.zipWith_append hfirst]

/-- However its columns are tiled, a row of a product is that of the sums from the left. -/
theorem columns_map (tailStart : α) (widths : List Nat) {n : Nat} {columns : List γ}
    (h : columns.length = n) :
    Kernel.columns tailStart (inner.map a) widths n (inner.map fun p => columns.map (b p)) =
      List.zipWith (fun start j => entry a (b · j) inner start) (starts tailStart widths n)
        columns := by
  induction widths generalizing n columns with
  | nil => exact accumulate_map a b inner (List.length_replicate.trans h.symm)
  | cons width narrower ih =>
    have hle : n / width * width ≤ columns.length := h ▸ Nat.div_mul_le_self n width
    have hrest : (columns.drop (n / width * width)).length = n % width := by
      have hdiv := Nat.div_add_mod' n width
      rw [List.length_drop]
      omega
    have htaken : (List.replicate (n / width * width) (Scalar.zero : α)).length =
        (columns.take (n / width * width)).length := by
      rw [List.length_replicate, List.length_take, Nat.min_eq_left hle]
    rw [Kernel.columns, tiles_map a b inner hle]
    simp only
    rw [ih hrest, starts, ← List.zipWith_append htaken, List.take_append_drop]

end Kernel

/-! ## Products -/

namespace Dispatcher

variable [Scalar α] (d : Dispatcher) {m k n : Nat}

def starts (m k n : Nat) : List α :=
  if m * k * n ≤ d.config.tinyWorkThreshold then List.replicate n Scalar.zero
  else Kernel.starts d.kernel.tailStart d.kernel.tileWidths n

/-- Each entry of a product is told by one row and one column. -/
theorem product_rowMajor (hm : m ≠ 0) (hk : k ≠ 0) (hn : n ≠ 0) (A : Matrix (Fin m) (Fin k) α)
    (B : Matrix (Fin k) (Fin n) α) : d.product (rowMajor A) (rowMajor B) m k n =
      (List.finRange m).flatMap fun i =>
        List.zipWith (fun start j => Kernel.entry (A i) (B · j) (List.finRange k) start)
          (d.starts m k n) (List.finRange n) := by
  unfold product starts
  simp only [hm, hk, hn, or_self, if_false]
  rw [pieces_rowMajor (Nat.pos_of_ne_zero hk), pieces_rowMajor (Nat.pos_of_ne_zero hn)]
  split
  next =>
    have hlen : (List.replicate n (Scalar.zero : α)).length = (List.finRange n).length := by
      rw [List.length_replicate, List.length_finRange]
    exact (List.flatMap_map ..).trans
      (List.flatMap_congr fun i _ => Kernel.accumulate_map (A i) B _ hlen)
  next =>
    exact (List.flatMap_map ..).trans
      (List.flatMap_congr fun i _ => Kernel.columns_map (A i) B _ _ _ List.length_finRange)

end Dispatcher

end CausalServe
