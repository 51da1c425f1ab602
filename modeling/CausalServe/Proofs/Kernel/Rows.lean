import Mathlib
import CausalServe.Kernel.Dispatch

/-! Products row by row. Each row of a product is computed from its own row of the left matrix, by
the same steps however many rows there are, unless small products take a shorter way. -/

namespace CausalServe

variable {α : Type}

/-! ## Runs of one width -/

theorem length_takePieces (width count : Nat) (xs : List α) :
    (takePieces width count xs).length = count := by
  induction count generalizing xs with
  | zero => rfl
  | succ count ih => rw [takePieces, List.length_cons, ih]

theorem length_pieces (width : Nat) (xs : List α) :
    (pieces width xs).length = xs.length / width :=
  length_takePieces ..

theorem length_of_mem_takePieces {width count : Nat} {xs : List α}
    (h : count * width ≤ xs.length) : ∀ run ∈ takePieces width count xs, run.length = width := by
  induction count generalizing xs with
  | zero =>
    intro run hrun
    exact absurd hrun List.not_mem_nil
  | succ count ih =>
    rw [Nat.add_mul, Nat.one_mul] at h
    intro run hrun
    rcases List.mem_cons.mp hrun with rfl | hrun
    · rw [List.length_take]
      omega
    · refine ih ?_ run hrun
      rw [List.length_drop]
      omega

theorem length_of_mem_pieces {width : Nat} {xs run : List α} (h : run ∈ pieces width xs) :
    run.length = width :=
  length_of_mem_takePieces (Nat.div_mul_le_self _ _) run h

theorem length_flatten_of_width {width : Nat} {rows : List (List α)}
    (h : ∀ row ∈ rows, row.length = width) : rows.flatten.length = rows.length * width := by
  rw [List.length_flatten, List.map_congr_left h, List.map_const', List.sum_replicate, smul_eq_mul]

/-- An element of a concatenation is found by its row and its place in it. -/
theorem getElem?_flatten_of_width {width : Nat} {rows : List (List α)}
    (h : ∀ row ∈ rows, row.length = width) (r : Nat) {c : Nat} (hc : c < width) :
    rows.flatten[r * width + c]? = rows[r]?.bind (·[c]?) := by
  induction rows generalizing r with
  | nil => rfl
  | cons row rows ih =>
    have hrow := h row List.mem_cons_self
    rw [List.flatten_cons]
    cases r with
    | zero =>
      rw [Nat.zero_mul, Nat.zero_add, List.getElem?_append_left (hrow.symm ▸ hc)]
      rfl
    | succ r =>
      have hbeyond : row.length ≤ (r + 1) * width + c := by
        rw [hrow, Nat.succ_mul]
        omega
      rw [List.getElem?_append_right hbeyond, hrow, Nat.succ_mul, Nat.add_right_comm,
        Nat.add_sub_cancel, ih fun other ho => h other (List.mem_cons_of_mem _ ho)]
      rfl

/-- Rows of one width are what their concatenation is cut into. -/
theorem pieces_flatten {width : Nat} (hpos : 0 < width) {rows : List (List α)}
    (h : ∀ row ∈ rows, row.length = width) : pieces width rows.flatten = rows := by
  rw [pieces, length_flatten_of_width h, Nat.mul_div_cancel _ hpos]
  induction rows with
  | nil => rfl
  | cons row rows ih =>
    have hrow := h row List.mem_cons_self
    rw [List.length_cons, takePieces, List.flatten_cons, List.take_left' hrow,
      List.drop_left' hrow, ih fun other ho => h other (List.mem_cons_of_mem _ ho)]

theorem takePieces_append {width count : Nat} {xs : List α} (h : xs.length = count * width)
    (count' : Nat) (ys : List α) : takePieces width (count + count') (xs ++ ys) =
      takePieces width count xs ++ takePieces width count' ys := by
  induction count generalizing xs with
  | zero =>
    rw [Nat.zero_mul] at h
    rw [Nat.zero_add, List.length_eq_zero_iff.mp h]
    rfl
  | succ count ih =>
    rw [Nat.add_mul, Nat.one_mul] at h
    have hdrop : (xs.drop width).length = count * width := by
      rw [List.length_drop]
      omega
    have hle : width ≤ xs.length := by omega
    rw [Nat.add_right_comm, takePieces, takePieces, List.take_append_of_le_length hle,
      List.drop_append_of_le_length hle, ih hdrop]
    rfl

/-- Runs that come out even are cut apart from what follows. -/
theorem pieces_append {width count : Nat} (hpos : 0 < width) {xs : List α}
    (h : xs.length = count * width) (ys : List α) :
    pieces width (xs ++ ys) = pieces width xs ++ pieces width ys := by
  have hall : (xs ++ ys).length / width = count + ys.length / width := by
    rw [List.length_append, h, Nat.add_comm, Nat.add_mul_div_right _ _ hpos, Nat.add_comm]
  have hfirst : xs.length / width = count := by rw [h, Nat.mul_div_cancel _ hpos]
  rw [pieces, hall, takePieces_append h, pieces, hfirst]
  rfl

theorem flatten_takePieces {width count : Nat} {xs : List α} (h : xs.length = count * width) :
    (takePieces width count xs).flatten = xs := by
  induction count generalizing xs with
  | zero =>
    rw [Nat.zero_mul] at h
    rw [List.length_eq_zero_iff.mp h]
    rfl
  | succ count ih =>
    rw [Nat.add_mul, Nat.one_mul] at h
    have hdrop : (xs.drop width).length = count * width := by
      rw [List.length_drop]
      omega
    rw [takePieces, List.flatten_cons, ih hdrop, List.take_append_drop]

/-- A list that comes out even is what its runs are put together to. -/
theorem flatten_pieces {width : Nat} (hpos : 0 < width) {xs : List α}
    (h : ∃ count, xs.length = count * width) : (pieces width xs).flatten = xs := by
  obtain ⟨count, h⟩ := h
  refine flatten_takePieces ?_
  rw [h, Nat.mul_div_cancel _ hpos]

theorem pieces_self {row : List α} (hpos : 0 < row.length) : pieces row.length row = [row] := by
  have hrow : ∀ other ∈ [row], other.length = row.length := by simp
  have h := pieces_flatten hpos hrow
  rwa [List.flatten_singleton] at h

theorem length_interleave {n : Nat} {rows : List (List α)} (h : ∀ row ∈ rows, row.length = n) :
    (interleave n rows).length = n * rows.length := by
  induction n generalizing rows with
  | zero =>
    rw [Nat.zero_mul]
    cases rows <;> rfl
  | succ n ih =>
    cases rows with
    | nil => rfl
    | cons first others =>
      have hheads : ∀ row ∈ (first :: others).map (·.take 1), row.length = 1 := by
        intro row hrow
        obtain ⟨whole, hwhole, rfl⟩ := List.mem_map.mp hrow
        rw [List.length_take, h whole hwhole]
        omega
      have htails : ∀ row ∈ (first :: others).map (·.drop 1), row.length = n := by
        intro row hrow
        obtain ⟨whole, hwhole, rfl⟩ := List.mem_map.mp hrow
        rw [List.length_drop, h whole hwhole]
        rfl
      change ((first :: others).flatMap (·.take 1) ++
        interleave n ((first :: others).map (·.drop 1))).length = _
      rw [List.length_append, ih htails, List.flatMap_def, length_flatten_of_width hheads,
        List.length_map, List.length_map, Nat.add_mul, Nat.mul_one, Nat.one_mul, Nat.add_comm]

/-- The transpose of the columns of a matrix is its rows. -/
theorem interleave_map {β γ : Type} (f : β → γ → α) (columns : List β) (rows : List γ) :
    interleave rows.length (columns.map fun r => rows.map (f r)) =
      (rows.map fun x => columns.map fun r => f r x).flatten := by
  cases columns with
  | nil => simp [interleave]
  | cons first others =>
    induction rows with
    | nil => rfl
    | cons x rows ih =>
      have hheads : ((first :: others).map fun r => (x :: rows).map (f r)).flatMap (·.take 1) =
          (first :: others).map fun r => f r x := by
        rw [List.flatMap_map, List.map_eq_flatMap]
        rfl
      have htails : (((first :: others).map fun r => (x :: rows).map (f r)).map (·.drop 1)) =
          (first :: others).map fun r => rows.map (f r) := by
        simp
      change ((first :: others).map fun r => (x :: rows).map (f r)).flatMap (·.take 1) ++
        interleave rows.length
          (((first :: others).map fun r => (x :: rows).map (f r)).map (·.drop 1)) = _
      rw [hheads, htails, ih]
      rfl

/-! ## Lengths -/

variable [Scalar α]

namespace Kernel

theorem length_accumulate {n : Nat} {start : List α} {b : List (List α)} (a : List α)
    (hs : start.length = n) (hb : ∀ row ∈ b, row.length = n) :
    (accumulate start a b).length = n := by
  have hpairs : ∀ pair ∈ a.zip b, pair.2.length = n := by
    intro pair hpair
    exact hb _ (List.of_mem_zip hpair).2
  unfold accumulate
  generalize a.zip b = pairs at hpairs
  induction pairs generalizing start with
  | nil => exact hs
  | cons pair pairs ih =>
    refine ih ?_ fun other ho => hpairs other (List.mem_cons_of_mem _ ho)
    rw [List.length_zipWith, hs, hpairs pair List.mem_cons_self, Nat.min_self]

theorem length_tiles {width count n : Nat} {b : List (List α)} (a : List α)
    (hb : ∀ row ∈ b, row.length = n) (h : count * width ≤ n) :
    (tiles width a count b).1.length = count * width ∧
      ∀ row ∈ (tiles width a count b).2, row.length = n - count * width := by
  induction count generalizing b n with
  | zero => exact ⟨(Nat.zero_mul _).symm, fun row hrow => by rw [hb row hrow]; omega⟩
  | succ count ih =>
    rw [Nat.add_mul, Nat.one_mul] at h ⊢
    have htake : ∀ row ∈ b.map (·.take width), row.length = width := by
      intro row hrow
      obtain ⟨whole, hwhole, rfl⟩ := List.mem_map.mp hrow
      rw [List.length_take, hb whole hwhole]
      omega
    have hdrop : ∀ row ∈ b.map (·.drop width), row.length = n - width := by
      intro row hrow
      obtain ⟨whole, hwhole, rfl⟩ := List.mem_map.mp hrow
      rw [List.length_drop, hb whole hwhole]
    obtain ⟨hothers, hleft⟩ := ih hdrop (by omega)
    have hfirst := length_accumulate a (List.length_replicate (a := (Scalar.zero : α))) htake
    refine ⟨?_, fun row hrow => ?_⟩
    · rw [tiles, List.length_append, hfirst, hothers, Nat.add_comm]
    · rw [hleft row hrow]
      omega

/-- A row of a product has an entry for each column. -/
theorem length_columns (tailStart : α) (a : List α) (widths : List Nat) {n : Nat}
    {b : List (List α)} (hb : ∀ row ∈ b, row.length = n) :
    (columns tailStart a widths n b).length = n := by
  induction widths generalizing n b with
  | nil => exact length_accumulate a List.length_replicate hb
  | cons width narrower ih =>
    have hdiv := Nat.div_add_mod' n width
    obtain ⟨htiled, hleft⟩ := length_tiles a hb (Nat.div_mul_le_self n width)
    have hrest : ∀ row ∈ (tiles width a (n / width) b).2, row.length = n % width := by
      intro row hrow
      rw [hleft row hrow]
      omega
    rw [columns, List.length_append, htiled, ih hrest, hdiv]

theorem length_row (k : Kernel) (a : List α) {n : Nat} {b : List (List α)}
    (hb : ∀ row ∈ b, row.length = n) : (k.row n b a).length = n :=
  length_columns _ _ _ hb

end Kernel

namespace Dispatcher

variable (d : Dispatcher) {a : List α} {m k n : Nat}

theorem length_product (b : List α) (h : a.length = m * k) :
    (d.product a b m k n).length = m * n := by
  have hb : ∀ row ∈ pieces n b, row.length = n := fun row => length_of_mem_pieces
  have hrows : ∀ f : List α → List α, (∀ x, (f x).length = n) → k ≠ 0 →
      ((pieces k a).flatMap f).length = m * n := by
    intro f hf hk
    have hwidth : ∀ row ∈ (pieces k a).map f, row.length = n := by
      intro row hrow
      obtain ⟨x, -, rfl⟩ := List.mem_map.mp hrow
      exact hf x
    rw [List.flatMap_def, length_flatten_of_width hwidth, List.length_map, length_pieces, h,
      Nat.mul_div_cancel _ (Nat.pos_of_ne_zero hk)]
  unfold product
  split
  next hz => rcases hz with rfl | rfl <;> simp
  next =>
    split
    next => exact List.length_replicate
    next hk =>
      split
      next => exact hrows _ (fun x => Kernel.length_accumulate x List.length_replicate hb) hk
      next => exact hrows _ (fun x => Kernel.length_row _ x hb) hk

theorem matmulInto_eq_ok {b out y : List α} : d.matmulInto a b m k n out = .ok y ↔
    a.length = m * k ∧ b.length = k * n ∧ out.length = m * n ∧ y = d.product a b m k n := by
  unfold matmulInto checkOperands
  by_cases ha : a.length = m * k
  · by_cases hb : b.length = k * n
    · by_cases hout : out.length = m * n
      · simp only [ha, hb, hout, ne_eq, not_true_eq_false, if_false, true_and]
        exact ⟨fun h => (Except.ok.inj h).symm, fun h => congrArg Except.ok h.symm⟩
      · simp only [ha, hb, hout, ne_eq, not_true_eq_false, not_false_eq_true, if_false, if_true,
          false_and, and_false, iff_false]
        exact nofun
    · simp only [ha, hb, ne_eq, not_true_eq_false, not_false_eq_true, if_false, if_true,
        false_and, and_false, iff_false]
      exact nofun
  · simp only [ha, ne_eq, not_false_eq_true, if_true, false_and, iff_false]
    exact nofun

/-- The dispatcher as one row of a batch meets it. Whether a product is small enough for the shorter
way is told by the work over all rows of the batch. -/
def inBatch (d : Dispatcher) (m : Nat) : Dispatcher :=
  { d with config := { d.config with tinyWorkThreshold := d.config.tinyWorkThreshold / m } }

/-- Where no product is small enough for the shorter way, the other rows do not show. -/
theorem inBatch_of_tiny {d : Dispatcher} (h : d.config.tinyWorkThreshold = 0) (m : Nat) :
    d.inBatch m = d := by
  obtain ⟨kernel, config⟩ := d
  obtain ⟨rows, threshold, level⟩ := config
  obtain rfl : threshold = 0 := h
  rw [inBatch, Nat.zero_div]

/-- Every row of a product is computed from its own row of the left matrix. -/
theorem product_flatten {rows : List (List α)} (h : ∀ row ∈ rows, row.length = k) (b : List α)
    (n : Nat) : d.product rows.flatten b rows.length k n =
      (rows.map fun row => (d.inBatch rows.length).product row b 1 k n).flatten := by
  by_cases hn : n = 0
  · simp [product, hn]
  by_cases hm : rows = []
  · simp [product, hm]
  have hlen : rows.length ≠ 0 := fun hz => hm (List.length_eq_zero_iff.mp hz)
  by_cases hk : k = 0
  · simp only [product, hn, hlen, hk, one_ne_zero, or_self, if_false, if_true, Nat.one_mul]
    rw [List.map_const', List.flatten_replicate_replicate]
  · have hwork : 1 * k * n ≤ (d.inBatch rows.length).config.tinyWorkThreshold ↔
        rows.length * k * n ≤ d.config.tinyWorkThreshold := by
      rw [inBatch, Nat.le_div_iff_mul_le (Nat.pos_of_ne_zero hlen), Nat.one_mul,
        Nat.mul_comm (k * n), Nat.mul_assoc]
    have hone : ∀ row ∈ rows, (d.inBatch rows.length).product row b 1 k n =
        if rows.length * k * n ≤ d.config.tinyWorkThreshold then
          Kernel.directRow n (pieces n b) row
        else d.kernel.row n (pieces n b) row := by
      intro row hrow
      have hrowpos : 0 < row.length := h row hrow ▸ Nat.pos_of_ne_zero hk
      have hself : pieces k row = [row] := h row hrow ▸ pieces_self hrowpos
      simp only [product, hn, one_ne_zero, or_self, if_false, hk, hwork, hself,
        List.flatMap_singleton]
      rfl
    rw [List.map_congr_left hone]
    simp only [product, hn, hlen, or_self, if_false, hk]
    rw [pieces_flatten (Nat.pos_of_ne_zero hk) h]
    split
    next => rw [List.flatMap_def]
    next => rw [List.flatMap_def]

end Dispatcher

end CausalServe
