import CausalServe.Proofs.Model.Rowwise
import CausalServe.Proofs.Quant.Packing

/-! Products with a matrix that is kept in codes. One row of it at a time is expanded, and gives one
column of the product; the result is what the product with the whole expanded matrix is, except that
without any columns there is no row to cut the other matrix into. -/

namespace CausalServe

/-! ## Matrices that were made here -/

namespace QuantizedMatrix

def blockOf (e : Encoding) (values : List Float32) : Block :=
  Block.quantize (Vector.ofFn fun j => values.getD j 0) e

/-- Block after block is quantized on its own. -/
theorem quantizeBlocks_eq_ok {e : Encoding} {cols i : Nat} {runs : List (List Float32)}
    {blocks : List Block} (h : quantizeBlocks e cols i runs = .ok blocks) :
    blocks = runs.map (blockOf e) := by
  induction runs generalizing i blocks with
  | nil => exact (Except.ok.inj h).symm
  | cons values rest ih =>
    unfold quantizeBlocks at h
    obtain ⟨-, h⟩ := ok_of_guard h
    obtain ⟨others, hothers, h⟩ := bind_eq_ok.mp h
    rw [← Except.ok.inj h, ih hothers]
    rfl

theorem quantize_eq_ok {values : List Float32} {rows cols : Nat} {e : Encoding}
    {q : QuantizedMatrix Float32} (h : quantize values rows cols e = .ok q) :
    cols % blockSize = 0 ∧ values.length = wordMul rows cols ∧
      let blocks := (pieces blockSize values).map (blockOf e)
      q = ⟨e, rows, cols, blocks.flatMap Block.toBytes, blocks.map Block.scale⟩ := by
  unfold quantize at h
  obtain ⟨hcols, h⟩ := ok_of_guard h
  obtain ⟨hlen, h⟩ := ok_of_guard h
  obtain ⟨blocks, hblocks, h⟩ := bind_eq_ok.mp h
  rw [quantizeBlocks_eq_ok hblocks] at h
  exact ⟨not_not.mp hcols, not_not.mp hlen, (Except.ok.inj h).symm⟩

theorem counts_of_quantize {values : List Float32} {rows cols : Nat} {e : Encoding}
    {q : QuantizedMatrix Float32} (h : quantize values rows cols e = .ok q) :
    q.scales.length = wordMul rows cols / blockSize ∧
      q.data.length = q.scales.length * e.bytesPerBlock := by
  obtain ⟨-, hlen, rfl⟩ := quantize_eq_ok h
  have hwidth : ∀ bytes ∈ ((pieces blockSize values).map (blockOf e)).map Block.toBytes,
      bytes.length = e.bytesPerBlock := by
    intro bytes hbytes
    obtain ⟨block, hblock, rfl⟩ := List.mem_map.mp hbytes
    obtain ⟨run, -, rfl⟩ := List.mem_map.mp hblock
    exact Block.length_toBytes _
  constructor
  · simp only [List.length_map, length_pieces, hlen]
  · simp only [List.flatMap_def, length_flatten_of_width hwidth, List.length_map]

/-- Quantization leaves no block out, if the number of elements is a word. -/
theorem complete_of_quantize {values : List Float32} {rows cols : Nat} {e : Encoding}
    {q : QuantizedMatrix Float32} (hsize : rows * cols < wordSize)
    (h : quantize values rows cols e = .ok q) : q.Complete := by
  obtain ⟨hscales, hdata⟩ := counts_of_quantize h
  obtain ⟨hcols, -, rfl⟩ := quantize_eq_ok h
  have hdvd := Nat.dvd_of_mod_eq_zero hcols
  rw [wordMul, Nat.mod_eq_of_lt hsize, Nat.mul_div_assoc _ hdvd] at hscales
  exact ⟨hdvd, hscales, hdata⟩

/-! ## Products -/

variable {α : Type} [Scalar α] {q : QuantizedMatrix α} {d : Dispatcher} {m : Nat} {x out : List α}

theorem Complete.whole (h : q.Complete) (hcols : q.cols ≠ 0) : q.Whole :=
  fun _ => ⟨hcols, fun _ hr => h.length_row hr⟩

/-- The rows of all elements are the rows that are expanded one at a time. -/
theorem Complete.pieces_dequantize (h : q.Complete) (hcols : q.cols ≠ 0) :
    pieces q.cols q.dequantize = (List.range q.rows).map q.row := by
  rw [h.dequantize_eq]
  refine pieces_flatten (Nat.pos_of_ne_zero hcols) fun row hrow => ?_
  obtain ⟨r, hr, rfl⟩ := List.mem_map.mp hrow
  exact h.length_row (List.mem_range.mp hr)

/-- The product with the matrix of all elements, row by row. -/
theorem Complete.matmulTransposedInto_eq (h : q.Complete) (hx : x.length = m * q.cols)
    (hout : out.length = m * q.rows) (hcols : q.cols ≠ 0) :
    d.matmulTransposedInto x q.dequantize m q.cols q.rows out =
      .ok ((pieces q.cols x).map (q.project d)).flatten := by
  have hproject : q.project d = fun row => (pieces q.cols q.dequantize).map (d.kernel.dot row) := by
    funext row
    rw [h.pieces_dequantize hcols, List.map_map]
    rfl
  unfold Dispatcher.matmulTransposedInto
  simp only [hx, h.length_dequantize, hout, hcols, ne_eq, not_true_eq_false, if_false]
  split
  next hz =>
    have hnone : ((pieces q.cols x).map (q.project d)).flatten.length = 0 := by
      have hwidth : ∀ row ∈ (pieces q.cols x).map (q.project d), row.length = q.rows := by
        intro row hrow
        obtain ⟨run, -, rfl⟩ := List.mem_map.mp hrow
        exact (List.length_map ..).trans List.length_range
      rw [length_flatten_of_width hwidth, List.length_map, length_pieces, hx,
        Nat.mul_div_cancel _ (Nat.pos_of_ne_zero hcols)]
      exact Nat.mul_eq_zero.mpr hz
    rw [Nat.mul_eq_zero.mpr hz] at hout
    rw [List.length_eq_zero_iff.mp hnone, List.length_eq_zero_iff.mp hout]
    rfl
  next => rw [hproject, ← List.flatMap_def]; rfl

/-- Sums over nothing are zero. -/
theorem Complete.matmulTransposedInto_of_empty (h : q.Complete) (hx : x.length = m * q.cols)
    (hout : out.length = m * q.rows) (hcols : q.cols = 0) :
    d.matmulTransposedInto x q.dequantize m q.cols q.rows out =
      .ok (List.replicate (m * q.rows) Scalar.zero) := by
  unfold Dispatcher.matmulTransposedInto
  simp only [hx, h.length_dequantize, hout, hcols, ne_eq, not_true_eq_false, if_false, if_true]
  split
  next hz =>
    rw [Nat.mul_eq_zero.mpr hz] at hout ⊢
    rw [List.length_eq_zero_iff.mp hout]
    rfl
  next => rfl

/-- The product with codes fails where there are entries, but no columns to add up. -/
theorem matmulTransposed_of_empty (hcols : q.cols = 0) (hentries : ¬ (m = 0 ∨ q.rows = 0)) :
    ∃ fault, q.matmulTransposed d x m out = .error fault := by
  unfold matmulTransposed
  by_cases hx : x.length ≠ m * q.cols
  · exact ⟨_, if_pos hx⟩
  by_cases hout : out.length ≠ m * q.rows
  · exact ⟨_, by simp only [hx, if_false]; exact if_pos hout⟩
  · exact ⟨_, by simp only [hx, hout, hentries, if_false]; exact if_pos hcols⟩

/-- Without entries there is nothing to compute. -/
theorem matmulTransposed_of_no_entries (hx : x.length = m * q.cols)
    (hout : out.length = m * q.rows) (hnone : m = 0 ∨ q.rows = 0) :
    q.matmulTransposed d x m out = .ok (List.replicate (m * q.rows) Scalar.zero) := by
  unfold matmulTransposed
  simp only [hx, hout, hnone, ne_eq, not_true_eq_false, if_false, if_true]
  rw [Nat.mul_eq_zero.mpr hnone] at hout ⊢
  rw [List.length_eq_zero_iff.mp hout]
  rfl

theorem Complete.matmulTransposed_eq (h : q.Complete) (hx : x.length = m * q.cols)
    (hout : out.length = m * q.rows) (hcols : q.cols ≠ 0) :
    q.matmulTransposed d x m out = .ok ((pieces q.cols x).map (q.project d)).flatten := by
  have hpos := Nat.pos_of_ne_zero hcols
  have hcount : (pieces q.cols x).length = m := by
    rw [length_pieces, hx, Nat.mul_div_cancel _ hpos]
  have hrows := matmulTransposed_flatten (d := d) (h.whole hcols)
    (fun row hrow => length_of_mem_pieces hrow) (hcount.symm ▸ hout)
  rwa [flatten_pieces hpos ⟨m, hx⟩, hcount] at hrows

/-- A complete matrix in codes multiplies like the matrix of its elements, unless there are entries
and no columns. -/
theorem Complete.matmulTransposed_iff (h : q.Complete) (hx : x.length = m * q.cols) :
    ∃ y, (∀ out, out.length = m * q.rows →
        d.matmulTransposedInto x q.dequantize m q.cols q.rows out = .ok y) ∧
      ∀ out, out.length = m * q.rows →
        (q.matmulTransposed d x m out = .ok y ↔ q.cols ≠ 0 ∨ m = 0 ∨ q.rows = 0) := by
  by_cases hcols : q.cols = 0
  · refine ⟨_, fun out hout => h.matmulTransposedInto_of_empty hx hout hcols, fun out hout => ?_⟩
    by_cases hnone : m = 0 ∨ q.rows = 0
    · exact iff_of_true (matmulTransposed_of_no_entries hx hout hnone) (.inr hnone)
    · have hfault : ∃ fault, q.matmulTransposed d x m out = .error fault :=
        matmulTransposed_of_empty hcols hnone
      obtain ⟨fault, hfault⟩ := hfault
      rw [hfault]
      exact iff_of_false nofun (not_or.mpr ⟨not_not.mpr hcols, hnone⟩)
  · exact ⟨_, fun out hout => h.matmulTransposedInto_eq hx hout hcols,
      fun out hout => iff_of_true (h.matmulTransposed_eq hx hout hcols) (.inl hcols)⟩

/-- A matrix of a size that is a word, whether quantization made it or it was accepted from storage,
yields the same product row by row as expanded whole: on every kernel, for any number of rows on the
left, and whatever the buffer held. The product with the expanded matrix always succeeds, and the
other one does unless it has entries and no columns to add up. -/
theorem product_by_rows {q : QuantizedMatrix Float32} (hsize : q.rows * q.cols < wordSize)
    (hq : (∃ values, quantize values q.rows q.cols q.encoding = .ok q) ∨
      ofRaw q.encoding q.rows q.cols q.data q.scales = .ok q)
    (d : Dispatcher) (m : Nat) {x : List Float32} (hx : x.length = m * q.cols) :
    ∃ y, (∀ out, out.length = m * q.rows →
        d.matmulTransposedInto x q.dequantize m q.cols q.rows out = .ok y) ∧
      ∀ out, out.length = m * q.rows →
        (q.matmulTransposed d x m out = .ok y ↔ q.cols ≠ 0 ∨ m = 0 ∨ q.rows = 0) := by
  have hcomplete : q.Complete := by
    rcases hq with ⟨values, hmade⟩ | hstored
    · exact complete_of_quantize hsize hmade
    · exact complete_of_ofRaw hsize hstored
  exact hcomplete.matmulTransposed_iff hx

theorem two_rows_of_nibbles :
    let q : QuantizedMatrix Float32 :=
      ⟨.q4, 2, 32, List.replicate 16 0x91 ++ List.replicate 16 0x8A, [1, 0.5]⟩
    let x := List.replicate 32 1 ++ List.replicate 32 (-2)
    q.rows * q.cols < wordSize ∧ ofRaw .q4 2 32 q.data q.scales = .ok q ∧
      ∀ out, out.length = 4 →
        q.matmulTransposed ⟨.sse, {}⟩ x 2 out = .ok [-96, 16, 192, -32] ∧
        (⟨.sse, {}⟩ : Dispatcher).matmulTransposedInto x q.dequantize 2 32 2 out =
          .ok [-96, 16, 192, -32] := by
  intro q x
  have hsize : q.rows * q.cols < wordSize := by decide
  have hstored : ofRaw .q4 2 32 q.data q.scales = .ok q := by rfl
  obtain ⟨y, hdense, hcodes⟩ := product_by_rows hsize (.inr hstored) ⟨.sse, {}⟩ 2
    (show x.length = 2 * q.cols by decide)
  have hvalue : ((⟨.sse, {}⟩ : Dispatcher).matmulTransposedInto x q.dequantize 2 32 2
      [0, 0, 0, 0]).toOption = some [-96, 16, 192, -32] := by decide +kernel
  obtain rfl : y = [-96, 16, 192, -32] := by
    rw [hdense _ rfl] at hvalue
    exact Option.some.inj hvalue
  exact ⟨hsize, hstored, fun out hout =>
    ⟨(hcodes out hout).mpr (.inl (by decide)), hdense out hout⟩⟩

/-- A matrix without columns: the product by rows has nothing to cut the other matrix by, and fails,
where the expanded matrix gives zeros. -/
theorem no_columns_to_add_up :
    let q : QuantizedMatrix Float32 := ⟨.q8, 1, 0, [], []⟩
    quantize [] 1 0 .q8 = .ok q ∧ ofRaw .q8 1 0 [] [] = .ok q ∧
      (∃ fault, q.matmulTransposed ⟨.scalar, {}⟩ [] 1 [7] = .error fault) ∧
      (⟨.scalar, {}⟩ : Dispatcher).matmulTransposedInto [] q.dequantize 1 0 1 [7] = .ok [0] :=
  ⟨rfl, rfl, ⟨_, rfl⟩, rfl⟩

end QuantizedMatrix

end CausalServe
