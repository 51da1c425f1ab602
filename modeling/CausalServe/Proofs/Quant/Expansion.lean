import CausalServe.Proofs.Kernel.Rows
import CausalServe.Proofs.Traverse
import CausalServe.Tensor.Descriptor

/-! What stored codes expand to. Where no block is missing, the elements of a matrix are those of its
rows in order, and each row has an element for each column. -/

namespace CausalServe

/-! ## Sizes in words -/

/-- A product that wraps at every size is the product of all sizes that wraps once. -/
theorem foldl_wordMul (shape : List Nat) (n : Nat) :
    shape.foldl wordMul (n % wordSize) = n * shape.prod % wordSize := by
  induction shape generalizing n with
  | nil => rw [List.foldl_nil, List.prod_nil, Nat.mul_one]
  | cons size shape ih =>
    rw [List.foldl_cons, wordMul, Nat.mod_mul_mod, ih, List.prod_cons, Nat.mul_assoc]

/-- A shape whose elements a word can count has as many as its sizes say. -/
theorem elementCount_eq {shape : List Nat} (h : shape.prod < wordSize) :
    elementCount shape = shape.prod := by
  have hwrapped := foldl_wordMul shape 1
  rwa [Nat.mod_eq_of_lt (by decide), Nat.one_mul, Nat.mod_eq_of_lt h] at hwrapped

theorem prod_matrix (rows cols : Nat) : [rows, cols].prod = rows * cols := by
  rw [List.prod_cons, List.prod_singleton]

theorem elementCount_matrix {rows cols : Nat} (h : rows * cols < wordSize) :
    elementCount [rows, cols] = rows * cols := by
  rw [elementCount_eq (prod_matrix rows cols ▸ h), prod_matrix]

/-! ## Blocks -/

theorem Encoding.length_unpack {e : Encoding} {bytes : List UInt8}
    (h : bytes.length = e.bytesPerBlock) : (e.unpack bytes).length = blockSize := by
  cases e with
  | q8 => rw [Encoding.unpack, List.length_map, h]; rfl
  | q4 =>
    have hwidth : ∀ codes ∈ bytes.map nibbleCodes, codes.length = 2 := by
      intro codes hcodes
      obtain ⟨b, -, rfl⟩ := List.mem_map.mp hcodes
      rfl
    rw [Encoding.unpack, List.flatMap_def, length_flatten_of_width hwidth, List.length_map, h]
    rfl

/-- Every block expands to as many elements as it has codes. -/
theorem QuantizedMatrix.length_expand {α : Type} [Scalar α] (e : Encoding) {bytes : List UInt8}
    {scales : List α} (h : bytes.length = scales.length * e.bytesPerBlock) :
    (QuantizedMatrix.expand e bytes scales).length = scales.length * blockSize := by
  have hpos : 0 < e.bytesPerBlock := by cases e <;> decide
  have hwidth : ∀ values ∈ ((pieces e.bytesPerBlock bytes).zip scales).map fun entry =>
      (e.unpack entry.1).map fun c => Scalar.ofCode c * entry.2, values.length = blockSize := by
    intro values hvalues
    obtain ⟨⟨codes, scale⟩, hpair, rfl⟩ := List.mem_map.mp hvalues
    exact (List.length_map ..).trans
      (Encoding.length_unpack (length_of_mem_pieces (List.of_mem_zip hpair).1))
  rw [expand, List.flatMap_def, length_flatten_of_width hwidth, List.length_map, List.length_zip,
    length_pieces, h, Nat.mul_div_cancel _ hpos, Nat.min_self]

namespace QuantizedMatrix

variable {α : Type} [Scalar α]

/-- Whole blocks expand apart from those that follow. -/
theorem expand_append (e : Encoding) {bytes : List UInt8} {scales : List α}
    (h : bytes.length = scales.length * e.bytesPerBlock) (bytes' : List UInt8)
    (scales' : List α) : expand e (bytes ++ bytes') (scales ++ scales') =
      expand e bytes scales ++ expand e bytes' scales' := by
  have hpos : 0 < e.bytesPerBlock := by cases e <;> decide
  have hcount : (pieces e.bytesPerBlock bytes).length = scales.length := by
    rw [length_pieces, h, Nat.mul_div_cancel _ hpos]
  rw [expand, pieces_append hpos h, List.zip_append hcount, List.flatMap_append]
  rfl

/-- Blocks are expanded in groups of one size. -/
theorem expand_eq_flatMap (e : Encoding) (width : Nat) {groups : Nat} {bytes : List UInt8}
    {scales : List α} (hscales : scales.length = groups * width)
    (hbytes : bytes.length = scales.length * e.bytesPerBlock) :
    expand e bytes scales = (List.range groups).flatMap fun r =>
      expand e ((bytes.drop (r * width * e.bytesPerBlock)).take (width * e.bytesPerBlock))
        ((scales.drop (r * width)).take width) := by
  induction groups generalizing bytes scales with
  | zero =>
    rw [Nat.zero_mul] at hscales
    rw [List.length_eq_zero_iff.mp hscales, expand, List.zip_nil_right]
    rfl
  | succ groups ih =>
    rw [Nat.add_mul, Nat.one_mul] at hscales
    rw [hscales, Nat.add_mul] at hbytes
    have hscales' : (scales.drop width).length = groups * width := by
      rw [List.length_drop]
      omega
    have hbytes' : (bytes.drop (width * e.bytesPerBlock)).length =
        (scales.drop width).length * e.bytesPerBlock := by
      rw [List.length_drop, hscales']
      omega
    have hfirst : (scales.take width).length = width := by
      rw [List.length_take]
      omega
    have hfirst' : (bytes.take (width * e.bytesPerBlock)).length =
        (scales.take width).length * e.bytesPerBlock := by
      rw [hfirst, List.length_take]
      omega
    have happend := expand_append e hfirst' (bytes.drop (width * e.bytesPerBlock))
      (scales.drop width)
    rw [List.take_append_drop, List.take_append_drop, ih hscales' hbytes'] at happend
    rw [happend, List.range_succ_eq_map, List.flatMap_cons, List.flatMap_map]
    simp only [Nat.zero_mul, List.drop_zero, List.drop_drop, Nat.succ_eq_add_one, Nat.add_mul,
      Nat.one_mul, Nat.add_comm]

/-! ## Rows -/

/-- No block of any row is missing. -/
structure Complete (q : QuantizedMatrix α) : Prop where
  cols : blockSize ∣ q.cols
  scales : q.scales.length = q.rows * q.blocksPerRow
  data : q.data.length = q.scales.length * q.encoding.bytesPerBlock

variable {q : QuantizedMatrix α}

/-- A row has an element for each column. -/
theorem Complete.length_row (h : q.Complete) {r : Nat} (hr : r < q.rows) :
    (q.row r).length = q.cols := by
  -- the blocks of the row end within those of all rows
  have hend : r * q.blocksPerRow + q.blocksPerRow ≤ q.rows * q.blocksPerRow := by
    rw [← Nat.succ_mul]
    exact Nat.mul_le_mul_right _ hr
  have hbytes := Nat.mul_le_mul_right q.encoding.bytesPerBlock hend
  rw [Nat.add_mul] at hbytes
  have hblocks : ((q.scales.drop (r * q.blocksPerRow)).take q.blocksPerRow).length =
      q.blocksPerRow := by
    rw [List.length_take, List.length_drop, h.scales]
    omega
  unfold row
  simp only
  rw [length_expand, hblocks, blocksPerRow, Nat.div_mul_cancel h.cols]
  rw [hblocks, List.length_take, List.length_drop, h.data, h.scales]
  omega

/-- All elements are those of the rows in order. -/
theorem Complete.dequantize_eq (h : q.Complete) :
    q.dequantize = ((List.range q.rows).map q.row).flatten := by
  rw [← List.flatMap_def]
  exact expand_eq_flatMap q.encoding q.blocksPerRow h.scales h.data

/-- A matrix that is complete has all its elements. -/
theorem Complete.length_dequantize (h : q.Complete) : q.dequantize.length = q.rows * q.cols := by
  have hwidth : ∀ row ∈ (List.range q.rows).map q.row, row.length = q.cols := by
    intro row hrow
    obtain ⟨r, hr, rfl⟩ := List.mem_map.mp hrow
    exact h.length_row (List.mem_range.mp hr)
  rw [h.dequantize_eq, length_flatten_of_width hwidth, List.length_map, List.length_range]

theorem ofRaw_eq_ok {e : Encoding} {rows cols : Nat} {data : List UInt8} {scales : List Float32}
    {q : QuantizedMatrix Float32} (h : ofRaw e rows cols data scales = .ok q) :
    cols % blockSize = 0 ∧ scales.length = wordMul rows cols / blockSize ∧
      data.length = wordMul (wordMul rows cols / blockSize) e.bytesPerBlock ∧
      q = ⟨e, rows, cols, data, scales⟩ := by
  unfold ofRaw at h
  simp only at h
  split at h
  next => cases h
  next hcols =>
    split at h
    next => cases h
    next hscales =>
      split at h
      next => cases h
      next hdata =>
        obtain ⟨_, -, h⟩ := bind_eq_ok.mp h
        cases h
        exact ⟨not_not.mp hcols, not_not.mp hscales, not_not.mp hdata, rfl⟩

/-- A stored matrix whose size is a word is complete. -/
theorem complete_of_ofRaw {e : Encoding} {rows cols : Nat} {data : List UInt8}
    {scales : List Float32} {q : QuantizedMatrix Float32} (hsize : rows * cols < wordSize)
    (h : ofRaw e rows cols data scales = .ok q) : q.Complete := by
  obtain ⟨hcols, hscales, hdata, rfl⟩ := ofRaw_eq_ok h
  have hdvd := Nat.dvd_of_mod_eq_zero hcols
  have hbytes : e.bytesPerBlock ≤ blockSize := by cases e <;> decide
  have hfits : rows * cols / blockSize * e.bytesPerBlock < wordSize :=
    ((Nat.mul_le_mul_left _ hbytes).trans (Nat.div_mul_le_self _ _)).trans_lt hsize
  have hcount : scales.length = rows * cols / blockSize := by
    rw [hscales, wordMul, Nat.mod_eq_of_lt hsize]
  refine ⟨hdvd, hcount.trans (Nat.mul_div_assoc _ hdvd), ?_⟩
  change data.length = scales.length * e.bytesPerBlock
  rw [hdata, ← hscales, hcount, wordMul, Nat.mod_eq_of_lt hfits]

end QuantizedMatrix

end CausalServe
