import CausalServe.Proofs.Kernel.Buffer
import CausalServe.Proofs.Quant.Product
import CausalServe.Quant.Buffer

/-! Blocks, rows and whole matrices of codes. A stored matrix is accepted exactly where each of its
blocks is, and decoding it over a buffer, by rows or as a whole, writes what its blocks decode to one
by one. Every offset stays a word as long as the number of elements is one. -/

namespace CausalServe

/-! ## Parts of lists -/

section Parts

variable {α : Type}

theorem cut_eq_ok {start stop : Nat} {xs : List α} (h : start ≤ stop) (hstop : stop ≤ xs.length) :
    cut start stop xs = .ok (slice start (stop - start) xs) := if_pos ⟨h, hstop⟩

theorem slice_slice {place width offset part : Nat} (h : offset + part ≤ width) (xs : List α) :
    slice offset part (slice place width xs) = slice (place + offset) part xs := by
  unfold slice
  rw [List.drop_take, List.take_take, List.drop_drop, min_eq_left (by omega)]

theorem getD_slice {place width i : Nat} (h : i < width) (xs : List α) (default : α) :
    (slice place width xs).getD i default = xs.getD (place + i) default := by
  rw [slice, List.getD_eq_getElem?_getD, List.getD_eq_getElem?_getD, List.getElem?_take_of_lt h,
    List.getElem?_drop]

theorem slice_one {i : Nat} {xs : List α} (h : i < xs.length) (default : α) :
    slice i 1 xs = [xs.getD i default] := by
  rw [slice, List.drop_eq_getElem_cons h, List.getD_eq_getElem _ _ h]
  rfl

/-- The full runs of a list, by their places. -/
theorem pieces_eq_map (width : Nat) (xs : List α) :
    pieces width xs = (List.range (xs.length / width)).map fun i => slice (i * width) width xs := by
  unfold pieces
  induction xs.length / width generalizing xs with
  | zero => rfl
  | succ count ih =>
    rw [takePieces, ih, List.range_succ_eq_map, List.map_cons, List.map_map, Nat.zero_mul]
    refine congrArg (xs.take width :: ·) (List.map_congr_left fun i _ => ?_)
    simp only [slice, List.drop_drop, Function.comp_apply, Nat.succ_eq_add_one, Nat.add_mul,
      Nat.one_mul, Nat.add_comm]

theorem zipOnto_overwrite {β : Type} (f : β → α) {xs : List α} {ys : List β}
    (h : xs.length = ys.length) : zipOnto (fun _ y => f y) xs ys = ys.map f := by
  induction xs generalizing ys with
  | nil =>
    obtain rfl := List.eq_nil_of_length_eq_zero h.symm
    rfl
  | cons x xs ih =>
    cases ys with
    | nil => cases h
    | cons y ys => rw [zipOnto, ih (Nat.succ.inj h), List.map_cons]

end Parts

theorem forM_eq_ok {ε α : Type} {check : α → Except ε Unit} {xs : List α} :
    xs.forM check = .ok () ↔ ∀ x ∈ xs, check x = .ok () := by
  induction xs with
  | nil => exact iff_of_true rfl nofun
  | cons x xs ih =>
    have hcons : (x :: xs).forM check = .ok () ↔
        ∃ u, check x = .ok u ∧ xs.forM check = .ok () := bind_eq_ok
    rw [hcons, List.forall_mem_cons]
    constructor
    · rintro ⟨_, hx, hxs⟩
      exact ⟨hx, ih.mp hxs⟩
    · rintro ⟨hx, hxs⟩
      exact ⟨(), hx, ih.mpr hxs⟩

/-! ## Rows over a buffer -/

namespace QuantizedMatrix

section Rows

variable {α : Type} [Scalar α]

/-- Whatever a buffer held, it then holds the elements of the blocks. -/
theorem fillBlocks_eq {e : Encoding} {blocks : List (List UInt8)} {scales out : List α}
    (hblocks : ∀ bytes ∈ blocks, bytes.length = e.bytesPerBlock)
    (hscales : scales.length = blocks.length) (hout : out.length = blocks.length * blockSize) :
    fillBlocks e blocks scales out = (blocks.zip scales).flatMap fun (bytes, scale) =>
      (e.unpack bytes).map fun c => Scalar.ofCode c * scale := by
  induction blocks generalizing scales out with
  | nil =>
    rw [List.length_nil, Nat.zero_mul] at hout
    rw [List.length_eq_zero_iff.mp hout]
    cases scales <;> rfl
  | cons bytes blocks ih =>
    cases scales with
    | nil => cases hscales
    | cons scale scales =>
      obtain ⟨hbytes, hblocks⟩ := List.forall_mem_cons.mp hblocks
      rw [List.length_cons, Nat.add_mul, Nat.one_mul] at hout
      have hrun : (out.take blockSize).length = (e.unpack bytes).length := by
        rw [List.length_take, Encoding.length_unpack hbytes]
        omega
      have hrest : (out.drop blockSize).length = blocks.length * blockSize := by
        rw [List.length_drop]
        omega
      rw [fillBlocks, if_neg (by omega), zipOnto_overwrite (Scalar.ofCode · * scale) hrun,
        ih hblocks (Nat.succ.inj hscales) hrest, List.zip_cons_cons, List.flatMap_cons]

variable {q : QuantizedMatrix α}

omit [Scalar α] in
/-- Every offset into a matrix whose number of elements is a word is one. -/
theorem Complete.offsets (h : q.Complete) (hsize : q.rows * q.cols < wordSize) {r : Nat}
    (hr : r < q.rows) :
    r * q.blocksPerRow + q.blocksPerRow ≤ q.scales.length ∧
      (r * q.blocksPerRow + q.blocksPerRow) * q.encoding.bytesPerBlock ≤ q.data.length ∧
      q.scales.length < wordSize ∧ q.data.length < wordSize := by
  have hend : r * q.blocksPerRow + q.blocksPerRow ≤ q.scales.length := by
    rw [← Nat.succ_mul, h.scales]
    exact Nat.mul_le_mul_right _ hr
  have hwhole : q.scales.length * blockSize < wordSize := by
    rwa [h.scales, Nat.mul_assoc, blocksPerRow, Nat.div_mul_cancel h.cols]
  have hwide : q.encoding.bytesPerBlock ≤ blockSize := by cases q.encoding <;> decide
  have hbytes := Nat.mul_le_mul_left q.scales.length hwide
  have hsome : q.scales.length ≤ q.scales.length * blockSize := Nat.le_mul_of_pos_right _ (by decide)
  exact ⟨hend, (Nat.mul_le_mul_right _ hend).trans_eq h.data.symm, by omega,
    (h.data.trans_le hbytes).trans_lt hwhole⟩

/-- The offsets of a row are found where the row is. -/
theorem Complete.dequantizeRowInto_eq (h : q.Complete) (hsize : q.rows * q.cols < wordSize)
    {r : Nat} (hr : r < q.rows) {out : List α} (hout : out.length = q.cols) :
    q.dequantizeRowInto r out = .ok (q.row r) := by
  obtain ⟨hscales, hdata, hwords, hbytes⟩ := h.offsets hsize hr
  have hwidth : q.cols = q.blocksPerRow * blockSize := (Nat.div_mul_cancel h.cols).symm
  have hfirst : wordMul r q.blocksPerRow = r * q.blocksPerRow := Nat.mod_eq_of_lt (by omega)
  have hstop : wordAdd (r * q.blocksPerRow) q.blocksPerRow =
      r * q.blocksPerRow + q.blocksPerRow := Nat.mod_eq_of_lt (by omega)
  have hend : wordMul (r * q.blocksPerRow + q.blocksPerRow) q.encoding.bytesPerBlock =
      (r * q.blocksPerRow + q.blocksPerRow) * q.encoding.bytesPerBlock :=
    Nat.mod_eq_of_lt (hdata.trans_lt hbytes)
  have hpos : 0 < q.encoding.bytesPerBlock := by cases q.encoding <;> decide
  rw [Nat.add_mul] at hdata hend
  have hstart : wordMul (r * q.blocksPerRow) q.encoding.bytesPerBlock =
      r * q.blocksPerRow * q.encoding.bytesPerBlock := Nat.mod_eq_of_lt (by omega)
  unfold dequantizeRowInto
  simp only [hfirst, hstop, hstart, hend, Nat.not_le.mpr hr, hout, ne_eq, not_true_eq_false,
    if_false]
  rw [cut_eq_ok (Nat.le_add_right _ _) hdata, cut_eq_ok (Nat.le_add_right _ _) hscales,
    Nat.add_sub_cancel_left, Nat.add_sub_cancel_left]
  have hcount : (pieces q.encoding.bytesPerBlock (slice (r * q.blocksPerRow *
      q.encoding.bytesPerBlock) (q.blocksPerRow * q.encoding.bytesPerBlock) q.data)).length =
      q.blocksPerRow := by
    rw [length_pieces, length_slice hdata, Nat.mul_div_cancel _ hpos]
  exact congrArg Except.ok (fillBlocks_eq (fun bytes hmem => length_of_mem_pieces hmem)
    ((length_slice hscales).trans hcount.symm) (by rw [hout, hwidth, hcount]))

theorem Complete.dequantizeRowsFrom_eq (h : q.Complete) (hsize : q.rows * q.cols < wordSize)
    {count r : Nat} (hr : r + count ≤ q.rows) {out : List α} (hout : out.length = count * q.cols) :
    q.dequantizeRowsFrom count r out = .ok ((List.range' r count).flatMap q.row) := by
  induction count generalizing r out with
  | zero =>
    rw [Nat.zero_mul] at hout
    rw [List.length_eq_zero_iff.mp hout]
    rfl
  | succ count ih =>
    rw [Nat.add_mul, Nat.one_mul] at hout
    have hfirst : (out.take q.cols).length = q.cols := by
      rw [List.length_take]
      omega
    have hrest : (out.drop q.cols).length = count * q.cols := by
      rw [List.length_drop]
      omega
    rw [dequantizeRowsFrom, h.dequantizeRowInto_eq hsize (by omega) hfirst,
      ih (by omega) hrest, List.range'_succ, List.flatMap_cons]
    rfl

/-- All rows are written, in order. -/
theorem Complete.dequantizeRows_eq (h : q.Complete) (hsize : q.rows * q.cols < wordSize) :
    q.dequantizeRows = .ok ((List.range q.rows).flatMap q.row) := by
  unfold dequantizeRows
  have hall : wordMul q.rows q.cols = q.rows * q.cols := Nat.mod_eq_of_lt hsize
  simp only [hall, List.length_replicate]
  split
  next hcols =>
    have hempty : ((List.range q.rows).flatMap q.row).length = 0 := by
      rw [List.flatMap_def, ← h.dequantize_eq, h.length_dequantize, hcols, Nat.mul_zero]
    rw [List.length_eq_zero_iff.mp hempty, hcols]
    rfl
  next hcols =>
    have hpos := Nat.pos_of_ne_zero hcols
    have hcount : (q.rows * q.cols + q.cols - 1) / q.cols = q.rows := by
      rw [Nat.add_sub_assoc hpos, Nat.add_comm, Nat.add_mul_div_right _ _ hpos,
        Nat.div_eq_of_lt (by omega), Nat.zero_add]
    rw [hcount, h.dequantizeRowsFrom_eq hsize (by omega) List.length_replicate,
      List.range_eq_range']

end Rows

/-! ## Block by block -/

def blockAt (e : Encoding) (data : List UInt8) (scales : List Float32) (i : Nat) :
    Except Error Block :=
  Block.ofBytes e (scales.getD i 0) (slice (i * e.bytesPerBlock) e.bytesPerBlock data)

/-- What `count` blocks from `first` on decode to, one by one. -/
def decodeBlocks (e : Encoding) (data : List UInt8) (scales : List Float32) (first count : Nat) :
    Except Error (List Float32) := do
  let runs ← (List.range' first count).mapM fun i => do (← blockAt e data scales i).dequantize
  return runs.flatten

variable {e : Encoding} {rows cols : Nat} {data : List UInt8} {scales : List Float32}
  {q : QuantizedMatrix Float32}

/-- A block of a payload without gaps is refused for its scale only. -/
theorem blockAt_iff (hdata : data.length = scales.length * e.bytesPerBlock) {i : Nat}
    (hi : i < scales.length) :
    (∃ b, blockAt e data scales i = .ok b) ↔ checkScale (scales.getD i 0) = .ok () := by
  have hend : i * e.bytesPerBlock + e.bytesPerBlock ≤ data.length := by
    rw [← Nat.succ_mul, hdata]
    exact Nat.mul_le_mul_right _ hi
  constructor
  · rintro ⟨b, hb⟩
    exact (Block.ofBytes_eq_ok.mp hb).2.1
  · intro hscale
    exact ⟨_, Block.ofBytes_eq_ok.mpr ⟨length_slice hend, hscale, rfl⟩⟩

/-- What storage is checked for. -/
theorem ofRaw_iff : ofRaw e rows cols data scales = .ok q ↔
    q = ⟨e, rows, cols, data, scales⟩ ∧ cols % blockSize = 0 ∧
      scales.length = wordMul rows cols / blockSize ∧
      data.length = wordMul (wordMul rows cols / blockSize) e.bytesPerBlock ∧
      ∀ scale ∈ scales, checkScale scale = .ok () := by
  constructor
  · intro h
    obtain ⟨hcols, hscales, hdata, rfl⟩ := ofRaw_eq_ok h
    obtain ⟨-, h⟩ := ok_of_guard h
    obtain ⟨-, h⟩ := ok_of_guard h
    obtain ⟨-, h⟩ := ok_of_guard h
    obtain ⟨_, hchecked, -⟩ := bind_eq_ok.mp h
    exact ⟨rfl, hcols, hscales, hdata, forM_eq_ok.mp hchecked⟩
  · rintro ⟨rfl, hcols, hscales, hdata, hchecked⟩
    unfold ofRaw
    simp only [hcols, hscales, hdata, ne_eq, not_true_eq_false, if_false]
    exact bind_eq_ok.mpr ⟨(), forM_eq_ok.mpr hchecked, rfl⟩

/-- A payload whose number of elements is a word is accepted where its counts are those of the shape
and all scales are. -/
theorem ofRaw_iff_of_word (hsize : rows * cols < wordSize) :
    ofRaw e rows cols data scales = .ok q ↔ q = ⟨e, rows, cols, data, scales⟩ ∧
      blockSize ∣ cols ∧ scales.length = rows * (cols / blockSize) ∧
      data.length = scales.length * e.bytesPerBlock ∧
      ∀ scale ∈ scales, checkScale scale = .ok () := by
  constructor
  · intro h
    have hcomplete := complete_of_ofRaw hsize h
    obtain ⟨rfl, -, -, -, hchecked⟩ := ofRaw_iff.mp h
    exact ⟨rfl, hcomplete.cols, hcomplete.scales, hcomplete.data, hchecked⟩
  · rintro ⟨rfl, hdvd, hscales, hdata, hchecked⟩
    have hcount : wordMul rows cols / blockSize = scales.length := by
      rw [wordMul, Nat.mod_eq_of_lt hsize, Nat.mul_div_assoc _ hdvd, hscales]
    have hbytes : scales.length * e.bytesPerBlock < wordSize := by
      have hwide : e.bytesPerBlock ≤ blockSize := by cases e <;> decide
      refine (Nat.mul_le_mul_left _ hwide).trans_lt ?_
      rwa [hscales, Nat.mul_assoc, Nat.div_mul_cancel hdvd]
    refine ofRaw_iff.mpr ⟨rfl, Nat.mod_eq_zero_of_dvd hdvd, hcount.symm, ?_, hchecked⟩
    rw [hcount, wordMul, Nat.mod_eq_of_lt hbytes, hdata]

theorem forall_blockAt_iff (hdata : data.length = scales.length * e.bytesPerBlock) :
    (∀ i < scales.length, ∃ b, blockAt e data scales i = .ok b) ↔
      ∀ scale ∈ scales, checkScale scale = .ok () := by
  rw [List.forall_mem_iff_forall_getElem]
  refine forall₂_congr fun i hi => ?_
  rw [blockAt_iff hdata hi, List.getD_eq_getElem _ _ hi]

/-- A block decodes to its codes times its scale, which is what a row holds in its place. -/
theorem dequantize_blockAt (hdata : data.length = scales.length * e.bytesPerBlock) {i : Nat}
    (hi : i < scales.length) (hscale : checkScale (scales.getD i 0) = .ok ()) :
    (blockAt e data scales i >>= Block.dequantize) =
      .ok (expand e (slice (i * e.bytesPerBlock) e.bytesPerBlock data) (slice i 1 scales)) := by
  have hend : i * e.bytesPerBlock + e.bytesPerBlock ≤ data.length := by
    rw [← Nat.succ_mul, hdata]
    exact Nat.mul_le_mul_right _ hi
  have hlen := length_slice hend
  have hblock : blockAt e data scales i = .ok ⟨e, scales.getD i 0,
      Block.codesOf e (slice (i * e.bytesPerBlock) e.bytesPerBlock data)⟩ :=
    Block.ofBytes_eq_ok.mpr ⟨hlen, hscale, rfl⟩
  have hpos : 0 < e.bytesPerBlock := by cases e <;> decide
  have hone := pieces_self (hlen.symm ▸ hpos)
  rw [hlen] at hone
  rw [hblock, slice_one hi 0, expand, hone]
  refine bind_eq_ok.mpr ⟨_, rfl, bind_eq_ok.mpr ⟨(), hscale, ?_⟩⟩
  rw [Block.toList_codesOf hlen]
  exact congrArg Except.ok (List.append_nil _).symm

/-- A row holds what its blocks decode to, one after another. -/
theorem Complete.decodeBlocks_row (h : q.Complete)
    (hchecked : ∀ scale ∈ q.scales, checkScale scale = .ok ()) {r : Nat} (hr : r < q.rows) :
    decodeBlocks q.encoding q.data q.scales (r * q.blocksPerRow) q.blocksPerRow =
      .ok (q.row r) := by
  have hend : r * q.blocksPerRow + q.blocksPerRow ≤ q.scales.length := by
    rw [← Nat.succ_mul, h.scales]
    exact Nat.mul_le_mul_right _ hr
  have hbytes := (Nat.mul_le_mul_right q.encoding.bytesPerBlock hend).trans_eq h.data.symm
  rw [Nat.add_mul] at hbytes
  have hblock : ∀ i ∈ List.range' (r * q.blocksPerRow) q.blocksPerRow,
      (blockAt q.encoding q.data q.scales i >>= Block.dequantize) =
        .ok (expand q.encoding
          (slice (i * q.encoding.bytesPerBlock) q.encoding.bytesPerBlock q.data)
          (slice i 1 q.scales)) := by
    intro i hi
    have hlt : i < q.scales.length := (List.mem_range'_1.mp hi).2.trans_le hend
    refine dequantize_blockAt h.data hlt (hchecked _ ?_)
    rw [List.getD_eq_getElem _ _ hlt]
    exact List.getElem_mem hlt
  have hrow : q.row r = (List.range q.blocksPerRow).flatMap fun b =>
      expand q.encoding (slice ((r * q.blocksPerRow + b) * q.encoding.bytesPerBlock)
        q.encoding.bytesPerBlock q.data) (slice (r * q.blocksPerRow + b) 1 q.scales) := by
    have hscales := (length_slice hend).trans (Nat.mul_one q.blocksPerRow).symm
    refine (expand_eq_flatMap q.encoding 1 hscales ?_).trans ?_
    · exact (length_slice hbytes).trans (congrArg (· * _) (length_slice hend).symm)
    · refine List.flatMap_congr fun b hb => ?_
      have hlt := List.mem_range.mp hb
      have hwidth := Nat.mul_le_mul_right q.encoding.bytesPerBlock (Nat.succ_le_of_lt hlt)
      rw [Nat.succ_mul] at hwidth
      rw [Nat.mul_one, Nat.one_mul, Nat.add_mul, ← slice_slice hwidth, ← slice_slice hlt]
      rfl
  unfold decodeBlocks
  rw [mapM_eq_ok hblock, hrow, List.range'_eq_map_range, List.map_map, List.flatMap_def]
  rfl

/-! ## Storing blocks -/

def quantizedAt (e : Encoding) (values : List Float32) (i : Nat) : Block :=
  Block.quantize (Vector.ofFn fun j => values.getD (i * blockSize + j) 0) e

theorem blockOf_slice (e : Encoding) (values : List Float32) (i : Nat) :
    blockOf e (slice (i * blockSize) blockSize values) = quantizedAt e values i := by
  unfold blockOf quantizedAt
  simp only [getD_slice (Fin.isLt _)]

/-- Bytes and scales are those of the blocks, in order. -/
theorem quantize_stores {values : List Float32} (h : quantize values rows cols e = .ok q) :
    q.data = (List.range (values.length / blockSize)).flatMap
        (fun i => (quantizedAt e values i).toBytes) ∧
      q.scales = (List.range (values.length / blockSize)).map
        fun i => (quantizedAt e values i).scale := by
  obtain ⟨-, -, rfl⟩ := quantize_eq_ok h
  have hblocks : (pieces blockSize values).map (blockOf e) =
      (List.range (values.length / blockSize)).map (quantizedAt e values) := by
    rw [pieces_eq_map, List.map_map]
    exact List.map_congr_left fun i _ => blockOf_slice e values i
  simp only [hblocks]
  exact ⟨List.flatMap_map .., List.map_map ..⟩

/-! ## All decoders -/

/-- A stored payload whose number of elements is a word is accepted exactly where its counts are
those of the shape and all of its blocks are accepted one by one. Then every row, over whatever a
buffer held, and all rows together are what the blocks decode to. What quantization stores are the
bytes and scales of the blocks that it makes of every run of values, in order. -/
theorem decoders_agree (e : Encoding) (rows cols : Nat) :
    (rows * cols < wordSize → ∀ data scales,
      ((∃ q, ofRaw e rows cols data scales = .ok q) ↔ blockSize ∣ cols ∧
        scales.length = rows * (cols / blockSize) ∧
        data.length = scales.length * e.bytesPerBlock ∧
        ∀ i < scales.length, ∃ b, blockAt e data scales i = .ok b) ∧
      ∀ q, ofRaw e rows cols data scales = .ok q → ∃ row : Nat → List Float32,
        (∀ r < rows,
          decodeBlocks e data scales (r * (cols / blockSize)) (cols / blockSize) = .ok (row r) ∧
          ∀ out, out.length = cols → q.dequantizeRowInto r out = .ok (row r)) ∧
        q.dequantizeRows = .ok ((List.range rows).flatMap row) ∧
        q.dequantize = (List.range rows).flatMap row) ∧
    ∀ values q, quantize values rows cols e = .ok q →
      values.length = wordMul rows cols ∧ blockSize ∣ values.length ∧
      q.data = (List.range (values.length / blockSize)).flatMap
        (fun i => (quantizedAt e values i).toBytes) ∧
      q.scales = (List.range (values.length / blockSize)).map
        fun i => (quantizedAt e values i).scale := by
  refine ⟨fun hsize data scales => ⟨?_, fun q hq => ?_⟩, fun values q hq => ?_⟩
  · constructor
    · rintro ⟨q, hq⟩
      obtain ⟨-, hdvd, hscales, hdata, hchecked⟩ := (ofRaw_iff_of_word hsize).mp hq
      exact ⟨hdvd, hscales, hdata, (forall_blockAt_iff hdata).mpr hchecked⟩
    · rintro ⟨hdvd, hscales, hdata, hblocks⟩
      exact ⟨_, (ofRaw_iff_of_word hsize).mpr
        ⟨rfl, hdvd, hscales, hdata, (forall_blockAt_iff hdata).mp hblocks⟩⟩
  · have hcomplete := complete_of_ofRaw hsize hq
    obtain ⟨rfl, -, -, -, hchecked⟩ := ofRaw_iff.mp hq
    refine ⟨row ⟨e, rows, cols, data, scales⟩, fun r hr => ⟨?_, fun out hout => ?_⟩, ?_, ?_⟩
    · exact hcomplete.decodeBlocks_row hchecked hr
    · exact hcomplete.dequantizeRowInto_eq hsize hr hout
    · exact hcomplete.dequantizeRows_eq hsize
    · exact hcomplete.dequantize_eq.trans (List.flatMap_def ..).symm
  · obtain ⟨hcols, hlen, -⟩ := quantize_eq_ok hq
    obtain ⟨hdata, hscales⟩ := quantize_stores hq
    refine ⟨hlen, ?_, hdata, hscales⟩
    have hdvd : blockSize ∣ rows * cols := (Nat.dvd_of_mod_eq_zero hcols).mul_left rows
    exact hlen ▸ (Nat.dvd_mod_iff (by decide)).mpr hdvd

set_option maxRecDepth 4000 in
theorem two_rows_decoded :
    let data : List UInt8 := List.replicate 16 0x91 ++ List.replicate 16 0x8A
    let q : QuantizedMatrix Float32 := ⟨.q4, 2, 32, data, [1, 0.5]⟩
    let zeros : QuantizedMatrix Float32 := ⟨.q8, 1, 32, List.replicate 32 0, [0]⟩
    2 * 32 < wordSize ∧ ofRaw .q4 2 32 data [1, 0.5] = .ok q ∧
      (∀ out, out.length = 32 →
        q.dequantizeRowInto 1 out = .ok (List.replicate 16 [1, 0]).flatten) ∧
      quantize (List.replicate 32 0) 1 32 .q8 = .ok zeros ∧
      zeros.scales = [(quantizedAt .q8 (List.replicate 32 0) 0).scale] := by
  intro data q zeros
  have hsize : 2 * 32 < wordSize := by decide
  have hstored : ofRaw .q4 2 32 data [1, 0.5] = .ok q := by rfl
  have hmade : quantize (List.replicate 32 0) 1 32 .q8 = .ok zeros := by rfl
  obtain ⟨row, hrows, -⟩ := ((decoders_agree .q4 2 32).1 hsize data [1, 0.5]).2 q hstored
  obtain ⟨hblocks, hrow⟩ := hrows 1 (by decide)
  have hvalue : (decodeBlocks .q4 data [1, 0.5] 1 1).toOption =
      some (List.replicate 16 [1, 0]).flatten := by decide +kernel
  have hvalue' : row 1 = (List.replicate 16 [1, 0]).flatten := by
    change decodeBlocks .q4 data [1, 0.5] 1 1 = _ at hblocks
    rw [hblocks] at hvalue
    exact Option.some.inj hvalue
  obtain ⟨-, -, -, hscales⟩ := (decoders_agree .q8 1 32).2 _ zeros hmade
  exact ⟨hsize, hstored, fun out hout => hvalue' ▸ hrow out hout, hmade, hscales⟩

/-- A number of elements that wraps to zero lets an empty payload pass for a matrix with rows, and
then none of them can be decoded. -/
theorem empty_payload_accepted :
    let q : QuantizedMatrix Float32 := ⟨.q8, 0x800000000000000, 32, [], []⟩
    ofRaw .q8 0x800000000000000 32 [] [] = .ok q ∧
      q.scales.length ≠ q.rows * (q.cols / blockSize) ∧ 0 < q.rows ∧
      q.dequantizeRowInto 0 (List.replicate 32 0) =
        .error (.contract "a part beyond the end of a list") :=
  ⟨rfl, by decide, by decide, rfl⟩

end QuantizedMatrix

end CausalServe
