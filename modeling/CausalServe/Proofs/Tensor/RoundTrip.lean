import CausalServe.Proofs.Tensor.Payload
import CausalServe.Proofs.Tensor.Transpose

/-! What is stored is read back as it was: floats bit for bit, and matrices with all of their codes
and scales. A transpose holds the same elements with their places swapped, so that transposing twice
only decodes. -/

namespace CausalServe

/-! ## Bytes -/

namespace Bytes

theorem length_ofNat (count n : ℕ) : (ofNat count n).length = count := by
  induction count generalizing n with
  | zero => rfl
  | succ count ih => rw [ofNat, List.length_cons, ih]

/-- As many bytes as a number needs tell it. -/
theorem toNat_ofNat {count n : ℕ} (h : n < 256 ^ count) : toNat (ofNat count n) = n := by
  induction count generalizing n with
  | zero => exact (Nat.lt_one_iff.mp h).symm
  | succ count ih =>
    have hrest : n / 256 < 256 ^ count := Nat.div_lt_of_lt_mul (h.trans_eq (Nat.pow_succ' ..))
    rw [ofNat, toNat, ih hrest, UInt8.toNat_ofNat', Nat.mod_add_div]

theorem length_of_mem_map_ofFloat {values : List UInt32} {bytes : List UInt8}
    (h : bytes ∈ values.map ofFloat) : bytes.length = 4 := by
  obtain ⟨bits, -, rfl⟩ := List.mem_map.mp h
  exact length_ofNat 4 _

/-- Bits come back from their bytes, also those of a NaN. -/
theorem toBits_ofFloat (bits : UInt32) : toBits (ofFloat bits) = bits := by
  rw [toBits, ofFloat, toNat_ofNat (n := bits.toNat) bits.toNat_lt, UInt32.ofNat_toNat]

end Bytes

/-! ## Floats -/

namespace TensorDescriptor

variable {α : Type} {shape : List ℕ} {bits : List UInt32}

theorem length_data_ofFloats (name : String) (shape : List ℕ) (bits : List UInt32) :
    (ofFloats name shape bits).data.length = bits.length * 4 := by
  rw [ofFloats, List.flatMap_def, length_flatten_of_width fun _ => Bytes.length_of_mem_map_ofFloat,
    List.length_map]

theorem pieces_ofFloats (name : String) (shape : List ℕ) (bits : List UInt32) :
    pieces 4 (ofFloats name shape bits).data = bits.map Bytes.ofFloat := by
  rw [ofFloats, List.flatMap_def]
  exact pieces_flatten (by decide) fun _ => Bytes.length_of_mem_map_ofFloat

/-- Whatever bits are read as, those that were stored are. -/
theorem ofFloatBytes_ofFloats (op name : String) (read : UInt32 → α)
    (hshape : shape.prod = bits.length)
    (hdata : (ofFloats name shape bits).data.length < wordSize) :
    Tensor.ofFloatBytes op 4 (fun bytes => read (Bytes.toBits bytes)) (ofFloats name shape bits) =
      .ok ⟨shape, .dense (bits.map read)⟩ := by
  have hlen := length_data_ofFloats name shape bits
  have hcount : elementCount shape = bits.length := by
    rw [elementCount_eq (by omega), hshape]
  refine ofFloatBytes_iff.mpr ⟨?_, ?_, ?_⟩
  · change _ = wordMul (elementCount shape) 4
    rw [wordMul, hcount, ← hlen, Nat.mod_eq_of_lt hdata]
  · change _ = elementCount shape
    rw [hlen, hcount, Nat.mul_div_cancel _ (by decide)]
  · have hread : (fun bytes => read (Bytes.toBits bytes)) ∘ Bytes.ofFloat = read :=
      funext fun b => congrArg read (Bytes.toBits_ofFloat b)
    rw [pieces_ofFloats, List.map_map, hread]
    rfl

end TensorDescriptor

/-! ## Codes -/

namespace QuantizedMatrix

/-- Matrices that come about, from values or from stored codes and scales. -/
inductive Made : QuantizedMatrix Float32 → Prop
  | quantize {values : List Float32} {rows cols : ℕ} {e : Encoding} {q : QuantizedMatrix Float32}
      (h : quantize values rows cols e = .ok q) : Made q
  | ofRaw {e : Encoding} {rows cols : ℕ} {data : List UInt8} {scales : List Float32}
      {q : QuantizedMatrix Float32} (h : ofRaw e rows cols data scales = .ok q) : Made q

variable {q : QuantizedMatrix Float32}

/-- A matrix whose scales are acceptable is accepted again from its own codes and scales. -/
theorem Made.ofRaw_eq (h : q.Made) (hscales : ∀ scale ∈ q.scales, checkScale scale = .ok ()) :
    QuantizedMatrix.ofRaw q.encoding q.rows q.cols q.data q.scales = .ok q := by
  cases h with
  | @quantize values rows cols e _ h =>
    obtain ⟨hcount, hdata⟩ := counts_of_quantize h
    rw [hcount] at hdata
    obtain ⟨hcols, -, rfl⟩ := quantize_eq_ok h
    have hbytes := wordMul_blocks (Nat.mod_lt (rows * cols) (by decide)) e
    exact ofRaw_iff.mpr ⟨rfl, hcols, hcount, hdata.trans hbytes.symm, hscales⟩
  | ofRaw h =>
    obtain ⟨rfl, -⟩ := ofRaw_iff.mp h
    exact h

theorem Made.complete (h : q.Made) (hsize : q.rows * q.cols < wordSize) : q.Complete := by
  cases h with
  | quantize h =>
    obtain ⟨-, -, rfl⟩ := quantize_eq_ok h
    exact complete_of_quantize hsize h
  | ofRaw h =>
    obtain ⟨rfl, -⟩ := ofRaw_iff.mp h
    exact complete_of_ofRaw hsize h

end QuantizedMatrix

theorem TensorDescriptor.ofDescriptor_ofQuantized {q : QuantizedMatrix Float32} (name : String)
    (h : q.Made) (hscales : ∀ scale ∈ q.scales, checkScale scale = .ok ()) :
    Tensor.ofDescriptor (ofQuantized name q) = .ok (.ofMatrix q) := by
  change Tensor.ofCodes q.encoding (ofQuantized name q) = _
  exact ofCodes_iff.mpr ⟨q.rows, q.cols, q, .inr rfl, h.ofRaw_eq hscales, rfl⟩

/-! ## Tensors -/

namespace Tensor

/-- Tensors that come about. The operations add none to them. -/
inductive Made : Tensor Float32 → Prop
  | ofList {values : List Float32} {shape : List ℕ} {t : Tensor Float32}
      (h : ofList values shape = .ok t) : Made t
  | zeros (shape : List ℕ) : Made (zeros shape)
  | ofMatrix {q : QuantizedMatrix Float32} (h : q.Made) : Made (ofMatrix q)
  | ofDescriptor {d : TensorDescriptor} {t : Tensor Float32} (h : ofDescriptor d = .ok t) : Made t

namespace Made

variable {t u : Tensor Float32}

theorem dequantize (ht : t.Made) (h : t.dequantize = .ok u) : u.Made := by
  unfold Tensor.dequantize at h
  split at h
  next =>
    cases h
    exact ht
  next => exact .ofList h

theorem transpose (h : t.transpose = .ok u) : u.Made := by
  obtain ⟨_, -, h⟩ := bind_eq_ok.mp h
  exact .ofList (ok_of_guard h).2

theorem matmul {t' : Tensor Float32} {d : Dispatcher} (h : t.matmul t' d = .ok u) : u.Made := by
  obtain ⟨_, -, h⟩ := bind_eq_ok.mp h
  obtain ⟨_, -, h⟩ := bind_eq_ok.mp h
  obtain ⟨-, h⟩ := ok_of_guard h
  split at h
  next =>
    obtain ⟨_, -, h⟩ := bind_eq_ok.mp h
    exact .ofList h
  next => cases h

/-- A tensor holds as many elements as its shape says, if their number is a word. -/
theorem length_toList (ht : t.Made) (hsize : t.shape.prod < wordSize) :
    t.toList.length = t.shape.prod := by
  cases ht with
  | ofList h =>
    obtain ⟨hlen, h⟩ := ok_of_guard h
    cases h
    exact (not_not.mp hlen).trans (elementCount_eq hsize)
  | zeros shape => exact List.length_replicate.trans (elementCount_eq hsize)
  | @ofMatrix q h =>
    change [q.rows, q.cols].prod < wordSize at hsize
    change q.dequantize.length = [q.rows, q.cols].prod
    rw [prod_matrix] at hsize ⊢
    exact (h.complete hsize).length_dequantize
  | ofDescriptor h =>
    rw [shape_of_decoded h] at hsize ⊢
    exact length_of_decoded h hsize

end Made

theorem dequantize_eq {α : Type} [Scalar α] {t : Tensor α}
    (h : t.toList.length = elementCount t.shape) :
    t.dequantize = .ok ⟨t.shape, .dense t.toList⟩ := by
  obtain ⟨shape, values | q⟩ := t
  · rfl
  · exact if_neg (not_not.mpr h)

end Tensor

/-! ## Round trips -/

namespace TensorDescriptor

/-- Whatever is stored is decoded again: any floats to themselves, bit for bit, in the shape that was
given, and any matrix with acceptable scales to that matrix. A tensor with two dimensions, if the
number of its elements is a word, can be transposed; each element is then found at its place with row
and column swapped, and the transpose of the transpose is the decoded tensor. -/
theorem round_trips (name : String) :
    (∀ (shape : List ℕ) (bits : List UInt32), shape.prod = bits.length →
      (ofFloats name shape bits).data.length < wordSize →
      Tensor.ofFloatBytes "f32 tensor bytes" 4 Bytes.toBits (ofFloats name shape bits) =
          .ok ⟨shape, .dense bits⟩ ∧
        Tensor.ofDescriptor (ofFloats name shape bits) =
          .ok ⟨shape, .dense (bits.map Float32.ofBits)⟩) ∧
    (∀ q : QuantizedMatrix Float32, q.Made →
      (∀ scale ∈ q.scales, checkScale scale = .ok ()) →
      Tensor.ofDescriptor (ofQuantized name q) = .ok (.ofMatrix q)) ∧
    ∀ (t : Tensor Float32) (rows cols : ℕ), t.Made → t.shape = [rows, cols] →
      rows * cols < wordSize →
      t.dequantize = .ok ⟨[rows, cols], .dense t.toList⟩ ∧
      ∃ u, t.transpose = .ok u ∧ u.shape = [cols, rows] ∧ u.transpose = t.dequantize ∧
        ∀ r < rows, ∀ c < cols, ∃ x,
          t.toList[r * cols + c]? = some x ∧ u.toList[c * rows + r]? = some x := by
  refine ⟨fun shape bits hshape hdata => ⟨?_, ?_⟩, fun q => ofDescriptor_ofQuantized name,
    fun t rows cols ht hshape hsize => ?_⟩
  · have hbits := ofFloatBytes_ofFloats "f32 tensor bytes" name id hshape hdata
    rwa [List.map_id] at hbits
  · exact ofFloatBytes_ofFloats "f32 tensor bytes" name Float32.ofBits hshape hdata
  · have hprod : t.shape.prod = rows * cols := hshape ▸ prod_matrix rows cols
    have hlen := ht.length_toList (hprod ▸ hsize)
    have hdense : t.dequantize = .ok ⟨t.shape, .dense t.toList⟩ :=
      Tensor.dequantize_eq (hlen.trans (elementCount_eq (hprod ▸ hsize)).symm)
    rw [hshape] at hdense
    obtain ⟨u, hu, hswapped, hback, hplaces⟩ :=
      Tensor.transpose_transpose hshape (hlen.trans hprod) hsize
    exact ⟨hdense, u, hu, hswapped, hback.trans hdense.symm, hplaces⟩

set_option maxRecDepth 4000 in
theorem two_by_three_round_trips :
    let bits : List UInt32 := [0x7FC00001, 0x80000000, 0x3F800000, 0, 1, 0x7F800000]
    let q : QuantizedMatrix Float32 := ⟨.q8, 1, 32, List.replicate 32 0x80, [0.5]⟩
    let t : Tensor Float32 := ⟨[2, 3], .dense [1, 2, 3, 4, 5, 6]⟩
    (ofFloats "w" [2, 3] bits).data.length < wordSize ∧
      Tensor.ofFloatBytes "f32 tensor bytes" 4 Bytes.toBits (ofFloats "w" [2, 3] bits) =
        .ok ⟨[2, 3], .dense bits⟩ ∧
      q.Made ∧ Tensor.ofDescriptor (ofQuantized "w" q) = .ok (.ofMatrix q) ∧
      t.Made ∧ ∃ u, t.transpose = .ok u ∧ u.shape = [3, 2] ∧ u.toList[4]? = some 3 ∧
        u.transpose = .ok t := by
  intro bits q t
  have hdata : (ofFloats "w" [2, 3] bits).data.length < wordSize := by decide
  have hstored : QuantizedMatrix.ofRaw .q8 1 32 (List.replicate 32 0x80) [0.5] = .ok q := by rfl
  have hscales : ∀ scale ∈ q.scales, checkScale scale = .ok () :=
    (QuantizedMatrix.ofRaw_iff.mp hstored).2.2.2.2
  have hlist : Tensor.ofList [1, 2, 3, 4, 5, 6] [2, 3] = .ok t := by rfl
  have ht : t.Made := .ofList hlist
  obtain ⟨hfloats, hcodes, htransposed⟩ := round_trips "w"
  obtain ⟨hdense, u, hu, hswapped, hback, hplaces⟩ := htransposed t 2 3 ht rfl (by decide)
  obtain ⟨x, hx, hx'⟩ := hplaces 0 (by decide) 2 (by decide)
  cases Option.some.inj hx
  exact ⟨hdata, (hfloats [2, 3] bits rfl hdata).1, .ofRaw hstored,
    hcodes q (.ofRaw hstored) hscales, ht, u, hu, hswapped, hx', hback.trans hdense⟩

/-- No buffer at all passes for a shape that counts as many elements as there are words, and then
there is nothing to transpose. -/
theorem hollow_tensor_not_transposed :
    let t : Tensor Float32 := ⟨[0x800000000000000, 32], .dense []⟩
    Tensor.ofList [] [0x800000000000000, 32] = .ok t ∧ t.Made ∧ ¬ ∃ u, t.transpose = .ok u := by
  intro t
  have hlist : Tensor.ofList [] [0x800000000000000, 32] = .ok t := by rfl
  have hfault : t.transpose = .error (.contract "a matrix of a size that overflows") := by rfl
  exact ⟨hlist, .ofList hlist, fun ⟨u, hu⟩ => by cases hfault.symm.trans hu⟩

end TensorDescriptor

end CausalServe
