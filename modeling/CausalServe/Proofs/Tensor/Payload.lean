import CausalServe.Proofs.Quant.Decoding
import CausalServe.Proofs.Quant.Precision

/-! What stored tensors are accepted. The payload must be that of the number of elements that the
shape counts; the count is a 64-bit word, and wraps where the true one is none. -/

namespace CausalServe

open Binary32 (value)

/-! ## Well-formed payloads -/

def ElementType.bytesFor (n : ℕ) : ElementType → ℕ
  | .f32 => n * 4
  | .f16 => n * 2
  | .quantized e => n / blockSize * e.bytesPerBlock

/-- A payload of `n` elements, whatever the shape counts. -/
structure TensorDescriptor.Holds (d : TensorDescriptor) (n : ℕ) : Prop where
  data : d.data.length = d.elementType.bytesFor n
  rank : ∀ e, d.elementType = .quantized e → d.shape.length = 1 ∨ d.shape.length = 2
  blocks : ∀ e, d.elementType = .quantized e →
    ∃ cols, d.shape.getLast? = some cols ∧ blockSize ∣ cols
  scales : ∀ e, d.elementType = .quantized e → d.scales.length = n / blockSize ∧
    ∀ scale ∈ d.scales, scale.isFinite = true ∧ 0 ≤ value scale

/-- Floats need the right number of bytes and nothing else. -/
theorem TensorDescriptor.holds_iff {d : TensorDescriptor} {n : ℕ}
    (hfloats : ∀ e, d.elementType ≠ .quantized e) :
    d.Holds n ↔ d.data.length = d.elementType.bytesFor n :=
  ⟨Holds.data, fun h => ⟨h, fun e he => absurd he (hfloats e), fun e he => absurd he (hfloats e),
    fun e he => absurd he (hfloats e)⟩⟩

theorem elementCount_eq_mod (shape : List ℕ) : elementCount shape = shape.prod % wordSize := by
  have hwrapped := foldl_wordMul shape 1
  rwa [Nat.mod_eq_of_lt (by decide), Nat.one_mul] at hwrapped

theorem elementCount_lt (shape : List ℕ) : elementCount shape < wordSize := by
  rw [elementCount_eq_mod]
  exact Nat.mod_lt _ (by decide)

/-- The bytes of all blocks never wrap: a code takes a byte at most. -/
theorem wordMul_blocks {n : ℕ} (hn : n < wordSize) (e : Encoding) :
    wordMul (n / blockSize) e.bytesPerBlock = n / blockSize * e.bytesPerBlock := by
  have hwide : e.bytesPerBlock ≤ blockSize := by cases e <;> decide
  exact Nat.mod_eq_of_lt
    (((Nat.mul_le_mul_left _ hwide).trans (Nat.div_mul_le_self _ _)).trans_lt hn)

/-- The rows and columns of a stored matrix: a vector is its only row. -/
theorem dims_iff {shape : List ℕ} {cols : ℕ} :
    (shape.length = 1 ∨ shape.length = 2) ∧ shape.getLast? = some cols ↔
      ∃ rows, shape = [cols] ∧ rows = 1 ∨ shape = [rows, cols] := by
  constructor
  · rintro ⟨hrank | hrank, hlast⟩
    · obtain ⟨n, rfl⟩ := List.length_eq_one_iff.mp hrank
      cases hlast
      exact ⟨1, .inl ⟨rfl, rfl⟩⟩
    · obtain ⟨m, n, rfl⟩ := List.length_eq_two.mp hrank
      cases hlast
      exact ⟨m, .inr rfl⟩
  · rintro ⟨rows, ⟨rfl, -⟩ | rfl⟩
    · exact ⟨.inl rfl, rfl⟩
    · exact ⟨.inr rfl, rfl⟩

/-! ## Decoding -/

section Decoding

variable {d : TensorDescriptor} {t : Tensor Float32}

theorem ofFloatBytes_iff {α : Type} {op : String} {width : ℕ} {read : List UInt8 → α}
    {t : Tensor α} : Tensor.ofFloatBytes op width read d = .ok t ↔
      d.data.length = wordMul (elementCount d.shape) width ∧
      d.data.length / width = elementCount d.shape ∧
      t = ⟨d.shape, .dense ((pieces width d.data).map read)⟩ := by
  constructor
  · intro h
    obtain ⟨hbytes, h⟩ := ok_of_guard h
    obtain ⟨hcount, h⟩ := ok_of_guard h
    rw [not_not, List.length_map, length_pieces] at hcount
    exact ⟨not_not.mp hbytes, hcount, (Except.ok.inj h).symm⟩
  · rintro ⟨hbytes, hcount, rfl⟩
    rw [← length_pieces, ← List.length_map read] at hcount
    unfold Tensor.ofFloatBytes Tensor.ofList
    simp only [hbytes, hcount, ne_eq, not_true_eq_false, if_false]
    rfl

/-- Only the number of its bytes keeps a tensor of floats from being read. -/
theorem ofFloatBytes_or_shape {α : Type} (op : String) (width : Nat) (read : List UInt8 → α)
    (d : TensorDescriptor) : (∃ t, Tensor.ofFloatBytes op width read d = .ok t) ∨
      ∃ op' expected actual,
        Tensor.ofFloatBytes op width read d = .error (.shape op' expected actual) := by
  unfold Tensor.ofFloatBytes
  by_cases hbytes : d.data.length = wordMul (elementCount d.shape) width
  · simp only [hbytes, ne_eq, not_true_eq_false, if_false]
    unfold Tensor.ofList
    by_cases hcount : ((pieces width d.data).map read).length = elementCount d.shape
    · exact .inl ⟨_, if_neg (not_not.mpr hcount)⟩
    · exact .inr ⟨_, _, _, if_pos hcount⟩
  · exact .inr ⟨_, _, _, if_pos hbytes⟩

/-- The number of floats tells whether the number of bytes has wrapped. -/
theorem exists_ofFloatBytes_iff {op : String} {width : ℕ} {read : List UInt8 → Float32}
    (hwidth : 0 < width) (hdata : d.data.length < wordSize) :
    (∃ t, Tensor.ofFloatBytes op width read d = .ok t) ↔
      d.data.length = elementCount d.shape * width := by
  simp only [ofFloatBytes_iff, exists_and_left, exists_eq, and_true]
  constructor
  · rintro ⟨hbytes, hcount⟩
    have hlow := Nat.div_mul_le_self d.data.length width
    rw [hcount] at hlow
    have hhigh := Nat.mod_le (elementCount d.shape * width) wordSize
    exact le_antisymm (hbytes.trans_le hhigh) hlow
  · intro h
    rw [h] at hdata
    exact ⟨h.trans (Nat.mod_eq_of_lt hdata).symm, h ▸ Nat.mul_div_cancel _ hwidth⟩

theorem ofCodes_iff {e : Encoding} : Tensor.ofCodes e d = .ok t ↔ ∃ rows cols q,
    (d.shape = [cols] ∧ rows = 1 ∨ d.shape = [rows, cols]) ∧
      QuantizedMatrix.ofRaw e rows cols d.data d.scales = .ok q ∧ t = ⟨d.shape, .quantized q⟩ := by
  constructor
  · intro h
    unfold Tensor.ofCodes at h
    simp only at h
    split at h
    next cols hshape =>
      obtain ⟨_, hdims, h⟩ := bind_eq_ok.mp h
      cases hdims
      obtain ⟨q, hq, h⟩ := bind_eq_ok.mp h
      exact ⟨1, cols, q, .inl ⟨hshape, rfl⟩, hq, (Except.ok.inj h).symm⟩
    next rows cols hshape =>
      obtain ⟨_, hdims, h⟩ := bind_eq_ok.mp h
      cases hdims
      obtain ⟨q, hq, h⟩ := bind_eq_ok.mp h
      exact ⟨rows, cols, q, .inr hshape, hq, (Except.ok.inj h).symm⟩
    next => cases h
  · rintro ⟨rows, cols, q, ⟨hshape, rfl⟩ | hshape, hq, rfl⟩
    all_goals
      unfold Tensor.ofCodes
      rw [hshape]
      exact bind_eq_ok.mpr ⟨_, rfl, bind_eq_ok.mpr ⟨q, hq, rfl⟩⟩

/-- Codes are checked against the same count as floats are. -/
theorem count_of_dims {rows cols : ℕ}
    (hdims : d.shape = [cols] ∧ rows = 1 ∨ d.shape = [rows, cols]) :
    wordMul rows cols = elementCount d.shape := by
  rw [elementCount_eq_mod]
  rcases hdims with ⟨hshape, rfl⟩ | hshape
  · rw [hshape, List.prod_singleton, wordMul, Nat.one_mul]
  · rw [hshape, prod_matrix, wordMul]

theorem exists_ofCodes_iff {e : Encoding} (he : d.elementType = .quantized e) :
    (∃ t, Tensor.ofCodes e d = .ok t) ↔ d.Holds (elementCount d.shape) := by
  constructor
  · rintro ⟨t, h⟩
    obtain ⟨rows, cols, q, hdims, hq, -⟩ := ofCodes_iff.mp h
    obtain ⟨-, hcols, hscales, hdata, hchecked⟩ := QuantizedMatrix.ofRaw_iff.mp hq
    obtain ⟨hrank, hlast⟩ := dims_iff.mpr ⟨rows, hdims⟩
    rw [count_of_dims hdims] at hscales hdata
    rw [wordMul_blocks (elementCount_lt _)] at hdata
    refine ⟨?_, fun _ _ => hrank, fun _ _ => ⟨cols, hlast, Nat.dvd_of_mod_eq_zero hcols⟩,
      fun _ _ => ⟨hscales, fun s hs => checkScale_iff_value.mp (hchecked s hs)⟩⟩
    rw [he, hdata, ElementType.bytesFor]
  · rintro ⟨hdata, hrank, hblocks, hscales⟩
    obtain ⟨cols, hlast, hdvd⟩ := hblocks e he
    obtain ⟨hcount, hchecked⟩ := hscales e he
    obtain ⟨rows, hdims⟩ := dims_iff.mp ⟨hrank e he, hlast⟩
    rw [he, ElementType.bytesFor] at hdata
    refine ⟨_, ofCodes_iff.mpr ⟨rows, cols, _, hdims, QuantizedMatrix.ofRaw_iff.mpr
      ⟨rfl, Nat.mod_eq_zero_of_dvd hdvd, ?_, ?_, fun s hs => checkScale_iff_value.mpr (hchecked s hs)⟩,
      rfl⟩⟩
    · rw [count_of_dims hdims, hcount]
    · rw [count_of_dims hdims, hdata, wordMul_blocks (elementCount_lt _)]

/-- For every shape, also one that counts more elements than there are words. -/
theorem exists_ofDescriptor_iff (hdata : d.data.length < wordSize) :
    (∃ t, Tensor.ofDescriptor d = .ok t) ↔ d.Holds (elementCount d.shape) := by
  unfold Tensor.ofDescriptor
  split
  next he =>
    rw [exists_ofFloatBytes_iff (by decide) hdata, TensorDescriptor.holds_iff (he ▸ nofun), he]
    rfl
  next he =>
    rw [exists_ofFloatBytes_iff (by decide) hdata, TensorDescriptor.holds_iff (he ▸ nofun), he]
    rfl
  next e he => exact exists_ofCodes_iff he

/-- What is decoded are as many values as the shape counts, or the codes of a matrix. -/
theorem ofDescriptor_eq_ok (h : Tensor.ofDescriptor d = .ok t) :
    (∃ values, values.length = elementCount d.shape ∧ t = ⟨d.shape, .dense values⟩) ∨
      ∃ e rows cols q, (d.shape = [cols] ∧ rows = 1 ∨ d.shape = [rows, cols]) ∧
        QuantizedMatrix.ofRaw e rows cols d.data d.scales = .ok q ∧
        t = ⟨d.shape, .quantized q⟩ := by
  unfold Tensor.ofDescriptor at h
  split at h
  next =>
    obtain ⟨-, hcount, ht⟩ := ofFloatBytes_iff.mp h
    exact .inl ⟨_, by rw [List.length_map, length_pieces, hcount], ht⟩
  next =>
    obtain ⟨-, hcount, ht⟩ := ofFloatBytes_iff.mp h
    exact .inl ⟨_, by rw [List.length_map, length_pieces, hcount], ht⟩
  next e he => exact .inr ⟨e, ofCodes_iff.mp h⟩

theorem shape_of_decoded (h : Tensor.ofDescriptor d = .ok t) : t.shape = d.shape := by
  rcases ofDescriptor_eq_ok h with ⟨_, -, rfl⟩ | ⟨_, _, _, _, -, -, rfl⟩
  · rfl
  · rfl

/-- What is decoded has the elements that were counted. -/
theorem length_of_counted (h : Tensor.ofDescriptor d = .ok t) :
    t.toList.length = elementCount d.shape := by
  rcases ofDescriptor_eq_ok h with ⟨values, hlen, rfl⟩ | ⟨e, rows, cols, q, hdims, hq, rfl⟩
  · exact hlen
  · obtain ⟨rfl, hcols, hscales, hdata, -⟩ := QuantizedMatrix.ofRaw_iff.mp hq
    rw [count_of_dims hdims] at hscales hdata
    rw [wordMul_blocks (elementCount_lt _), ← hscales] at hdata
    have hwhole : blockSize ∣ elementCount d.shape := by
      have hdvd := Nat.dvd_of_mod_eq_zero hcols
      rw [← count_of_dims hdims, wordMul]
      exact (Nat.dvd_mod_iff (by decide)).mpr (hdvd.mul_left rows)
    have hlen := QuantizedMatrix.length_expand e hdata
    rwa [hscales, Nat.div_mul_cancel hwhole] at hlen

/-- A stored tensor has as many elements as its shape says. -/
theorem length_of_decoded (h : Tensor.ofDescriptor d = .ok t) (hsize : d.shape.prod < wordSize) :
    t.toList.length = d.shape.prod :=
  (length_of_counted h).trans (elementCount_eq hsize)

end Decoding

/-! ## Sizes that are words -/

theorem prod_le_of_leading {shape part : List ℕ} (hpart : part <+: shape) (h0 : 0 ∉ shape) :
    part.prod ≤ shape.prod := by
  refine Nat.le_of_dvd (Nat.pos_of_ne_zero fun hzero => h0 ?_) hpart.sublist.prod_dvd_prod
  exact List.prod_eq_zero_iff.mp hzero

namespace TensorDescriptor

/-- A stored tensor whose number of elements is a word is accepted exactly if its payload is well
formed, and is decoded in full. None of the sizes on the way overflows, unless one after it is zero. -/
theorem decoded_iff_holds (d : TensorDescriptor) (hdata : d.data.length < wordSize)
    (hsize : d.shape.prod < wordSize) :
    ((∃ t, Tensor.ofDescriptor d = .ok t) ↔ d.Holds d.shape.prod) ∧
    (∀ t, Tensor.ofDescriptor d = .ok t →
      t.shape = d.shape ∧ t.toList.length = d.shape.prod ∧
        d.elementType.bytesFor d.shape.prod < wordSize) ∧
    (0 ∉ d.shape → ∀ part, part <+: d.shape → part.prod < wordSize) := by
  have hiff := exists_ofDescriptor_iff hdata
  rw [elementCount_eq hsize] at hiff
  refine ⟨hiff, fun t h => ⟨shape_of_decoded h, length_of_decoded h hsize, ?_⟩,
    fun h0 part hpart => (prod_le_of_leading hpart h0).trans_lt hsize⟩
  rw [← (hiff.mp ⟨t, h⟩).data]
  exact hdata

theorem two_by_two_halves_decoded :
    let halves : TensorDescriptor :=
      { name := "w", shape := [2, 2], elementType := .f16, data := List.replicate 8 0x3C }
    let negative : TensorDescriptor :=
      { name := "w", shape := [32], elementType := .quantized .q8
        data := List.replicate 32 0, scales := [-0.5] }
    halves.data.length < wordSize ∧ halves.shape.prod < wordSize ∧
      (∃ t, Tensor.ofDescriptor halves = .ok t ∧ t.shape = [2, 2] ∧ t.toList.length = 4) ∧
      ¬ ∃ t, Tensor.ofDescriptor negative = .ok t := by
  intro halves negative
  have hdata : halves.data.length < wordSize := by decide
  have hsize : halves.shape.prod < wordSize := by decide
  obtain ⟨hiff, hdecoded, -⟩ := decoded_iff_holds halves hdata hsize
  obtain ⟨t, ht⟩ := hiff.mpr ((holds_iff (by simp [halves])).mpr rfl)
  obtain ⟨hshape, hlen, -⟩ := hdecoded t ht
  refine ⟨hdata, hsize, ⟨t, ht, hshape, hlen⟩, fun h => ?_⟩
  have hholds := (decoded_iff_holds negative (by decide) (by decide)).1.mp h
  have hscale := (hholds.scales .q8 rfl).2 (-0.5) List.mem_cons_self
  exact absurd (checkScale_eq_ok.mp (checkScale_iff_value.mpr hscale)).2 (by decide +kernel)

/-- A count that wraps to zero lets a payload without any bytes pass. -/
theorem empty_payload_decoded :
    let d : TensorDescriptor :=
      { name := "w", shape := [0x800000000000000, 32], elementType := .f32, data := [] }
    d.data.length < wordSize ∧ 0 < d.shape.prod ∧ ¬ d.Holds d.shape.prod ∧
      ∃ t, Tensor.ofDescriptor d = .ok t ∧ t.toList.length ≠ d.shape.prod :=
  ⟨by decide, by decide, fun h => absurd h.data (by decide), _, rfl, by decide⟩

end TensorDescriptor

end CausalServe
