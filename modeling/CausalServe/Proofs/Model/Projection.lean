import CausalServe.Proofs.Kernel.Exact
import CausalServe.Proofs.Model.Rowwise
import CausalServe.Proofs.Tensor.Transpose

/-! Projections in exact arithmetic. A matrix that is held dense is transposed when it is loaded,
one that is held in codes is expanded row by row when it is used, and both yield the product with
the transpose. -/

namespace CausalServe

section Held

variable {α : Type} [Scalar α] {n k : Nat} {W : Matrix (Fin n) (Fin k) α}

/-- What is not kept in codes is held transposed. -/
theorem Linear.ofTensor_dense {t : Tensor α} {dequantize : Bool} (hshape : t.shape = [n, k])
    (hW : t.toList = rowMajor W) (hsize : n * k < wordSize)
    (h : dequantize = true ∨ ∃ values, t.data = .dense values) :
    Linear.ofTensor t dequantize = .ok ⟨.dense (rowMajor W.transpose), k, n⟩ := by
  have hdims : t.dims2 = .ok (n, k) := by rw [Tensor.dims2, hshape]
  unfold Linear.ofTensor
  rw [hdims, Tensor.transpose_rowMajor W hshape hW hsize]
  rcases h with rfl | ⟨values, hdata⟩
  · cases t.data <;> rfl
  · simp only [hdata]
    rfl

/-- The rows that codes expand to are those of one matrix. -/
theorem QuantizedMatrix.Complete.exists_matrix {q : QuantizedMatrix α} (h : q.Complete)
    (hcols : q.cols ≠ 0) : ∃ W : Matrix (Fin q.rows) (Fin q.cols) α,
      q.dequantize = rowMajor W ∧ (List.range q.rows).map q.row = matrixRows W := by
  obtain ⟨W, hW⟩ := exists_rowMajor h.length_dequantize
  have hpos := Nat.pos_of_ne_zero hcols
  have hwidth : ∀ row ∈ (List.range q.rows).map q.row, row.length = q.cols := by
    intro row hrow
    obtain ⟨r, hr, rfl⟩ := List.mem_map.mp hrow
    exact h.length_row (List.mem_range.mp hr)
  refine ⟨W, hW.symm, ?_⟩
  rw [← pieces_rowMajor hpos, hW, h.dequantize_eq, pieces_flatten hpos hwidth]

end Held

namespace Linear

variable (d : Dispatcher) {m n k : Nat}

theorem forward_dense (X : Matrix (Fin m) (Fin k) ℚ) (W : Matrix (Fin n) (Fin k) ℚ) :
    (⟨.dense (rowMajor W.transpose), k, n⟩ : Linear ℚ).forward d (rowMajor X) m =
      .ok (rowMajor (X * W.transpose)) := by
  unfold forward
  rw [if_neg (not_not.mpr (length_rowMajor X))]
  exact d.matmulInto_exact X W.transpose List.length_replicate

theorem forward_codes {q : QuantizedMatrix ℚ} (h : q.Complete) (hcols : q.cols ≠ 0)
    (X : Matrix (Fin m) (Fin q.cols) ℚ) {W : Matrix (Fin q.rows) (Fin q.cols) ℚ}
    (hW : (List.range q.rows).map q.row = matrixRows W) :
    (⟨.quantized q, q.cols, q.rows⟩ : Linear ℚ).forward d (rowMajor X) m =
      .ok (rowMajor (X * W.transpose)) := by
  let l : Linear ℚ := ⟨.quantized q, q.cols, q.rows⟩
  have hfits : l.Fits := ⟨rfl, rfl, fun _ => ⟨hcols, fun r hr => h.length_row hr⟩⟩
  have hforward := forward_flatten (d := d) hfits fun x => length_of_mem_matrixRows (M := X)
  rw [length_matrixRows] at hforward
  refine hforward.trans (congrArg Except.ok ?_)
  have hproject : ∀ i, q.project (d.inBatch m) ((List.finRange q.cols).map (X i)) =
      (List.finRange q.rows).map ((X * W.transpose) i) := by
    intro i
    have hdots := d.dots_eq X W.transpose i
    rw [Matrix.transpose_transpose, ← hW, List.map_map] at hdots
    exact hdots
  rw [rowMajor_eq_flatMap, List.flatMap_def, matrixRows, List.map_map]
  exact congrArg List.flatten (List.map_congr_left fun i _ => hproject i)

/-- Codes can be kept or expanded when they are loaded: their products are the same. -/
theorem exists_ofMatrix {q : QuantizedMatrix ℚ} (h : q.Complete) (hcols : q.cols ≠ 0)
    (hsize : q.rows * q.cols < wordSize) : ∃ W : Matrix (Fin q.rows) (Fin q.cols) ℚ,
      q.dequantize = rowMajor W ∧ ∀ dequantize, ∃ l,
        ofTensor (.ofMatrix q) dequantize = .ok l ∧ l.isQuantized = !dequantize ∧
        ∀ m (X : Matrix (Fin m) (Fin q.cols) ℚ),
          l.forward d (rowMajor X) m = .ok (rowMajor (X * W.transpose)) := by
  obtain ⟨W, hW, hrows⟩ := h.exists_matrix hcols
  refine ⟨W, hW, fun dequantize => ?_⟩
  cases dequantize with
  | true =>
    have hload : ofTensor (.ofMatrix q) true = .ok ⟨.dense (rowMajor W.transpose), q.cols, q.rows⟩ :=
      ofTensor_dense rfl hW hsize (.inl rfl)
    exact ⟨_, hload, rfl, fun m X => forward_dense d X W⟩
  | false =>
    exact ⟨⟨.quantized q, q.cols, q.rows⟩, rfl, rfl, fun m X => forward_codes d h hcols X hrows⟩

end Linear

/-- In exact arithmetic all ways to a product agree, on every kernel and whatever counts as small:
tiled or not, with the right matrix or its transpose, as scores, and as a projection by weights held
dense. An inner product counts every index once, and codes yield the same product however they are
held. -/
theorem Dispatcher.exact_products (d : Dispatcher) {m k n : Nat} (A : Matrix (Fin m) (Fin k) ℚ)
    (B : Matrix (Fin k) (Fin n) ℚ) {out : List ℚ} (hout : out.length = m * n) :
    d.matmulInto (rowMajor A) (rowMajor B) m k n out = .ok (rowMajor (A * B)) ∧
    d.matmulTransposedInto (rowMajor A) (rowMajor B.transpose) m k n out =
      .ok (rowMajor (A * B)) ∧
    (k ≠ 0 → ∀ i, d.attentionScores (List.ofFn (A i)) (rowMajor B.transpose) k =
      .ok (List.ofFn ((A * B) i))) ∧
    (⟨.dense (rowMajor B), k, n⟩ : Linear ℚ).forward d (rowMajor A) m = .ok (rowMajor (A * B)) ∧
    (n * k < wordSize → ∀ dequantize,
      Linear.ofTensor ⟨[n, k], .dense (rowMajor B.transpose)⟩ dequantize =
        .ok ⟨.dense (rowMajor B), k, n⟩) ∧
    (∀ x y : Fin k → ℚ, d.dot (List.ofFn x) (List.ofFn y) = .ok (∑ p, x p * y p)) ∧
    ∀ q : QuantizedMatrix ℚ, q.Complete → q.cols ≠ 0 → q.rows * q.cols < wordSize →
      ∃ W : Matrix (Fin q.rows) (Fin q.cols) ℚ, q.dequantize = rowMajor W ∧
        ∀ dequantize, ∃ l, Linear.ofTensor (.ofMatrix q) dequantize = .ok l ∧
          l.isQuantized = !dequantize ∧ ∀ m (X : Matrix (Fin m) (Fin q.cols) ℚ),
            l.forward d (rowMajor X) m = .ok (rowMajor (X * W.transpose)) := by
  refine ⟨d.matmulInto_exact A B hout, d.matmulTransposedInto_exact A B hout, fun hk i => ?_,
    Linear.forward_dense d A B.transpose, fun hsize dequantize => ?_, fun x y => ?_,
    fun q h hcols hsize => Linear.exists_ofMatrix d h hcols hsize⟩
  · rw [List.ofFn_eq_map, List.ofFn_eq_map]
    exact d.attentionScores_exact A B hk i
  · exact Linear.ofTensor_dense rfl rfl hsize (.inr ⟨_, rfl⟩)
  · have hlen : (List.ofFn x).length = (List.ofFn y).length := by
      rw [List.length_ofFn, List.length_ofFn]
    rw [QuantizedMatrix.dot_eq_ok hlen, List.ofFn_eq_map, List.ofFn_eq_map, Kernel.dot_map,
      Fin.sum_univ_def]

theorem two_rows_every_way :
    let d : Dispatcher := ⟨.sse, {}⟩
    let A : Matrix (Fin 2) (Fin 2) ℚ := !![1, 2; 3, 4]
    let B : Matrix (Fin 2) (Fin 3) ℚ := !![5, 6, 7; 8, 9, 10]
    let q : QuantizedMatrix ℚ := ⟨.q8, 1, 32, List.replicate 32 3, [1 / 2]⟩
    rowMajor (A * B) = [21, 24, 27, 47, 54, 61] ∧
    d.matmulInto (rowMajor A) (rowMajor B) 2 2 3 (List.replicate 6 7) = .ok (rowMajor (A * B)) ∧
    d.matmulTransposedInto (rowMajor A) (rowMajor B.transpose) 2 2 3 (List.replicate 6 7) =
      .ok (rowMajor (A * B)) ∧
    d.attentionScores [3, 4] (rowMajor B.transpose) 2 = .ok [47, 54, 61] ∧
    Linear.ofTensor ⟨[3, 2], .dense (rowMajor B.transpose)⟩ false =
      .ok ⟨.dense (rowMajor B), 2, 3⟩ ∧
    ∃ kept expanded, Linear.ofTensor (.ofMatrix q) false = .ok kept ∧
      Linear.ofTensor (.ofMatrix q) true = .ok expanded ∧
      kept.forward d (List.replicate 32 1) 1 = expanded.forward d (List.replicate 32 1) 1 := by
  intro d A B q
  have hproduct : rowMajor (A * B) = [21, 24, 27, 47, 54, 61] := by decide +kernel
  have hsecond : List.ofFn ((A * B) 1) = [47, 54, 61] := by decide +kernel
  obtain ⟨hinto, htransposed, hscores, -, hload, -, hcodes⟩ :=
    @Dispatcher.exact_products d 2 2 3 A B (List.replicate 6 7) rfl
  obtain ⟨W, -, hq⟩ := hcodes q ⟨by decide, by decide, by decide⟩ (by decide) (by decide)
  obtain ⟨kept, hkept, -, hkeptForward⟩ := hq false
  obtain ⟨expanded, hexpanded, -, hexpandedForward⟩ := hq true
  have hrow : rowMajor (fun _ _ => 1 : Matrix (Fin 1) (Fin 32) ℚ) = List.replicate 32 1 := rfl
  refine ⟨hproduct, hinto, htransposed, ?_, hload (by decide) false, kept, expanded, hkept,
    hexpanded, ?_⟩
  · exact (hscores (by decide) 1).trans (congrArg Except.ok hsecond)
  · rw [← hrow]
    exact (hkeptForward 1 _).trans (hexpandedForward 1 _).symm

end CausalServe
