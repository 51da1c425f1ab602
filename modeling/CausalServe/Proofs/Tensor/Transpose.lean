import CausalServe.Proofs.Kernel.Entries
import CausalServe.Proofs.Quant.Expansion
import CausalServe.Tensor.Basic

/-! Transposed tensors. The elements of a tensor with two dimensions are those of a matrix, and its
transpose holds the transpose of that matrix. -/

namespace CausalServe.Tensor

variable {α : Type} [Scalar α] {t : Tensor α} {rows cols : ℕ}

/-- The transpose of a tensor is that of the matrix that it holds. -/
theorem transpose_rowMajor (M : Matrix (Fin rows) (Fin cols) α) (hshape : t.shape = [rows, cols])
    (hvalues : t.toList = rowMajor M) (hsize : rows * cols < wordSize) :
    t.transpose = .ok ⟨[cols, rows], .dense (rowMajor M.transpose)⟩ := by
  have hdims : t.dims2 = .ok (rows, cols) := by rw [dims2, hshape]
  have hcount : (rowMajor M.transpose).length = elementCount [cols, rows] := by
    rw [length_rowMajor, elementCount_matrix (Nat.mul_comm rows cols ▸ hsize)]
  unfold transpose
  rw [hdims, hvalues]
  change (if (rowMajor M).length ≠ rows * cols then _ else ofList _ _) = _
  rw [if_neg (not_not.mpr (length_rowMajor M)), interleave_pieces_rowMajor]
  exact if_neg (not_not.mpr hcount)

/-- A tensor with all of its elements is transposed, and back: what is left of it is its decoding. -/
theorem transpose_transpose (hshape : t.shape = [rows, cols])
    (hlen : t.toList.length = rows * cols) (hsize : rows * cols < wordSize) :
    ∃ u, t.transpose = .ok u ∧ u.shape = [cols, rows] ∧
      u.transpose = .ok ⟨[rows, cols], .dense t.toList⟩ ∧
      ∀ r < rows, ∀ c < cols, ∃ x,
        t.toList[r * cols + c]? = some x ∧ u.toList[c * rows + r]? = some x := by
  obtain ⟨M, hM⟩ := exists_rowMajor hlen
  have hback := transpose_rowMajor M.transpose (t := ⟨[cols, rows], .dense (rowMajor M.transpose)⟩)
    rfl rfl (Nat.mul_comm rows cols ▸ hsize)
  rw [Matrix.transpose_transpose, hM] at hback
  refine ⟨_, transpose_rowMajor M hshape hM.symm hsize, rfl, hback, fun r hr c hc => ?_⟩
  refine ⟨M ⟨r, hr⟩ ⟨c, hc⟩, ?_, getElem?_rowMajor M.transpose ⟨c, hc⟩ ⟨r, hr⟩⟩
  rw [← hM]
  exact getElem?_rowMajor M ⟨r, hr⟩ ⟨c, hc⟩

end CausalServe.Tensor
