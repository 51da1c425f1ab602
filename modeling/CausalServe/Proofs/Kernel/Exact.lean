import CausalServe.Proofs.Kernel.Entries

/-! The kernels in exact arithmetic. There the order of additions does not show: every inner product
is the sum of all its terms, and every way to a product of matrices yields the product. -/

namespace CausalServe

instance : Scalar ℚ where
  zero := 0
  sumStart := 0
  ofCode := Int.cast

/-! ## Inner products -/

namespace Kernel

theorem sum_eq (xs : List ℚ) : sum xs = xs.sum := List.sum_eq_foldl.symm

/-- Full runs go to the lanes, and no term is left out or met twice. -/
theorem lanes_sum {width count : Nat} {acc terms : List ℚ} (hacc : acc.length = width)
    (h : count * width ≤ terms.length) :
    (lanes width count acc terms).1.length = width ∧
      (lanes width count acc terms).1.sum + (lanes width count acc terms).2.sum =
        acc.sum + terms.sum := by
  induction count generalizing acc terms with
  | zero => exact ⟨hacc, rfl⟩
  | succ count ih =>
    rw [Nat.add_mul, Nat.one_mul] at h
    have htake : acc.length = (terms.take width).length := by
      rw [hacc, List.length_take]
      omega
    have hzip : (List.zipWith (· + ·) acc (terms.take width)).length = width := by
      rw [List.length_zipWith, ← htake, hacc, Nat.min_self]
    have hdrop : count * width ≤ (terms.drop width).length := by
      rw [List.length_drop]
      omega
    obtain ⟨hlen, hsum⟩ := ih hzip hdrop
    refine ⟨hlen, hsum.trans ?_⟩
    have hadd := List.sum_add_sum_eq_sum_zipWith_of_length_eq acc (terms.take width) htake
    calc (List.zipWith (· + ·) acc (terms.take width)).sum + (terms.drop width).sum
        = acc.sum + (terms.take width).sum + (terms.drop width).sum :=
          congrArg (· + (terms.drop width).sum) hadd.symm
      _ = acc.sum + terms.sum := by rw [add_assoc, List.sum_take_add_sum_drop]

theorem fillLanes_sum {width : Nat} {acc : List ℚ} (hacc : acc.length = width)
    (terms : List ℚ) : (fillLanes width acc terms).1.length = width ∧
      (fillLanes width acc terms).1.sum + (fillLanes width acc terms).2.sum =
        acc.sum + terms.sum :=
  lanes_sum hacc (Nat.div_mul_le_self _ _)

theorem fillLanes_zeros (width : Nat) (terms : List ℚ) :
    (fillLanes width (List.replicate width Scalar.zero) terms).1.length = width ∧
      (fillLanes width (List.replicate width Scalar.zero) terms).1.sum +
        (fillLanes width (List.replicate width Scalar.zero) terms).2.sum = terms.sum := by
  have hzeros : (List.replicate width (Scalar.zero : ℚ)).sum = 0 :=
    (List.sum_replicate width 0).trans (smul_zero width)
  obtain ⟨hlen, hsum⟩ := fillLanes_sum (@List.length_replicate _ width _) terms
  exact ⟨hlen, by rw [hsum, hzeros, zero_add]⟩

theorem scalarTotal_eq (terms : List ℚ) : scalarTotal terms = terms.sum := by
  obtain ⟨hlen, hsum⟩ := fillLanes_zeros 4 terms
  unfold scalarTotal
  generalize fillLanes 4 (List.replicate 4 (Scalar.zero : ℚ)) terms = filled at hlen hsum
  obtain ⟨acc, rest⟩ := filled
  obtain ⟨x, y, z, w, rfl⟩ := List.length_eq_four.mp hlen
  simp only [sum_eq, ← hsum]
  change x + y + (z + w) + rest.sum = x + (y + (z + (w + 0))) + rest.sum
  ring

theorem sseTotal_eq (terms : List ℚ) : sseTotal terms = terms.sum := by
  obtain ⟨hlen, hsum⟩ := fillLanes_zeros 16 terms
  unfold sseTotal
  generalize fillLanes 16 (List.replicate 16 (Scalar.zero : ℚ)) terms = filled at hlen hsum
  obtain ⟨acc, rest⟩ := filled
  have htake : (acc.take 4).length = 4 := by rw [List.length_take, hlen]; rfl
  obtain ⟨-, hfirst⟩ := fillLanes_sum htake rest
  calc (fillLanes 4 (acc.take 4) rest).2.foldl (· + ·)
        (sum ((fillLanes 4 (acc.take 4) rest).1 ++ acc.drop 4))
      = (fillLanes 4 (acc.take 4) rest).1.sum + (acc.drop 4).sum +
          (fillLanes 4 (acc.take 4) rest).2.sum := by
        rw [sum_eq, List.sum_append]
        exact List.foldl_eq_apply_foldr
    _ = (acc.take 4).sum + rest.sum + (acc.drop 4).sum := by rw [add_right_comm, hfirst]
    _ = acc.sum + rest.sum := by rw [add_right_comm, List.sum_take_add_sum_drop]
    _ = terms.sum := hsum

theorem total_eq (k : Kernel) (terms : List ℚ) : k.total terms = terms.sum := by
  cases k with
  | sse => exact sseTotal_eq terms
  | scalar => exact scalarTotal_eq terms

theorem dot_map {δ : Type} (k : Kernel) (x y : δ → ℚ) (inner : List δ) :
    k.dot (inner.map x) (inner.map y) = (inner.map fun p => x p * y p).sum := by
  rw [dot, total_eq, List.zipWith_map, List.zipWith_self]

/-! ## Rows of products -/

theorem entry_eq {k : Nat} (a b : Fin k → ℚ) :
    entry a b (List.finRange k) 0 = ∑ p, a p * b p := by
  have h : ((List.finRange k).map fun p => a p * b p).sum = _ := List.sum_eq_foldl
  rw [List.foldl_map, ← Fin.sum_univ_def] at h
  exact h.symm

theorem starts_eq {widths : List Nat} {n : Nat} :
    starts (0 : ℚ) widths n = List.replicate n 0 := by
  induction widths generalizing n with
  | nil => rfl
  | cons width narrower ih =>
    rw [starts, ih]
    change List.replicate (n / width * width) (0 : ℚ) ++ _ = _
    rw [List.replicate_append_replicate, Nat.div_add_mod']

end Kernel

namespace Dispatcher

variable (d : Dispatcher) {m k n : Nat}

theorem starts_eq : d.starts m k n = List.replicate n (0 : ℚ) := by
  have htail : (d.kernel.tailStart : ℚ) = 0 := by cases d.kernel <;> rfl
  unfold starts
  split
  next => rfl
  next => rw [htail, Kernel.starts_eq]

variable (A : Matrix (Fin m) (Fin k) ℚ) (B : Matrix (Fin k) (Fin n) ℚ)

/-- A product over nothing is zero everywhere. -/
theorem rowMajor_mul_of_empty (hk : k = 0) : rowMajor (A * B) = List.replicate (m * n) 0 := by
  subst hk
  refine List.eq_replicate_iff.mpr ⟨length_rowMajor _, fun x hx => ?_⟩
  obtain ⟨row, hrow, hx⟩ := List.mem_flatten.mp hx
  obtain ⟨i, -, rfl⟩ := List.mem_map.mp hrow
  obtain ⟨j, -, rfl⟩ := List.mem_map.mp hx
  exact Fin.sum_univ_zero fun p => A i p * B p j

theorem product_eq : d.product (rowMajor A) (rowMajor B) m k n = rowMajor (A * B) := by
  by_cases hmn : m = 0 ∨ n = 0
  · have hlen : (rowMajor (A * B)).length = 0 :=
      (length_rowMajor _).trans (Nat.mul_eq_zero.mpr hmn)
    rw [List.length_eq_zero_iff.mp hlen, product, if_pos hmn]
  by_cases hk : k = 0
  · rw [rowMajor_mul_of_empty A B hk, product, if_neg hmn, if_pos hk]
    rfl
  obtain ⟨hm, hn⟩ := not_or.mp hmn
  rw [d.product_rowMajor hm hk hn, starts_eq, rowMajor_eq_flatMap]
  have hzeros : List.replicate n (0 : ℚ) = (List.finRange n).map fun _ => 0 := by
    rw [List.map_const', List.length_finRange]
  refine List.flatMap_congr fun i _ => ?_
  rw [hzeros, List.zipWith_map_left, List.zipWith_self]
  exact List.map_congr_left fun j _ => Kernel.entry_eq (A i) (B · j)

theorem matmulInto_exact {out : List ℚ} (h : out.length = m * n) :
    d.matmulInto (rowMajor A) (rowMajor B) m k n out = .ok (rowMajor (A * B)) :=
  d.matmulInto_eq_ok.mpr ⟨length_rowMajor A, length_rowMajor B, h, (d.product_eq A B).symm⟩

/-- The inner products of a row with all columns. -/
theorem dots_eq (i : Fin m) : (matrixRows B.transpose).map
      (d.kernel.dot ((List.finRange k).map (A i))) = (List.finRange n).map ((A * B) i) := by
  rw [matrixRows, List.map_map]
  refine List.map_congr_left fun j _ => ?_
  exact (d.kernel.dot_map (A i) (B · j) _).trans (Fin.sum_univ_def _).symm

theorem matmulTransposedInto_exact {out : List ℚ} (h : out.length = m * n) :
    d.matmulTransposedInto (rowMajor A) (rowMajor B.transpose) m k n out =
      .ok (rowMajor (A * B)) := by
  unfold matmulTransposedInto
  simp only [length_rowMajor, h, ne_eq, not_true_eq_false, if_false]
  by_cases hmn : m = 0 ∨ n = 0
  · have hlen : (rowMajor (A * B)).length = 0 :=
      (length_rowMajor _).trans (Nat.mul_eq_zero.mpr hmn)
    rw [Nat.mul_eq_zero.mpr hmn] at h
    rw [List.length_eq_zero_iff.mp hlen, List.length_eq_zero_iff.mp h, if_pos hmn]
    rfl
  by_cases hk : k = 0
  · rw [rowMajor_mul_of_empty A B hk, if_neg hmn, if_pos hk]
    rfl
  have hpos := Nat.pos_of_ne_zero hk
  rw [if_neg hmn, if_neg hk, pieces_rowMajor hpos, pieces_rowMajor hpos]
  refine congrArg Except.ok ((List.flatMap_map ..).trans ?_)
  rw [rowMajor_eq_flatMap]
  exact List.flatMap_congr fun i _ => d.dots_eq A B i

theorem attentionScores_exact (hk : k ≠ 0) (i : Fin m) :
    d.attentionScores ((List.finRange k).map (A i)) (rowMajor B.transpose) k =
      .ok ((List.finRange n).map ((A * B) i)) := by
  have hpos := Nat.pos_of_ne_zero hk
  unfold attentionScores attentionScoresInto
  simp only [length_rowMajor, List.length_map, List.length_finRange, Nat.mul_div_cancel n hpos, hk,
    ne_eq, not_true_eq_false, or_self, if_false]
  rw [pieces_rowMajor hpos, d.dots_eq A B i]
  rfl

end Dispatcher

end CausalServe
