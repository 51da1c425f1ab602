import CausalServe.Model.FeedForward
import CausalServe.Model.Norm
import CausalServe.Model.Rotary
import CausalServe.Proofs.Kernel.Rows
import CausalServe.Proofs.Traverse

/-! The parts of a layer that look at one row at a time. Each of them has a function on single rows,
and takes a batch to the results of that function, whatever the other rows are. -/

namespace CausalServe

/-! ## Entry by entry -/

section Zip

variable {α β : Type} (f : α → β → α)

theorem length_zipOnto (xs : List α) (ys : List β) : (zipOnto f xs ys).length = xs.length := by
  fun_induction zipOnto f xs ys with
  | case1 x xs y ys ih => rw [List.length_cons, List.length_cons, ih]
  | case2 => rfl

theorem zipOnto_append {xs : List α} {ys : List β} (h : xs.length = ys.length) (xs' : List α)
    (ys' : List β) : zipOnto f (xs ++ xs') (ys ++ ys') = zipOnto f xs ys ++ zipOnto f xs' ys' := by
  induction xs generalizing ys with
  | nil =>
    obtain rfl := List.eq_nil_of_length_eq_zero h.symm
    rfl
  | cons x xs ih =>
    cases ys with
    | nil => cases h
    | cons y ys =>
      rw [List.cons_append, List.cons_append, zipOnto, ih (Nat.succ.inj h)]
      rfl

/-- Batches of rows are combined row by row. -/
theorem zipOnto_flatten {γ : Type} (items : List γ) {left : γ → List α} {right : γ → List β}
    (h : ∀ it ∈ items, (left it).length = (right it).length) :
    zipOnto f (items.map left).flatten (items.map right).flatten =
      (items.map fun it => zipOnto f (left it) (right it)).flatten := by
  induction items with
  | nil => rfl
  | cons it items ih =>
    rw [List.map_cons, List.map_cons, List.flatten_cons, List.flatten_cons,
      zipOnto_append f (h it List.mem_cons_self),
      ih fun other ho => h other (List.mem_cons_of_mem _ ho)]
    rfl

end Zip

/-! ## Projections -/

variable {α : Type} [Scalar α]

namespace QuantizedMatrix

variable (q : QuantizedMatrix α) {d : Dispatcher}

/-- Every row expands to as many elements as there are columns. -/
def Whole : Prop := q.rows ≠ 0 → q.cols ≠ 0 ∧ ∀ r < q.rows, (q.row r).length = q.cols

/-- One row times the transpose. -/
def project (d : Dispatcher) (x : List α) : List α :=
  (List.range q.rows).map fun r => d.kernel.dot x (q.row r)

variable {q}

theorem dequantizeRow_of_lt {r : Nat} (h : r < q.rows) :
    q.dequantizeRow r q.cols = .ok (q.row r) := by
  simp [dequantizeRow, Nat.not_le.mpr h]
  rfl

theorem dot_eq_ok {x y : List α} (h : x.length = y.length) :
    d.dot x y = .ok (d.kernel.dot x y) := by
  simp [Dispatcher.dot, h]
  rfl

theorem matmulTransposed_flatten (hq : q.Whole) {rows : List (List α)}
    (h : ∀ x ∈ rows, x.length = q.cols) {out : List α}
    (hout : out.length = rows.length * q.rows) :
    q.matmulTransposed d rows.flatten rows.length out = .ok (rows.map (q.project d)).flatten := by
  have hlen := length_flatten_of_width h
  unfold matmulTransposed
  simp only [hlen, hout, ne_eq, not_true_eq_false, if_false]
  split
  next hz =>
    rcases hz with hz | hz
    · have hnil := List.length_eq_zero_iff.mp hz
      rw [hz, Nat.zero_mul] at hout
      rw [List.length_eq_zero_iff.mp hout, hnil]
      rfl
    · rw [hz, Nat.mul_zero] at hout
      rw [List.length_eq_zero_iff.mp hout]
      refine congrArg Except.ok (List.flatten_eq_nil_iff.mpr fun row hrow => ?_).symm
      obtain ⟨x, -, rfl⟩ := List.mem_map.mp hrow
      rw [project, hz]
      rfl
  next hz =>
    obtain ⟨hcols, hwhole⟩ := hq fun hr => hz (.inr hr)
    have hcolumn : ∀ r ∈ List.range q.rows, (do
        let weights ← q.dequantizeRow r q.cols
        rows.mapM fun row => d.dot row weights) =
          .ok (rows.map fun x => d.kernel.dot x (q.row r)) := by
      intro r hr
      have hlt := List.mem_range.mp hr
      rw [dequantizeRow_of_lt hlt]
      exact mapM_eq_ok fun x hx => dot_eq_ok ((h x hx).trans (hwhole r hlt).symm)
    rw [if_neg hcols, pieces_flatten (Nat.pos_of_ne_zero hcols) h, mapM_eq_ok hcolumn]
    exact congrArg Except.ok (interleave_map (fun r x => d.kernel.dot x (q.row r)) _ rows)

/-- A product with at least one row succeeds only where all rows of the matrix are whole. -/
theorem whole_of_matmulTransposed {x out y : List α} {m : Nat} (hm : m ≠ 0)
    (h : q.matmulTransposed d x m out = .ok y) :
    x.length = m * q.cols ∧ out.length = m * q.rows ∧ q.Whole := by
  unfold matmulTransposed at h
  simp only at h
  split at h
  next => cases h
  next hx =>
    split at h
    next => cases h
    next hout =>
      rw [not_not] at hx hout
      refine ⟨hx, hout, fun hrows => ?_⟩
      rw [if_neg (not_or.mpr ⟨hm, hrows⟩)] at h
      split at h
      next => cases h
      next hcols =>
        obtain ⟨columns, hcolumns, -⟩ := bind_eq_ok.mp h
        refine ⟨hcols, fun r hr => ?_⟩
        obtain ⟨column, -, hcolumn⟩ := exists_of_mapM_eq_ok hcolumns (List.mem_range.mpr hr)
        rw [dequantizeRow_of_lt hr] at hcolumn
        -- the first row of the left matrix was multiplied with this one
        have hfirst : 0 < (pieces q.cols x).length := by
          rw [length_pieces, hx, Nat.mul_div_cancel _ (Nat.pos_of_ne_zero hcols)]
          exact Nat.pos_of_ne_zero hm
        have hmem := List.getElem_mem hfirst
        obtain ⟨entry, -, hentry⟩ := exists_of_mapM_eq_ok hcolumn hmem
        unfold Dispatcher.dot at hentry
        split at hentry
        next => cases hentry
        next heq =>
          rw [not_not, length_of_mem_pieces hmem] at heq
          exact heq.symm

end QuantizedMatrix

namespace Linear

variable (l : Linear α) {d : Dispatcher}

/-- The weights have the size that the projection tells. -/
def Fits : Prop :=
  match l.weight with
  | .dense w => w.length = l.inFeatures * l.outFeatures
  | .quantized q => q.cols = l.inFeatures ∧ q.rows = l.outFeatures ∧ q.Whole

def row (d : Dispatcher) (x : List α) : List α :=
  match l.weight with
  | .dense w => d.product x w 1 l.inFeatures l.outFeatures
  | .quantized q => q.project d x

variable {l}

theorem length_row (hl : l.Fits) {x : List α} (h : x.length = l.inFeatures) :
    (l.row d x).length = l.outFeatures := by
  obtain ⟨weight, inputs, outputs⟩ := l
  cases weight with
  | dense w =>
    exact (d.length_product w (h.trans (Nat.one_mul _).symm)).trans (Nat.one_mul _)
  | quantized q =>
    obtain ⟨-, hrows, -⟩ := hl
    change (q.project d x).length = outputs
    rw [QuantizedMatrix.project, List.length_map, List.length_range, hrows]

/-- A batch is projected row by row. -/
theorem forward_flatten (hl : l.Fits) {rows : List (List α)}
    (h : ∀ x ∈ rows, x.length = l.inFeatures) :
    l.forward d rows.flatten rows.length =
      .ok (rows.map (l.row (d.inBatch rows.length))).flatten := by
  obtain ⟨weight, inputs, outputs⟩ := l
  have hlen := length_flatten_of_width h
  unfold forward
  rw [if_neg (not_not.mpr hlen)]
  cases weight with
  | dense w =>
    exact d.matmulInto_eq_ok.mpr ⟨hlen, hl, List.length_replicate,
      (d.product_flatten h w outputs).symm⟩
  | quantized q =>
    obtain ⟨hcols, hrows, hwhole⟩ := hl
    refine QuantizedMatrix.matmulTransposed_flatten hwhole (fun x hx => ?_) ?_
    · exact (h x hx).trans hcols.symm
    · rw [List.length_replicate, hrows]

/-- A batch with a row is projected only where the weights fit. -/
theorem fits_of_forward {x y : List α} {m : Nat} (hm : m ≠ 0) (h : l.forward d x m = .ok y) :
    l.Fits := by
  obtain ⟨weight, inputs, outputs⟩ := l
  obtain ⟨hx, h⟩ := ok_of_guard h
  rw [not_not] at hx
  cases weight with
  | dense w => exact (d.matmulInto_eq_ok.mp h).2.1
  | quantized q =>
    obtain ⟨hcols, hrows, hwhole⟩ := QuantizedMatrix.whole_of_matmulTransposed hm h
    rw [hx] at hcols
    rw [List.length_replicate] at hrows
    have hpos := Nat.pos_of_ne_zero hm
    exact ⟨(Nat.eq_of_mul_eq_mul_left hpos hcols).symm,
      (Nat.eq_of_mul_eq_mul_left hpos hrows).symm, hwhole⟩

end Linear

/-! ## Norms -/

namespace RmsNorm

variable {n : RmsNorm}

theorem length_row {x : List Float32} (h : x.length = n.weight.length) :
    (n.row x).length = n.weight.length := by
  rw [row, List.length_zipWith, h, Nat.min_self]

/-- A batch is normalized row by row. -/
theorem forward_flatten (hpos : 0 < n.weight.length) {rows : List (List Float32)}
    (h : ∀ x ∈ rows, x.length = n.weight.length) :
    n.forward rows.flatten = .ok (rows.map n.row).flatten := by
  have hlen := length_flatten_of_width h
  have hsize : ¬ (n.weight.length = 0 ∨ rows.flatten.length % n.weight.length ≠ 0) := by
    rw [hlen, Nat.mul_mod_left]
    omega
  unfold forward
  simp only [if_neg hsize, pieces_flatten hpos h, List.flatMap_def]
  rfl

end RmsNorm

/-! ## The feed-forward network -/

namespace FeedForward

variable (f : FeedForward) {d : Dispatcher}

/-- The weights of all three projections fit, and each yields rows for the next. -/
structure Fits (f : FeedForward) : Prop where
  gate : f.gate.Fits
  up : f.up.Fits
  down : f.down.Fits

/-- Each projection takes the rows that the ones before it yield. -/
structure Chained (f : FeedForward) (hidden : Nat) : Prop where
  gate : f.gate.inFeatures = hidden
  up_in : f.up.inFeatures = hidden
  up_out : f.up.outFeatures = f.gate.outFeatures
  down_in : f.down.inFeatures = f.gate.outFeatures
  down_out : f.down.outFeatures = hidden

def row (d : Dispatcher) (x : List Float32) : List Float32 :=
  f.down.row d (zipOnto (fun g u => silu g * u) (f.gate.row d x) (f.up.row d x))

variable {f} {hidden : Nat}

theorem length_row (hf : f.Fits) (hc : f.Chained hidden) {x : List Float32}
    (h : x.length = hidden) : (f.row d x).length = hidden := by
  rw [row, ← hc.down_out]
  refine Linear.length_row hf.down ?_
  rw [length_zipOnto, Linear.length_row hf.gate (h.trans hc.gate.symm), hc.down_in]

/-- A batch is run row by row. -/
theorem forward_flatten (hf : f.Fits) (hc : f.Chained hidden) {rows : List (List Float32)}
    (h : ∀ x ∈ rows, x.length = hidden) :
    f.forward d rows.flatten rows.length =
      .ok (rows.map (f.row (d.inBatch rows.length))).flatten := by
  let e := d.inBatch rows.length
  have hgate : ∀ x ∈ rows, x.length = f.gate.inFeatures := fun x hx => (h x hx).trans hc.gate.symm
  have hup : ∀ x ∈ rows, x.length = f.up.inFeatures := fun x hx => (h x hx).trans hc.up_in.symm
  have hlen : ∀ x ∈ rows, (f.gate.row e x).length = (f.up.row e x).length := by
    intro x hx
    rw [Linear.length_row hf.gate (hgate x hx), Linear.length_row hf.up (hup x hx), hc.up_out]
  have hzip := zipOnto_flatten (fun g u => silu g * u) rows hlen
  have hwidth : ∀ y ∈ rows.map fun x =>
      zipOnto (fun g u => silu g * u) (f.gate.row e x) (f.up.row e x),
      y.length = f.down.inFeatures := by
    intro y hy
    obtain ⟨x, hx, rfl⟩ := List.mem_map.mp hy
    rw [length_zipOnto, Linear.length_row hf.gate (hgate x hx), hc.down_in]
  have hdown := Linear.forward_flatten (d := d) hf.down hwidth
  rw [List.length_map, List.map_map] at hdown
  unfold forward
  rw [Linear.forward_flatten hf.gate hgate, Linear.forward_flatten hf.up hup]
  change f.down.forward d (zipOnto _ _ _) rows.length = _
  rw [hzip, hdown]
  rfl

theorem fits_of_forward {x y : List Float32} {m : Nat} (hm : m ≠ 0)
    (h : f.forward d x m = .ok y) : f.Fits := by
  obtain ⟨gate, hgate, h⟩ := bind_eq_ok.mp h
  obtain ⟨up, hup, hdown⟩ := bind_eq_ok.mp h
  exact ⟨Linear.fits_of_forward hm hgate, Linear.fits_of_forward hm hup,
    Linear.fits_of_forward hm hdown⟩

end FeedForward

/-! ## Rotary embeddings -/

namespace Rotary

theorem length_rotate (turns : List Turn) (xs ys : List Float32) :
    (rotate turns xs ys).1.length = xs.length ∧ (rotate turns xs ys).2.length = ys.length := by
  fun_induction rotate turns xs ys with
  | case1 cos sin turns x xs y ys left right hrest ih =>
    rw [hrest] at ih
    exact ⟨congrArg (· + 1) ih.1, congrArg (· + 1) ih.2⟩
  | case2 => exact ⟨rfl, rfl⟩

theorem length_apply (r : Rotary) (head : List Float32) (position : Nat) :
    (r.apply head position).length = head.length := by
  have h := length_rotate (r.turns position) (head.take (r.dim / 2)) (head.drop (r.dim / 2))
  unfold apply
  simp only [List.length_append, h.1, h.2, List.length_take, List.length_drop]
  omega

theorem length_applyHeads (r : Rotary) (row : List Float32) (position : Nat) :
    (r.applyHeads row position).length = row.length := by
  have hwidth : ∀ head ∈ (pieces r.dim row).map fun head => r.apply head position,
      head.length = r.dim := by
    intro turned hturned
    obtain ⟨head, hhead, rfl⟩ := List.mem_map.mp hturned
    exact (r.length_apply head position).trans (length_of_mem_pieces hhead)
  have hheads : ((pieces r.dim row).flatMap fun head => r.apply head position).length =
      row.length / r.dim * r.dim := by
    rw [List.flatMap_def, length_flatten_of_width hwidth, List.length_map, length_pieces]
  have hle := Nat.div_mul_le_self row.length r.dim
  rw [applyHeads, List.length_append, hheads, List.length_drop]
  omega

end Rotary

end CausalServe
