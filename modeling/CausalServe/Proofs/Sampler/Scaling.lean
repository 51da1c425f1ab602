import CausalServe.Proofs.Number.Arithmetic
import CausalServe.Sampler

/-! Logits below their maximum in units of the temperature. Scaling rounds twice: it keeps the order
of two logits, or it makes them equal. -/

namespace CausalServe

/-! ## The total order -/

namespace Binary32

open Float.Model.UnpackedFloat (Sign)

def signedKey (s : Sign) (n : ℕ) : ℤ :=
  match s with
  | .negative => -(n : ℤ) - 1
  | .positive => n

theorem totalKey_eq {x : Float32} (h : x.isNaN = false) :
    totalKey x = signedKey (sign x) (magnitude x) := by
  rw [totalKey, h, sign]
  cases isNegative x <;> rfl

/-- Only equal floats share a key. -/
theorem totalKey_inj {x y : Float32} (hx : x.isNaN = false) (hy : y.isNaN = false)
    (h : totalKey x = totalKey y) : x = y := by
  rw [totalKey_eq hx, totalKey_eq hy] at h
  cases hs : sign x <;> cases ht : sign y <;> rw [hs, ht] at h <;> simp only [signedKey] at h
  case negative.negative => exact ext (hs.trans ht.symm) (by omega)
  case positive.positive => exact ext (hs.trans ht.symm) (by omega)
  all_goals omega

/-! ## The larger of two -/

/-- The largest of some floats is one of them, and none of them is larger. -/
theorem foldl_larger {first : Float32} {xs : List Float32} (hfirst : first.isNaN = false)
    (hxs : ∀ x ∈ xs, x.isNaN = false) :
    (xs.foldl larger first = first ∨ xs.foldl larger first ∈ xs) ∧
      order first ≤ order (xs.foldl larger first) ∧
      ∀ x ∈ xs, order x ≤ order (xs.foldl larger first) := by
  induction xs generalizing first with
  | nil => exact ⟨.inl rfl, le_rfl, fun x hx => absurd hx List.not_mem_nil⟩
  | cons x xs ih =>
    have hx := hxs x List.mem_cons_self
    have hothers : ∀ y ∈ xs, y.isNaN = false := fun y hy => hxs y (List.mem_cons_of_mem x hy)
    rw [List.foldl_cons, larger_eq hfirst hx]
    split
    next hlt =>
      obtain ⟨hmem, hle, hall⟩ := ih hfirst hothers
      refine ⟨hmem.imp_right (List.mem_cons_of_mem x), hle, fun y hy => ?_⟩
      rcases List.mem_cons.mp hy with rfl | hy
      · exact ((lt_iff hx hfirst).mp hlt).le.trans hle
      · exact hall y hy
    next hlt =>
      obtain ⟨hmem, hle, hall⟩ := ih hx hothers
      have hfirst_le : order first ≤ order x := not_lt.mp fun h => hlt ((lt_iff hx hfirst).mpr h)
      refine ⟨.inr ?_, hfirst_le.trans hle, fun y hy => ?_⟩
      · rcases hmem with heq | hmem
        · rw [heq]
          exact List.mem_cons_self
        · exact List.mem_cons_of_mem x hmem
      · rcases List.mem_cons.mp hy with rfl | hy
        · exact hle
        · exact hall y hy

end Binary32

/-! ## Scaling -/

namespace Sampler

open Binary32

variable {temperature : Float32} {logits : List Float32}

def top (logits : List Float32) : Float32 := logits.foldl larger negInfinity

def scale (temperature : Float32) (logits : List Float32) (x : Float32) : Float32 :=
  (x - top logits) / temperature

theorem scaled_eq (temperature : Float32) (logits : List Float32) :
    scaled temperature logits = logits.map (scale temperature logits) := rfl

/-- The largest of some finite logits is finite. -/
theorem top_spec (hne : logits ≠ []) (hfinite : ∀ x ∈ logits, x.isFinite = true) :
    (top logits).isFinite = true ∧ ∀ x ∈ logits, order x ≤ order (top logits) := by
  have hlow : negInfinity.isNaN = false := by decide +kernel
  obtain ⟨hmem, -, hall⟩ :=
    foldl_larger hlow fun x hx => not_isNaN_of_isFinite (hfinite x hx)
  refine ⟨?_, hall⟩
  rcases hmem with heq | hmem
  · obtain ⟨x, hx⟩ := List.exists_mem_of_ne_nil _ hne
    have hle := hall x hx
    have hbottom : order negInfinity = -0x7F800000 := by decide +kernel
    have hmagnitude := magnitude_lt_of_isFinite (hfinite x hx)
    rw [heq, hbottom] at hle
    unfold order at hle
    cases hs : sign x <;> rw [hs] at hle <;> simp only [Float.Model.UnpackedFloat.Sign.apply] at hle
    · omega
    · omega
  · exact hfinite _ hmem

theorem le_top (hne : logits ≠ []) (hfinite : ∀ x ∈ logits, x.isFinite = true) {x : Float32}
    (hx : x ∈ logits) : value x ≤ value (top logits) := by
  obtain ⟨htop, hall⟩ := top_spec hne hfinite
  have hlt := lt_iff (not_isNaN_of_isFinite htop) (not_isNaN_of_isFinite (hfinite x hx))
  rw [lt_iff_value_lt (not_isNaN_of_isFinite htop) (not_isNaN_of_isFinite (hfinite x hx))] at hlt
  exact not_lt.mp fun h => absurd (hlt.mp h) (not_lt.mpr (hall x hx))

variable (hne : logits ≠ []) (hfinite : ∀ x ∈ logits, x.isFinite = true)
  (htemp : temperature.isFinite = true) (hpos : 0 < temperature)

include hne hfinite

theorem sub_top_not_isNaN {x : Float32} (hx : x ∈ logits) : (x - top logits).isNaN = false := by
  rw [← Bool.not_eq_true, isNaN_iff, (sub_spec (hfinite x hx) (top_spec hne hfinite).1).1, not_lt]
  exact roundedMagnitude_le _

include htemp hpos

theorem scale_not_isNaN {x : Float32} (hx : x ∈ logits) :
    (scale temperature logits x).isNaN = false :=
  div_not_isNaN (sub_top_not_isNaN hne hfinite hx) htemp hpos

/-- Scaling never puts a smaller logit before a larger one. -/
theorem totalKey_scale_le {x y : Float32} (hx : x ∈ logits) (hy : y ∈ logits) (h : x < y) :
    totalKey (scale temperature logits x) ≤ totalKey (scale temperature logits y) := by
  obtain ⟨htop, -⟩ := top_spec hne hfinite
  have hxn := sub_top_not_isNaN hne hfinite hx
  have hyn := sub_top_not_isNaN hne hfinite hy
  rw [lt_iff_value_lt (not_isNaN_of_isFinite (hfinite x hx))
    (not_isNaN_of_isFinite (hfinite y hy))] at h
  have hyt := le_top hne hfinite hy
  obtain ⟨hxm, hxs, -⟩ := sub_spec (hfinite x hx) htop
  obtain ⟨hym, -, -⟩ := sub_spec (hfinite y hy) htop
  have hdistance : |value y - value (top logits)| ≤ |value x - value (top logits)| := by
    rw [abs_of_nonpos (by linarith), abs_of_nonpos (by linarith)]
    linarith
  have hmagnitude : magnitude (y - top logits) ≤ magnitude (x - top logits) := by
    rw [hxm, hym]
    exact roundedMagnitude_mono hdistance
  have hquotient := magnitude_div_mono hyn hxn hmagnitude htemp hpos
  rw [totalKey_eq (scale_not_isNaN hne hfinite htemp hpos hx),
    totalKey_eq (scale_not_isNaN hne hfinite htemp hpos hy), scale, scale,
    (div_of_pos hxn htemp hpos).1, hxs (h.trans_le hyt)]
  cases sign ((y - top logits) / temperature) <;> simp only [signedKey] <;> omega

end Sampler

end CausalServe
