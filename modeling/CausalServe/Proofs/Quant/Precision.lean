import CausalServe.Proofs.Quant.Packing
import CausalServe.Proofs.Quant.Scale

/-! How far a decoded value is from the quantized one: half a step, and little more for what three
roundings lose. -/

namespace CausalServe

open Binary32
open Float.Model.UnpackedFloat (Sign)

/-- Scales that are accepted, by their values. -/
theorem checkScale_iff_value {scale : Float32} :
    checkScale scale = .ok () ↔ scale.isFinite = true ∧ 0 ≤ value scale := by
  have hzero : (0 : Float32).isNaN = false := by decide +kernel
  rw [checkScale_eq_ok]
  refine and_congr_right fun hfinite => ?_
  rw [lt_iff_value_lt (not_isNaN_of_isFinite hfinite) hzero, value_zero, not_lt]

namespace Block

/-! ## One value -/

theorem minCode_eq (e : Encoding) : e.minCode = -e.maxCode - 1 := by
  cases e <;> rfl

/-- Cutting off at the ends of the range costs nothing to what is at most half a step above it. -/
theorem abs_clamp_sub_le {t n : ℤ} {x : ℚ} (ht : 0 ≤ t) (hn : |(n : ℚ) - x| ≤ 1 / 2)
    (hx : |x| ≤ t + 1 / 2) :
    |((max (-t - 1) (min t n) : ℤ) : ℚ) - x| ≤ 1 / 2 := by
  rw [abs_le] at hn hx
  have hlow : -t - 1 ≤ n := by
    have : (-t - 1 : ℚ) ≤ n := by linarith
    exact_mod_cast this
  rcases le_or_gt n t with hle | hgt
  · rw [min_eq_right hle, max_eq_right hlow, abs_le]
    exact hn
  · have hnext : (t : ℚ) + 1 ≤ n := by exact_mod_cast hgt
    rw [min_eq_left hgt.le, max_eq_right (by omega), abs_le]
    constructor <;> linarith

theorem signed_div (s : Sign) (p q : ℚ) : signed s (p / q) = signed s p / q := by
  rw [div_eq_mul_inv, div_eq_mul_inv]
  cases s
  · exact (neg_mul p _).symm
  · rfl

section Value

variable {e : Encoding} {amax k : ℕ} (hfits : Fits e amax k) {v : Float32}
  (hv : v.isFinite = true) (hle : magnitude v ≤ amax) (hamax : amax < 0x7F800000)

include hle hamax in
theorem ratio_le : magnitudeValue (magnitude v) / magnitudeValue k ≤
    magnitudeValue amax / magnitudeValue k :=
  div_le_div_of_nonneg_right (magnitudeValue_mono hle hamax.le) (magnitudeValue_nonneg k)

include hfits hv

/-- The quotient of a value by the scale, before it goes to the nearest integer. -/
theorem quotient_spec : sign (v / ofMagnitude k) = sign v ∧ magnitude (v / ofMagnitude k) =
    roundedMagnitude (magnitudeValue (magnitude v) / magnitudeValue k) := by
  obtain ⟨hksign, hkmagnitude⟩ := parts_ofMagnitude hfits.lt.le
  obtain ⟨hsign, hmagnitude⟩ :=
    div_spec hv (isFinite_ofMagnitude hfits.lt) (hkmagnitude.trans_ne hfits.pos)
  rw [hkmagnitude] at hmagnitude
  rw [hsign, hksign]
  exact ⟨by cases sign v <;> rfl, hmagnitude⟩

include hle hamax

omit hv in
theorem rounded_ratio_le :
    roundedMagnitude (magnitudeValue (magnitude v) / magnitudeValue k) ≤ limit e :=
  (roundedMagnitude_mono (ratio_le hle hamax)).trans hfits.near

theorem abs_quotient_le : |value (v / ofMagnitude k)| ≤ e.maxCode + 1 / 2 := by
  have hlimit := limit_le e
  rw [abs_value, (quotient_spec hfits hv).2, ← value_limit]
  exact magnitudeValue_mono (rounded_ratio_le hfits hle hamax) (by omega)

/-- Under a scale with a mantissa in full a quotient is well below half a step above the top code. -/
theorem abs_quotient_le_of_normal (hnormal : 0x800000 ≤ k) :
    |value (v / ofMagnitude k)| ≤ e.maxCode + 1 / 4 := by
  have hlimit := limit_le e
  have hquarter := quarter_le e
  have hclose := (ratio_le hle hamax).trans (hfits.close hnormal)
  rw [abs_value, (quotient_spec hfits hv).2, ← value_quarter]
  rw [← value_quarter] at hclose
  exact magnitudeValue_mono (roundedMagnitude_le_of_le (by omega) hclose) (by omega)

/-- The quotient is rounded in a place far below the point. -/
theorem abs_quotient_sub_le :
    |value (v / ofMagnitude k) - value v / magnitudeValue k| ≤ 1 / 2 ^ 17 := by
  have hlimit := limit_le e
  have hrounded := rounded_ratio_le hfits hle hamax
  obtain ⟨hsign, hmagnitude⟩ := quotient_spec hfits hv
  have hplace : place (magnitudeValue (magnitude v) / magnitudeValue k) ≤ -16 := by
    have hlt := lt_of_roundedMagnitude_lt (n := 0x43000000) (by decide)
      (hrounded.trans_lt (by omega))
    refine (place_mono hlt.le).trans_eq ?_
    rw [place_magnitudeValue, Dyadic.ofMagnitude_normal (by decide)]
    rfl
  have hunit : (2 : ℚ) ^ place (magnitudeValue (magnitude v) / magnitudeValue k) ≤ 2 ^ (-16 : ℤ) :=
    zpow_le_zpow_right₀ one_le_two hplace
  have hratio : 0 ≤ magnitudeValue (magnitude v) / magnitudeValue k :=
    div_nonneg (magnitudeValue_nonneg _) (magnitudeValue_nonneg _)
  rw [value, value, hsign, hmagnitude, ← signed_div, signed_sub]
  refine (abs_rounded_sub_le hratio (by omega)).trans ?_
  norm_num at hunit ⊢
  linarith

/-- A code is in range, and within half a step of the exact quotient but for its rounding. -/
theorem codeFor_spec :
    e.minCode ≤ codeFor e (ofMagnitude k) v ∧ codeFor e (ofMagnitude k) v ≤ e.maxCode ∧
      |(codeFor e (ofMagnitude k) v : ℚ) - value v / magnitudeValue k| ≤ 1 / 2 + 1 / 2 ^ 17 := by
  have hbounds : 0 ≤ e.maxCode := by cases e <;> decide
  have hclamp := abs_clamp_sub_le hbounds (abs_nearestInt_sub_le (v / ofMagnitude k))
    (abs_quotient_le hfits hv hle hamax)
  have hquotient := abs_quotient_sub_le hfits hv hle hamax
  rw [← minCode_eq] at hclamp
  refine ⟨le_max_left .., ?_, (abs_sub_le _ (value (v / ofMagnitude k)) _).trans
    (add_le_add hclamp hquotient)⟩
  exact max_le (by rw [minCode_eq]; omega) (min_le_left ..)

/-- The least code, which is one step further from zero than the top code, is left to scales that are
so small that it is finite. -/
theorem rounded_code_lt : roundedMagnitude
    (|(codeFor e (ofMagnitude k) v : ℚ)| * magnitudeValue k) < 0x7F800000 := by
  obtain ⟨hlow, hhigh, -⟩ := codeFor_spec hfits hv hle hamax
  have hbound := (maxCode_bounds e).2
  have hunit := magnitudeValue_nonneg k
  by_cases htop : -e.maxCode ≤ codeFor e (ofMagnitude k) v
  · refine (roundedMagnitude_mono ?_).trans_lt hfits.top
    rw [mul_comm]
    refine mul_le_mul_of_nonneg_left (abs_le.mpr ⟨?_, ?_⟩) hunit
    · exact_mod_cast htop
    · exact_mod_cast hhigh
  · have hsmall : k < 0x800000 := by
      by_contra hnormal
      have hnear := abs_le.mp (abs_nearestInt_sub_le (v / ofMagnitude k))
      have hquotient :=
        abs_le.mp (abs_quotient_le_of_normal hfits hv hle hamax (not_lt.mp hnormal))
      refine htop (le_max_of_le_right (le_min (by cases e <;> decide) ?_))
      have hgt : ((-e.maxCode - 1 : ℤ) : ℚ) < nearestInt (v / ofMagnitude k) := by
        push_cast
        linarith
      have := Int.cast_lt.mp hgt
      omega
    have hscale : magnitudeValue k ≤ 2 ^ (-126 : ℤ) := by
      rw [← value_least_normal]
      exact magnitudeValue_mono hsmall.le (by decide)
    have hcode : |(codeFor e (ofMagnitude k) v : ℚ)| ≤ 128 := by
      rw [minCode_eq] at hlow
      have hlow' : (-e.maxCode - 1 : ℚ) ≤ codeFor e (ofMagnitude k) v := by exact_mod_cast hlow
      have hhigh' : (codeFor e (ofMagnitude k) v : ℚ) ≤ e.maxCode := by exact_mod_cast hhigh
      exact abs_le.mpr ⟨by linarith, by linarith⟩
    have hproduct := mul_le_mul hcode hscale hunit (by norm_num)
    have hone : (128 : ℚ) * 2 ^ (-126 : ℤ) ≤ 1 := by norm_num
    exact lt_infinity_of_le (by linarith [one_le_largest])

/-- What a code is decoded to. -/
theorem decode_spec :
    (Float32.ofInt (codeFor e (ofMagnitude k) v) * ofMagnitude k).isFinite = true ∧
      |value (Float32.ofInt (codeFor e (ofMagnitude k) v) * ofMagnitude k) - value v| ≤
        magnitudeValue k * (1 / 2 + 1 / 10000) := by
  obtain ⟨hlow, hhigh, hcode⟩ := codeFor_spec hfits hv hle hamax
  have hfits' := rounded_code_lt hfits hv hle hamax
  generalize codeFor e (ofMagnitude k) v = c at *
  have hcmin : -128 ≤ c := le_trans (by cases e <;> decide) hlow
  have hcmax : c ≤ 127 := hhigh.trans (by cases e <;> decide)
  have hscale := isFinite_ofMagnitude hfits.lt
  have hkmagnitude := (parts_ofMagnitude hfits.lt.le).2
  have hunit := magnitudeValue_pos hfits.pos
  obtain ⟨hcfinite, hcvalue⟩ := value_ofInt (c := c) (by omega)
  have hcabs : magnitudeValue (magnitude (Float32.ofInt c)) = |(c : ℚ)| := by
    rw [← abs_value, hcvalue]
  have hsize : |(c : ℚ)| ≤ 128 := by
    have : |c| ≤ 128 := abs_le.mpr ⟨hcmin, by omega⟩
    exact_mod_cast this
  have hproduct := abs_value_mul_sub hcfinite hscale
  rw [hcvalue, value_ofMagnitude hfits.lt.le, hcabs, hkmagnitude] at hproduct
  have hfinite : (Float32.ofInt c * ofMagnitude k).isFinite = true := by
    rw [isFinite_iff, (mul_spec hcfinite hscale).2, hcabs, hkmagnitude]
    exact hfits'
  refine ⟨hfinite, ?_⟩
  -- codes are whole, so that the product is a multiple of the least float like the scale
  obtain ⟨j, hj⟩ := exists_multiple k
  have hmultiple : |(c : ℚ)| * magnitudeValue k = (c.natAbs * j : ℕ) * 2 ^ (-149 : ℤ) := by
    rw [hj, Nat.cast_mul, Nat.cast_natAbs, Int.cast_abs, mul_assoc]
  have hround := abs_rounded_sub_le_of_multiple hmultiple hfits'
  rw [← hproduct] at hround
  have hexact : |(c : ℚ) * magnitudeValue k - value v| ≤ magnitudeValue k * (1 / 2 + 1 / 2 ^ 17) := by
    have hsplit : (c : ℚ) * magnitudeValue k - value v =
        magnitudeValue k * (c - value v / magnitudeValue k) := by
      rw [mul_sub, mul_div_cancel₀ _ hunit.ne', mul_comm]
    rw [hsplit, abs_mul, abs_of_pos hunit]
    exact mul_le_mul_of_nonneg_left hcode hunit.le
  have hloss := mul_le_mul_of_nonneg_right hsize hunit.le
  calc |value (Float32.ofInt c * ofMagnitude k) - value v|
      ≤ |value (Float32.ofInt c * ofMagnitude k) - c * magnitudeValue k| +
          |c * magnitudeValue k - value v| := abs_sub_le ..
    _ ≤ |(c : ℚ)| * magnitudeValue k / 2 ^ 24 + magnitudeValue k * (1 / 2 + 1 / 2 ^ 17) :=
      add_le_add hround hexact
    _ ≤ magnitudeValue k * (1 / 2 + 1 / 10000) := by linarith

end Value

/-! ## Blocks -/

/-- A block stands for values: nothing in it runs over, and each value comes back within half a step
and one part in ten thousand of one. -/
structure Approximates (b : Block) (values : List Float32) : Prop where
  scale_finite : b.scale.isFinite = true
  scale_nonneg : 0 ≤ value b.scale
  scale_eq_zero : value b.scale = 0 ↔ ∀ v ∈ values, value v = 0
  codes : ∀ c ∈ b.codes.toList, b.encoding.minCode ≤ c ∧ c ≤ b.encoding.maxCode
  decoded : ∃ restored, b.dequantize = .ok restored ∧ restored.Forall₂ (fun d v =>
    d.isFinite = true ∧ |value d - value v| ≤ value b.scale * (1 / 2 + 1 / 10000)) values

theorem dequantize_eq_ok {b : Block} (hfinite : b.scale.isFinite = true)
    (hsign : 0 ≤ value b.scale) : b.dequantize =
      .ok (b.codes.toList.map fun c => Float32.ofInt c * b.scale) := by
  rw [dequantize, checkScale_iff_value.mpr ⟨hfinite, hsign⟩]
  rfl

/-- It is enough to look at the values one by one. -/
theorem approximates_of_forall {b : Block} {values : List Float32} {code : Float32 → ℤ}
    (hcodes : b.codes.toList = values.map code) (hfinite : b.scale.isFinite = true)
    (hsign : 0 ≤ value b.scale) (hzero : value b.scale = 0 ↔ ∀ v ∈ values, value v = 0)
    (h : ∀ v ∈ values, b.encoding.minCode ≤ code v ∧ code v ≤ b.encoding.maxCode ∧
      (Float32.ofInt (code v) * b.scale).isFinite = true ∧
      |value (Float32.ofInt (code v) * b.scale) - value v| ≤
        value b.scale * (1 / 2 + 1 / 10000)) :
    b.Approximates values where
  scale_finite := hfinite
  scale_nonneg := hsign
  scale_eq_zero := hzero
  codes := by
    intro c hc
    rw [hcodes] at hc
    obtain ⟨v, hv, rfl⟩ := List.mem_map.mp hc
    exact ⟨(h v hv).1, (h v hv).2.1⟩
  decoded := by
    refine ⟨_, dequantize_eq_ok hfinite hsign, ?_⟩
    rw [hcodes, List.map_map, List.forall₂_map_left_iff, List.forall₂_same]
    exact fun v hv => (h v hv).2.2

section Quantize

variable {e : Encoding} {values : Vector Float32 blockSize}

/-- Zeros only: the scale is zero, and so is what comes back. -/
theorem quantize_zeros (hzeros : ∀ v ∈ values.toList, value v = 0)
    (hfinite : ∀ v ∈ values.toList, v.isFinite = true) :
    (quantize values e).Approximates values.toList := by
  have hamax : (absMax values.toList == 0) = true := by
    obtain ⟨-, -, hmem⟩ := absMax_spec fun v hv => not_isNaN_of_isFinite (hfinite v hv)
    rw [beq_zero_iff]
    rcases hmem with hzero | ⟨v, hv, heq⟩
    · exact hzero
    · rw [← heq]
      exact value_eq_zero.mp (hzeros v hv)
  have hscale : scaleFor (absMax values.toList) (Float32.ofInt e.maxCode) = 0 := if_pos hamax
  have hzero : (0 : Float32).isFinite = true ∧ ¬ (0 : Float32) < 0 ∧
      (Float32.ofInt 0 * 0).isFinite = true ∧ magnitude (Float32.ofInt 0 * 0) = 0 := by
    decide +kernel
  have hblock : quantize values e = ⟨e, 0, Vector.replicate blockSize 0⟩ := by
    simp only [quantize, hscale, hzero.2.1, decide_false, Bool.and_false, Bool.false_eq_true,
      if_false]
  have hcodes : (Vector.replicate blockSize (0 : ℤ)).toList = values.toList.map fun _ => 0 := by
    rw [List.map_const', Vector.length_toList, Vector.toList_replicate]
  rw [hblock]
  refine approximates_of_forall hcodes hzero.1 value_zero.ge (iff_of_true value_zero hzeros)
    fun v hv => ⟨by cases e <;> decide, by cases e <;> decide, hzero.2.2.1, ?_⟩
  rw [value_eq_zero.mpr hzero.2.2.2, hzeros v hv, value_zero]
  norm_num

theorem quantize_of_scale {k : ℕ} (hpos : k ≠ 0) (hk : k < 0x7F800000)
    (hscale : scaleFor (absMax values.toList) (top e) = ofMagnitude k) :
    quantize values e = ⟨e, ofMagnitude k, values.map (codeFor e (ofMagnitude k))⟩ := by
  have hfinite := isFinite_ofMagnitude hk
  have hzero : (0 : Float32).isNaN = false := by decide +kernel
  have hlt : (0 : Float32) < ofMagnitude k := by
    rw [lt_iff_value_lt hzero (not_isNaN_of_isFinite hfinite), value_zero, value_ofMagnitude hk.le]
    exact magnitudeValue_pos hpos
  rw [top] at hscale
  simp only [quantize, hscale, hfinite, hlt, decide_true, Bool.and_self, if_true]

theorem quantize_nonzero (hnonzero : ∃ v ∈ values.toList, value v ≠ 0)
    (hfinite : ∀ v ∈ values.toList, v.isFinite = true) :
    (quantize values e).Approximates values.toList ∧
      Mended (absMax values.toList) (top e) (quantize values e).scale := by
  have hamax := isFinite_absMax.mpr hfinite
  have hlt := magnitude_lt_of_isFinite hamax
  obtain ⟨hsign, hall, -⟩ := absMax_spec fun v hv => not_isNaN_of_isFinite (hfinite v hv)
  obtain ⟨w, hw, hw0⟩ := hnonzero
  have h0 : magnitude (absMax values.toList) ≠ 0 := fun h0 =>
    hw0 (value_eq_zero.mpr (Nat.le_zero.mp ((hall w hw).trans_eq h0)))
  obtain ⟨k, hscale, hfits, hmended⟩ := scaleFor_spec (e := e) hamax hsign h0
  rw [quantize_of_scale hfits.pos hfits.lt hscale]
  have hvalue := value_ofMagnitude hfits.lt.le
  have hpos := magnitudeValue_pos hfits.pos
  refine ⟨approximates_of_forall Vector.toList_map (isFinite_ofMagnitude hfits.lt)
    (hvalue ▸ hpos.le) ?_ fun v hv => ?_, hmended⟩
  · exact iff_of_false (hvalue ▸ hpos.ne') fun hzeros => hw0 (hzeros w hw)
  · obtain ⟨hlow, hhigh, -⟩ := codeFor_spec hfits (hfinite v hv) (hall v hv) hlt
    rw [hvalue]
    exact ⟨hlow, hhigh, decode_spec hfits (hfinite v hv) (hall v hv) hlt⟩

/-- A value that is not finite makes the scale so, and no block with such a scale is decoded. -/
theorem quantize_not_finite (h : ∃ v ∈ values.toList, v.isFinite = false) :
    (quantize values e).dequantize =
      .error (.quantization (.scale (quantize values e).scale)) := by
  have hamax : (absMax values.toList).isFinite = false := by
    obtain ⟨v, hv, hvinf⟩ := h
    rw [← Bool.not_eq_true, isFinite_absMax]
    exact fun hall => Bool.false_ne_true (hvinf.symm.trans (hall v hv))
  have hne : (absMax values.toList == 0) = false := by
    rw [← Bool.not_eq_true, isFinite_iff] at hamax
    rw [← Bool.not_eq_true, beq_zero_iff]
    omega
  have hscale : (quantize values e).scale = absMax values.toList := by
    change scaleFor (absMax values.toList) (Float32.ofInt e.maxCode) = _
    rw [scaleFor, hne, hamax]
    rfl
  rw [dequantize, hscale, checkScale, hamax]
  rfl

end Quantize

/-- Quantizing at every magnitude, from the least subnormal value to the largest finite one. -/
theorem quantize_accurate (e : Encoding) (values : Vector Float32 blockSize) :
    ((∀ v ∈ values.toList, v.isFinite = true) →
      (quantize values e).encoding = e ∧ (quantize values e).Approximates values.toList ∧
        ((∃ v ∈ values.toList, value v ≠ 0) →
          Mended (absMax values.toList) (top e) (quantize values e).scale)) ∧
    ((∃ v ∈ values.toList, v.isFinite = false) → (quantize values e).dequantize =
      .error (.quantization (.scale (quantize values e).scale))) := by
  refine ⟨fun hfinite => ⟨rfl, ?_, fun hnonzero => (quantize_nonzero hnonzero hfinite).2⟩,
    quantize_not_finite⟩
  by_cases hzeros : ∀ v ∈ values.toList, value v = 0
  · exact quantize_zeros hzeros hfinite
  · simp only [not_forall] at hzeros
    obtain ⟨v, hv, hne⟩ := hzeros
    exact (quantize_nonzero ⟨v, hv, hne⟩ hfinite).1

theorem least_values_come_back :
    let least := Vector.replicate blockSize tiniest
    let infinite := Vector.replicate blockSize infinity
    (∀ v ∈ least.toList, v.isFinite = true) ∧ (quantize least .q4).Approximates least.toList ∧
      Mended (absMax least.toList) (top .q4) (quantize least .q4).scale ∧
      (quantize infinite .q8).dequantize =
        .error (.quantization (.scale (quantize infinite .q8).scale)) := by
  intro least infinite
  have hfinite : ∀ v ∈ least.toList, v.isFinite = true := by decide +kernel
  have hmem : tiniest ∈ least.toList := List.mem_replicate.mpr ⟨by decide, rfl⟩
  have hnonzero : value tiniest ≠ 0 := mt value_eq_zero.mp (by decide +kernel)
  have hinfinite : infinity ∈ infinite.toList := List.mem_replicate.mpr ⟨by decide, rfl⟩
  obtain ⟨-, happrox, hmended⟩ := (quantize_accurate .q4 least).1 hfinite
  exact ⟨hfinite, happrox, hmended ⟨tiniest, hmem, hnonzero⟩,
    (quantize_accurate .q8 infinite).2 ⟨infinity, hinfinite, by decide +kernel⟩⟩

end Block

end CausalServe
