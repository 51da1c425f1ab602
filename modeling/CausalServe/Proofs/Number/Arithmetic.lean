import CausalServe.Proofs.Number.Rounding

/-! Exact values of floats. A difference or a quotient is the float nearest to the exact one. -/

namespace CausalServe.Binary32

open Float.Model Float.Model.UnpackedFloat

/-! ## Values -/

/-- The exact value of a magnitude. Infinity counts as the power of two that is next. -/
def magnitudeValue (n : ℕ) : ℚ :=
  (Dyadic.ofMagnitude n).mantissa * 2 ^ (Dyadic.ofMagnitude n).exponent

theorem magnitudeValue_zero : magnitudeValue 0 = 0 := by
  rw [magnitudeValue, Dyadic.ofMagnitude_small (by decide), Nat.cast_zero, zero_mul]

theorem Dyadic.canonical (n : ℕ) : (Dyadic.ofMagnitude n).mantissa < 0x1000000 ∧
    -149 ≤ (Dyadic.ofMagnitude n).exponent ∧
    (0x800000 ≤ (Dyadic.ofMagnitude n).mantissa ∨ (Dyadic.ofMagnitude n).exponent = -149) ∧
    ((Dyadic.ofMagnitude n).exponent + 149).toNat * 0x800000 + (Dyadic.ofMagnitude n).mantissa =
      n := by
  rcases Nat.lt_or_ge n 0x800000 with h | h
  · rw [ofMagnitude_small h]
    exact ⟨h.trans (by decide), le_rfl, .inr rfl, by simp⟩
  · rw [ofMagnitude_normal h]
    simp only
    omega

/-- A value that is a float is not rounded. -/
theorem roundedMagnitude_magnitudeValue {n : ℕ} (h : n ≤ 0x7F800000) :
    roundedMagnitude (magnitudeValue n) = n := by
  obtain ⟨hm, he, hnormal, hbits⟩ := Dyadic.canonical n
  rw [roundedMagnitude, magnitudeValue, place_of_mantissa hm he hnormal,
    mul_div_cancel_right₀ _ (by positivity), nearestEven_natCast, hbits, min_eq_right h]

theorem roundedMagnitude_zero : roundedMagnitude 0 = 0 := by
  have h := roundedMagnitude_magnitudeValue (Nat.zero_le 0x7F800000)
  rwa [magnitudeValue_zero] at h

theorem magnitudeValue_lt {m n : ℕ} (hm : m ≤ 0x7F800000) (hn : n ≤ 0x7F800000) :
    magnitudeValue m < magnitudeValue n ↔ m < n := by
  have hle : ∀ {i j : ℕ}, i ≤ 0x7F800000 → j ≤ 0x7F800000 →
      magnitudeValue i ≤ magnitudeValue j → i ≤ j := by
    intro i j hi hj h
    have hmono := roundedMagnitude_mono h
    rwa [roundedMagnitude_magnitudeValue hi, roundedMagnitude_magnitudeValue hj] at hmono
  constructor
  · intro h
    refine lt_of_le_of_ne (hle hm hn h.le) ?_
    rintro rfl
    exact lt_irrefl _ h
  · intro h
    by_contra hnot
    exact absurd (hle hn hm (not_lt.mp hnot)) (not_le.mpr h)

theorem magnitudeValue_nonneg (n : ℕ) : 0 ≤ magnitudeValue n :=
  mul_nonneg (Nat.cast_nonneg _) (by positivity)

theorem magnitudeValue_pos {n : ℕ} (h : n ≠ 0) : 0 < magnitudeValue n :=
  mul_pos (Nat.cast_pos.mpr (Dyadic.mantissa_pos h)) (by positivity)

def signed (s : Sign) (q : ℚ) : ℚ :=
  match s with
  | .negative => -q
  | .positive => q

theorem abs_signed (s : Sign) {q : ℚ} (h : 0 ≤ q) : |signed s q| = q := by
  cases s
  · exact (abs_neg q).trans (abs_of_nonneg h)
  · exact abs_of_nonneg h

def value (x : Float32) : ℚ := signed (sign x) (magnitudeValue (magnitude x))

theorem magnitudeValue_eq_zero {n : ℕ} : magnitudeValue n = 0 ↔ n = 0 := by
  constructor
  · intro h
    by_contra hn
    exact (magnitudeValue_pos hn).ne' h
  · rintro rfl
    exact magnitudeValue_zero

theorem signed_lt_signed (s t : Sign) {m n : ℕ} (hm : m ≤ 0x7F800000) (hn : n ≤ 0x7F800000) :
    signed s (magnitudeValue m) < signed t (magnitudeValue n) ↔ s.apply m < t.apply n := by
  have hm0 := magnitudeValue_nonneg m
  have hn0 := magnitudeValue_nonneg n
  have hzero : magnitudeValue m = 0 ∧ magnitudeValue n = 0 ↔ m = 0 ∧ n = 0 :=
    and_congr magnitudeValue_eq_zero magnitudeValue_eq_zero
  cases s <;> cases t <;> simp only [signed, Sign.apply]
  case negative.negative =>
    rw [neg_lt_neg_iff, magnitudeValue_lt hn hm, neg_lt_neg_iff, Nat.cast_lt]
  case positive.positive => rw [magnitudeValue_lt hm hn, Nat.cast_lt]
  case negative.positive =>
    rw [← not_iff_not, not_lt, not_lt]
    constructor
    · intro h
      have := hzero.mp ⟨by linarith, by linarith⟩
      omega
    · intro h
      obtain ⟨hmz, hnz⟩ := hzero.mpr ⟨by omega, by omega⟩
      linarith
  case positive.negative => exact iff_of_false (by linarith) (by omega)

/-- Floats are compared like their values. -/
theorem lt_iff_value_lt {x y : Float32} (hx : x.isNaN = false) (hy : y.isNaN = false) :
    x < y ↔ value x < value y := by
  rw [lt_iff hx hy, value, value,
    signed_lt_signed _ _ (magnitude_le_of_not_isNaN hx) (magnitude_le_of_not_isNaN hy)]
  rfl

/-! ## Differences -/

theorem toNat_pack_unpacked (s : Sign) {n : ℕ} (h : n ≤ 0x7F800000) :
    (UnpackedFloat.pack Format.binary32 (unpacked s n)).toNat = signBit s + n := by
  rcases eq_zero_or_eq_infinity_or h with rfl | rfl | ⟨h0, hfinite⟩
  · rw [unpacked_zero, toNat_pack_zero, Nat.add_zero]
  · rw [unpacked_infinity, toNat_pack_infinity]
  · obtain ⟨hm, he, hnormal, hbits⟩ := Dyadic.canonical n
    rw [unpacked_finite s h0 hfinite, toNat_pack_finite s _ hm he hnormal, hbits, min_eq_right h]

theorem toNat_pack_exact (s : Sign) {m : ℕ} (hm : 0 < m) (e : ℤ) :
    (UnpackedFloat.pack Format.binary32 (UnpackedFloat.round Format.binary32 s m e)).toNat =
      signBit s + roundedMagnitude (m * 2 ^ e) := by
  unfold UnpackedFloat.round
  rw [targetExponent_of_pos hm.ne' le_rfl (lt_add_one _)]
  simp only [decreaseExponent]
  generalize hd : (e - place (m * 2 ^ e)).toNat = d
  have hvalue : ((m <<< d : ℕ) : ℚ) * 2 ^ (e - d) = m * 2 ^ e := by
    rw [Nat.shiftLeft_eq, Nat.cast_mul, Nat.cast_pow, Nat.cast_ofNat, mul_assoc, ← zpow_natCast,
      ← zpow_add₀ two_ne_zero, add_sub_cancel]
  rw [← hvalue]
  refine toNat_pack_round s (Extends.exact _) ?_
  rw [hvalue]
  omega

/-- A sum of whole multiples of a power of two, rounded. -/
theorem toNat_pack_normalize (k e : ℤ) : ∃ r,
    (UnpackedFloat.pack Format.binary32
      (UnpackedFloat.normalize Format.binary32 k e .positive)).toNat =
      signBit r + roundedMagnitude |k * 2 ^ e| ∧
    (k < 0 → r = .negative) ∧ (0 < k → r = .positive) := by
  have hpos : (0 : ℚ) < 2 ^ e := by positivity
  unfold UnpackedFloat.normalize
  rcases lt_trichotomy k 0 with hk | rfl | hk
  · rw [compare_lt_iff_lt.mpr hk]
    refine ⟨.negative, ?_, fun _ => rfl, fun h => absurd hk h.not_gt⟩
    obtain ⟨m, rfl⟩ : ∃ m : ℕ, k = -m := ⟨k.natAbs, by omega⟩
    have hm : (-(-(m : ℤ))).toNat = m := by omega
    simp only [hm]
    rw [toNat_pack_exact .negative (by omega), Int.cast_neg, Int.cast_natCast, neg_mul, abs_neg,
      abs_of_nonneg (by positivity)]
  · rw [compare_eq_iff_eq.mpr rfl]
    refine ⟨.positive, ?_, fun h => absurd h (lt_irrefl _), fun _ => rfl⟩
    rw [Int.cast_zero, zero_mul, abs_zero, roundedMagnitude_zero]
    exact toNat_pack_zero .positive
  · rw [compare_gt_iff_gt.mpr hk]
    refine ⟨.positive, ?_, fun h => absurd hk h.not_gt, fun _ => rfl⟩
    obtain ⟨m, rfl⟩ : ∃ m : ℕ, k = m := ⟨k.natAbs, by omega⟩
    simp only [Int.toNat_natCast]
    rw [toNat_pack_exact .positive (by omega), Int.cast_natCast, abs_of_nonneg (by positivity)]

theorem signed_neg (s : Sign) (q : ℚ) : signed (-s) q = -signed s q := by
  cases s
  · exact (neg_neg q).symm
  · rfl

/-- The sign of a value that is not zero is the sign of the float. -/
theorem sign_of_signed {s : Sign} {q : ℚ} (hq : 0 ≤ q) :
    (signed s q < 0 → s = .negative) ∧ (0 < signed s q → s = .positive) := by
  cases s
  · exact ⟨fun _ => rfl, fun h => absurd (neg_pos.mp h) (not_lt.mpr hq)⟩
  · exact ⟨fun h => absurd h (not_lt.mpr hq), fun _ => rfl⟩

theorem signed_zero (s : Sign) : signed s 0 = 0 := by
  cases s
  · exact neg_zero
  · rfl

/-- A mantissa brought to a lower place stands for the same value. -/
theorem apply_shiftLeft (s : Sign) (m : ℕ) {e low : ℤ} (h : low ≤ e) :
    ((s.apply (m <<< (e - low).toNat : ℕ) : ℤ) : ℚ) * 2 ^ low = signed s (m * 2 ^ e) := by
  obtain ⟨d, rfl⟩ : ∃ d : ℕ, e = low + d := ⟨(e - low).toNat, by omega⟩
  have hd : (low + d - low).toNat = d := by omega
  have hvalue : ((m <<< d : ℕ) : ℚ) * 2 ^ low = m * 2 ^ (low + d) := by
    rw [Nat.shiftLeft_eq, Nat.cast_mul, Nat.cast_pow, Nat.cast_ofNat, mul_assoc,
      zpow_add₀ two_ne_zero, zpow_natCast, mul_comm (2 ^ low)]
  rw [hd, ← hvalue]
  cases s
  · simp only [Sign.apply, signed, Int.cast_neg, Int.cast_natCast, neg_mul]
  · simp only [Sign.apply, signed, Int.cast_natCast]

/-- The difference of two finite floats is the float nearest to the exact one, with its sign unless
it is zero. -/
theorem toNat_pack_sub (s t : Sign) {m n : ℕ} (hm : m < 0x7F800000) (hn : n < 0x7F800000) : ∃ r,
    (UnpackedFloat.pack Format.binary32
      (UnpackedFloat.sub Format.binary32 (unpacked s m) (unpacked t n))).toNat = signBit r +
        roundedMagnitude |signed s (magnitudeValue m) - signed t (magnitudeValue n)| ∧
    (signed s (magnitudeValue m) < signed t (magnitudeValue n) → r = .negative) ∧
    (signed t (magnitudeValue n) < signed s (magnitudeValue m) → r = .positive) := by
  by_cases hm0 : m = 0
  · subst hm0
    rw [magnitudeValue_zero, signed_zero, zero_sub, abs_neg]
    by_cases hn0 : n = 0
    · subst hn0
      rw [magnitudeValue_zero, signed_zero, abs_zero, roundedMagnitude_zero]
      refine ⟨if s == -t then s else .positive, ?_, fun h => absurd h (lt_irrefl _),
        fun h => absurd h (lt_irrefl _)⟩
      rw [unpacked_zero, unpacked_zero, UnpackedFloat.sub, ← apply_ite UnpackedFloat.zero,
        toNat_pack_zero, Nat.add_zero]
    · obtain ⟨hneg, hpos⟩ := sign_of_signed (s := -t) (magnitudeValue_nonneg n)
      rw [signed_neg, neg_lt_zero, neg_pos] at *
      refine ⟨-t, ?_, hneg, hpos⟩
      rw [abs_signed t (magnitudeValue_nonneg n), roundedMagnitude_magnitudeValue hn.le,
        ← toNat_pack_unpacked (-t) hn.le, unpacked_zero, unpacked_finite t hn0 hn,
        unpacked_finite (-t) hn0 hn, UnpackedFloat.sub]
  · by_cases hn0 : n = 0
    · subst hn0
      obtain ⟨hneg, hpos⟩ := sign_of_signed (s := s) (magnitudeValue_nonneg m)
      rw [magnitudeValue_zero, signed_zero, sub_zero]
      refine ⟨s, ?_, hneg, hpos⟩
      rw [abs_signed s (magnitudeValue_nonneg m), roundedMagnitude_magnitudeValue hm.le,
        ← toNat_pack_unpacked s hm.le, unpacked_zero, unpacked_finite s hm0 hm, UnpackedFloat.sub]
      all_goals exact nofun
    · rw [unpacked_finite s hm0 hm, unpacked_finite t hn0 hn, UnpackedFloat.sub]
      simp only [decreaseExponent]
      generalize hlow : min (Dyadic.ofMagnitude m).exponent (Dyadic.ofMagnitude n).exponent = low
      have hfirst := apply_shiftLeft s (Dyadic.ofMagnitude m).mantissa
        (hlow.symm.trans_le (min_le_left ..))
      have hsecond := apply_shiftLeft t (Dyadic.ofMagnitude n).mantissa
        (hlow.symm.trans_le (min_le_right ..))
      generalize s.apply _ = i at hfirst ⊢
      generalize t.apply _ = j at hsecond ⊢
      have hexact : ((i - j : ℤ) : ℚ) * 2 ^ low =
          signed s (magnitudeValue m) - signed t (magnitudeValue n) := by
        rw [Int.cast_sub, sub_mul, hfirst, hsecond]
        rfl
      obtain ⟨r, hr, hneg, hpos⟩ := toNat_pack_normalize (i - j) low
      rw [hexact] at hr
      have hunit : (0 : ℚ) < 2 ^ low := by positivity
      refine ⟨r, hr, fun h => hneg ?_, fun h => hpos ?_⟩
      · rw [← sub_neg, ← hexact, ← zero_mul ((2 : ℚ) ^ low)] at h
        exact_mod_cast lt_of_mul_lt_mul_right h hunit.le
      · rw [← sub_pos, ← hexact, mul_pos_iff_of_pos_right hunit] at h
        exact_mod_cast h

/-! ## Quotients -/

/-- The quotient of two positive values has its first bit at most one place below the difference of
theirs. -/
theorem log_div_ge {m n : ℕ} (hm : m ≠ 0) (hn : n ≠ 0) (e f : ℤ) :
    (m.log2 : ℤ) + e - (n.log2 + f) - 1 ≤
      Int.log 2 (((m : ℚ) * 2 ^ e) / ((n : ℚ) * 2 ^ f)) := by
  have hm' : (0 : ℚ) < m * 2 ^ e :=
    mul_pos (Nat.cast_pos.mpr (Nat.pos_of_ne_zero hm)) (by positivity)
  have hn' : (0 : ℚ) < n * 2 ^ f :=
    mul_pos (Nat.cast_pos.mpr (Nat.pos_of_ne_zero hn)) (by positivity)
  have hlow : (2 : ℚ) ^ ((m.log2 : ℤ) + e) ≤ m * 2 ^ e := by
    have h := Int.zpow_log_le_self Nat.one_lt_two hm'
    rw [log_mantissa hm le_rfl (lt_add_one _)] at h
    exact_mod_cast h
  have hhigh : (n : ℚ) * 2 ^ f < 2 ^ ((n.log2 : ℤ) + f + 1) := by
    have h := Int.lt_zpow_succ_log_self Nat.one_lt_two ((n : ℚ) * 2 ^ f)
    rw [log_mantissa hn le_rfl (lt_add_one _)] at h
    exact_mod_cast h
  refine (Int.zpow_le_iff_le_log Nat.one_lt_two (div_pos hm' hn')).mp ?_
  have hsplit : (2 : ℚ) ^ ((m.log2 : ℤ) + e - (n.log2 + f) - 1) * 2 ^ ((n.log2 : ℤ) + f + 1) =
      2 ^ ((m.log2 : ℤ) + e) := by
    rw [← zpow_add₀ two_ne_zero]
    congr 1
    omega
  rw [Nat.cast_ofNat, le_div_iff₀ hn']
  refine le_trans ?_ (hsplit.le.trans hlow)
  exact mul_le_mul_of_nonneg_left hhigh.le (by positivity)

/-- A quotient by a finite float that is not zero is the float nearest to the exact one. -/
theorem toNat_pack_div (s t : Sign) {m n : ℕ} (hm : m < 0x7F800000) (hn0 : n ≠ 0)
    (hn : n < 0x7F800000) :
    (UnpackedFloat.pack Format.binary32
      (UnpackedFloat.div Format.binary32 (unpacked s m) (unpacked t n))).toNat =
        signBit (s / t) + roundedMagnitude (magnitudeValue m / magnitudeValue n) := by
  rw [unpacked_finite t hn0 hn]
  by_cases hm0 : m = 0
  · subst hm0
    rw [magnitudeValue_zero, zero_div, roundedMagnitude_zero]
    rw [unpacked_zero, UnpackedFloat.div, toNat_pack_zero, Nat.add_zero]
  · rw [unpacked_finite s hm0 hm, UnpackedFloat.div]
    simp only [divCore]
    have hm1 := Dyadic.mantissa_pos hm0
    have hn1 := Dyadic.mantissa_pos hn0
    have hlog := log_div_ge hm1.ne' hn1.ne' (Dyadic.ofMagnitude m).exponent
      (Dyadic.ofMagnitude n).exponent
    have hvalue : magnitudeValue m / magnitudeValue n =
        ((Dyadic.ofMagnitude m).mantissa : ℚ) * 2 ^ (Dyadic.ofMagnitude m).exponent /
          (((Dyadic.ofMagnitude n).mantissa : ℚ) * 2 ^ (Dyadic.ofMagnitude n).exponent) := rfl
    have hplace := place_eq_max (div_pos (magnitudeValue_pos hm0) (magnitudeValue_pos hn0))
    rw [← hvalue] at hlog
    have htarget : Format.binary32.targetExponent
        (totalExponent (Dyadic.ofMagnitude m).mantissa (Dyadic.ofMagnitude m).exponent -
          totalExponent (Dyadic.ofMagnitude n).mantissa (Dyadic.ofMagnitude n).exponent) ≤
        place (magnitudeValue m / magnitudeValue n) := by
      rw [hplace]
      refine max_le_max_right (-149) ?_
      change (((Dyadic.ofMagnitude m).mantissa.log2 : ℤ) + 1 + (Dyadic.ofMagnitude m).exponent -
        (((Dyadic.ofMagnitude n).mantissa.log2 : ℤ) + 1 + (Dyadic.ofMagnitude n).exponent)) - 24 ≤ _
      omega
    generalize Format.binary32.targetExponent _ = target at htarget ⊢
    generalize hmin : min ((Dyadic.ofMagnitude m).exponent - (Dyadic.ofMagnitude n).exponent)
      target = low
    generalize hd : ((Dyadic.ofMagnitude m).exponent - (Dyadic.ofMagnitude n).exponent -
      low).toNat = d
    have hexact : (((Dyadic.ofMagnitude m).mantissa <<< d : ℕ) : ℚ) /
        ((Dyadic.ofMagnitude n).mantissa : ℕ) * 2 ^ low = magnitudeValue m / magnitudeValue n := by
      have hsum : (Dyadic.ofMagnitude m).exponent = d + low + (Dyadic.ofMagnitude n).exponent := by
        omega
      rw [hvalue, hsum, zpow_add₀ two_ne_zero, zpow_add₀ two_ne_zero, zpow_natCast,
        Nat.shiftLeft_eq, Nat.cast_mul, Nat.cast_pow, Nat.cast_ofNat, ← mul_assoc,
        mul_div_mul_right _ _ (by positivity)]
      ring
    rw [← hexact]
    refine toNat_pack_round (s / t) (Extends.quotient _ hn1) ?_
    rw [hexact]
    omega

/-! ## Operations -/

section Operations

variable {x y : Float32}

theorem magnitude_lt_of_isFinite (h : x.isFinite = true) : magnitude x < 0x7F800000 :=
  (isFinite_iff x).mp h

/-- A difference of finite floats is rounded once, and has the sign of the exact one. -/
theorem sub_spec (hx : x.isFinite = true) (hy : y.isFinite = true) :
    magnitude (x - y) = roundedMagnitude |value x - value y| ∧
      (value x < value y → sign (x - y) = .negative) ∧
      (value y < value x → sign (x - y) = .positive) := by
  obtain ⟨r, hbits, hneg, hpos⟩ := toNat_pack_sub (sign x) (sign y) (magnitude_lt_of_isFinite hx)
    (magnitude_lt_of_isFinite hy)
  rw [← unpack_eq, ← unpack_eq] at hbits
  obtain ⟨hsign, hmagnitude⟩ :=
    parts_of_pack ((roundedMagnitude_le _).trans_lt (by decide)) hbits
  have hsub : x - y = .ofModel
    (.pack (UnpackedFloat.sub Format.binary32 x.toModel.unpack y.toModel.unpack)) := rfl
  rw [hsub, hsign]
  exact ⟨hmagnitude, hneg, hpos⟩

/-- A quotient by a finite float that is not zero is rounded once. -/
theorem div_spec (hx : x.isFinite = true) (hy : y.isFinite = true) (hy0 : magnitude y ≠ 0) :
    sign (x / y) = sign x / sign y ∧ magnitude (x / y) =
      roundedMagnitude (magnitudeValue (magnitude x) / magnitudeValue (magnitude y)) := by
  have hbits := toNat_pack_div (sign x) (sign y) (magnitude_lt_of_isFinite hx) hy0
    (magnitude_lt_of_isFinite hy)
  rw [← unpack_eq, ← unpack_eq] at hbits
  exact parts_of_pack ((roundedMagnitude_le _).trans_lt (by decide)) hbits

/-- Infinity stays infinite. -/
theorem div_spec_of_infinite (hx : magnitude x = 0x7F800000) (hy : y.isFinite = true)
    (hy0 : magnitude y ≠ 0) :
    sign (x / y) = sign x / sign y ∧ magnitude (x / y) = 0x7F800000 := by
  have hdiv : UnpackedFloat.div Format.binary32 x.toModel.unpack y.toModel.unpack =
      .infinity (sign x / sign y) := by
    rw [unpack_eq, unpack_eq, hx, unpacked_infinity,
      unpacked_finite _ hy0 (magnitude_lt_of_isFinite hy), UnpackedFloat.div]
  have hbits := toNat_pack_infinity (sign x / sign y)
  rw [← hdiv] at hbits
  exact parts_of_pack (by decide) hbits

end Operations

theorem value_zero : value 0 = 0 := by
  have hmagnitude : magnitude 0 = 0 := by decide +kernel
  rw [value, hmagnitude, magnitudeValue_zero, signed_zero]

/-- A positive float has a positive sign, and a magnitude that is not zero. -/
theorem parts_of_pos {x : Float32} (hx : x.isFinite = true) (h : 0 < x) :
    sign x = .positive ∧ magnitude x ≠ 0 := by
  have hzero : (0 : Float32).isNaN = false := by decide +kernel
  rw [lt_iff_value_lt hzero (not_isNaN_of_isFinite hx), value_zero] at h
  refine ⟨(sign_of_signed (magnitudeValue_nonneg _)).2 h, fun h0 => ?_⟩
  rw [value, h0, magnitudeValue_zero, signed_zero] at h
  exact lt_irrefl _ h

/-! ## Division by a positive float -/

section Division

variable {x y t : Float32}

/-- A quotient by a positive float keeps the sign, and larger magnitudes yield larger ones. -/
theorem div_of_pos (hx : x.isNaN = false) (ht : t.isFinite = true) (hpos : 0 < t) :
    sign (x / t) = sign x ∧ magnitude (x / t) = if magnitude x = 0x7F800000 then 0x7F800000
      else roundedMagnitude (magnitudeValue (magnitude x) / magnitudeValue (magnitude t)) := by
  obtain ⟨hsign, ht0⟩ := parts_of_pos ht hpos
  have hkeep : sign x / sign t = sign x := by
    rw [hsign]
    cases sign x <;> rfl
  split
  next hinf =>
    have h := div_spec_of_infinite hinf ht ht0
    rwa [hkeep] at h
  next hinf =>
    have hle := magnitude_le_of_not_isNaN hx
    have h := div_spec ((isFinite_iff x).mpr (by omega)) ht ht0
    rwa [hkeep] at h

theorem div_not_isNaN (hx : x.isNaN = false) (ht : t.isFinite = true) (hpos : 0 < t) :
    (x / t).isNaN = false := by
  rw [← Bool.not_eq_true, isNaN_iff, (div_of_pos hx ht hpos).2]
  split
  next => omega
  next => exact not_lt.mpr (roundedMagnitude_le _)

theorem magnitude_div_mono (hx : x.isNaN = false) (hy : y.isNaN = false)
    (h : magnitude x ≤ magnitude y) (ht : t.isFinite = true) (hpos : 0 < t) :
    magnitude (x / t) ≤ magnitude (y / t) := by
  rw [(div_of_pos hx ht hpos).2, (div_of_pos hy ht hpos).2]
  have hx' := magnitude_le_of_not_isNaN hx
  have hy' := magnitude_le_of_not_isNaN hy
  by_cases hyi : magnitude y = 0x7F800000
  · rw [if_pos hyi]
    split
    next => exact le_rfl
    next => exact roundedMagnitude_le _
  · have hxi : magnitude x ≠ 0x7F800000 := by omega
    rw [if_neg hyi, if_neg hxi]
    refine roundedMagnitude_mono (div_le_div_of_nonneg_right ?_ (magnitudeValue_nonneg _))
    exact not_lt.mp fun hlt => absurd ((magnitudeValue_lt hy' hx').mp hlt) (not_lt.mpr h)

end Division

/-! ## The larger of two -/

theorem larger_eq {x y : Float32} (hx : x.isNaN = false) (hy : y.isNaN = false) :
    larger x y = if y < x then x else y := by
  rw [larger, hx, hy]
  rfl

end CausalServe.Binary32
