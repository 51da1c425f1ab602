import CausalServe.Proofs.Number.Exact

/-! How far a rounded value lies from the exact one: at most half of its last place, which is one
part in `2 ^ 24` for all values but those that end below `2 ^ -149`. Products are rounded once like
quotients. -/

namespace CausalServe.Binary32

open Float.Model Float.Model.UnpackedFloat

/-! ## Rounding -/

theorem abs_nearestEven_sub_le {x : ℚ} (h : 0 ≤ x) : |(nearestEven x : ℚ) - x| ≤ 1 / 2 := by
  have hlow := Nat.floor_le h
  have hhigh := Nat.lt_floor_add_one x
  unfold nearestEven
  split_ifs with hbelow hhalf
  · rw [abs_sub_comm, abs_of_nonneg (by linarith)]
    linarith
  · have hdigit : (⌊x⌋₊ % 2 : ℕ) = 0 ∨ (⌊x⌋₊ % 2 : ℕ) = 1 := Nat.mod_two_eq_zero_or_one _
    rcases hdigit with hd | hd <;> rw [hd, abs_le] <;> push_cast <;> constructor <;> linarith
  · have habove : (⌊x⌋₊ : ℚ) + 1 / 2 ≤ x := not_lt.mp hbelow
    rw [abs_of_nonneg (by push_cast; linarith)]
    push_cast
    linarith

/-- Bits in place are read back as they were. -/
theorem Dyadic.ofMagnitude_canonical {m : ℕ} {e : ℤ} (hm : m < 0x1000000) (he : -149 ≤ e)
    (hnormal : 0x800000 ≤ m ∨ e = -149) :
    Dyadic.ofMagnitude ((e + 149).toNat * 0x800000 + m) = ⟨m, e⟩ := by
  by_cases hfull : 0x800000 ≤ m
  · rw [ofMagnitude_normal (by omega), Dyadic.mk.injEq]
    omega
  · obtain rfl : e = -149 := hnormal.resolve_left hfull
    rw [ofMagnitude_small (by omega), Dyadic.mk.injEq]
    omega

/-- The value of a magnitude that is not cut off at infinity. -/
theorem magnitudeValue_roundedMagnitude {q : ℚ} (h : roundedMagnitude q < 0x7F800000) :
    magnitudeValue (roundedMagnitude q) = nearestEven (q / 2 ^ place q) * 2 ^ place q := by
  have hnormal : 0x800000 ≤ nearestEven (q / 2 ^ place q) ∨ place q = -149 := by
    by_cases hp : place q = -149
    · exact .inr hp
    · have := place_ge q
      exact .inl (le_nearestEven_div_place (by omega))
  obtain ⟨m, e, hm, he, hnormal', hvalue, -, hbits⟩ :=
    exists_canonical (nearestEven_div_place_le q) (place_ge q) hnormal
  have hrounded : roundedMagnitude q = (e + 149).toNat * 0x800000 + m := by
    unfold roundedMagnitude at h ⊢
    omega
  rw [hrounded, magnitudeValue, Dyadic.ofMagnitude_canonical hm he hnormal', hvalue]

/-- Rounding stays within half of the last place. -/
theorem abs_rounded_sub_le {q : ℚ} (hq : 0 ≤ q) (h : roundedMagnitude q < 0x7F800000) :
    |magnitudeValue (roundedMagnitude q) - q| ≤ 2 ^ place q / 2 := by
  have hpos : (0 : ℚ) < 2 ^ place q := by positivity
  have hnear := abs_nearestEven_sub_le (div_nonneg hq hpos.le)
  have hsplit : (nearestEven (q / 2 ^ place q) : ℚ) * 2 ^ place q - q =
      (nearestEven (q / 2 ^ place q) - q / 2 ^ place q) * 2 ^ place q := by
    rw [sub_mul, div_mul_cancel₀ _ hpos.ne']
  rw [magnitudeValue_roundedMagnitude h, hsplit, abs_mul, abs_of_pos hpos]
  linarith [mul_le_mul_of_nonneg_right hnear hpos.le]

/-- The last place of a normal value is one part in `2 ^ 23` of it at most. -/
theorem two_zpow_place_le {q : ℚ} (h : 2 ^ (-126 : ℤ) ≤ q) : 2 ^ place q ≤ q / 2 ^ 23 := by
  have hpos : 0 < q := lt_of_lt_of_le (by positivity) h
  have hlog : (2 : ℚ) ^ Int.log 2 q ≤ q := by
    exact_mod_cast Int.zpow_log_le_self Nat.one_lt_two hpos
  rw [place_of_normal h, zpow_sub₀ two_ne_zero]
  exact div_le_div_of_nonneg_right hlog (by positivity)

theorem abs_rounded_sub_le_mul {q : ℚ} (hq : 2 ^ (-126 : ℤ) ≤ q)
    (h : roundedMagnitude q < 0x7F800000) :
    |magnitudeValue (roundedMagnitude q) - q| ≤ q / 2 ^ 24 := by
  have hpos : 0 < q := lt_of_lt_of_le (by positivity) hq
  refine (abs_rounded_sub_le hpos.le h).trans ?_
  have := two_zpow_place_le hq
  linarith

/-- Whole multiples of the least positive float lose one part in `2 ^ 24` at most: below the normal
range they are floats. -/
theorem abs_rounded_sub_le_of_multiple {q : ℚ} {n : ℕ} (hq : q = n * 2 ^ (-149 : ℤ))
    (h : roundedMagnitude q < 0x7F800000) :
    |magnitudeValue (roundedMagnitude q) - q| ≤ q / 2 ^ 24 := by
  rcases lt_or_ge q (2 ^ (-126 : ℤ)) with hsmall | hnormal
  · have hunits : q / 2 ^ place q = n := by
      rw [place_of_small hsmall, hq, mul_div_cancel_right₀ _ (by positivity)]
    have hexact : magnitudeValue (roundedMagnitude q) = q := by
      rw [magnitudeValue_roundedMagnitude h, hunits, nearestEven_natCast, place_of_small hsmall, hq]
    rw [hexact, sub_self, abs_zero, hq]
    positivity
  · exact abs_rounded_sub_le_mul hnormal h

theorem magnitudeValue_mono {m n : ℕ} (h : m ≤ n) (hn : n ≤ 0x7F800000) :
    magnitudeValue m ≤ magnitudeValue n :=
  not_lt.mp fun hlt => absurd ((magnitudeValue_lt hn (h.trans hn)).mp hlt) (not_lt.mpr h)

/-- A value up to that of a finite magnitude is rounded to no larger one. -/
theorem roundedMagnitude_le_of_le {q : ℚ} {n : ℕ} (hn : n ≤ 0x7F800000)
    (h : q ≤ magnitudeValue n) : roundedMagnitude q ≤ n :=
  (roundedMagnitude_mono h).trans_eq (roundedMagnitude_magnitudeValue hn)

/-- What is rounded above a magnitude was above its value. -/
theorem lt_of_lt_roundedMagnitude {q : ℚ} {n : ℕ} (hn : n ≤ 0x7F800000)
    (h : n < roundedMagnitude q) : magnitudeValue n < q := by
  by_contra hle
  exact absurd (roundedMagnitude_le_of_le hn (not_lt.mp hle)) (not_le.mpr h)

/-- What is rounded below a magnitude was below its value. -/
theorem lt_of_roundedMagnitude_lt {q : ℚ} {n : ℕ} (hn : n ≤ 0x7F800000)
    (h : roundedMagnitude q < n) : q < magnitudeValue n := by
  by_contra hle
  have hmono := roundedMagnitude_mono (not_lt.mp hle)
  rw [roundedMagnitude_magnitudeValue hn] at hmono
  exact absurd h (not_lt.mpr hmono)

theorem place_magnitudeValue (n : ℕ) :
    place (magnitudeValue n) = (Dyadic.ofMagnitude n).exponent := by
  obtain ⟨hm, he, hnormal, -⟩ := Dyadic.canonical n
  exact place_of_mantissa hm he hnormal

/-- What is rounded is a number. -/
theorem not_isNaN_of_rounded {x : Float32} {q : ℚ} (h : magnitude x = roundedMagnitude q) :
    x.isNaN = false := by
  rw [← Bool.not_eq_true, isNaN_iff, h, not_lt]
  exact roundedMagnitude_le q

/-! ## Neighbours -/

theorem magnitudeValue_succ (n : ℕ) :
    magnitudeValue (n + 1) = magnitudeValue n + 2 ^ (Dyadic.ofMagnitude n).exponent := by
  obtain ⟨hm, he, hnormal, hbits⟩ := Dyadic.canonical n
  obtain ⟨m', e', hm', he', hnormal', hvalue, -, hbits'⟩ :=
    exists_canonical (Nat.succ_le_of_lt hm) he (hnormal.imp_left fun h => h.trans (Nat.le_succ _))
  have hnext : n + 1 = (e' + 149).toNat * 0x800000 + m' := by omega
  rw [magnitudeValue, magnitudeValue, hnext, Dyadic.ofMagnitude_canonical hm' he' hnormal', hvalue,
    Nat.cast_succ, add_mul, one_mul]

/-- The next magnitude after a normal one is larger by one part in `2 ^ 23` at most. -/
theorem magnitudeValue_succ_le {n : ℕ} (h : 0x800000 ≤ n) :
    magnitudeValue (n + 1) ≤ magnitudeValue n * (1 + 1 / 2 ^ 23) := by
  have hmantissa : (2 : ℚ) ^ 23 ≤ (Dyadic.ofMagnitude n).mantissa := by
    rw [Dyadic.ofMagnitude_normal h]
    exact_mod_cast Nat.le_add_right 0x800000 (n % 0x800000)
  have hunit : (0 : ℚ) < 2 ^ (Dyadic.ofMagnitude n).exponent := by positivity
  have := mul_le_mul_of_nonneg_right hmantissa hunit.le
  rw [magnitudeValue_succ]
  unfold magnitudeValue
  linarith

theorem exists_multiple (n : ℕ) : ∃ k : ℕ, magnitudeValue n = k * 2 ^ (-149 : ℤ) := by
  obtain ⟨-, he, -⟩ := Dyadic.canonical n
  obtain ⟨d, hd⟩ : ∃ d : ℕ, (Dyadic.ofMagnitude n).exponent = d + -149 :=
    ⟨((Dyadic.ofMagnitude n).exponent + 149).toNat, by omega⟩
  refine ⟨(Dyadic.ofMagnitude n).mantissa * 2 ^ d, ?_⟩
  rw [magnitudeValue, hd, zpow_add₀ two_ne_zero, zpow_natCast, Nat.cast_mul, Nat.cast_pow,
    Nat.cast_ofNat, mul_assoc]

/-! ## Products -/

theorem signed_mul (s t : Sign) (p q : ℚ) : signed (s * t) (p * q) = signed s p * signed t q := by
  cases s <;> cases t
  · exact (neg_mul_neg p q).symm
  · exact (neg_mul p q).symm
  · exact (mul_neg p q).symm
  · rfl

theorem magnitudeValue_mul (m n : ℕ) : magnitudeValue m * magnitudeValue n =
    ((Dyadic.ofMagnitude m).mantissa * (Dyadic.ofMagnitude n).mantissa : ℕ) *
      2 ^ ((Dyadic.ofMagnitude m).exponent + (Dyadic.ofMagnitude n).exponent) := by
  rw [magnitudeValue, magnitudeValue, zpow_add₀ two_ne_zero, Nat.cast_mul]
  ring

/-- Two mantissas end no later than the last place of their product. -/
theorem le_place_mul {m n : ℕ} (hm0 : m ≠ 0) (hn0 : n ≠ 0) :
    (Dyadic.ofMagnitude m).exponent + (Dyadic.ofMagnitude n).exponent ≤
      place (magnitudeValue m * magnitudeValue n) := by
  obtain ⟨-, he, hm, -⟩ := Dyadic.canonical m
  obtain ⟨-, hf, hn, -⟩ := Dyadic.canonical n
  have hm1 := Dyadic.mantissa_pos hm0
  have hn1 := Dyadic.mantissa_pos hn0
  have h0 := (Nat.mul_pos hm1 hn1).ne'
  -- one mantissa in full is enough, and without one the product is below the normal range
  have hlog : 2 ^ 23 ≤ (Dyadic.ofMagnitude m).mantissa * (Dyadic.ofMagnitude n).mantissa →
      23 ≤ ((Dyadic.ofMagnitude m).mantissa * (Dyadic.ofMagnitude n).mantissa).log2 :=
    (Nat.le_log2 h0).mpr
  rw [place_eq_max (mul_pos (magnitudeValue_pos hm0) (magnitudeValue_pos hn0)),
    magnitudeValue_mul, log_mantissa h0 le_rfl (lt_add_one _)]
  rcases hm with hm | hm
  · have := hlog (le_trans hm (Nat.le_mul_of_pos_right _ hn1))
    omega
  · rcases hn with hn | hn
    · have := hlog (le_trans hn (Nat.le_mul_of_pos_left _ hm1))
      omega
    · omega

/-- A product of finite floats is the float nearest to the exact one. -/
theorem toNat_pack_mul (s t : Sign) {m n : ℕ} (hm : m < 0x7F800000) (hn : n < 0x7F800000) :
    (UnpackedFloat.pack Format.binary32
      (UnpackedFloat.mul Format.binary32 (unpacked s m) (unpacked t n))).toNat =
        signBit (s * t) + roundedMagnitude (magnitudeValue m * magnitudeValue n) := by
  have hzero : roundedMagnitude 0 = 0 := roundedMagnitude_zero
  by_cases hm0 : m = 0
  · subst hm0
    rw [magnitudeValue_zero, zero_mul, hzero, unpacked_zero]
    by_cases hn0 : n = 0
    · subst hn0
      rw [unpacked_zero, UnpackedFloat.mul, toNat_pack_zero, Nat.add_zero]
    · rw [unpacked_finite t hn0 hn, UnpackedFloat.mul, toNat_pack_zero, Nat.add_zero]
  · by_cases hn0 : n = 0
    · subst hn0
      rw [magnitudeValue_zero, mul_zero, hzero, unpacked_zero, unpacked_finite s hm0 hm,
        UnpackedFloat.mul, toNat_pack_zero, Nat.add_zero]
    · have hplace := le_place_mul hm0 hn0
      rw [magnitudeValue_mul] at hplace ⊢
      rw [unpacked_finite s hm0 hm, unpacked_finite t hn0 hn, UnpackedFloat.mul]
      exact toNat_pack_round (s * t) (Extends.exact _) hplace

section Operations

variable {x y : Float32}

/-- A product of finite floats is rounded once. -/
theorem mul_spec (hx : x.isFinite = true) (hy : y.isFinite = true) :
    sign (x * y) = sign x * sign y ∧ magnitude (x * y) =
      roundedMagnitude (magnitudeValue (magnitude x) * magnitudeValue (magnitude y)) := by
  have hbits := toNat_pack_mul (sign x) (sign y) (magnitude_lt_of_isFinite hx)
    (magnitude_lt_of_isFinite hy)
  rw [← unpack_eq, ← unpack_eq] at hbits
  exact parts_of_pack ((roundedMagnitude_le _).trans_lt (by decide)) hbits

/-- A finite product of finite floats is off by its rounding only. -/
theorem abs_value_mul_sub (hx : x.isFinite = true) (hy : y.isFinite = true) :
    |value (x * y) - value x * value y| =
      |magnitudeValue (roundedMagnitude
          (magnitudeValue (magnitude x) * magnitudeValue (magnitude y))) -
        magnitudeValue (magnitude x) * magnitudeValue (magnitude y)| := by
  obtain ⟨hsign, hmagnitude⟩ := mul_spec hx hy
  rw [value, hsign, hmagnitude, value, value, ← signed_mul, signed_sub]

end Operations

/-! ## Integers -/

/-- Whole numbers of up to 24 bits are floats. -/
theorem magnitudeValue_rounded_natCast {n : ℕ} (h : n < 0x1000000) :
    roundedMagnitude n < 0x7F800000 ∧ magnitudeValue (roundedMagnitude n) = n := by
  have hlargest : magnitudeValue 0x4B7FFFFF = (0xFFFFFF : ℕ) := by
    rw [magnitudeValue, Dyadic.ofMagnitude_normal (by decide)]
    norm_num
  have hle : (n : ℚ) ≤ magnitudeValue 0x4B7FFFFF := by
    rw [hlargest]
    exact_mod_cast Nat.le_of_lt_succ h
  have hlt : roundedMagnitude n < 0x7F800000 :=
    (roundedMagnitude_le_of_le (by decide) hle).trans_lt (by decide)
  have hplace : place n ≤ 0 := by
    refine (place_mono hle).trans_eq ?_
    rw [place_magnitudeValue, Dyadic.ofMagnitude_normal (by decide)]
    rfl
  obtain ⟨d, hd⟩ : ∃ d : ℕ, place n = -d := ⟨(-place n).toNat, by omega⟩
  have hunits : (n : ℚ) / 2 ^ place n = (n * 2 ^ d : ℕ) := by
    rw [hd, zpow_neg, zpow_natCast, div_inv_eq_mul, Nat.cast_mul, Nat.cast_pow, Nat.cast_ofNat]
  refine ⟨hlt, ?_⟩
  rw [magnitudeValue_roundedMagnitude hlt, hunits, nearestEven_natCast, ← hunits,
    div_mul_cancel₀ _ (by positivity)]

theorem value_toFloat32 {n : ℕ} (h : n < 0x1000000) :
    n.toUInt64.toFloat32.isFinite = true ∧ value n.toUInt64.toFloat32 = n := by
  obtain ⟨hlt, hvalue⟩ := magnitudeValue_rounded_natCast h
  obtain ⟨r, hbits, -, hsign⟩ := toNat_pack_normalize n 0
  rw [zpow_zero, mul_one, Int.cast_natCast, abs_of_nonneg (Nat.cast_nonneg n)] at hbits
  have hword : (n.toUInt64.toNat : ℤ) = n :=
    congrArg Nat.cast (UInt64.toNat_ofNat_of_lt' (h.trans (by decide)))
  obtain ⟨hs, hm⟩ : sign n.toUInt64.toFloat32 = r ∧
      magnitude n.toUInt64.toFloat32 = roundedMagnitude n := by
    rw [← hword] at hbits
    exact parts_of_pack (hlt.trans (by decide)) hbits
  rw [isFinite_iff, value, hs, hm, hvalue]
  refine ⟨hlt, ?_⟩
  rcases Nat.eq_zero_or_pos n with rfl | hpos
  · rw [Nat.cast_zero, signed_zero]
  · rw [hsign (by exact_mod_cast hpos)]
    rfl

/-- A literal without a fraction is multiplied by one, which leaves it as it is. -/
theorem value_ofNat {n : ℕ} (h : n < 0x800000) :
    (Float32.ofNat n).isFinite = true ∧ value (Float32.ofNat n) = n := by
  obtain ⟨hfinite, hvalue⟩ := value_toFloat32 (h.trans (by decide))
  have hliteral : Float32.ofNat n = n.toUInt64.toFloat32 * ofMagnitude 0x3F800000 :=
    dif_pos ⟨h, by decide⟩
  have hone := parts_ofMagnitude (n := 0x3F800000) (by decide)
  have hunit : magnitudeValue 0x3F800000 = 1 := by
    rw [magnitudeValue, Dyadic.ofMagnitude_normal (by decide)]
    norm_num
  obtain ⟨hs, hm⟩ := mul_spec hfinite (isFinite_ofMagnitude (n := 0x3F800000) (by decide))
  rw [hone.2, hunit, mul_one,
    roundedMagnitude_magnitudeValue (magnitude_lt_of_isFinite hfinite).le] at hm
  have hsame : n.toUInt64.toFloat32 * ofMagnitude 0x3F800000 = n.toUInt64.toFloat32 := by
    refine ext ?_ hm
    rw [hs, hone.1]
    cases sign n.toUInt64.toFloat32 <;> rfl
  rw [hliteral, hsame]
  exact ⟨hfinite, hvalue⟩

theorem value_ofInt {c : ℤ} (h : c.natAbs < 0x800000) :
    (Float32.ofInt c).isFinite = true ∧ value (Float32.ofInt c) = c := by
  cases c with
  | ofNat n => exact value_ofNat h
  | negSucc n =>
    obtain ⟨hfinite, hvalue⟩ := value_ofNat (n := n + 1) h
    obtain ⟨hneg, hnegvalue⟩ := value_neg hfinite
    refine ⟨hneg, hnegvalue.trans ?_⟩
    rw [hvalue, Int.cast_negSucc]

end CausalServe.Binary32
