import CausalServe.Proofs.Number.Arithmetic

/-! What is exact about floats: building one from its bits, stepping to its neighbours, changing its
sign, and comparing it with zero. The nearest integer is off by a half at most. -/

namespace CausalServe.Binary32

open Float.Model Float.Model.UnpackedFloat

/-! ## Floats from bits -/

/-- Bits up to those of infinity are the magnitude of a positive float. -/
theorem parts_ofMagnitude {n : ℕ} (h : n ≤ 0x7F800000) :
    sign (ofMagnitude n) = .positive ∧ magnitude (ofMagnitude n) = n := by
  have hn : (UInt32.ofNat n).toBitVec.toNat = n := Nat.mod_eq_of_lt (by omega)
  have hunpack : UnpackedFloat.unpack Format.binary32 (UInt32.ofNat n).toBitVec =
      unpacked .positive n := by
    rw [unpack_bits, hn, if_neg (by omega), Nat.mod_eq_of_lt (by omega)]
  have hbits : (UnpackedFloat.pack Format.binary32
      (UnpackedFloat.unpack Format.binary32 (UInt32.ofNat n).toBitVec)).toNat =
        signBit .positive + n := by
    rw [hunpack, toNat_pack_unpacked .positive h]
  exact parts_of_pack (by omega) hbits

theorem isFinite_ofMagnitude {n : ℕ} (h : n < 0x7F800000) : (ofMagnitude n).isFinite = true := by
  rw [isFinite_iff, (parts_ofMagnitude h.le).2]
  exact h

theorem value_ofMagnitude {n : ℕ} (h : n ≤ 0x7F800000) :
    value (ofMagnitude n) = magnitudeValue n := by
  rw [value, (parts_ofMagnitude h).1, (parts_ofMagnitude h).2]
  rfl

theorem isNegative_eq_false {x : Float32} : isNegative x = false ↔ sign x = .positive := by
  unfold sign
  cases isNegative x <;> simp

/-! ## Neighbours -/

/-- The least float above, by the bits; infinity and NaN stay as they are. -/
def nextUp (x : Float32) : Float32 :=
  if x.isNaN || (magnitude x == 0x7F800000 && !isNegative x) then x
  else if magnitude x = 0 then tiniest
  else ofMagnitude (if isNegative x then x.toBits.toNat - 1 else x.toBits.toNat + 1)

/-- The greatest float below, by the bits; minus infinity and NaN stay as they are. -/
def nextDown (x : Float32) : Float32 :=
  if x.isNaN || (magnitude x == 0x7F800000 && isNegative x) then x
  else if magnitude x = 0 then ofMagnitude 0x80000001
  else ofMagnitude (if isNegative x then x.toBits.toNat + 1 else x.toBits.toNat - 1)

theorem toNat_toBits_of_not_isNegative {x : Float32} (h : isNegative x = false) :
    x.toBits.toNat = magnitude x := by
  unfold isNegative at h
  unfold magnitude
  simp only [decide_eq_false_iff_not] at h
  omega

/-- Upward from zero or from a positive float the bits count on. -/
theorem nextUp_ofMagnitude {n : ℕ} (h : n < 0x7F800000) :
    nextUp (ofMagnitude n) = ofMagnitude (n + 1) := by
  obtain ⟨hsign, hmagnitude⟩ := parts_ofMagnitude h.le
  have hpositive := isNegative_eq_false.mpr hsign
  have hne : (n == 0x7F800000) = false := beq_false_of_ne h.ne
  rw [nextUp, not_isNaN_of_isFinite (isFinite_ofMagnitude h), toNat_toBits_of_not_isNegative hpositive,
    hpositive, hmagnitude, hne]
  split
  next h0 => cases h0
  next =>
    split
    next hzero =>
      rw [hzero]
      rfl
    next => rfl

/-- Downward from a positive float the bits count back. -/
theorem nextDown_ofMagnitude {n : ℕ} (h : n < 0x7F800000) (h0 : n ≠ 0) :
    nextDown (ofMagnitude n) = ofMagnitude (n - 1) := by
  obtain ⟨hsign, hmagnitude⟩ := parts_ofMagnitude h.le
  have hpositive := isNegative_eq_false.mpr hsign
  rw [nextDown, not_isNaN_of_isFinite (isFinite_ofMagnitude h),
    toNat_toBits_of_not_isNegative hpositive, hpositive, hmagnitude, Bool.and_false, Bool.or_false,
    if_neg Bool.false_ne_true, if_neg h0, if_neg Bool.false_ne_true]

/-! ## Signs and zero -/

theorem abs_unpacked (s : Sign) (n : ℕ) : (unpacked s n).abs = unpacked .positive n := by
  unfold unpacked
  split_ifs <;> rfl

theorem abs_spec {x : Float32} (h : x.isNaN = false) :
    sign x.abs = .positive ∧ magnitude x.abs = magnitude x := by
  have hle := magnitude_le_of_not_isNaN h
  have hbits := toNat_pack_unpacked .positive hle
  rw [← abs_unpacked (sign x), ← unpack_eq] at hbits
  exact parts_of_pack (magnitude_lt x) hbits

theorem neg_unpacked (s : Sign) (n : ℕ) : (unpacked s n).neg = unpacked (-s) n := by
  unfold unpacked
  split_ifs <;> rfl

theorem value_neg {x : Float32} (h : x.isFinite = true) :
    x.neg.isFinite = true ∧ value x.neg = -value x := by
  have hlt := magnitude_lt_of_isFinite h
  have hbits := toNat_pack_unpacked (-sign x) hlt.le
  rw [← neg_unpacked, ← unpack_eq] at hbits
  obtain ⟨hsign, hmagnitude⟩ : sign x.neg = -sign x ∧ magnitude x.neg = magnitude x :=
    parts_of_pack (magnitude_lt x) hbits
  rw [isFinite_iff, value, hsign, hmagnitude, signed_neg]
  exact ⟨hlt, rfl⟩

/-- Both zeros are equal to zero, and nothing else is. -/
theorem beq_zero_iff (x : Float32) : (x == 0) = true ↔ magnitude x = 0 := by
  have hcompare : (x == 0) = (x.toModel.unpack.compare (0 : Float32).toModel.unpack == some .eq) :=
    rfl
  have hzero : magnitude 0 = 0 := by decide +kernel
  rw [hcompare, unpack_eq, unpack_eq, hzero]
  rcases Nat.lt_or_ge 0x7F800000 (magnitude x) with hnan | hle
  · rw [unpacked, if_pos hnan]
    exact iff_of_false Bool.false_ne_true (by omega)
  · rw [compare_unpacked _ _ hle (Nat.zero_le _), beq_iff_eq, Option.some_inj, compare_eq_iff_eq]
    cases sign x <;> cases sign 0 <;> simp only [Sign.apply] <;> omega

theorem abs_value (x : Float32) : |value x| = magnitudeValue (magnitude x) :=
  abs_signed _ (magnitudeValue_nonneg _)

theorem value_eq_zero {x : Float32} : value x = 0 ↔ magnitude x = 0 := by
  rw [← abs_eq_zero, abs_value, magnitudeValue_eq_zero]

/-! ## The nearest integer -/

theorem cast_apply (s : Sign) (n : ℕ) : ((s.apply n : ℤ) : ℚ) = signed s n := by
  cases s
  · exact (Int.cast_neg _).trans (congrArg _ (Int.cast_natCast n))
  · exact Int.cast_natCast n

/-- `m * 2 ^ e` to the nearest whole number: half a unit is added, and the places after the point are
dropped. -/
def nearestWhole (m : ℕ) : ℤ → ℕ
  | .ofNat e => m <<< e
  | .negSucc e => (m + 1 <<< e) >>> (e + 1)

theorem abs_nearestWhole_sub_le (m : ℕ) (e : ℤ) :
    |(nearestWhole m e : ℚ) - m * 2 ^ e| ≤ 1 / 2 := by
  cases e with
  | ofNat e =>
    simp only [nearestWhole, Nat.shiftLeft_eq, Nat.cast_mul, Nat.cast_pow, Nat.cast_ofNat,
      Int.ofNat_eq_natCast, zpow_natCast, sub_self, abs_zero]
    norm_num
  | negSucc e =>
    have hunit : (0 : ℚ) < 2 ^ e := by positivity
    have hlow := Nat.div_mul_le_self (m + 2 ^ e) (2 ^ (e + 1))
    have hhigh := Nat.lt_div_mul_add (a := m + 2 ^ e) (b := 2 ^ (e + 1)) (by positivity)
    simp only [nearestWhole, Nat.shiftLeft_eq, one_mul, Nat.shiftRight_eq_div_pow, zpow_negSucc]
    generalize (m + 2 ^ e) / 2 ^ (e + 1) = k at hlow hhigh
    have hlow' : (k : ℚ) * 2 ^ (e + 1) ≤ m + 2 ^ e := by exact_mod_cast hlow
    have hhigh' : (m : ℚ) + 2 ^ e < k * 2 ^ (e + 1) + 2 ^ (e + 1) := by exact_mod_cast hhigh
    have hvalue : (m : ℚ) * (2 ^ (e + 1))⁻¹ = m / (2 ^ e * 2) := by rw [pow_succ, div_eq_mul_inv]
    rw [pow_succ] at hlow' hhigh'
    rw [hvalue, abs_le]
    constructor
    · rw [neg_le_sub_iff_le_add, div_le_iff₀ (by positivity)]
      linarith
    · rw [sub_le_comm, le_div_iff₀ (by positivity)]
      linarith

theorem nearestInt_eq (x : Float32) : nearestInt x =
    (sign x).apply (nearestWhole (Dyadic.ofMagnitude (magnitude x)).mantissa
      (Dyadic.ofMagnitude (magnitude x)).exponent) := by
  unfold nearestInt sign
  generalize Dyadic.ofMagnitude (magnitude x) = d
  obtain ⟨m, e⟩ := d
  cases e <;> cases isNegative x <;> rfl

theorem signed_sub (s : Sign) (p q : ℚ) : |signed s p - signed s q| = |p - q| := by
  cases s
  · exact (neg_sub_neg p q).symm ▸ abs_sub_comm q p
  · rfl

theorem abs_nearestInt_sub_le (x : Float32) : |(nearestInt x : ℚ) - value x| ≤ 1 / 2 := by
  rw [nearestInt_eq, cast_apply, value, signed_sub]
  exact abs_nearestWhole_sub_le _ _

end CausalServe.Binary32
