import Mathlib
import CausalServe.Number.Binary32

/-! Single-precision floats by sign and magnitude. The unpacked form of a float, its class, how it
compares and what is packed again are all told by the two, so that nothing else looks at bits. -/

namespace CausalServe.Binary32

open Float.Model Float.Model.UnpackedFloat

/-! ## The unpacked form -/

def sign (x : Float32) : Sign := if isNegative x then .negative else .positive

theorem Dyadic.mantissa_pos {n : Nat} (h : n ≠ 0) : 0 < (Dyadic.ofMagnitude n).mantissa := by
  unfold Dyadic.ofMagnitude
  split
  next => exact Nat.pos_of_ne_zero h
  next => exact Nat.add_pos_left (by decide) _

/-- A float from its sign and magnitude, unpacked. -/
def unpacked (s : Sign) (n : Nat) : UnpackedFloat :=
  if 0x7F800000 < n then .notANumber
  else if n = 0x7F800000 then .infinity s
  else if h : n = 0 then .zero s
  else .finite s (Dyadic.ofMagnitude n).mantissa (Dyadic.ofMagnitude n).exponent
    (Dyadic.mantissa_pos h)

theorem unpacked_zero (s : Sign) : unpacked s 0 = .zero s := rfl

theorem unpacked_infinity (s : Sign) : unpacked s 0x7F800000 = .infinity s := rfl

theorem unpacked_finite (s : Sign) {n : Nat} (h0 : n ≠ 0) (h : n < 0x7F800000) :
    unpacked s n = .finite s (Dyadic.ofMagnitude n).mantissa (Dyadic.ofMagnitude n).exponent
      (Dyadic.mantissa_pos h0) := by
  rw [unpacked, if_neg (by omega), if_neg (by omega), dif_neg h0]

theorem eq_zero_or_eq_infinity_or {n : Nat} (h : n ≤ 0x7F800000) :
    n = 0 ∨ n = 0x7F800000 ∨ n ≠ 0 ∧ n < 0x7F800000 := by
  omega

theorem toNat_unpackMantissa (b : BitVec Format.binary32.numBits) :
    (unpackMantissa b).toNat = b.toNat % 0x800000 := by
  simp only [unpackMantissa, BitVec.toNat_cast, BitVec.extractLsb_toNat, Nat.shiftRight_zero]

theorem toNat_unpackExponent (b : BitVec Format.binary32.numBits) :
    (unpackExponent b).toNat = b.toNat / 0x800000 % 0x100 := by
  simp only [unpackExponent, BitVec.toNat_cast, BitVec.extractLsb_toNat, Nat.shiftRight_eq_div_pow]

theorem toNat_unpackSign (b : BitVec Format.binary32.numBits) :
    (unpackSign b).toNat = b.toNat / 0x80000000 := by
  simp only [unpackSign, BitVec.toNat_cast, BitVec.extractLsb_toNat, Nat.shiftRight_eq_div_pow]
  have := b.isLt
  simp only [Format.numBits] at this
  omega

theorem toNat_packComponents (s : Sign) (e : BitVec Format.binary32.exponentBits)
    (m : BitVec Format.binary32.mantissaBitsWithoutImplicit) :
    (packComponents Format.binary32 s e m).toNat =
      s.toBitVec.toNat * 0x80000000 + e.toNat * 0x800000 + m.toNat := by
  have he := e.isLt
  have hm := m.isLt
  simp only [packComponents, BitVec.toNat_append]
  rw [← Nat.shiftLeft_add_eq_or_of_lt he, ← Nat.shiftLeft_add_eq_or_of_lt hm, Nat.shiftLeft_eq,
    Nat.shiftLeft_eq]
  change (s.toBitVec.toNat * 2 ^ 8 + e.toNat) * 2 ^ 23 + m.toNat = _
  omega

theorem finite_congr (s : Sign) {m m' : Nat} {e e' : Int} (hm : m = m') (he : e = e')
    (h : 0 < m) (h' : 0 < m') : UnpackedFloat.finite s m e h = .finite s m' e' h' := by
  subst hm he
  rfl

theorem Dyadic.ofMagnitude_small {n : Nat} (h : n < 0x800000) :
    Dyadic.ofMagnitude n = ⟨n, -149⟩ := if_pos h

theorem Dyadic.ofMagnitude_normal {n : Nat} (h : 0x800000 ≤ n) : Dyadic.ofMagnitude n =
    ⟨0x800000 + n % 0x800000, (n / 0x800000 : Nat) - 150⟩ := if_neg (Nat.not_lt.mpr h)

theorem unpack_bits (b : BitVec Format.binary32.numBits) :
    UnpackedFloat.unpack Format.binary32 b =
      unpacked (if 0x80000000 ≤ b.toNat then .negative else .positive) (b.toNat % 0x80000000) := by
  have hb : b.toNat < 0x100000000 := b.isLt
  have hm := toNat_unpackMantissa b
  have he := toNat_unpackExponent b
  have hs := toNat_unpackSign b
  have hsign : Sign.ofBitVec (unpackSign b) =
      if 0x80000000 ≤ b.toNat then .negative else .positive := by
    have hzero : unpackSign b = 0#1 ↔ ¬ 0x80000000 ≤ b.toNat := by
      rw [← BitVec.toNat_inj, hs, BitVec.toNat_zero]
      omega
    rw [Sign.ofBitVec, if_congr hzero rfl rfl, ite_not]
  have hones : unpackExponent b = -1#_ ↔ 0x7F800000 ≤ b.toNat % 0x80000000 := by
    rw [← BitVec.toNat_inj, he]
    change _ = 255 ↔ _
    omega
  have hnone : unpackExponent b = 0#_ ↔ b.toNat % 0x80000000 < 0x800000 := by
    rw [← BitVec.toNat_inj, he, BitVec.toNat_zero]
    omega
  have hfraction : unpackMantissa b = 0#_ ↔ b.toNat % 0x800000 = 0 := by
    rw [← BitVec.toNat_inj, hm, BitVec.toNat_zero]
  unfold UnpackedFloat.unpack unpacked
  simp only [hsign, hones, hnone, hfraction]
  by_cases h1 : 0x7F800000 ≤ b.toNat % 0x80000000
  · by_cases h2 : b.toNat % 0x800000 = 0
    · have hn : b.toNat % 0x80000000 = 0x7F800000 := by omega
      simp [hn, h2]
    · have hn : 0x7F800000 < b.toNat % 0x80000000 := by omega
      simp [h1, h2, hn]
  · by_cases h2 : b.toNat % 0x80000000 < 0x800000
    · by_cases h3 : b.toNat % 0x800000 = 0
      · have hn : b.toNat % 0x80000000 = 0 := by omega
        simp [hn, h3]
      · have hn : ¬ b.toNat % 0x80000000 = 0 := by omega
        have hlt : ¬ 0x7F800000 < b.toNat % 0x80000000 := by omega
        have hne : ¬ b.toNat % 0x80000000 = 0x7F800000 := by omega
        rw [if_neg h1, if_pos h2, dif_neg h3, if_neg hlt, if_neg hne, dif_neg hn]
        refine finite_congr _ ?_ ?_ _ _
        · rw [Dyadic.ofMagnitude_small h2, hm]
          simp only
          omega
        · rw [Dyadic.ofMagnitude_small h2, he]
          change ((_ : Nat) : Int) - (127 + 23) + 1 = -149
          omega
    · have hn : ¬ b.toNat % 0x80000000 = 0 := by omega
      have hlt : ¬ 0x7F800000 < b.toNat % 0x80000000 := by omega
      have hne : ¬ b.toNat % 0x80000000 = 0x7F800000 := by omega
      rw [if_neg h1, if_neg h2, if_neg hlt, if_neg hne, dif_neg hn]
      refine finite_congr _ ?_ ?_ _ _
      · rw [Dyadic.ofMagnitude_normal (by omega), BitVec.toNat_append,
          ← Nat.shiftLeft_add_eq_or_of_lt (unpackMantissa b).isLt, hm]
        change 1 <<< 23 + b.toNat % 0x800000 = _
        simp only
        omega
      · rw [Dyadic.ofMagnitude_normal (by omega), he]
        change ((_ : Nat) : Int) - (127 + 23) = _
        simp only
        omega

theorem unpack_eq (x : Float32) : x.toModel.unpack = unpacked (sign x) (magnitude x) := by
  refine (unpack_bits _).trans ?_
  unfold sign isNegative magnitude
  simp only [decide_eq_true_eq]
  rfl

theorem magnitude_lt (x : Float32) : magnitude x < 0x80000000 := Nat.mod_lt _ (by decide)

/-- The sign and the magnitude are the whole value. -/
theorem ext {x y : Float32} (hs : sign x = sign y) (hn : magnitude x = magnitude y) : x = y := by
  have hx := x.toBits.toNat_lt
  have hy := y.toBits.toNat_lt
  have hbits : x.toBits.toNat = y.toBits.toNat := by
    unfold magnitude at hn
    unfold sign isNegative at hs
    simp only [decide_eq_true_eq] at hs
    split at hs <;> split at hs
    all_goals first | omega | cases hs
  obtain ⟨⟨xb, hx'⟩⟩ := x
  obtain ⟨⟨yb, hy'⟩⟩ := y
  obtain rfl : xb = yb := UInt32.toNat_inj.mp hbits
  rfl

/-! ## Classes -/

theorem isNaN_iff (x : Float32) : x.isNaN = true ↔ 0x7F800000 < magnitude x := by
  change x.toModel.unpack.isNaN = true ↔ _
  rw [unpack_eq, unpacked]
  split
  next h => exact iff_of_true rfl h
  next h =>
    refine iff_of_false ?_ h
    split
    · exact Bool.false_ne_true
    · split <;> exact Bool.false_ne_true

theorem isFinite_iff (x : Float32) : x.isFinite = true ↔ magnitude x < 0x7F800000 := by
  change x.toModel.unpack.isFinite = true ↔ _
  rw [unpack_eq, unpacked]
  split
  next h => exact iff_of_false Bool.false_ne_true (by omega)
  next h =>
    split
    next h => exact iff_of_false Bool.false_ne_true (by omega)
    next h => exact iff_of_true (by split <;> rfl) (by omega)

theorem not_isNaN_of_isFinite {x : Float32} (h : x.isFinite = true) : x.isNaN = false := by
  rw [isFinite_iff] at h
  rw [← Bool.not_eq_true, isNaN_iff]
  omega

/-! ## Order -/

/-- A key that orders all numbers like their values: the two zeros share theirs. -/
def order (x : Float32) : Int := (sign x).apply (magnitude x)

/-- The unpacked form of a larger magnitude comes later, by the exponent and then the mantissa. -/
theorem Dyadic.lex_of_lt {m n : Nat} (h : m < n) :
    (Dyadic.ofMagnitude m).exponent < (Dyadic.ofMagnitude n).exponent ∨
      (Dyadic.ofMagnitude m).exponent = (Dyadic.ofMagnitude n).exponent ∧
        (Dyadic.ofMagnitude m).mantissa < (Dyadic.ofMagnitude n).mantissa := by
  by_cases hm : m < 0x800000
  · by_cases hn : n < 0x800000
    · rw [ofMagnitude_small hm, ofMagnitude_small hn]
      exact .inr ⟨rfl, h⟩
    · rw [ofMagnitude_small hm, ofMagnitude_normal (Nat.le_of_not_lt hn)]
      simp only
      omega
  · rw [ofMagnitude_normal (by omega), ofMagnitude_normal (by omega)]
    simp only
    omega

theorem Dyadic.compare_eq (m n : Nat) :
    (compare (Dyadic.ofMagnitude m).exponent (Dyadic.ofMagnitude n).exponent).then
      (compare (Dyadic.ofMagnitude m).mantissa (Dyadic.ofMagnitude n).mantissa) = compare m n := by
  rcases lt_trichotomy m n with h | rfl | h
  · rw [compare_lt_iff_lt.mpr h]
    rcases lex_of_lt h with he | ⟨he, hm⟩
    · rw [compare_lt_iff_lt.mpr he]
      rfl
    · rw [compare_eq_iff_eq.mpr he, compare_lt_iff_lt.mpr hm]
      rfl
  · rw [compare_eq_iff_eq.mpr rfl, compare_eq_iff_eq.mpr rfl, compare_eq_iff_eq.mpr rfl]
    rfl
  · rw [compare_gt_iff_gt.mpr h]
    rcases lex_of_lt h with he | ⟨he, hm⟩
    · rw [compare_gt_iff_gt.mpr he]
      rfl
    · rw [compare_eq_iff_eq.mpr he.symm, compare_gt_iff_gt.mpr hm]
      rfl

theorem compare_cast (m n : Nat) : compare (m : Int) n = compare m n := by
  rcases lt_trichotomy m n with h | rfl | h
  · rw [compare_lt_iff_lt.mpr h, compare_lt_iff_lt.mpr (Int.ofNat_lt.mpr h)]
  · rw [compare_eq_iff_eq.mpr rfl, compare_eq_iff_eq.mpr rfl]
  · rw [compare_gt_iff_gt.mpr h, compare_gt_iff_gt.mpr (Int.ofNat_lt.mpr h)]

theorem compare_neg_cast (m n : Nat) : compare (-(m : Int)) (-n) = (compare m n).swap := by
  rcases lt_trichotomy m n with h | rfl | h
  · rw [compare_lt_iff_lt.mpr h, compare_gt_iff_gt.mpr (by omega)]
    rfl
  · rw [compare_eq_iff_eq.mpr rfl, compare_eq_iff_eq.mpr rfl]
    rfl
  · rw [compare_gt_iff_gt.mpr h, compare_lt_iff_lt.mpr (by omega)]
    rfl

/-- Numbers are compared by sign and magnitude. -/
theorem compare_unpacked (s t : Sign) {m n : Nat} (hm : m ≤ 0x7F800000) (hn : n ≤ 0x7F800000) :
    (unpacked s m).compare (unpacked t n) = some (compare (s.apply m) (t.apply n)) := by
  have hlex := Dyadic.compare_eq m n
  have below : ∀ {i j : Int}, i < j → some Ordering.lt = some (compare i j) := fun h =>
    congrArg some (compare_lt_iff_lt.mpr h).symm
  have above : ∀ {i j : Int}, j < i → some Ordering.gt = some (compare i j) := fun h =>
    congrArg some (compare_gt_iff_gt.mpr h).symm
  have same : ∀ {i j : Int}, i = j → some Ordering.eq = some (compare i j) := fun h =>
    congrArg some (compare_eq_iff_eq.mpr h).symm
  rcases eq_zero_or_eq_infinity_or hm with rfl | rfl | ⟨hm0, hm'⟩ <;>
    rcases eq_zero_or_eq_infinity_or hn with rfl | rfl | ⟨hn0, hn'⟩
  case inr.inr.inr.inr =>
    rw [unpacked_finite s hm0 hm', unpacked_finite t hn0 hn']
    cases s <;> cases t
    case negative.negative =>
      change some (Ordering.swap _) = some (compare (-(m : Int)) (-n))
      rw [hlex, compare_neg_cast]
    case positive.positive =>
      change some (Ordering.then _ _) = some (compare (m : Int) n)
      rw [hlex, compare_cast]
    case negative.positive => exact below (by simp only [Sign.apply]; omega)
    case positive.negative => exact above (by simp only [Sign.apply]; omega)
  case inr.inr.inl =>
    rw [unpacked_finite s hm0 hm', unpacked_zero]
    cases s
    case negative => exact below (by cases t <;> simp only [Sign.apply] <;> omega)
    case positive => exact above (by cases t <;> simp only [Sign.apply] <;> omega)
  case inr.inr.inr.inl =>
    rw [unpacked_finite s hm0 hm', unpacked_infinity]
    cases t
    case negative => exact above (by cases s <;> simp only [Sign.apply] <;> omega)
    case positive => exact below (by cases s <;> simp only [Sign.apply] <;> omega)
  case inl.inr.inr =>
    rw [unpacked_zero, unpacked_finite t hn0 hn']
    cases t
    case negative => exact above (by cases s <;> simp only [Sign.apply] <;> omega)
    case positive => exact below (by cases s <;> simp only [Sign.apply] <;> omega)
  case inr.inl.inr.inr =>
    rw [unpacked_infinity, unpacked_finite t hn0 hn']
    cases s
    case negative => exact below (by cases t <;> simp only [Sign.apply] <;> omega)
    case positive => exact above (by cases t <;> simp only [Sign.apply] <;> omega)
  all_goals cases s <;> cases t <;> rfl

theorem magnitude_le_of_not_isNaN {x : Float32} (h : x.isNaN = false) :
    magnitude x ≤ 0x7F800000 := by
  rwa [← Bool.not_eq_true, isNaN_iff, Nat.not_lt] at h

theorem lt_iff_compare {x y : Float32} :
    x < y ↔ (x.toModel.unpack.compare y.toModel.unpack == some .lt) = true := decide_eq_true_iff

theorem lt_iff {x y : Float32} (hx : x.isNaN = false) (hy : y.isNaN = false) :
    x < y ↔ order x < order y := by
  rw [lt_iff_compare, unpack_eq, unpack_eq, compare_unpacked _ _ (magnitude_le_of_not_isNaN hx)
    (magnitude_le_of_not_isNaN hy), beq_iff_eq, Option.some_inj, compare_lt_iff_lt]
  rfl

/-- Only numbers are less or greater. -/
theorem not_isNaN_of_lt {x y : Float32} (h : x < y) : x.isNaN = false ∧ y.isNaN = false := by
  rw [lt_iff_compare] at h
  constructor
  · change x.toModel.unpack.isNaN = false
    cases hx : x.toModel.unpack with
    | notANumber =>
      rw [hx] at h
      cases h
    | infinity | zero | finite => rfl
  · change y.toModel.unpack.isNaN = false
    cases hy : y.toModel.unpack with
    | notANumber =>
      rw [hy] at h
      cases hx : x.toModel.unpack <;> rw [hx] at h <;> cases h
    | infinity | zero | finite => rfl

theorem not_lt_of_lt {x y : Float32} (h : x < y) : ¬ y < x := by
  obtain ⟨hx, hy⟩ := not_isNaN_of_lt h
  rw [lt_iff hx hy] at h
  rw [lt_iff hy hx]
  exact h.not_gt

/-! ## Packing -/

def signBit (s : Sign) : Nat := s.toBitVec.toNat * 0x80000000

theorem parts_of_bits {x : Float32} {s : Sign} {n : Nat} (hn : n < 0x80000000)
    (h : x.toBits.toNat = signBit s + n) : sign x = s ∧ magnitude x = n := by
  unfold sign isNegative magnitude
  simp only [decide_eq_true_eq]
  cases s
  · rw [h]
    change (if 0x80000000 ≤ 1 * 0x80000000 + n then _ else _) = _ ∧
      (1 * 0x80000000 + n) % 0x80000000 = n
    exact ⟨if_pos (by omega), by omega⟩
  · rw [h]
    change (if 0x80000000 ≤ 0 * 0x80000000 + n then _ else _) = _ ∧
      (0 * 0x80000000 + n) % 0x80000000 = n
    exact ⟨if_neg (by omega), by omega⟩

/-- The bits of what is packed. Bits of normal numbers carry the leading bit of the mantissa into
the exponent field, so that one sum tells all finite magnitudes. -/
theorem toNat_pack_finite (s : Sign) {m : Nat} {e : Int} (h0 : 0 < m) (hm : m < 0x1000000)
    (he : -149 ≤ e) (hnormal : 0x800000 ≤ m ∨ e = -149) :
    (UnpackedFloat.pack Format.binary32 (.finite s m e h0)).toNat =
      signBit s + min 0x7F800000 ((e + 149).toNat * 0x800000 + m) := by
  have hbias : (e + Format.binary32.exponentBias + Format.binary32.mantissaBitsWithoutImplicit) =
      e + 150 := by
    change e + 127 + 23 = e + 150
    omega
  have hlog : m.log2 + 1 = Format.binary32.mantissaBits ↔ 0x800000 ≤ m := by
    change m.log2 + 1 = 24 ↔ 2 ^ 23 ≤ m
    rw [← Nat.le_log2 h0.ne']
    have : m.log2 < 24 := (Nat.log2_lt h0.ne').mpr hm
    omega
  rw [UnpackedFloat.pack, hbias]
  simp only [hlog]
  change BitVec.toNat (if 256 ≤ (e + 150).toNat + 1 then _ else _) = _
  split
  next hbig =>
    rw [packedInfinity, toNat_packComponents]
    change signBit s + 255 * 0x800000 + 0 = _
    omega
  next hfits =>
    split
    next hm' =>
      rw [toNat_packComponents, BitVec.toNat_ofNat, BitVec.toNat_ofNat]
      change signBit s + (e + 150).toNat % 256 * 0x800000 + m % 0x800000 = _
      omega
    next hm' =>
      rw [toNat_packComponents, BitVec.toNat_ofNat]
      change signBit s + 0 * 0x800000 + m % 0x800000 = _
      omega

theorem toNat_pack_zero (s : Sign) :
    (UnpackedFloat.pack Format.binary32 (.zero s)).toNat = signBit s := by
  rw [UnpackedFloat.pack, packedZero, toNat_packComponents]
  change signBit s + 0 * 0x800000 + 0 = signBit s
  omega

theorem toNat_pack_infinity (s : Sign) :
    (UnpackedFloat.pack Format.binary32 (.infinity s)).toNat = signBit s + 0x7F800000 := by
  rw [UnpackedFloat.pack, packedInfinity, toNat_packComponents]
  change signBit s + 255 * 0x800000 + 0 = _
  omega

/-- What a float with a given unpacked form consists of. -/
theorem parts_of_pack {u : UnpackedFloat} {s : Sign} {n : Nat} (hn : n < 0x80000000)
    (h : (UnpackedFloat.pack Format.binary32 u).toNat = signBit s + n) :
    sign (.ofModel (.pack u)) = s ∧ magnitude (.ofModel (.pack u)) = n :=
  parts_of_bits hn h

end CausalServe.Binary32
