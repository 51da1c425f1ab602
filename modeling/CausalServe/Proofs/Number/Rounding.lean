import CausalServe.Proofs.Number.Unpacked

/-! Rounding to the nearest float, ties to even, of exact rational numbers. -/

namespace CausalServe.Binary32

open Float.Model Float.Model.UnpackedFloat

/-! ## Rounding to an integer -/

/-- The nearest natural number; a half goes to the even neighbour. -/
def nearestEven (x : ℚ) : ℕ :=
  if x < ⌊x⌋₊ + 1 / 2 then ⌊x⌋₊
  else if x = ⌊x⌋₊ + 1 / 2 then ⌊x⌋₊ + ⌊x⌋₊ % 2
  else ⌊x⌋₊ + 1

theorem floor_le_nearestEven (x : ℚ) : ⌊x⌋₊ ≤ nearestEven x := by
  unfold nearestEven
  split
  next => exact le_rfl
  next => split <;> omega

theorem nearestEven_le_floor (x : ℚ) : nearestEven x ≤ ⌊x⌋₊ + 1 := by
  unfold nearestEven
  split
  next => omega
  next => split <;> omega

theorem nearestEven_mono {x y : ℚ} (h : x ≤ y) : nearestEven x ≤ nearestEven y := by
  rcases (Nat.floor_le_floor h).lt_or_eq with hlt | heq
  · exact (nearestEven_le_floor x).trans (hlt.trans_le (floor_le_nearestEven y))
  · unfold nearestEven
    rw [← heq]
    by_cases hx : x < ⌊x⌋₊ + 1 / 2
    · rw [if_pos hx]
      split_ifs <;> omega
    · have hy : ¬ y < ⌊x⌋₊ + 1 / 2 := fun hy => hx (h.trans_lt hy)
      rw [if_neg hx, if_neg hy]
      by_cases hxe : x = ⌊x⌋₊ + 1 / 2
      · rw [if_pos hxe]
        split_ifs <;> omega
      · have hye : y ≠ ⌊x⌋₊ + 1 / 2 := fun hye =>
          hxe (le_antisymm (h.trans_eq hye) (le_of_not_gt hx))
        rw [if_neg hxe, if_neg hye]

theorem nearestEven_natCast (n : ℕ) : nearestEven n = n := by
  rw [nearestEven, Nat.floor_natCast, if_pos (by linarith)]

/-! ## Rounding to a float -/

/-- The place of the last bit of a float near `q`: 24 bits from the first one on, but none below
`2 ^ -149`. -/
def place (q : ℚ) : ℤ := if q < 2 ^ (-126 : ℤ) then -149 else Int.log 2 q - 23

/-- The magnitude of the float nearest to `q`. The bits count from `2 ^ -149` on in units of the
last place, so that a carry out of the mantissa goes to the exponent. -/
def roundedMagnitude (q : ℚ) : ℕ :=
  min 0x7F800000 ((place q + 149).toNat * 0x800000 + nearestEven (q / 2 ^ place q))

theorem place_of_small {q : ℚ} (h : q < 2 ^ (-126 : ℤ)) : place q = -149 := if_pos h

theorem place_of_normal {q : ℚ} (h : 2 ^ (-126 : ℤ) ≤ q) : place q = Int.log 2 q - 23 :=
  if_neg (not_lt.mpr h)

theorem log_of_normal {q : ℚ} (h : 2 ^ (-126 : ℤ) ≤ q) : -126 ≤ Int.log 2 q :=
  (Int.zpow_le_iff_le_log Nat.one_lt_two (lt_of_lt_of_le (by positivity) h)).mp
    (by exact_mod_cast h)

theorem place_ge (q : ℚ) : -149 ≤ place q := by
  rcases lt_or_ge q (2 ^ (-126 : ℤ)) with h | h
  · rw [place_of_small h]
  · have := log_of_normal h
    rw [place_of_normal h]
    omega

theorem place_mono {p q : ℚ} (h : p ≤ q) : place p ≤ place q := by
  rcases lt_or_ge p (2 ^ (-126 : ℤ)) with hp | hp
  · rw [place_of_small hp]
    exact place_ge q
  · rw [place_of_normal hp, place_of_normal (hp.trans h)]
    have := Int.log_mono_right (b := 2) (lt_of_lt_of_le (by positivity) hp) h
    omega

/-- In units of its last place a number has at most 24 bits. -/
theorem div_place_lt (q : ℚ) : q / 2 ^ place q < 2 ^ (24 : ℤ) := by
  have hpos : (0 : ℚ) < 2 ^ place q := by positivity
  rw [div_lt_iff₀ hpos, ← zpow_add₀ two_ne_zero]
  rcases lt_or_ge q (2 ^ (-126 : ℤ)) with h | h
  · rw [place_of_small h]
    refine h.trans_le (zpow_le_zpow_right₀ one_le_two ?_)
    omega
  · rw [place_of_normal h]
    have hlt := Int.lt_zpow_succ_log_self Nat.one_lt_two q
    have hexp : 24 + (Int.log 2 q - 23) = Int.log 2 q + 1 := by omega
    rw [hexp]
    exact_mod_cast hlt

/-- Above the least place all 24 bits are used. -/
theorem le_div_place {q : ℚ} (h : -149 < place q) : 2 ^ (23 : ℤ) ≤ q / 2 ^ place q := by
  have hnormal : 2 ^ (-126 : ℤ) ≤ q := by
    by_contra hsmall
    rw [place_of_small (not_le.mp hsmall)] at h
    omega
  have hpos : (0 : ℚ) < 2 ^ place q := by positivity
  rw [le_div_iff₀ hpos, ← zpow_add₀ two_ne_zero, place_of_normal hnormal]
  have hle := Int.zpow_log_le_self Nat.one_lt_two (lt_of_lt_of_le (by positivity) hnormal)
  have hexp : 23 + (Int.log 2 q - 23) = Int.log 2 q := by omega
  rw [hexp]
  exact_mod_cast hle

theorem nearestEven_div_place_le (q : ℚ) : nearestEven (q / 2 ^ place q) ≤ 0x1000000 := by
  have hle : q / 2 ^ place q ≤ ((0x1000000 : ℕ) : ℚ) := (div_place_lt q).le.trans (by norm_num)
  exact (nearestEven_mono hle).trans_eq (nearestEven_natCast _)

theorem le_nearestEven_div_place {q : ℚ} (h : -149 < place q) :
    0x800000 ≤ nearestEven (q / 2 ^ place q) := by
  have hle : ((0x800000 : ℕ) : ℚ) ≤ q / 2 ^ place q := le_trans (by norm_num) (le_div_place h)
  exact (nearestEven_natCast _).symm.le.trans (nearestEven_mono hle)

theorem roundedMagnitude_mono {p q : ℚ} (h : p ≤ q) : roundedMagnitude p ≤ roundedMagnitude q := by
  have hp := place_ge p
  unfold roundedMagnitude
  refine min_le_min_left _ ?_
  rcases (place_mono h).lt_or_eq with hlt | heq
  · have hhigh := nearestEven_div_place_le p
    have hlow := le_nearestEven_div_place (hp.trans_lt hlt)
    omega
  · have hdiv : p / 2 ^ place p ≤ q / 2 ^ place q := by
      rw [heq]
      exact div_le_div_of_nonneg_right h (by positivity)
    have := nearestEven_mono hdiv
    rw [heq] at this ⊢
    omega

theorem roundedMagnitude_le (q : ℚ) : roundedMagnitude q ≤ 0x7F800000 := min_le_left ..

/-! ## Extended mantissas -/

/-- The exact value that a mantissa and its two further bits stand for: the first is its half, and
the second says that there is more. -/
structure Extends (em : ExtendedMantissa) (x : ℚ) : Prop where
  low : em.mantissa ≤ x
  high : x < em.mantissa + 1
  round : em.roundBit = true ↔ em.mantissa + 1 / 2 ≤ x
  sticky : em.stickyBit = true ↔ x ≠ em.mantissa ∧ x ≠ em.mantissa + 1 / 2

namespace Extends

variable {em : ExtendedMantissa} {x : ℚ}

theorem floor_eq (h : Extends em x) : ⌊x⌋₊ = em.mantissa :=
  (Nat.floor_eq_iff (le_trans (Nat.cast_nonneg _) h.low)).mpr ⟨h.low, h.high⟩

/-- The two bits are all that rounding to the nearest needs. -/
theorem roundedMantissa (h : Extends em x) : em.roundedMantissa = nearestEven x := by
  obtain ⟨m, r, s⟩ := em
  have hround := h.round
  have hsticky := h.sticky
  unfold nearestEven ExtendedMantissa.roundedMantissa
  rw [h.floor_eq]
  simp only at hround hsticky ⊢
  cases r with
  | false =>
    have hlt : x < m + 1 / 2 := not_le.mp fun hle => Bool.false_ne_true (hround.mpr hle)
    rw [if_pos hlt]
    cases s <;> rfl
  | true =>
    have hle : m + 1 / 2 ≤ x := hround.mp rfl
    rw [if_neg (not_lt.mpr hle)]
    have hne : x ≠ m := by
      rintro rfl
      linarith
    cases s with
    | false =>
      have heq : x = m + 1 / 2 := by
        by_contra hother
        exact Bool.false_ne_true (hsticky.mpr ⟨hne, hother⟩)
      rw [if_pos heq]
      rfl
    | true =>
      rw [if_neg (hsticky.mp rfl).2]
      rfl

theorem ne_iff (h : Extends em x) : (em.roundBit || em.stickyBit) = true ↔ x ≠ em.mantissa := by
  rw [Bool.or_eq_true, h.round, h.sticky]
  constructor
  · rintro (hle | hne)
    · exact (lt_of_lt_of_le (by linarith) hle).ne'
    · exact hne.1
  · intro hne
    by_cases hhalf : x = em.mantissa + 1 / 2
    · exact .inl hhalf.ge
    · exact .inr ⟨hne, hhalf⟩

theorem shiftRightOne (h : Extends em x) : Extends em.shiftRightOne (x / 2) := by
  have hlow := h.low
  have hhigh := h.high
  have hne := h.ne_iff
  have hcast : ((em.mantissa / 2 : ℕ) : ℚ) * 2 + (em.mantissa % 2 : ℕ) = em.mantissa := by
    exact_mod_cast Nat.div_add_mod' em.mantissa 2
  rcases Nat.mod_two_eq_zero_or_one em.mantissa with hr | hr
  · rw [hr, Nat.cast_zero, add_zero] at hcast
    refine ⟨?_, ?_, ?_, ?_⟩ <;> simp only [ExtendedMantissa.shiftRightOne, hr]
    · linarith
    · linarith
    · exact iff_of_false Bool.false_ne_true (by linarith)
    · rw [hne, ← hcast]
      constructor
      · intro hx
        exact ⟨fun heq => hx (by linarith), fun heq => by linarith⟩
      · rintro ⟨hx, -⟩ heq
        exact hx (by linarith)
  · rw [hr, Nat.cast_one] at hcast
    refine ⟨?_, ?_, ?_, ?_⟩ <;> simp only [ExtendedMantissa.shiftRightOne, hr]
    · linarith
    · linarith
    · exact iff_of_true rfl (by linarith)
    · rw [hne, ← hcast]
      constructor
      · intro hx
        exact ⟨fun heq => by linarith, fun heq => hx (by linarith)⟩
      · rintro ⟨-, hx⟩ heq
        exact hx (by linarith)

theorem shiftRight (h : Extends em x) (n : ℕ) : Extends (em >>> n) (x / 2 ^ n) := by
  induction n with
  | zero =>
    rw [pow_zero, div_one]
    exact h
  | succ n ih =>
    rw [pow_succ, ← div_div]
    exact ih.shiftRightOne

theorem exact (m : ℕ) : Extends (.ofMantissaAndAccuracy m .exact) m where
  low := le_rfl
  high := lt_add_one _
  round := iff_of_false Bool.false_ne_true (by simp [ExtendedMantissa.ofMantissaAndAccuracy])
  sticky := iff_of_false Bool.false_ne_true fun h => h.1 rfl

theorem inexact {m : ℕ} (hlow : m < x) (hhigh : x < m + 1) :
    Extends (.ofMantissaAndAccuracy m (.inexact (compare x (m + 1 / 2)))) x := by
  rcases lt_trichotomy x (m + 1 / 2) with h | h | h
  · rw [compare_lt_iff_lt.mpr h]
    exact ⟨hlow.le, hhigh, iff_of_false Bool.false_ne_true (not_le.mpr h),
      iff_of_true rfl ⟨hlow.ne', h.ne⟩⟩
  · rw [compare_eq_iff_eq.mpr h]
    exact ⟨hlow.le, hhigh, iff_of_true rfl h.ge, iff_of_false Bool.false_ne_true fun hne => hne.2 h⟩
  · rw [compare_gt_iff_gt.mpr h]
    exact ⟨hlow.le, hhigh, iff_of_true rfl h.le, iff_of_true rfl ⟨hlow.ne', h.ne'⟩⟩

/-- The quotient of a division, with the remainder told to the two bits. -/
theorem quotient (m : ℕ) {n : ℕ} (hn : 0 < n) :
    Extends (.ofMantissaAndAccuracy (m / n) (accuracyOfFraction (m % n) n)) ((m : ℚ) / n) := by
  have hpos : (0 : ℚ) < n := Nat.cast_pos.mpr hn
  have hvalue : (m : ℚ) / n = (m / n : ℕ) + (m % n : ℕ) / n := by
    rw [div_eq_iff hpos.ne', add_mul, div_mul_cancel₀ _ hpos.ne']
    exact_mod_cast (Nat.div_add_mod' m n).symm
  have hrest : ((m % n : ℕ) : ℚ) / n < 1 :=
    (div_lt_one hpos).mpr (Nat.cast_lt.mpr (Nat.mod_lt m hn))
  rw [hvalue]
  generalize m / n = k
  generalize m % n = r at hrest ⊢
  unfold accuracyOfFraction
  split
  next hr =>
    rw [hr, Nat.cast_zero, zero_div, add_zero]
    exact exact k
  next hr =>
    have hr0 : (0 : ℚ) < (r : ℚ) / n := div_pos (Nat.cast_pos.mpr (Nat.pos_of_ne_zero hr)) hpos
    have hcompare : compare (2 * r) n = compare ((k : ℚ) + r / n) (k + 1 / 2) := by
      rcases lt_trichotomy (2 * r) n with h | h | h
      · have hcast : (2 : ℚ) * r < n := by exact_mod_cast h
        rw [compare_lt_iff_lt.mpr h, compare_lt_iff_lt.mpr]
        rw [add_lt_add_iff_left, div_lt_div_iff₀ hpos two_pos]
        linarith
      · have hcast : (2 : ℚ) * r = n := by exact_mod_cast h
        rw [compare_eq_iff_eq.mpr h, compare_eq_iff_eq.mpr]
        rw [add_right_inj, div_eq_div_iff hpos.ne' two_ne_zero]
        linarith
      · have hcast : (n : ℚ) < 2 * r := by exact_mod_cast h
        rw [compare_gt_iff_gt.mpr h, compare_gt_iff_gt.mpr]
        rw [add_lt_add_iff_left, div_lt_div_iff₀ two_pos hpos]
        linarith
    rw [hcompare]
    exact inexact (by linarith) (by linarith)

end Extends

/-! ## Rounding an unpacked form -/

theorem mantissa_ofMantissaAndAccuracy (m : ℕ) (acc : Accuracy) :
    (ExtendedMantissa.ofMantissaAndAccuracy m acc).mantissa = m := by
  rcases acc with _ | _ | _ | _ <;> rfl

/-- Both ways to tell the place of the last bit from the first one. -/
theorem place_eq_max {q : ℚ} (h : 0 < q) : place q = max (Int.log 2 q - 23) (-149) := by
  rcases lt_or_ge q (2 ^ (-126 : ℤ)) with hsmall | hnormal
  · have hlog : Int.log 2 q < -126 :=
      (Int.lt_zpow_iff_log_lt Nat.one_lt_two h).mp (by exact_mod_cast hsmall)
    rw [place_of_small hsmall, max_eq_right (by omega)]
  · have hlog := log_of_normal hnormal
    rw [place_of_normal hnormal, max_eq_left (by omega)]

theorem log_eq_of_bounds {q : ℚ} {k : ℤ} (hlow : 2 ^ k ≤ q) (hhigh : q < 2 ^ (k + 1)) :
    Int.log 2 q = k := by
  have hpos : 0 < q := lt_of_lt_of_le (by positivity) hlow
  have hle : k ≤ Int.log 2 q :=
    (Int.zpow_le_iff_le_log Nat.one_lt_two hpos).mp (by exact_mod_cast hlow)
  have hlt : Int.log 2 q < k + 1 :=
    (Int.lt_zpow_iff_log_lt Nat.one_lt_two hpos).mp (by exact_mod_cast hhigh)
  omega

/-- The first bit of a value is that of its mantissa. -/
theorem log_mantissa {m : ℕ} (hm : m ≠ 0) {x : ℚ} (hlow : (m : ℚ) ≤ x) (hhigh : x < m + 1)
    (e : ℤ) : Int.log 2 (x * 2 ^ e) = m.log2 + e := by
  have hfirst : (2 : ℚ) ^ (m.log2 : ℤ) ≤ m := by
    rw [zpow_natCast]
    exact_mod_cast Nat.log2_self_le hm
  have hnext : (m : ℚ) + 1 ≤ 2 ^ ((m.log2 : ℤ) + 1) := by
    rw [← Nat.cast_succ, ← Nat.cast_succ m.log2, zpow_natCast]
    exact_mod_cast Nat.lt_log2_self
  have hpos : (0 : ℚ) < 2 ^ e := by positivity
  refine log_eq_of_bounds ?_ ?_
  · rw [zpow_add₀ two_ne_zero]
    exact mul_le_mul_of_nonneg_right (hfirst.trans hlow) hpos.le
  · rw [add_right_comm, zpow_add₀ two_ne_zero]
    exact mul_lt_mul_of_pos_right (hhigh.trans_le hnext) hpos

/-- The place that the model asks for is that of the last bit. -/
theorem targetExponent_of_pos {m : ℕ} (hm : m ≠ 0) {x : ℚ} (hlow : (m : ℚ) ≤ x) (hhigh : x < m + 1)
    (e : ℤ) : Format.binary32.targetExponent (totalExponent m e) = place (x * 2 ^ e) := by
  have hpos : 0 < x * 2 ^ e :=
    mul_pos (lt_of_lt_of_le (Nat.cast_pos.mpr (Nat.pos_of_ne_zero hm)) hlow) (by positivity)
  have htarget : Format.binary32.targetExponent (totalExponent m e) =
      max ((m.log2 : ℤ) + 1 + e - 24) (-149) := rfl
  rw [htarget, place_eq_max hpos, log_mantissa hm hlow hhigh]
  omega

/-- Without a first bit there is no room for one either, unless places are lost. -/
theorem targetExponent_eq {m : ℕ} {acc : Accuracy} {x : ℚ} {e : ℤ}
    (h : Extends (.ofMantissaAndAccuracy m acc) x) (he : e ≤ place (x * 2 ^ e)) :
    Format.binary32.targetExponent (totalExponent m e) = place (x * 2 ^ e) := by
  have hlow := h.low
  have hhigh := h.high
  rw [mantissa_ofMantissaAndAccuracy] at hlow hhigh
  by_cases hm : m = 0
  · subst hm
    have htarget : Format.binary32.targetExponent (totalExponent 0 e) =
        max (((0 : ℕ).log2 : ℤ) + 1 + e - 24) (-149) := rfl
    rw [htarget, Nat.log2_zero]
    have hq : x * 2 ^ e < 2 ^ e := by
      rw [Nat.cast_zero, zero_add] at hhigh
      exact mul_lt_of_lt_one_left (by positivity) hhigh
    rcases lt_or_ge (x * 2 ^ e) (2 ^ (-126 : ℤ)) with hsmall | hnormal
    · rw [place_of_small hsmall] at he ⊢
      omega
    · have hlog : Int.log 2 (x * 2 ^ e) < e :=
        (Int.lt_zpow_iff_log_lt Nat.one_lt_two (lt_of_lt_of_le (by positivity) hnormal)).mp
          (by exact_mod_cast hq)
      rw [place_of_normal hnormal] at he
      omega
  · exact targetExponent_of_pos hm hlow hhigh e

theorem shiftToTargetExponent_eq {m : ℕ} {acc : Accuracy} {x : ℚ} {e : ℤ}
    (h : Extends (.ofMantissaAndAccuracy m acc) x) (he : e ≤ place (x * 2 ^ e)) :
    (shiftToTargetExponent Format.binary32 m e acc).2 = place (x * 2 ^ e) ∧
      Extends (shiftToTargetExponent Format.binary32 m e acc).1
        (x * 2 ^ e / 2 ^ place (x * 2 ^ e)) := by
  rw [shiftToTargetExponent, targetExponent_eq h he, shiftToExponent]
  generalize place (x * 2 ^ e) = p at he
  obtain ⟨d, rfl⟩ : ∃ d : ℕ, p = e + d := ⟨(p - e).toNat, by omega⟩
  have hd : (e + d - e).toNat = d := by omega
  have hscale : x * 2 ^ e / 2 ^ (e + (d : ℤ)) = x / 2 ^ d := by
    rw [zpow_add₀ two_ne_zero, mul_comm x, mul_div_mul_left _ _ (by positivity), zpow_natCast]
  rw [hd, hscale]
  exact ⟨rfl, h.shiftRight d⟩

/-- Values with all their bits in place are at that place. -/
theorem place_of_mantissa {m : ℕ} {e : ℤ} (hm : m < 0x1000000) (he : -149 ≤ e)
    (hnormal : 0x800000 ≤ m ∨ e = -149) : place (m * 2 ^ e) = e := by
  by_cases h0 : m = 0
  · rw [h0, Nat.cast_zero, zero_mul, place_of_small (by positivity)]
    omega
  · have hpos : (0 : ℚ) < m * 2 ^ e :=
      mul_pos (Nat.cast_pos.mpr (Nat.pos_of_ne_zero h0)) (by positivity)
    have hlog : m.log2 < 24 := (Nat.log2_lt h0).mpr hm
    have hfull : 2 ^ 23 ≤ m → 23 ≤ m.log2 := (Nat.le_log2 h0).mpr
    rw [place_eq_max hpos, log_mantissa h0 le_rfl (lt_add_one _)]
    omega

/-- A mantissa that rounding has carried to one bit more is halved, and then all bits are in
place. -/
theorem exists_canonical {m : ℕ} {e : ℤ} (hm : m ≤ 0x1000000) (he : -149 ≤ e)
    (hnormal : 0x800000 ≤ m ∨ e = -149) : ∃ (m' : ℕ) (e' : ℤ), m' < 0x1000000 ∧ -149 ≤ e' ∧
      (0x800000 ≤ m' ∨ e' = -149) ∧ (m' : ℚ) * 2 ^ e' = m * 2 ^ e ∧ e ≤ e' ∧
      (e' + 149).toNat * 0x800000 + m' = (e + 149).toNat * 0x800000 + m := by
  rcases hm.lt_or_eq with hlt | rfl
  · exact ⟨m, e, hlt, he, hnormal, rfl, le_rfl, rfl⟩
  · refine ⟨0x800000, e + 1, by omega, by omega, .inl le_rfl, ?_, by omega, by omega⟩
    rw [zpow_add_one₀ two_ne_zero]
    norm_num
    ring

/-- Rounding and packing give the nearest magnitude. -/
theorem toNat_pack_round (s : Sign) {m : ℕ} {acc : Accuracy} {x : ℚ} {e : ℤ}
    (h : Extends (.ofMantissaAndAccuracy m acc) x) (he : e ≤ place (x * 2 ^ e)) :
    (UnpackedFloat.pack Format.binary32
      (roundWithAccuracy Format.binary32 s m e acc)).toNat =
        signBit s + roundedMagnitude (x * 2 ^ e) := by
  obtain ⟨hplace, hext⟩ := shiftToTargetExponent_eq h he
  have hlowest := place_ge (x * 2 ^ e)
  have hnormal : 0x800000 ≤ nearestEven (x * 2 ^ e / 2 ^ place (x * 2 ^ e)) ∨
      place (x * 2 ^ e) = -149 := by
    by_cases hp : place (x * 2 ^ e) = -149
    · exact .inr hp
    · exact .inl (le_nearestEven_div_place (by omega))
  obtain ⟨m', e', hm', he', hnormal', hvalue, hle, hbits⟩ :=
    exists_canonical (nearestEven_div_place_le _) hlowest hnormal
  have hplace' : place (nearestEven (x * 2 ^ e / 2 ^ place (x * 2 ^ e)) *
      2 ^ place (x * 2 ^ e)) = e' := by
    rw [← hvalue, place_of_mantissa hm' he' hnormal']
  obtain ⟨hlast, hext'⟩ := shiftToTargetExponent_eq
    (Extends.exact (nearestEven (x * 2 ^ e / 2 ^ place (x * 2 ^ e))))
    (hle.trans_eq hplace'.symm)
  rw [hplace'] at hlast hext'
  rw [← hvalue, mul_div_cancel_right₀ _ (by positivity)] at hext'
  have hmantissa := hext'.floor_eq
  rw [Nat.floor_natCast] at hmantissa
  rw [roundedMagnitude, ← hbits]
  unfold roundWithAccuracy
  simp only [hext.roundedMantissa, hplace, hlast, ← hmantissa]
  split
  next h0 =>
    have hleast : e' = -149 := hnormal'.resolve_left (by omega)
    rw [toNat_pack_zero, h0, hleast]
    simp
  next h0 => exact toNat_pack_finite s _ hm' he' hnormal'

end CausalServe.Binary32
