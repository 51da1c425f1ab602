import CausalServe.Proofs.Number.Accuracy
import CausalServe.Quant.Block

/-! The scale of a block. It is found by two loops, one upward and one downward by single floats, and
both of them end. What they leave is a scale that takes the largest magnitude to at most half a step
above the top code and the top code to a finite value. -/

namespace CausalServe

open Binary32
open Float.Model.UnpackedFloat (Sign)

/-- The runs of a loop that end: `next` is done as long as `again` holds. -/
inductive Loop {σ : Type} (again : σ → Prop) (next : σ → σ) : σ → σ → Prop
  | done {s : σ} : ¬ again s → Loop again next s s
  | turn {s t : σ} : again s → Loop again next (next s) t → Loop again next s t

/-- A loop that counts upward ends where its condition fails for the first time. -/
theorem Loop.upward {σ : Type} {again : σ → Prop} {next : σ → σ} {state : ℕ → σ} {first last : ℕ}
    (hle : first ≤ last) (hagain : ∀ j, first ≤ j → j < last → again (state j))
    (hnext : ∀ j, first ≤ j → j < last → next (state j) = state (j + 1))
    (hstop : ¬ again (state last)) : Loop again next (state first) (state last) := by
  induction hle using Nat.decreasingInduction with
  | self => exact .done hstop
  | of_succ first hlt ih =>
    refine .turn (hagain first le_rfl hlt) ?_
    rw [hnext first le_rfl hlt]
    exact ih (fun j hj => hagain j (Nat.le_of_succ_le hj)) fun j hj => hnext j (Nat.le_of_succ_le hj)

namespace Block

/-! ## The largest magnitude -/

/-- A running maximum over magnitudes. -/
theorem foldl_abs {values : List Float32} (hvalues : ∀ v ∈ values, v.isNaN = false) {m : Float32}
    (hm : m.isNaN = false) (hsign : sign m = .positive) :
    sign (values.foldl (fun m v => if m < v.abs then v.abs else m) m) = .positive ∧
      magnitude (values.foldl (fun m v => if m < v.abs then v.abs else m) m) =
        (values.map magnitude).foldl max (magnitude m) := by
  induction values generalizing m with
  | nil => exact ⟨hsign, rfl⟩
  | cons v values ih =>
    obtain ⟨hv, hrest⟩ := List.forall_mem_cons.mp hvalues
    obtain ⟨hvs, hvm⟩ := abs_spec hv
    have hvn : v.abs.isNaN = false := by
      rw [← Bool.not_eq_true, isNaN_iff, hvm, not_lt]
      exact magnitude_le_of_not_isNaN hv
    have hlt : m < v.abs ↔ magnitude m < magnitude v := by
      rw [lt_iff hm hvn, order, order, hsign, hvs, hvm]
      exact Int.ofNat_lt
    rw [List.foldl_cons, List.map_cons, List.foldl_cons]
    split
    next h =>
      rw [max_eq_right (hlt.mp h).le, ← hvm]
      exact ih hrest hvn hvs
    next h =>
      rw [max_eq_left (not_lt.mp fun h' => h (hlt.mpr h'))]
      exact ih hrest hm hsign

/-- The largest magnitude bounds all of them and is one of them. -/
theorem absMax_spec {values : List Float32} (h : ∀ v ∈ values, v.isNaN = false) :
    sign (absMax values) = .positive ∧
      (∀ v ∈ values, magnitude v ≤ magnitude (absMax values)) ∧
      (magnitude (absMax values) = 0 ∨ ∃ v ∈ values, magnitude v = magnitude (absMax values)) := by
  have hnone : values.any Float32.isNaN = false := by
    rw [List.any_eq_false]
    intro v hv
    rw [h v hv]
    exact Bool.false_ne_true
  have hzero : (0 : Float32).isNaN = false ∧ isNegative 0 = false ∧ magnitude 0 = 0 := by
    decide +kernel
  obtain ⟨hsign, hmagnitude⟩ := foldl_abs h hzero.1 (isNegative_eq_false.mp hzero.2.1)
  have hmax : (0 :: values.map magnitude).max? = some ((values.map magnitude).foldl max 0) :=
    List.max?_cons'
  obtain ⟨hmem, hall⟩ := List.max?_eq_some_iff.mp hmax
  rw [hzero.2.2] at hmagnitude
  rw [absMax, hnone, if_neg Bool.false_ne_true, hmagnitude]
  refine ⟨hsign, fun v hv => hall _ (List.mem_cons_of_mem _ (List.mem_map_of_mem hv)), ?_⟩
  exact (List.mem_cons.mp hmem).imp_right List.mem_map.mp

/-- One value that is not finite is enough. -/
theorem isFinite_absMax {values : List Float32} :
    (absMax values).isFinite = true ↔ ∀ v ∈ values, v.isFinite = true := by
  by_cases hnan : ∀ v ∈ values, v.isNaN = false
  · obtain ⟨-, hall, hmem⟩ := absMax_spec hnan
    simp only [isFinite_iff]
    constructor
    · exact fun h v hv => (hall v hv).trans_lt h
    · intro h
      rcases hmem with hzero | ⟨v, hv, heq⟩
      · rw [hzero]
        decide
      · rw [← heq]
        exact h v hv
  · have hany : values.any Float32.isNaN = true := by
      simp only [not_forall, Bool.not_eq_false] at hnan
      obtain ⟨v, hv, hvn⟩ := hnan
      exact List.any_eq_true.mpr ⟨v, hv, hvn⟩
    rw [absMax, hany, if_pos rfl]
    refine iff_of_false (by decide +kernel) fun h => ?_
    exact hnan fun v hv => not_isNaN_of_isFinite (h v hv)

/-! ## The top code -/

def top (e : Encoding) : Float32 := Float32.ofInt e.maxCode

theorem maxCode_bounds (e : Encoding) : (7 : ℚ) ≤ e.maxCode ∧ (e.maxCode : ℚ) ≤ 127 := by
  cases e <;> norm_num [Encoding.maxCode]

theorem top_spec (e : Encoding) : (top e).isFinite = true ∧ sign (top e) = .positive ∧
    magnitude (top e) ≠ 0 ∧ magnitudeValue (magnitude (top e)) = e.maxCode := by
  have hbits : isNegative (top e) = false ∧ magnitude (top e) ≠ 0 := by
    cases e <;> decide +kernel
  have hsign := isNegative_eq_false.mp hbits.1
  obtain ⟨hfinite, hvalue⟩ := value_ofInt (c := e.maxCode) (by cases e <;> decide)
  refine ⟨hfinite, hsign, hbits.2, ?_⟩
  rw [← hvalue, value, show sign (Float32.ofInt e.maxCode) = .positive from hsign]
  rfl

/-- The magnitude that lies half a step above the top code. -/
def limit : Encoding → ℕ
  | .q8 => 0x42FF0000
  | .q4 => 0x40F00000

theorem top_add_half (e : Encoding) :
    (top e + 0.5).isNaN = false ∧ isNegative (top e + 0.5) = false ∧
      magnitude (top e + 0.5) = limit e := by
  cases e <;> decide +kernel

theorem limit_le (e : Encoding) : limit e ≤ 0x42FF0000 := by
  cases e <;> decide

theorem value_limit (e : Encoding) : magnitudeValue (limit e) = e.maxCode + 1 / 2 := by
  cases e <;> rw [magnitudeValue, Dyadic.ofMagnitude_normal (by decide)] <;>
    norm_num [limit, Encoding.maxCode]

/-- The magnitude that lies a quarter of a step above the top code. -/
def quarter : Encoding → ℕ
  | .q8 => 0x42FE8000
  | .q4 => 0x40E80000

theorem quarter_le (e : Encoding) : quarter e ≤ limit e := by
  cases e <;> decide

theorem value_quarter (e : Encoding) : magnitudeValue (quarter e) = e.maxCode + 1 / 4 := by
  cases e <;> rw [magnitudeValue, Dyadic.ofMagnitude_normal (by decide)] <;>
    norm_num [quarter, Encoding.maxCode]

/-! ## The search -/

/-- The upward search stops at the first scale that will do. -/
theorem raiseScale_spec (amax top : Float32) (n : ℕ) : n ≤ raiseScale amax top n ∧
    (∀ j, n ≤ j → j < raiseScale amax top n →
      j < magnitude amax ∧ top + 0.5 < amax / ofMagnitude j) ∧
    ¬ (raiseScale amax top n < magnitude amax ∧
      top + 0.5 < amax / ofMagnitude (raiseScale amax top n)) := by
  fun_induction raiseScale amax top n with
  | case1 n h ih =>
    obtain ⟨hle, hturns, hstop⟩ := ih
    refine ⟨Nat.le_of_succ_le hle, fun j hj hlt => ?_, hstop⟩
    rcases hj.eq_or_lt with rfl | hj
    · exact h
    · exact hturns j hj hlt
  | case2 n h => exact ⟨le_rfl, fun j hj hlt => absurd hlt hj.not_gt, h⟩

/-- The downward search stops at once where the top code is finite. -/
theorem lowerScale_eq {top : Float32} {n : ℕ} (h : (ofMagnitude n * top).isFinite = true) :
    lowerScale top n = n := by
  cases n with
  | zero => rfl
  | succ n => exact if_pos h

/-- No scale from the largest magnitude on is too small for it. -/
theorem not_above_of_ge {m n : ℕ} (h0 : n ≠ 0) (hle : m ≤ n) (hn : n < 0x7F800000) :
    roundedMagnitude (magnitudeValue m / magnitudeValue n) ≤ limit e := by
  have hlimit := limit_le e
  refine roundedMagnitude_le_of_le (by omega) ?_
  have hratio : magnitudeValue m / magnitudeValue n ≤ 1 :=
    (div_le_one (magnitudeValue_pos h0)).mpr (magnitudeValue_mono hle hn.le)
  have := (maxCode_bounds e).1
  rw [value_limit]
  linarith

section Search

variable {e : Encoding} {amax : Float32} (hfinite : amax.isFinite = true)
  (hsign : sign amax = .positive)

include hfinite hsign

/-- Quotients of the largest magnitude, and when one of them is too large. -/
theorem above_iff {n : ℕ} (h0 : n ≠ 0) (hn : n < 0x7F800000) :
    top e + 0.5 < amax / ofMagnitude n ↔
      limit e < roundedMagnitude (magnitudeValue (magnitude amax) / magnitudeValue n) := by
  obtain ⟨hnsign, hnmagnitude⟩ := parts_ofMagnitude hn.le
  obtain ⟨hdsign, hdmagnitude⟩ :=
    div_spec hfinite (isFinite_ofMagnitude hn) (hnmagnitude.trans_ne h0)
  obtain ⟨hlnan, hlsign, hlmagnitude⟩ := top_add_half e
  rw [lt_iff hlnan (not_isNaN_of_rounded hdmagnitude), order, order,
    isNegative_eq_false.mp hlsign, hlmagnitude, hdsign, hdmagnitude, hsign, hnsign, hnmagnitude]
  exact Int.ofNat_lt

/-- The quotient by the top code, brought up to the least positive float. -/
theorem start_spec : sign (larger (amax / top e) tiniest) = .positive ∧
    magnitude (larger (amax / top e) tiniest) =
      max 1 (roundedMagnitude (magnitudeValue (magnitude amax) / e.maxCode)) := by
  obtain ⟨htop, htsign, ht0, htvalue⟩ := top_spec e
  obtain ⟨hdsign, hdmagnitude⟩ := div_spec hfinite htop ht0
  obtain ⟨hleast, hleast'⟩ := parts_ofMagnitude (n := 1) (by decide)
  have hdnan := not_isNaN_of_rounded hdmagnitude
  have hlnan : tiniest.isNaN = false := by decide +kernel
  rw [htvalue] at hdmagnitude
  rw [hsign, htsign] at hdsign
  have hlt : tiniest < amax / top e ↔
      1 < roundedMagnitude (magnitudeValue (magnitude amax) / e.maxCode) := by
    rw [lt_iff hlnan hdnan, order, order, tiniest, hleast, hleast', hdsign, hdmagnitude]
    exact Int.ofNat_lt
  rw [larger_eq hdnan hlnan]
  split
  next h =>
    rw [hdmagnitude, max_eq_right (hlt.mp h).le]
    exact ⟨hdsign, rfl⟩
  next h =>
    rw [tiniest, hleast', max_eq_left (not_lt.mp fun h' => h (hlt.mpr h'))]
    exact ⟨hleast, rfl⟩

end Search

/-- What the upward search from the quotient by the top code leaves, in magnitudes. -/
structure Raised (e : Encoding) (amax m : ℕ) : Prop where
  start : max 1 (roundedMagnitude (magnitudeValue amax / e.maxCode)) ≤ m
  le : m ≤ amax
  turns : ∀ j, max 1 (roundedMagnitude (magnitudeValue amax / e.maxCode)) ≤ j → j < m →
    limit e < roundedMagnitude (magnitudeValue amax / magnitudeValue j)
  stop : roundedMagnitude (magnitudeValue amax / magnitudeValue m) ≤ limit e

/-- Scales under which nothing runs over. -/
structure Fits (e : Encoding) (amax k : ℕ) : Prop where
  pos : k ≠ 0
  lt : k < 0x7F800000
  near : roundedMagnitude (magnitudeValue amax / magnitudeValue k) ≤ limit e
  /-- Scales with a mantissa in full are nearer. -/
  close : 0x800000 ≤ k → magnitudeValue amax / magnitudeValue k ≤ e.maxCode + 1 / 4
  top : roundedMagnitude (magnitudeValue k * e.maxCode) < 0x7F800000

theorem value_least_normal : magnitudeValue 0x800000 = 2 ^ (-126 : ℤ) := by
  rw [magnitudeValue, Dyadic.ofMagnitude_normal le_rfl]
  norm_num

theorem one_le_largest : 1 ≤ magnitudeValue 0x7F7FFFFF := by
  rw [magnitudeValue, Dyadic.ofMagnitude_normal (by decide)]
  norm_num

theorem lt_infinity_of_le {q : ℚ} (h : q ≤ magnitudeValue 0x7F7FFFFF) :
    roundedMagnitude q < 0x7F800000 := by
  have := roundedMagnitude_le_of_le (by decide) h
  omega

namespace Raised

variable {e : Encoding} {amax m : ℕ}

theorem pos (h : Raised e amax m) : m ≠ 0 := by
  have := h.start
  omega

/-- One scale below, the top code does not pass the largest magnitude: the search has turned there,
or the quotient was rounded up from it. -/
theorem pred_mul_le (h : Raised e amax m) (ham : amax < 0x7F800000) :
    magnitudeValue (m - 1) * e.maxCode ≤ magnitudeValue amax := by
  obtain ⟨hlow, -⟩ := maxCode_bounds e
  have hpositive : (0 : ℚ) < e.maxCode := by linarith
  have hle := h.le
  rcases h.start.eq_or_lt with heq | hlt
  · by_cases hr : roundedMagnitude (magnitudeValue amax / e.maxCode) = 0
    · have hm : m - 1 = 0 := by omega
      rw [hm, magnitudeValue_zero, zero_mul]
      exact magnitudeValue_nonneg amax
    · have hbelow : m - 1 < roundedMagnitude (magnitudeValue amax / e.maxCode) := by omega
      exact ((lt_div_iff₀ hpositive).mp (lt_of_lt_roundedMagnitude (by omega) hbelow)).le
  · have hlimit := limit_le e
    have hturn := lt_of_lt_roundedMagnitude (by omega) (h.turns (m - 1) (by omega) (by omega))
    have hunit := magnitudeValue_pos (n := m - 1) (by omega)
    rw [value_limit, lt_div_iff₀ hunit] at hturn
    linarith

theorem close (h : Raised e amax m) (ham : amax < 0x7F800000) (hnormal : 0x800000 ≤ m) :
    magnitudeValue amax / magnitudeValue m ≤ e.maxCode + 1 / 4 := by
  obtain ⟨hlow, hhigh⟩ := maxCode_bounds e
  have hle := h.le
  have hstart := h.start
  have hunit := magnitudeValue_pos h.pos
  have hpositive : (0 : ℚ) < e.maxCode := by linarith
  have hwhole : magnitudeValue amax / e.maxCode * e.maxCode = magnitudeValue amax :=
    div_mul_cancel₀ _ hpositive.ne'
  generalize magnitudeValue amax / (e.maxCode : ℚ) = q at hstart hwhole
  rw [div_le_iff₀ hunit, ← hwhole]
  by_cases hup : q ≤ magnitudeValue m
  · have := mul_le_mul_of_nonneg_right hup hpositive.le
    linarith
  · -- only the rounding of the quotient can put the scale below it
    have hdown := not_le.mp hup
    have heq : roundedMagnitude q = m := by
      have := roundedMagnitude_mono hdown.le
      rw [roundedMagnitude_magnitudeValue (by omega)] at this
      omega
    have hq : 2 ^ (-126 : ℤ) ≤ q := by
      rw [← value_least_normal]
      exact (magnitudeValue_mono hnormal (by omega)).trans hdown.le
    have herror := abs_rounded_sub_le_mul hq (by omega)
    rw [heq, abs_sub_comm, abs_of_pos (sub_pos.mpr hdown)] at herror
    have hscaled := mul_le_mul_of_nonneg_left hhigh (hunit.trans hdown).le
    nlinarith

theorem fits (h : Raised e amax m) (ham : amax < 0x7F800000)
    (htop : roundedMagnitude (magnitudeValue m * e.maxCode) < 0x7F800000) : Fits e amax m where
  pos := h.pos
  lt := h.le.trans_lt ham
  near := h.stop
  close := h.close ham
  top := htop

/-- If the top code is not finite under a scale, then that scale is far above the subnormal ones, and
the one below it differs by little. -/
theorem fits_pred (h : Raised e amax m) (ham : amax < 0x7F800000)
    (htop : ¬ roundedMagnitude (magnitudeValue m * e.maxCode) < 0x7F800000) :
    Fits e amax (m - 1) := by
  obtain ⟨hlow, hhigh⟩ := maxCode_bounds e
  have hle := h.le
  have hlarge : magnitudeValue 0x7F7FFFFF < magnitudeValue m * e.maxCode :=
    not_le.mp fun hsmall => htop (lt_infinity_of_le hsmall)
  have hamax : magnitudeValue amax ≤ magnitudeValue 0x7F7FFFFF :=
    magnitudeValue_mono (by omega) (by decide)
  have hnormal : 0x800000 ≤ m - 1 := by
    by_contra hsmall
    have hm : magnitudeValue m ≤ magnitudeValue 0x800000 :=
      magnitudeValue_mono (by omega) (by decide)
    have hone := one_le_largest
    have hbound := mul_le_mul hm hhigh (by linarith) (magnitudeValue_nonneg _)
    rw [value_least_normal] at hbound
    have : (2 : ℚ) ^ (-126 : ℤ) * 127 < 1 := by norm_num
    linarith
  have hnext := magnitudeValue_succ_le hnormal
  rw [Nat.sub_add_cancel (Nat.pos_of_ne_zero h.pos)] at hnext
  have hunit := magnitudeValue_pos (n := m - 1) (by omega)
  have hclose : magnitudeValue amax / magnitudeValue (m - 1) ≤ e.maxCode + 1 / 4 := by
    rw [div_le_iff₀ hunit]
    have hstep := mul_le_mul_of_nonneg_right hnext (by linarith : (0 : ℚ) ≤ e.maxCode)
    have hscaled := mul_le_mul_of_nonneg_left hhigh hunit.le
    linarith
  have hquarter := quarter_le e
  have hlimit := limit_le e
  refine ⟨by omega, by omega, ?_, fun _ => hclose, ?_⟩
  · rw [← value_quarter] at hclose
    exact (roundedMagnitude_le_of_le (by omega) hclose).trans hquarter
  · exact lt_infinity_of_le ((h.pred_mul_le ham).trans hamax)

end Raised

/-! ## The two loops -/

/-- A scale that the two loops end with. -/
def Mended (amax top scale : Float32) : Prop :=
  ∃ raised, Loop (fun s => top + 0.5 < amax / s) nextUp (larger (amax / top) tiniest) raised ∧
    Loop (fun s => ¬ (s * top).isFinite = true) nextDown raised scale

theorem isFinite_mul_top (e : Encoding) {n : ℕ} (hn : n < 0x7F800000) :
    (ofMagnitude n * top e).isFinite = true ↔
      roundedMagnitude (magnitudeValue n * e.maxCode) < 0x7F800000 := by
  obtain ⟨htop, -, -, htvalue⟩ := top_spec e
  rw [isFinite_iff, (mul_spec (isFinite_ofMagnitude hn) htop).2, (parts_ofMagnitude hn.le).2, htvalue]

section Loops

variable {e : Encoding} {amax : Float32} (hfinite : amax.isFinite = true)
  (hsign : sign amax = .positive) (h0 : magnitude amax ≠ 0)

include hfinite hsign h0

theorem raised_raiseScale : Raised e (magnitude amax)
    (raiseScale amax (top e) (magnitude (larger (amax / top e) tiniest))) := by
  obtain ⟨-, hstart⟩ := start_spec (e := e) hfinite hsign
  obtain ⟨hle, hturns, hstop⟩ :=
    raiseScale_spec amax (top e) (magnitude (larger (amax / top e) tiniest))
  rw [hstart] at hle hturns hstop ⊢
  have hlt := magnitude_lt_of_isFinite hfinite
  have hfirst : max 1 (roundedMagnitude (magnitudeValue (magnitude amax) / e.maxCode)) ≤
      magnitude amax := by
    refine max_le (Nat.pos_of_ne_zero h0) (roundedMagnitude_le_of_le hlt.le ?_)
    exact div_le_self (magnitudeValue_nonneg _) (by linarith [(maxCode_bounds e).1])
  have hlast : raiseScale amax (top e)
      (max 1 (roundedMagnitude (magnitudeValue (magnitude amax) / e.maxCode))) ≤
        magnitude amax := by
    rcases hle.eq_or_lt with heq | hgt
    · rwa [← heq]
    · have := (hturns _ (Nat.le_sub_one_of_lt hgt) (Nat.sub_one_lt_of_lt hgt)).1
      omega
  refine ⟨hle, hlast, fun j hj hjlt => ?_, ?_⟩
  · have hj0 : j ≠ 0 := by omega
    exact (above_iff hfinite hsign hj0 (by omega)).mp (hturns j hj hjlt).2
  · rcases hlast.eq_or_lt with heq | hbelow
    · exact not_above_of_ge (by omega) heq.ge (by omega)
    · refine not_lt.mp fun h => hstop ⟨hbelow, ?_⟩
      exact (above_iff hfinite hsign (by omega) (by omega)).mpr h

/-- The scale of a block with a value that is not zero. -/
theorem scaleFor_spec : ∃ k, scaleFor amax (top e) = ofMagnitude k ∧ Fits e (magnitude amax) k ∧
    Mended amax (top e) (ofMagnitude k) := by
  have hlt := magnitude_lt_of_isFinite hfinite
  have hraised := raised_raiseScale (e := e) hfinite hsign h0
  obtain ⟨hle, hturns, -⟩ :=
    raiseScale_spec amax (top e) (magnitude (larger (amax / top e) tiniest))
  obtain ⟨hssign, hstart⟩ := start_spec (e := e) hfinite hsign
  have hscale : scaleFor amax (top e) = ofMagnitude (lowerScale (top e)
      (raiseScale amax (top e) (magnitude (larger (amax / top e) tiniest)))) := by
    have hne : ¬ (amax == 0) = true := fun h => h0 ((beq_zero_iff amax).mp h)
    rw [scaleFor, if_neg hne, hfinite]
    rfl
  have hfirst : larger (amax / top e) tiniest =
      ofMagnitude (magnitude (larger (amax / top e) tiniest)) := by
    obtain ⟨hpsign, hpmagnitude⟩ := parts_ofMagnitude (hle.trans (hraised.le.trans hlt.le))
    exact ext (hssign.trans hpsign.symm) hpmagnitude.symm
  rw [hscale]
  generalize raiseScale amax (top e) (magnitude (larger (amax / top e) tiniest)) = m at *
  have hmlt : m < 0x7F800000 := hraised.le.trans_lt hlt
  have hup : Loop (fun s => top e + 0.5 < amax / s) nextUp (larger (amax / top e) tiniest)
      (ofMagnitude m) := by
    rw [hfirst]
    refine Loop.upward hle (fun j hj hjlt => (hturns j hj hjlt).2)
      (fun j hj hjlt => nextUp_ofMagnitude (by omega)) ?_
    rw [above_iff hfinite hsign hraised.pos hmlt, not_lt]
    exact hraised.stop
  by_cases htop : roundedMagnitude (magnitudeValue m * e.maxCode) < 0x7F800000
  · have hend := (isFinite_mul_top e hmlt).mpr htop
    rw [lowerScale_eq hend]
    exact ⟨m, rfl, hraised.fits hlt htop, _, hup, .done (not_not.mpr hend)⟩
  · have hfits := hraised.fits_pred hlt htop
    have hturn := mt (isFinite_mul_top e hmlt).mp htop
    have hend := (isFinite_mul_top e hfits.lt).mpr hfits.top
    obtain ⟨k, rfl⟩ := Nat.exists_eq_succ_of_ne_zero hraised.pos
    have hlower : lowerScale (top e) (k + 1) = k := (if_neg hturn).trans (lowerScale_eq hend)
    rw [hlower]
    refine ⟨k, rfl, hfits, _, hup, .turn hturn ?_⟩
    rw [nextDown_ofMagnitude hmlt hraised.pos]
    exact .done (not_not.mpr hend)

end Loops

end Block

end CausalServe
