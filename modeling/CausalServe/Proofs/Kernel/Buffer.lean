import CausalServe.Kernel.Buffer
import CausalServe.Proofs.Action
import CausalServe.Proofs.Kernel.Entries

/-! The loops over an output buffer write every entry once, and every entry adds up the same
products in the same order. Columns are numbers here: what a loop has done is that the columns
before some `j` are written and those from `j` on are as they were. -/

namespace CausalServe

variable {α : Type}

/-! ## Loops -/

section Loops

variable {σ : Type} (step : Nat → σ → σ)

theorem countUp_eq_foldl (k p : Nat) (s : σ) :
    countUp step k p s = (List.range' p (k - p)).foldl (fun s q => step q s) s := by
  fun_induction countUp step k p s with
  | case1 p s hlt ih =>
    have hcount : k - p = (k - (p + 1)) + 1 := by omega
    rw [ih, hcount, List.range'_succ, List.foldl_cons]
  | case2 p s hge => rw [Nat.sub_eq_zero_of_le (Nat.le_of_not_lt hge)]; rfl

/-- A count may stop anywhere and go on from there. -/
theorem countUp_countUp {k p q : Nat} (hpq : p ≤ q) (hqk : q ≤ k) (s : σ) :
    countUp step k q (countUp step q p s) = countUp step k p s := by
  have hcount : k - p = (q - p) + (k - q) := by omega
  have hq : p + 1 * (q - p) = q := by omega
  rw [countUp_eq_foldl, countUp_eq_foldl, countUp_eq_foldl, hcount, ← List.range'_append, hq,
    List.foldl_append]

/-- Taken by fours or one by one, every step is taken once and in order. -/
theorem countUpByFours_eq (k p : Nat) (s : σ) :
    countUpByFours step k p s = countUp step k p s := by
  fun_induction countUpByFours step k p s with
  | case1 p s hfour ih => rw [ih, countUp_countUp step (Nat.le_add_right p 4) hfour]
  | case2 p s hrest => rfl

end Loops

/-! ## Slices -/

theorem length_slice {place width : Nat} {buffer : List α}
    (h : place + width ≤ buffer.length) : (slice place width buffer).length = width := by
  rw [slice, List.length_take, List.length_drop]
  omega

theorem slice_eq_map [Scalar α] {place width : Nat} {buffer : List α}
    (h : place + width ≤ buffer.length) : slice place width buffer =
      (List.range width).map fun c => buffer.getD (place + c) Scalar.zero := by
  refine List.ext_getElem ?_ fun c hc _ => ?_
  · rw [length_slice h, List.length_map, List.length_range]
  · have hlt : place + c < buffer.length := by
      rw [length_slice h] at hc
      omega
    rw [List.getElem_map, List.getElem_range, ← List.getElem_eq_getD (h := hlt)]
    simp only [slice, List.getElem_take, List.getElem_drop]

/-- A store after what is written extends it. -/
theorem store_append {place : Nat} {written entries old : List α} (h : written.length = place) :
    store place entries (written ++ old.drop place) =
      written ++ entries ++ old.drop (place + entries.length) := by
  rw [store, List.take_left' h, List.drop_append, List.drop_of_length_le (by omega), h,
    Nat.add_sub_cancel_left, List.drop_drop, List.nil_append]

/-- A row whose columns before `j` are written, and whose others are as they were. -/
def written (want : Nat → α) (old : List α) (j : Nat) : List α :=
  (List.range j).map want ++ old.drop j

theorem written_zero (want : Nat → α) (old : List α) : written want old 0 = old := rfl

theorem written_length (want : Nat → α) (old : List α) :
    written want old old.length = (List.range old.length).map want := by
  rw [written, List.drop_length, List.append_nil]

theorem store_written (want : Nat → α) (old : List α) (j width : Nat) :
    store j ((List.range width).map fun c => want (j + c)) (written want old j) =
      written want old (j + width) := by
  have hlen : ((List.range j).map want).length = j := by rw [List.length_map, List.length_range]
  rw [written, store_append hlen, List.length_map, List.length_range, written, List.range_add,
    List.map_append, List.map_map]
  rfl

/-! ## Rows -/

section Rows

variable [Scalar α]

/-- Column `c` of a row of a product with `n` columns, from the stored entries. -/
def entryAt (a b : List α) (n : Nat) (start : α) (c : Nat) : α :=
  Kernel.entry (a.getD · Scalar.zero) (fun p => b.getD (p * n + c) Scalar.zero)
    (List.range a.length) start

variable {a b : List α} {n : Nat}

/-- Whatever columns are kept together, each adds up its own products. -/
theorem countUp_addRow (hb : b.length = a.length * n) {j width : Nat} (h : j + width ≤ n)
    (start : α) : countUp (addRow a b n j width) a.length 0 (List.replicate width start) =
      (List.range width).map fun c => entryAt a b n start (j + c) := by
  have hslice : ∀ acc : List α, ∀ p ∈ List.range a.length, addRow a b n j width p acc =
      List.zipWith (fun s y => s + a.getD p Scalar.zero * y) acc
        ((List.range width).map fun c => b.getD (p * n + (j + c)) Scalar.zero) := by
    intro acc p hp
    have hrow : p * n + n ≤ a.length * n := by
      rw [← Nat.succ_mul]
      exact Nat.mul_le_mul_right n (List.mem_range.mp hp)
    rw [addRow, slice_eq_map (by omega)]
    simp only [Nat.add_assoc]
  have hmap := Kernel.accumulate_map (a.getD · Scalar.zero)
    (fun p c => b.getD (p * n + (j + c)) Scalar.zero) (List.range a.length)
    (show ((List.range width).map fun _ => start).length = (List.range width).length from
      List.length_map _)
  rw [Kernel.accumulate, List.zip_map', List.foldl_map, List.zipWith_map_left, List.zipWith_self,
    List.map_const', List.length_range] at hmap
  rw [countUp_eq_foldl, Nat.sub_zero, ← List.range_eq_range', List.foldl_ext _ _ _ hslice]
  exact hmap

namespace Sweep

theorem tile_eq (s : Sweep α) (hb : b.length = a.length * n) {j : Nat} (h : j + s.width ≤ n) :
    s.tile a b n j = (List.range s.width).map fun c => entryAt a b n s.start (j + c) := by
  have hplain := countUp_addRow hb h s.start
  unfold tile
  split
  next => exact (countUpByFours_eq ..).trans hplain
  next => exact hplain

/-- A sweep writes the columns that its tiles reach, and returns the first one after them. -/
theorem run_written (s : Sweep α) (hb : b.length = a.length * n) (old : List α) {want : Nat → α}
    {j : Nat} (hj : j ≤ n)
    (hwant : ∀ c, j ≤ c → c < n - (n - j) % s.width → want c = entryAt a b n s.start c) :
    s.run a b n j (written want old j) =
      (n - (n - j) % s.width, written want old (n - (n - j) % s.width)) := by
  have hwide := s.wide
  induction hleft : n - j using Nat.strong_induction_on generalizing j with
  | _ left ih =>
    subst hleft
    rw [run]
    split
    next hfits =>
      have hmod : (n - j) % s.width = (n - (j + s.width)) % s.width := by
        rw [Nat.mod_eq_sub_mod (by omega), Nat.sub_sub]
      have hreach : (n - (j + s.width)) % s.width ≤ n - (j + s.width) := Nat.mod_le ..
      have htile : s.tile a b n j = (List.range s.width).map fun c => want (j + c) := by
        rw [tile_eq s hb hfits]
        refine List.map_congr_left fun c hc => (hwant (j + c) (Nat.le_add_right j c) ?_).symm
        have := List.mem_range.mp hc
        omega
      rw [htile, store_written, hmod]
      rw [hmod] at hwant
      exact ih _ (by omega) hfits (fun c hc => hwant c (by omega)) rfl
    next hfull =>
      have hmod : (n - j) % s.width = n - j := Nat.mod_eq_of_lt (by omega)
      have hstop : n - (n - j) = j := by omega
      rw [hmod, hstop]

theorem runAll_cons {s : Sweep α} {sweeps : List (Sweep α)} {row row' : List α} {j j' : Nat}
    (h : s.run a b n j row = (j', row')) :
    runAll a b n (s :: sweeps) j row = runAll a b n sweeps j' row' := by
  rw [runAll, h]

end Sweep

def Kernel.startAt (kernel : Kernel) (n c : Nat) : α :=
  if kernel = scalar ∧ n - n % 4 ≤ c then Scalar.sumStart else Scalar.zero

/-- However the columns are swept, every one is written once, from what its sweep starts from. -/
theorem Kernel.fillRow_eq (kernel : Kernel) {row : List α} (hb : b.length = a.length * n)
    (hrow : row.length = n) : kernel.fillRow a b row =
      (List.range n).map fun c => entryAt a b n (kernel.startAt n c) c := by
  let want (c : Nat) : α := entryAt a b n (kernel.startAt n c) c
  have hsweep : ∀ (s : Sweep α) (j : Nat), j ≤ n →
      (∀ c, j ≤ c → c < n - (n - j) % s.width → kernel.startAt n c = s.start) →
      s.run a b n j (written want row j) =
        (n - (n - j) % s.width, written want row (n - (n - j) % s.width)) :=
    fun s j hj hstart => s.run_written hb row hj fun c hjc hc => by rw [← hstart c hjc hc]
  have hfull : written want row n = (List.range n).map want := by
    subst hrow
    exact written_length want row
  rw [fillRow, hrow, ← written_zero want row]
  cases kernel with
  | scalar =>
    have hlast : n - (n - (n - n % 4)) % 1 = n := by omega
    have htiles : (⟨4, true, Scalar.zero, by decide⟩ : Sweep α).run a b n 0 (written want row 0) =
        (n - n % 4, written want row (n - n % 4)) :=
      hsweep _ 0 (Nat.zero_le n) fun c _ hc => if_neg fun h => absurd h.2 (Nat.not_le.mpr hc)
    have htail := hsweep ⟨1, false, Scalar.sumStart, by decide⟩ (n - n % 4) (Nat.sub_le ..)
      fun c hc _ => if_pos ⟨rfl, hc⟩
    rw [hlast] at htail
    rw [sweeps, Sweep.runAll_cons htiles, Sweep.runAll_cons htail, Sweep.runAll, hfull]
  | sse =>
    have hstart : ∀ c, (sse.startAt n c : α) = Scalar.zero := fun c => if_neg (nofun ∘ And.left)
    have hone : ∀ j, n - (n - j) % 1 = n := by
      intro j
      omega
    have hsixteen := hsweep ⟨16, true, Scalar.zero, by decide⟩ 0 (Nat.zero_le n)
      fun c _ _ => hstart c
    have hfour := hsweep ⟨4, false, Scalar.zero, by decide⟩ _ (Nat.sub_le n ((n - 0) % 16))
      fun c _ _ => hstart c
    have htail := hsweep ⟨1, false, Scalar.zero, by decide⟩ _
      (Nat.sub_le n ((n - (n - (n - 0) % 16)) % 4)) fun c _ _ => hstart c
    rw [hone] at htail
    rw [sweeps, Sweep.runAll_cons hsixteen, Sweep.runAll_cons hfour, Sweep.runAll_cons htail,
      Sweep.runAll, hfull]

theorem fillDirect_eq {row : List α} (hb : b.length = a.length * n) (hrow : row.length = n) :
    fillDirect a b row = (List.range n).map fun c => entryAt a b n Scalar.zero c := by
  rw [fillDirect, List.map_const', hrow, countUp_addRow hb (by omega)]
  simp only [Nat.zero_add]

end Rows

/-! ## Products -/

section Products

variable {rows : List (List α)} {width : Nat}

theorem length_flatten_take (h : ∀ row ∈ rows, row.length = width) {count : Nat}
    (hcount : count ≤ rows.length) : (rows.take count).flatten.length = count * width := by
  rw [length_flatten_of_width fun row hrow => h row (List.mem_of_mem_take hrow),
    List.length_take, Nat.min_eq_left hcount]

theorem take_flatten (h : ∀ row ∈ rows, row.length = width) {count : Nat}
    (hcount : count ≤ rows.length) :
    rows.flatten.take (count * width) = (rows.take count).flatten := by
  conv_lhs => rw [← List.take_append_drop count rows, List.flatten_append]
  exact List.take_left' (length_flatten_take h hcount)

theorem drop_flatten (h : ∀ row ∈ rows, row.length = width) {count : Nat}
    (hcount : count ≤ rows.length) :
    rows.flatten.drop (count * width) = (rows.drop count).flatten := by
  conv_lhs => rw [← List.take_append_drop count rows, List.flatten_append]
  exact List.drop_left' (length_flatten_take h hcount)

theorem slice_flatten (h : ∀ row ∈ rows, row.length = width) {i : Nat} (hi : i < rows.length) :
    slice (i * width) width rows.flatten = rows[i] := by
  rw [slice, drop_flatten h hi.le, List.drop_eq_getElem_cons hi, List.flatten_cons]
  exact List.take_left' (h _ (List.getElem_mem hi))

variable {fill : List α → List α → List α} {filled : List α → List α} {n : Nat}

/-- Every row of a buffer is filled once, from its own row of the matrix. -/
theorem fillRows_flatten (hrows : ∀ row ∈ rows, row.length = width)
    (hfill : ∀ x ∈ rows, ∀ old : List α, old.length = n → fill x old = filled x)
    (hfilled : ∀ x ∈ rows, (filled x).length = n) {out : List α}
    (hout : out.length = rows.length * n) :
    fillRows fill rows.length width n rows.flatten out = rows.flatMap filled := by
  have hdone : ∀ i ≤ rows.length, ((rows.take i).flatMap filled).length = i * n := by
    intro i hi
    rw [List.flatMap_def, length_flatten_of_width fun row hrow => ?_, List.length_map,
      List.length_take, Nat.min_eq_left hi]
    obtain ⟨x, hx, rfl⟩ := List.mem_map.mp hrow
    exact hfilled x (List.mem_of_mem_take hx)
  suffices h : ∀ left i, i + left = rows.length →
      countUp (fun i out => store (i * n)
          (fill (slice (i * width) width rows.flatten) (slice (i * n) n out)) out)
        rows.length i ((rows.take i).flatMap filled ++ out.drop (i * n)) = rows.flatMap filled by
    have hfrom := h rows.length 0 (Nat.zero_add _)
    rwa [Nat.zero_mul] at hfrom
  intro left
  induction left with
  | zero =>
    rintro i rfl
    rw [countUp, if_neg (Nat.lt_irrefl _), List.drop_of_length_le hout.le, List.append_nil,
      List.take_length]
  | succ left ih =>
    intro i hi
    have hlt : i < rows.length := by omega
    have hmem : rows[i] ∈ rows := List.getElem_mem hlt
    have hold :
        (slice (i * n) n ((rows.take i).flatMap filled ++ out.drop (i * n))).length = n := by
      have hrow : i * n + n ≤ rows.length * n := by
        rw [← Nat.succ_mul]
        exact Nat.mul_le_mul_right n hlt
      refine length_slice ?_
      rw [List.length_append, hdone i hlt.le, List.length_drop, hout]
      omega
    rw [countUp, if_pos hlt, slice_flatten hrows hlt, hfill _ hmem _ hold,
      store_append (hdone i hlt.le), hfilled _ hmem, ← Nat.succ_mul]
    have hgrown : (rows.take i).flatMap filled ++ filled rows[i] =
        (rows.take (i + 1)).flatMap filled := by
      rw [List.take_succ_eq_append_getElem hlt, List.flatMap_append, List.flatMap_singleton]
    rw [hgrown]
    exact ih (i + 1) (by omega)

/-- However the rows are cut into parts, each is filled as if there were no cut. -/
theorem fillParts_flatten {parts : List Nat} (hparts : parts.sum = rows.length)
    (hrows : ∀ row ∈ rows, row.length = width)
    (hfill : ∀ x ∈ rows, ∀ old : List α, old.length = n → fill x old = filled x)
    (hfilled : ∀ x ∈ rows, (filled x).length = n) {out : List α}
    (hout : out.length = rows.length * n) :
    fillParts fill width n parts rows.flatten out = rows.flatMap filled := by
  induction parts generalizing rows out with
  | nil =>
    rw [List.sum_nil] at hparts
    rw [← hparts, Nat.zero_mul] at hout
    rw [fillParts, List.length_eq_zero_iff.mp hout, List.length_eq_zero_iff.mp hparts.symm,
      List.flatMap_nil]
  | cons count parts ih =>
    rw [List.sum_cons] at hparts
    have hcount : count ≤ rows.length := by omega
    have hfirst : (rows.take count).length = count := by
      rw [List.length_take, Nat.min_eq_left hcount]
    have hothers : (rows.drop count).length = parts.sum := by
      rw [List.length_drop]
      omega
    have hfirstOut : (out.take (count * n)).length = count * n := by
      rw [List.length_take, hout]
      exact Nat.min_eq_left (Nat.mul_le_mul_right n hcount)
    have hothersOut : (out.drop (count * n)).length = (rows.drop count).length * n := by
      rw [List.length_drop, hout, List.length_drop, Nat.sub_mul]
    have hdone : fillRows fill (rows.take count).length width n (rows.take count).flatten
        (out.take (count * n)) = (rows.take count).flatMap filled := fillRows_flatten
      (fun row hrow => hrows row (List.mem_of_mem_take hrow))
      (fun x hx => hfill x (List.mem_of_mem_take hx))
      (fun x hx => hfilled x (List.mem_of_mem_take hx)) (hfirst.symm ▸ hfirstOut)
    have hleft := ih hothers.symm
      (fun row hrow => hrows row (List.mem_of_mem_drop hrow))
      (fun x hx => hfill x (List.mem_of_mem_drop hx))
      (fun x hx => hfilled x (List.mem_of_mem_drop hx)) hothersOut
    rw [hfirst] at hdone
    rw [fillParts, take_flatten hrows hcount, drop_flatten hrows hcount, hdone, hleft,
      ← List.flatMap_append, List.take_append_drop]

end Products

/-! ## Entries of a stored matrix -/

theorem getD_rowMajor {m n : Nat} (M : Matrix (Fin m) (Fin n) α) (i : Fin m) (j : Fin n)
    (default : α) : (rowMajor M).getD (i * n + j) default = M i j := by
  rw [List.getD_eq_getElem?_getD, getElem?_rowMajor]
  rfl

theorem map_entryAt [Scalar α] {k n : Nat} (x : Fin k → α) (B : Matrix (Fin k) (Fin n) α)
    (start : Nat → α) :
    (List.range n).map
        (fun c => entryAt ((List.finRange k).map x) (rowMajor B) n (start c) c) =
      (List.finRange n).map fun j => Kernel.entry x (B · j) (List.finRange k) (start j) := by
  rw [← List.map_coe_finRange_eq_range, List.map_map]
  refine List.map_congr_left fun j _ => ?_
  simp only [Function.comp_apply, entryAt, Kernel.entry, List.length_map, List.length_finRange]
  rw [← List.map_coe_finRange_eq_range, List.foldl_map]
  refine List.foldl_ext _ _ _ fun acc p _ => ?_
  rw [getD_rowMajor]
  simp

theorem Kernel.starts_eq_startAt [Scalar α] (kernel : Kernel) (n : Nat) :
    (Kernel.starts kernel.tailStart kernel.tileWidths n : List α) =
      (List.range n).map (kernel.startAt n) := by
  have hconst : ∀ (f : Nat → α) (count : Nat) (x : α), (∀ c < count, f c = x) →
      (List.range count).map f = List.replicate count x := by
    intro f count x h
    rw [List.map_congr_left fun c hc => h c (List.mem_range.mp hc), List.map_const',
      List.length_range]
  cases kernel with
  | scalar =>
    have hdiv := Nat.div_add_mod' n 4
    have htiles := hconst (scalar.startAt n) (n / 4 * 4) Scalar.zero fun c hc =>
      if_neg fun h => by omega
    have htail := hconst (fun c => scalar.startAt n (n / 4 * 4 + c)) (n % 4) Scalar.sumStart
      fun c _ => if_pos ⟨rfl, by omega⟩
    calc (Kernel.starts scalar.tailStart scalar.tileWidths n : List α)
        = List.replicate (n / 4 * 4) Scalar.zero ++ List.replicate (n % 4) Scalar.sumStart := rfl
      _ = (List.range (n / 4 * 4 + n % 4)).map (scalar.startAt n) := by
        rw [List.range_add, List.map_append, List.map_map, htiles]
        exact congrArg _ htail.symm
      _ = (List.range n).map (scalar.startAt n) := by rw [hdiv]
  | sse =>
    have hdiv : n / 16 * 16 + (n % 16 / 4 * 4 + n % 16 % 4) = n := by omega
    rw [hconst (sse.startAt n) n Scalar.zero fun c _ => if_neg (nofun ∘ And.left)]
    simp only [Kernel.starts, tileWidths, tailStart, List.replicate_append_replicate, hdiv]

/-! ## Every way to a product -/

namespace Dispatcher

variable (d : Dispatcher)

/-- The columns that the scalar kernel takes one by one start apart, unless the product is small. -/
def StartsApart (m k n c : Nat) : Prop :=
  d.kernel = .scalar ∧ d.config.tinyWorkThreshold < m * k * n ∧ n - n % 4 ≤ c

instance (m k n c : Nat) : Decidable (d.StartsApart m k n c) := inferInstanceAs (Decidable (_ ∧ _))

variable {m k n : Nat}

theorem checkOperands_eq_ok {a b : List α} :
    checkOperands a b m k n = .ok () ↔ a.length = m * k ∧ b.length = k * n := by
  unfold checkOperands
  by_cases ha : a.length = m * k
  · by_cases hb : b.length = k * n
    · simp only [ha, hb, ne_eq, not_true_eq_false, if_false, and_self, iff_true]
      rfl
    · simp only [ha, hb, ne_eq, not_true_eq_false, not_false_eq_true, if_false, if_true, and_false,
        iff_false]
      exact nofun
  · simp only [ha, ne_eq, not_false_eq_true, if_true, false_and, iff_false]
    exact nofun

/-- The workers' rows are all the rows. -/
theorem sum_parts (workers m : Nat) : (d.parts workers m).sum = m := by
  unfold parts
  split
  next =>
    have hdiv := Nat.div_add_mod' m ((m + workers - 1) / workers)
    simp only [List.sum_append, List.sum_replicate, smul_eq_mul]
    split
    next hmod => rwa [hmod] at hdiv
    next => rwa [List.sum_singleton]
  next => exact List.sum_singleton

variable [Scalar α]

def startAt (m k n c : Nat) : α :=
  if d.StartsApart m k n c then Scalar.sumStart else Scalar.zero

/-- The product that adds up the terms of each entry in order. -/
def folded (A : Matrix (Fin m) (Fin k) α) (B : Matrix (Fin k) (Fin n) α) :
    Matrix (Fin m) (Fin n) α :=
  fun i j => (List.finRange k).foldl (fun acc p => acc + A i p * B p j) (d.startAt m k n j)

theorem startAt_of_tiny (h : m * k * n ≤ d.config.tinyWorkThreshold) (c : Nat) :
    (d.startAt m k n c : α) = Scalar.zero :=
  if_neg fun hapart => absurd hapart.2.1 (Nat.not_lt.mpr h)

theorem startAt_of_large (h : ¬ m * k * n ≤ d.config.tinyWorkThreshold) (c : Nat) :
    (d.startAt m k n c : α) = d.kernel.startAt n c := by
  rw [startAt, Kernel.startAt]
  refine if_congr ?_ rfl rfl
  rw [StartsApart, and_iff_right (Nat.lt_of_not_le h)]

theorem starts_eq_startAt (m k n : Nat) :
    d.starts m k n = (List.finRange n).map fun j : Fin n => (d.startAt m k n j : α) := by
  rw [starts]
  split
  next htiny =>
    simp only [d.startAt_of_tiny htiny]
    rw [List.map_const', List.length_finRange]
  next hlarge =>
    simp only [d.startAt_of_large hlarge]
    rw [Kernel.starts_eq_startAt, ← List.map_coe_finRange_eq_range, List.map_map]
    rfl

theorem folded_rowMajor (A : Matrix (Fin m) (Fin k) α) (B : Matrix (Fin k) (Fin n) α) :
    rowMajor (d.folded A B) = (List.finRange m).flatMap fun i => (List.finRange n).map fun j =>
      Kernel.entry (A i) (B · j) (List.finRange k) (d.startAt m k n j) :=
  rowMajor_eq_flatMap _

/-- The product that is told without a buffer adds up the same terms. -/
theorem product_eq_folded (A : Matrix (Fin m) (Fin k) α) (B : Matrix (Fin k) (Fin n) α) :
    d.product (rowMajor A) (rowMajor B) m k n = rowMajor (d.folded A B) := by
  by_cases hm : m = 0
  · subst hm
    rfl
  by_cases hn : n = 0
  · subst hn
    simp [product, rowMajor_eq_flatMap]
  by_cases hk : k = 0
  · subst hk
    have hzero : ∀ c, (d.startAt m 0 n c : α) = Scalar.zero :=
      d.startAt_of_tiny (by rw [Nat.mul_zero, Nat.zero_mul]; exact Nat.zero_le _)
    rw [product, if_neg (not_or.mpr ⟨hm, hn⟩), if_pos rfl, eq_comm, List.eq_replicate_iff]
    refine ⟨length_rowMajor _, fun x hx => ?_⟩
    rw [folded_rowMajor] at hx
    obtain ⟨i, -, hi⟩ := List.mem_flatMap.mp hx
    obtain ⟨j, -, rfl⟩ := List.mem_map.mp hi
    exact hzero j
  · rw [product_rowMajor d hm hk hn, starts_eq_startAt, folded_rowMajor]
    simp only [List.zipWith_map_left, List.zipWith_self]

/-- The loops leave the product in the buffer, whatever was in it and however the rows are cut. -/
theorem fillInto_rowMajor (A : Matrix (Fin m) (Fin k) α) (B : Matrix (Fin k) (Fin n) α)
    {parts : List Nat} (hparts : parts.sum = m) {out : List α} (hout : out.length = m * n) :
    Action.exec (d.fillInto parts (rowMajor A) (rowMajor B) m k n) out =
      (.ok (), rowMajor (d.folded A B)) := by
  have hops : checkOperands (rowMajor A) (rowMajor B) m k n = .ok () :=
    checkOperands_eq_ok.mpr ⟨length_rowMajor A, length_rowMajor B⟩
  have hB : ∀ x ∈ matrixRows A, (rowMajor B).length = x.length * n := by
    intro x hx
    rw [length_rowMajor, length_of_mem_matrixRows hx]
  have hA : rowMajor A = (matrixRows A).flatten := rfl
  have hcount : (matrixRows A).length = m := length_matrixRows A
  have hentries : ∀ start : Nat → α, (∀ c, d.startAt m k n c = start c) →
      (matrixRows A).flatMap (fun x => (List.range n).map fun c =>
        entryAt x (rowMajor B) n (start c) c) = rowMajor (d.folded A B) := by
    intro start hstart
    rw [matrixRows, List.flatMap_map, folded_rowMajor]
    simp only [hstart]
    exact List.flatMap_congr fun i _ => map_entryAt (A i) B start
  have hwidth : ∀ start : Nat → α, ∀ x ∈ matrixRows A, ((List.range n).map fun c =>
      entryAt x (rowMajor B) n (start c) c).length = n := by
    intro start x _
    rw [List.length_map, List.length_range]
  simp only [fillInto, Action.exec_bind, Action.exec_ofExcept, hops, Action.exec_get, hout, ne_eq,
    not_true_eq_false, if_false, Action.exec_ite, Action.exec_pure, Action.exec_set]
  split
  next hempty =>
    have hnone : m * n = 0 := Nat.mul_eq_zero.mpr hempty
    rw [← product_eq_folded, product, if_pos hempty, List.length_eq_zero_iff.mp (hout.trans hnone)]
  next hfull =>
    split
    next hk => rw [← product_eq_folded, product, if_neg hfull, if_pos hk, List.map_const', hout]
    next hk =>
      rw [← hcount] at hout
      split
      next htiny =>
        have hrows := fillRows_flatten (fun _ => length_of_mem_matrixRows)
          (fun x hx old hold => fillDirect_eq (hB x hx) hold) (hwidth fun _ => Scalar.zero) hout
        rw [hcount] at hrows
        rw [hA, hrows, hentries _ (d.startAt_of_tiny htiny)]
      next hlarge =>
        have hrows := fillParts_flatten (hparts.trans hcount.symm)
          (fun _ => length_of_mem_matrixRows)
          (fun x hx old hold => d.kernel.fillRow_eq (hB x hx) hold)
          (hwidth (d.kernel.startAt n)) hout
        rw [hA, hrows, hentries _ (d.startAt_of_large hlarge)]

theorem fillInto_error {a b out : List α} {e : Error}
    (h : d.matmulInto a b m k n out = .error e) (parts : List Nat) :
    Action.exec (d.fillInto parts a b m k n) out = (.error e, out) := by
  cases hops : checkOperands a b m k n with
  | error e' =>
    rw [matmulInto, hops] at h
    obtain rfl : e' = e := Except.error.inj h
    rw [fillInto, hops, Action.exec_bind, Action.exec_ofExcept]
  | ok _ =>
    by_cases hout : out.length = m * n
    · obtain ⟨ha, hb⟩ := checkOperands_eq_ok.mp hops
      rw [d.matmulInto_eq_ok.mpr ⟨ha, hb, hout, rfl⟩] at h
      cases h
    · rw [matmulInto, hops] at h
      simp only [ne_eq, hout, not_false_eq_true, if_true] at h
      obtain rfl := Except.error.inj h
      simp only [fillInto, Action.exec_bind, Action.exec_ofExcept, hops, Action.exec_get, ne_eq,
        hout, not_false_eq_true, if_true, Action.exec_throw]

end Dispatcher

end CausalServe
