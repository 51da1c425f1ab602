import CausalServe.Proofs.Sampler.Scaling

/-! The candidates that top-k keeps. Sorting by scaled logits is sorting by logits exactly where
scaling neither makes two logits equal nor tells two zeros apart. -/

namespace CausalServe.Sampler

open Binary32

/-! ## Sorting by a key -/

section Keys

variable {key key' : ℕ → ℤ} {tokens tokens' : List ℕ}

/-- The larger key first, equal ones by index. -/
def InFront (key : ℕ → ℤ) (i j : ℕ) : Prop := key j < key i ∨ key j = key i ∧ i ≤ j

instance (key : ℕ → ℤ) : DecidableRel (InFront key) := fun i j =>
  inferInstanceAs (Decidable (key j < key i ∨ key j = key i ∧ i ≤ j))

theorem InFront.antisymm {i j : ℕ} (h : InFront key i j) (h' : InFront key j i) : i = j := by
  unfold InFront at h h'
  omega

/-- Tokens are in the order of their keys in one way only. -/
theorem eq_of_inFront (hperm : tokens.Perm tokens') (h : tokens.Pairwise (InFront key))
    (h' : tokens'.Pairwise (InFront key)) : tokens = tokens' :=
  hperm.eq_of_pairwise (fun _ _ _ _ => InFront.antisymm) h h'

/-- Two keys sort tokens alike exactly if they agree on every two of them. -/
theorem eq_iff_agree (hperm : tokens.Perm tokens') (h : tokens.Pairwise (InFront key))
    (h' : tokens'.Pairwise (InFront key')) :
    tokens = tokens' ↔ ∀ i ∈ tokens, ∀ j ∈ tokens, i < j → (key i < key j ↔ key' i < key' j) := by
  constructor
  · rintro rfl i hi j hj hij
    -- of any two tokens one stands in front of the other, by both keys
    have hboth : tokens.Pairwise fun a b =>
        (InFront key a b ∧ InFront key' a b) ∨ InFront key b a ∧ InFront key' b a :=
      (h.and h').imp .inl
    have hsymm : Std.Symm fun a b =>
        (InFront key a b ∧ InFront key' a b) ∨ InFront key b a ∧ InFront key' b a :=
      ⟨fun _ _ => Or.symm⟩
    have := hboth.forall hi hj hij.ne
    unfold InFront at this
    omega
  · intro hagree
    refine eq_of_inFront hperm h (h'.imp_of_mem fun {i j} hi hj hfront => ?_)
    have hi := hperm.mem_iff.mpr hi
    have hj := hperm.mem_iff.mpr hj
    unfold InFront at hfront ⊢
    rcases lt_trichotomy i j with hlt | rfl | hlt
    · have := hagree i hi j hj hlt
      omega
    · exact .inr ⟨rfl, le_rfl⟩
    · have := hagree j hj i hi hlt
      omega

end Keys

/-! ## Ranking -/

section Ranking

variable {temperature : Float32} {logits : List Float32}

/-- Candidates by logit, the largest number first, equal ones by index. -/
def tokensByLogit (logits : List Float32) : List Token :=
  (logits.zipIdx.mergeSort fun a b => b.1 < a.1 ∨ ¬ a.1 < b.1 ∧ a.2 ≤ b.2).map (·.2)

/-- What the tokens have for a logit, or zero if there is none. -/
def keyOf (f : Float32 → ℤ) (logits : List Float32) (i : ℕ) : ℤ := ((logits[i]?).map f).getD 0

theorem keyOf_of_mem {f : Float32 → ℤ} {c : Candidate} (h : c ∈ logits.zipIdx) :
    keyOf f logits c.2 = f c.1 := by
  rw [keyOf, List.mk_mem_zipIdx_iff_getElem?.mp h]
  rfl

theorem perm_range_of_mergeSort (xs : List Float32) (le : Candidate → Candidate → Bool) :
    ((xs.zipIdx.mergeSort le).map (·.2)).Perm (List.range xs.length) := by
  refine ((List.mergeSort_perm _ _).map _).trans ?_
  rw [List.range_eq_range', ← List.zipIdx_map_snd]

/-- A stable sort by a key keeps equal candidates in the order of their indices. -/
theorem mergeSort_inFront (f : Float32 → ℤ) (xs : List Float32) :
    ((xs.zipIdx.mergeSort fun a b => f b.1 ≤ f a.1).map (·.2)).Pairwise
      (InFront (keyOf f xs)) := by
  have htrans : ∀ a b c : Candidate, decide (f b.1 ≤ f a.1) = true → decide (f c.1 ≤ f b.1) = true →
      decide (f c.1 ≤ f a.1) = true := by
    intro a b c hab hbc
    rw [decide_eq_true_eq] at *
    exact hbc.trans hab
  have htotal : ∀ a b : Candidate, (decide (f b.1 ≤ f a.1) || decide (f a.1 ≤ f b.1)) = true := by
    intro a b
    rw [Bool.or_eq_true, decide_eq_true_eq, decide_eq_true_eq]
    exact Int.le_total _ _
  have hplace : ∀ {c : Candidate × ℕ} {le}, c ∈ xs.zipIdx.zipIdx.mergeSort le →
      c.1.2 = c.2 ∧ f c.1.1 = keyOf f xs c.1.2 := by
    intro c le hc
    have hc := List.mk_mem_zipIdx_iff_getElem?.mp (List.mem_mergeSort.mp hc)
    refine ⟨?_, (keyOf_of_mem (List.mem_of_getElem? hc)).symm⟩
    rw [List.getElem?_zipIdx, Option.map_eq_some_iff] at hc
    obtain ⟨x, -, hx⟩ := hc
    rw [← hx, Nat.zero_add]
  rw [← List.mergeSort_zipIdx, List.map_map, List.pairwise_map]
  have hsorted := List.pairwise_mergeSort (List.zipIdxLE_trans htrans)
    (List.zipIdxLE_total htotal) xs.zipIdx.zipIdx
  refine hsorted.imp_of_mem fun {c d} hc hd hle => ?_
  obtain ⟨hci, hcf⟩ := hplace hc
  obtain ⟨hdi, hdf⟩ := hplace hd
  change InFront (keyOf f xs) c.1.2 d.1.2
  simp only [List.zipIdxLE, decide_eq_true_eq] at hle
  rw [InFront, ← hcf, ← hdf]
  split at hle
  next hdc =>
    split at hle
    next hcd =>
      have hindex : c.2 ≤ d.2 := of_decide_eq_true hle
      exact .inr ⟨le_antisymm hdc hcd, by rwa [hci, hdi]⟩
    next hcd => exact .inl (not_le.mp hcd)
  next hdc => exact absurd hle Bool.false_ne_true

/-- Tokens by logit are in the order of their logits as numbers. -/
theorem tokensByLogit_inFront (hfinite : ∀ x ∈ logits, x.isFinite = true) :
    (tokensByLogit logits).Pairwise (InFront (keyOf order logits)) := by
  let byOrder (a b : Candidate) : Bool :=
    order b.1 < order a.1 ∨ order b.1 = order a.1 ∧ a.2 ≤ b.2
  have htrans : ∀ a b c : Candidate, byOrder a b = true → byOrder b c = true →
      byOrder a c = true := by
    intro a b c hab hbc
    simp only [byOrder, decide_eq_true_eq] at *
    rcases hab with hab | ⟨hab, hi⟩
    · rcases hbc with hbc | ⟨hbc, -⟩
      · exact .inl (hbc.trans hab)
      · exact .inl (hbc.trans_lt hab)
    · rcases hbc with hbc | ⟨hbc, hj⟩
      · exact .inl (hbc.trans_eq hab)
      · exact .inr ⟨hbc.trans hab, hi.trans hj⟩
  have htotal : ∀ a b : Candidate, (byOrder a b || byOrder b a) = true := by
    intro a b
    rw [Bool.or_eq_true]
    simp only [byOrder, decide_eq_true_eq]
    rcases lt_trichotomy (order a.1) (order b.1) with h | h | h
    · exact .inr (.inl h)
    · exact (Nat.le_total a.2 b.2).imp (fun hi => .inr ⟨h.symm, hi⟩) fun hi => .inr ⟨h, hi⟩
    · exact .inl (.inl h)
  have hnumber : ∀ a ∈ logits.zipIdx, a.1.isNaN = false := fun a ha =>
    not_isNaN_of_isFinite (hfinite a.1 (List.fst_mem_of_mem_zipIdx ha))
  have hagree : ∀ a ∈ logits.zipIdx, ∀ b ∈ logits.zipIdx,
      decide (b.1 < a.1 ∨ ¬ a.1 < b.1 ∧ a.2 ≤ b.2) = byOrder a b := by
    intro a ha b hb
    have hab := lt_iff (hnumber a ha) (hnumber b hb)
    have hba := lt_iff (hnumber b hb) (hnumber a ha)
    refine decide_eq_decide.mpr ?_
    rw [hab, hba, not_lt]
    constructor
    · rintro (hlt | ⟨hle, hi⟩)
      · exact .inl hlt
      · exact hle.lt_or_eq.imp_right fun heq => ⟨heq, hi⟩
    · exact Or.imp_right fun h => ⟨h.1.le, h.2⟩
  have hsame := List.map_mergeSort (f := id) hagree
  rw [List.map_id, List.map_id] at hsame
  rw [tokensByLogit, hsame, List.pairwise_map]
  refine (List.pairwise_mergeSort htrans htotal _).imp_of_mem fun {c d} hc hd hle => ?_
  rw [InFront, keyOf_of_mem (List.mem_mergeSort.mp hc), keyOf_of_mem (List.mem_mergeSort.mp hd)]
  exact of_decide_eq_true hle

theorem tokensByLogit_eq {tokens : List Token} (hfinite : ∀ x ∈ logits, x.isFinite = true)
    (hperm : (List.range logits.length).Perm tokens)
    (h : tokens.Pairwise (InFront (keyOf order logits))) : tokensByLogit logits = tokens :=
  eq_of_inFront ((perm_range_of_mergeSort logits _).trans hperm) (tokensByLogit_inFront hfinite) h

/-- Every token is a candidate, and none twice. -/
theorem ranked_perm (temperature : Float32) (logits : List Float32) :
    ((ranked (scaled temperature logits)).map (·.2)).Perm (List.range logits.length) := by
  have h := perm_range_of_mergeSort (scaled temperature logits)
    fun a b => decide (totalKey b.1 ≤ totalKey a.1)
  rwa [scaled_eq, List.length_map] at h

/-- Ranked candidates are in the order of their scaled logits. -/
theorem ranked_inFront : ((ranked (scaled temperature logits)).map (·.2)).Pairwise
    (InFront (keyOf (fun x => totalKey (scale temperature logits x)) logits)) := by
  have h := mergeSort_inFront totalKey (scaled temperature logits)
  have hkey : keyOf totalKey (scaled temperature logits) =
      keyOf (fun x => totalKey (scale temperature logits x)) logits := by
    funext i
    rw [keyOf, keyOf, scaled_eq, List.getElem?_map, Option.map_map]
    rfl
  rwa [hkey] at h

/-- Top-k keeps the first tokens of the ranking. -/
theorem keepTop_tokens {k : ℕ} (hk : 1 ≤ k) (candidates : List Candidate) :
    (keepTop k candidates).map (·.2) = (candidates.map (·.2)).take k := by
  rw [keepTop, if_neg (Nat.one_le_iff_ne_zero.mp hk), List.map_take]

/-- Scaling keeps an earlier logit and a later one apart if they differ, and together if not. -/
def KeptApart (scale : Float32 → Float32) (x y : Float32) : Prop :=
  (x < y → scale x ≠ scale y) ∧
    (¬ x < y → ¬ y < x → ¬ totalKey (scale x) < totalKey (scale y))

instance (scale : Float32 → Float32) : DecidableRel (KeptApart scale) := fun x y =>
  inferInstanceAs (Decidable ((x < y → scale x ≠ scale y) ∧ _))

section

variable (hne : logits ≠ []) (hfinite : ∀ x ∈ logits, x.isFinite = true)
  (htemp : temperature.isFinite = true) (hpos : 0 < temperature)

include hne hfinite htemp hpos

/-- Two logits are kept apart exactly if both keys put them in one order. -/
theorem keptApart_iff {x y : Float32} (hx : x ∈ logits) (hy : y ∈ logits) :
    (totalKey (scale temperature logits x) < totalKey (scale temperature logits y) ↔
      order x < order y) ↔ KeptApart (scale temperature logits) x y := by
  have hxn := not_isNaN_of_isFinite (hfinite x hx)
  have hyn := not_isNaN_of_isFinite (hfinite y hy)
  have hle := totalKey_scale_le hne hfinite htemp hpos hx hy
  have hge := totalKey_scale_le hne hfinite htemp hpos hy hx
  have hinj : scale temperature logits x = scale temperature logits y ↔
      totalKey (scale temperature logits x) = totalKey (scale temperature logits y) :=
    ⟨congrArg totalKey, totalKey_inj (scale_not_isNaN hne hfinite htemp hpos hx)
      (scale_not_isNaN hne hfinite htemp hpos hy)⟩
  rw [KeptApart, Ne, hinj]
  rw [lt_iff hxn hyn] at hle ⊢
  rw [lt_iff hyn hxn] at hge ⊢
  omega

/-- What top-k drops is never above what it keeps, unless scaling has made the two equal. -/
theorem scale_eq_of_dropped {k i j : ℕ} {x y : Float32}
    (hi : i ∈ ((ranked (scaled temperature logits)).map (·.2)).take k)
    (hj : j ∉ ((ranked (scaled temperature logits)).map (·.2)).take k)
    (hx : logits[i]? = some x) (hy : logits[j]? = some y) (hlt : x < y) :
    scale temperature logits x = scale temperature logits y := by
  have hxm := List.mem_of_getElem? hx
  have hym := List.mem_of_getElem? hy
  have hmem : j ∈ (ranked (scaled temperature logits)).map (·.2) :=
    (ranked_perm temperature logits).mem_iff.mpr
      (List.mem_range.mpr (List.getElem?_eq_some_iff.mp hy).1)
  have hsorted := @ranked_inFront temperature logits
  rw [← List.take_append_drop k ((ranked (scaled temperature logits)).map (·.2))] at hmem hsorted
  have hfront := (List.pairwise_append.mp hsorted).2.2 i hi j
    ((List.mem_append.mp hmem).resolve_left hj)
  have hle := totalKey_scale_le hne hfinite htemp hpos hxm hym hlt
  rw [InFront, keyOf, keyOf, hx, hy] at hfront
  simp only [Option.map_some, Option.getD_some] at hfront
  refine totalKey_inj (scale_not_isNaN hne hfinite htemp hpos hxm)
    (scale_not_isNaN hne hfinite htemp hpos hym) (le_antisymm hle ?_)
  exact hfront.elim le_of_lt fun h => h.1.le

end

/-- Top-k keeps the highest logits, for every count, exactly if scaling makes no two different
logits equal of which the lower comes first, and puts no zero behind the other one. What it keeps in
place of a higher logit always has the same scaled value. -/
theorem keeps_highest_iff (hne : logits ≠ []) (hfinite : ∀ x ∈ logits, x.isFinite = true)
    (htemp : temperature.isFinite = true) (hpos : 0 < temperature) :
    ((∀ k, 1 ≤ k → (keepTop k (ranked (scaled temperature logits))).map (·.2) =
        (tokensByLogit logits).take k) ↔
      logits.Pairwise (KeptApart (scale temperature logits))) ∧
    ∀ k, 1 ≤ k → ∀ i ∈ (keepTop k (ranked (scaled temperature logits))).map (·.2),
      ∀ j ∉ (keepTop k (ranked (scaled temperature logits))).map (·.2),
        ∀ x y, logits[i]? = some x → logits[j]? = some y → x < y →
          scale temperature logits x = scale temperature logits y := by
  constructor
  · have hperm := ranked_perm temperature logits
    have hperm' : (tokensByLogit logits).Perm (List.range logits.length) :=
      perm_range_of_mergeSort logits _
    have hagree := eq_iff_agree (hperm.trans hperm'.symm) ranked_inFront
      (tokensByLogit_inFront hfinite)
    have hfirst : (∀ k, 1 ≤ k → (keepTop k (ranked (scaled temperature logits))).map (·.2) =
        (tokensByLogit logits).take k) ↔
        (ranked (scaled temperature logits)).map (·.2) = tokensByLogit logits := by
      constructor
      · intro h
        have hall := h logits.length (List.length_pos_iff.mpr hne)
        rw [keepTop_tokens (List.length_pos_iff.mpr hne)] at hall
        rwa [List.take_of_length_le (hperm.length_eq.trans List.length_range).le,
          List.take_of_length_le (hperm'.length_eq.trans List.length_range).le] at hall
      · intro h k hk
        rw [keepTop_tokens hk, h]
    rw [hfirst, hagree, List.pairwise_iff_getElem]
    simp only [hperm.mem_iff, List.mem_range]
    have hkey : ∀ (f : Float32 → ℤ) {i : ℕ} (hi : i < logits.length),
        keyOf f logits i = f logits[i] := by
      intro f i hi
      rw [keyOf, List.getElem?_eq_getElem hi]
      rfl
    have hpair : ∀ {i j : ℕ} (hi : i < logits.length) (hj : j < logits.length),
        (keyOf (fun x => totalKey (scale temperature logits x)) logits i <
            keyOf (fun x => totalKey (scale temperature logits x)) logits j ↔
          keyOf order logits i < keyOf order logits j) ↔
        KeptApart (scale temperature logits) logits[i] logits[j] := by
      intro i j hi hj
      rw [hkey _ hi, hkey _ hj, hkey _ hi, hkey _ hj]
      exact keptApart_iff hne hfinite htemp hpos (List.getElem_mem hi) (List.getElem_mem hj)
    exact ⟨fun h i j hi hj hij => (hpair hi hj).mp (h i hi j hj hij),
      fun h i hi j hj hij => (hpair hi hj).mpr (h i j hi hj hij)⟩
  · intro k hk i hi j hj x y hx hy hlt
    rw [keepTop_tokens hk] at hi hj
    exact scale_eq_of_dropped hne hfinite htemp hpos hi hj hx hy hlt

/-- Three logits that scaling keeps apart: the two highest are kept in order. -/
theorem two_highest_of_three :
    (keepTop 2 (ranked (scaled 1 [1, 3, 2]))).map (·.2) = [1, 2] := by
  have hlogits : tokensByLogit [1, 3, 2] = [1, 2, 0] :=
    tokensByLogit_eq (by decide +kernel) (by decide) (by decide +kernel)
  have hapart : ([1, 3, 2] : List Float32).Pairwise (KeptApart (scale 1 [1, 3, 2])) := by
    decide +kernel
  have hkept := (keeps_highest_iff (by decide) (by decide +kernel) (by decide +kernel)
    (by decide +kernel)).1.mpr hapart
  rw [hkept 2 (by decide), hlogits]
  rfl

/-- At a temperature of `2 ^ 25` the logits `0` and `1 / 2` are both scaled to `-1`, and the lower
of the two is kept since it comes first. -/
theorem lower_logit_kept :
    (∀ x ∈ ([33554432, 0, 0.5] : List Float32), x.isFinite = true) ∧
      (33554432 : Float32).isFinite = true ∧ (0 : Float32) < 33554432 ∧
      (keepTop 2 (ranked (scaled 33554432 [33554432, 0, 0.5]))).map (·.2) = [0, 1] ∧
      (tokensByLogit [33554432, 0, 0.5]).take 2 = [0, 2] := by
  have hfinite : ∀ x ∈ ([33554432, 0, 0.5] : List Float32), x.isFinite = true := by decide +kernel
  have hlogits : tokensByLogit [33554432, 0, 0.5] = [0, 2, 1] :=
    tokensByLogit_eq hfinite (by decide) (by decide +kernel)
  have hranked : ranked (scaled 33554432 [33554432, 0, 0.5]) =
      (scaled 33554432 [33554432, 0, 0.5]).zipIdx :=
    List.mergeSort_of_pairwise (by decide +kernel)
  refine ⟨hfinite, by decide +kernel, by decide +kernel, ?_, ?_⟩
  · rw [hranked]
    decide +kernel
  · rw [hlogits]
    rfl

end Ranking

end CausalServe.Sampler
