import CausalServe.Proofs.Action
import CausalServe.Proofs.Sampler.Ranking

/-! The tokens that a sampler may answer with, and what it takes from its stream: one word for a
draw, nothing for a greedy choice or a failure. -/

namespace CausalServe

/-- There is one sum less than there are weights, so an index is drawn that has a weight. -/
theorem Weighted.choose_lt {weights : List Float32} {w : Weighted}
    (h : ofWeights weights = .ok w) (word : UInt32) : w.choose word < weights.length := by
  have hsums : ∀ (total : Float32) (ws : List Float32), (sums total ws).1.length = ws.length := by
    intro total ws
    induction ws generalizing total with
    | nil => rfl
    | cons first rest ih => exact congrArg (· + 1) (ih (total + first))
  cases weights with
  | nil => cases h
  | cons first rest =>
    simp only [ofWeights] at h
    split at h
    · cases h
    split at h
    · cases h
    cases h
    exact Nat.lt_succ_of_le (List.countP_le_length.trans_eq (hsums first rest))

namespace Sampler

open Binary32

/-! ## Greedy choice -/

/-- What the scan along the logits has found: nothing exceeds it, and nothing before equals it. -/
theorem best_spec (found : Candidate) (rest : List Candidate)
    (hnumber : ∀ c ∈ found :: rest, c.1.isNaN = false)
    (hsorted : (found :: rest).Pairwise fun c d => c.2 < d.2) :
    best found rest ∈ found :: rest ∧ ∀ c ∈ found :: rest, order c.1 < order (best found rest).1 ∨
      order c.1 = order (best found rest).1 ∧ (best found rest).2 ≤ c.2 := by
  induction rest generalizing found with
  | nil =>
    refine ⟨List.mem_singleton_self _, fun c hc => ?_⟩
    rw [List.mem_singleton.mp hc]
    exact .inr ⟨rfl, le_rfl⟩
  | cons next rest ih =>
    have hlt := lt_iff (hnumber found (by simp)) (hnumber next (by simp))
    have hnext : found.2 < next.2 := List.rel_of_pairwise_cons hsorted (List.mem_cons_self ..)
    rw [best]
    by_cases hexceeds : found.1 < next.1
    · rw [if_pos hexceeds]
      obtain ⟨hmem, hbest⟩ := ih next (fun c hc => hnumber c (List.mem_cons_of_mem _ hc))
        hsorted.of_cons
      refine ⟨List.mem_cons_of_mem _ hmem, fun c hc => ?_⟩
      -- what was found before is behind `next`, and so behind whatever replaces that
      rcases List.mem_cons.mp hc with rfl | hc
      · have hbehind := (hbest next (List.mem_cons_self ..)).elim le_of_lt fun h => h.1.le
        exact .inl ((hlt.mp hexceeds).trans_le hbehind)
      · exact hbest c hc
    · rw [if_neg hexceeds]
      have hsub : (found :: rest).Sublist (found :: next :: rest) :=
        (List.sublist_cons_self next rest).cons_cons found
      obtain ⟨hmem, hbest⟩ := ih found (fun c hc => hnumber c (hsub.subset hc))
        (hsorted.sublist hsub)
      refine ⟨hsub.subset hmem, fun c hc => ?_⟩
      rw [hlt, not_lt] at hexceeds
      rcases List.mem_cons.mp hc with rfl | hc
      · exact hbest c (List.mem_cons_self ..)
      -- where `next` equals what was found it comes later, and so is not the first
      rcases List.mem_cons.mp hc with rfl | hc
      · rcases hbest found (List.mem_cons_self ..) with hbehind | ⟨hequal, hfirst⟩
        · exact .inl (hexceeds.trans_lt hbehind)
        · exact (hexceeds.trans_eq hequal).lt_or_eq.imp_right fun h =>
            ⟨h, hfirst.trans hnext.le⟩
      · exact hbest c (List.mem_cons_of_mem _ hc)

/-- The greedy choice is the least index of a logit that no other exceeds. -/
theorem argmax_isLeast {logits : List Float32} (hne : logits ≠ [])
    (hfinite : ∀ x ∈ logits, x.isFinite = true) :
    IsLeast {i | ∃ x, logits[i]? = some x ∧ ∀ y ∈ logits, ¬ x < y} (argmax logits) := by
  have hplace : ∀ c : Candidate, c ∈ logits.zipIdx ↔ logits[c.2]? = some c.1 :=
    fun _ => List.mk_mem_zipIdx_iff_getElem?
  have hnumber : ∀ x ∈ logits, x.isNaN = false := fun x hx => not_isNaN_of_isFinite (hfinite x hx)
  have hlogit : ∀ c ∈ logits.zipIdx, c.1 ∈ logits := fun c => List.fst_mem_of_mem_zipIdx
  have hsorted : logits.zipIdx.Pairwise fun c d => c.2 < d.2 := by
    rw [← List.pairwise_map (f := Prod.snd), List.zipIdx_map_snd]
    exact List.pairwise_lt_range'
  unfold argmax
  cases hlist : logits.zipIdx with
  | nil => exact absurd (List.zipIdx_eq_nil_iff.mp hlist) hne
  | cons first rest =>
    rw [hlist] at hplace hlogit hsorted
    obtain ⟨hmem, hbest⟩ := best_spec first rest (fun c hc => hnumber _ (hlogit c hc)) hsorted
    have hlt : ∀ {x y : Float32}, x ∈ logits → y ∈ logits → (x < y ↔ order x < order y) :=
      fun hx hy => lt_iff (hnumber _ hx) (hnumber _ hy)
    have hbeats : ∀ {x : Float32} {i : ℕ}, logits[i]? = some x →
        order x < order (best first rest).1 ∨
          order x = order (best first rest).1 ∧ (best first rest).2 ≤ i :=
      fun hx => hbest (_, _) ((hplace _).mpr hx)
    refine ⟨⟨_, (hplace _).mp hmem, fun y hy => ?_⟩, fun i ⟨x, hx, hmax⟩ => ?_⟩
    · obtain ⟨j, hj⟩ := List.mem_iff_getElem?.mp hy
      rw [hlt (hlogit _ hmem) hy, not_lt]
      exact (hbeats hj).elim le_of_lt fun h => h.1.le
    · have hnot := hmax _ (hlogit _ hmem)
      rw [hlt (List.mem_of_getElem? hx) (hlogit _ hmem)] at hnot
      exact ((hbeats hx).resolve_left hnot).2

/-! ## The nucleus -/

/-- How many leading probabilities reach over a mass: the least count whose running sum exceeds it,
or all if none does. -/
def IsNucleus (p : Float32) (qs : List Float32) (count : ℕ) : Prop :=
  IsLeast {n | p < (qs.take n).foldl (· + ·) 0} count ∨
    (∀ n, ¬ p < (qs.take n).foldl (· + ·) 0) ∧ count = qs.length

theorem massLength_pos (p sum : Float32) {qs : List Float32} (h : qs ≠ []) :
    0 < massLength p sum qs := by
  cases qs with
  | nil => exact absurd rfl h
  | cons q qs =>
    rw [massLength]
    split <;> exact Nat.succ_pos _

theorem massLength_le (p sum : Float32) (qs : List Float32) :
    massLength p sum qs ≤ qs.length := by
  induction qs generalizing sum with
  | nil => exact le_rfl
  | cons q qs ih =>
    rw [massLength, List.length_cons]
    split
    · exact Nat.succ_pos _
    · exact Nat.succ_le_succ (ih _)

/-- The running sum starts with a sum that does not exceed the mass. -/
theorem massLength_spec (p sum : Float32) (qs : List Float32) (hsum : ¬ p < sum) :
    IsLeast {n | p < (qs.take n).foldl (· + ·) sum} (massLength p sum qs) ∨
      (∀ n, ¬ p < (qs.take n).foldl (· + ·) sum) ∧ massLength p sum qs = qs.length := by
  induction qs generalizing sum with
  | nil => exact .inr ⟨fun n => by rwa [List.take_nil], rfl⟩
  | cons q qs ih =>
    rw [massLength]
    by_cases hq : p < sum + q
    · rw [if_pos hq]
      refine .inl ⟨hq, fun n hn => Nat.one_le_iff_ne_zero.mpr ?_⟩
      rintro rfl
      exact hsum hn
    · rw [if_neg hq]
      rcases ih (sum + q) hq with ⟨hexceeds, hleast⟩ | ⟨hnone, hall⟩
      · refine .inl ⟨hexceeds, fun n hn => ?_⟩
        cases n with
        | zero => exact absurd hn hsum
        | succ n => exact Nat.succ_le_succ (hleast hn)
      · refine .inr ⟨fun n => ?_, congrArg (· + 1) hall⟩
        cases n with
        | zero => exact hsum
        | succ n => exact hnone n

theorem nucleusLength_pos (p : Float32) {qs : List Float32} (h : qs ≠ []) :
    0 < nucleusLength p qs := by
  rw [nucleusLength]
  split
  · exact massLength_pos p 0 h
  · exact List.length_pos_iff.mpr h

theorem nucleusLength_le (p : Float32) (qs : List Float32) : nucleusLength p qs ≤ qs.length := by
  rw [nucleusLength]
  split
  · exact massLength_le p 0 qs
  · exact le_rfl

/-! ## The draw -/

def topCount (k n : ℕ) : ℕ := if k = 0 then n else min k n

theorem topCount_pos {k n : ℕ} (h : 0 < n) : 0 < topCount k n := by
  unfold topCount
  split <;> omega

theorem topCount_le (k n : ℕ) : topCount k n ≤ n := by
  unfold topCount
  split <;> omega

theorem keepTop_eq_take (k : ℕ) (candidates : List Candidate) :
    keepTop k candidates = candidates.take (topCount k candidates.length) := by
  rw [keepTop, topCount]
  split
  · rw [List.take_length]
  · rw [List.take_eq_take_iff, min_assoc, min_self]

theorem length_probabilities (xs : List Float32) : (probabilities xs).length = xs.length := by
  simp [probabilities]

theorem length_ranked (temperature : Float32) (logits : List Float32) :
    (ranked (scaled temperature logits)).length = logits.length := by
  simp [ranked, scaled]

/-- What a sampler may answer to a row of logits, and the sampler that it leaves. -/
structure Answers (s : Sampler) (logits : List Float32) (t : Token) (next : Sampler) : Prop where
  lt : t < logits.length
  greedy : s.temperature ≤ 0 → next = s ∧
    IsLeast {i | ∃ x, logits[i]? = some x ∧ ∀ y ∈ logits, ¬ x < y} t
  drawn : ¬ s.temperature ≤ 0 → next = { s with stream := s.stream.skip 1 } ∧
    let ranking := ranked (scaled s.temperature logits)
    let most := topCount s.topK logits.length
    ∃ keep, 1 ≤ keep ∧ keep ≤ most ∧ t ∈ (ranking.take keep).map (·.2) ∧
      if 0 < s.topP ∧ s.topP < 1 then
        IsNucleus s.topP (probabilities ((ranking.take most).map (·.1))) keep
      else keep = most

/-- As many weights are drawn by as there are candidates; there is one, and top-k has left all. -/
theorem candidates_spec (s : Sampler) {logits : List Float32} (hne : logits ≠ []) :
    let ranking := ranked (scaled s.temperature logits)
    let most := topCount s.topK logits.length
    let probs := probabilities ((ranking.take most).map (·.1))
    ∃ keep, 1 ≤ keep ∧ keep ≤ most ∧ (s.candidates logits).1 = ranking.take keep ∧
      (s.candidates logits).2.length = keep ∧
      if 0 < s.topP ∧ s.topP < 1 then IsNucleus s.topP probs keep else keep = most := by
  intro ranking most probs
  have hranking : ranking.length = logits.length := length_ranked _ _
  have hmost : most ≤ ranking.length := by
    rw [hranking]
    exact topCount_le _ _
  have hkept : keepTop s.topK ranking = ranking.take most := by rw [keepTop_eq_take, hranking]
  have hlen : probs.length = most := by
    rw [length_probabilities, List.length_map, List.length_take, min_eq_left hmost]
  have hprobs : probs ≠ [] := by
    rw [← List.length_pos_iff, hlen]
    exact topCount_pos (List.length_pos_iff.mpr hne)
  have hle := nucleusLength_le s.topP probs
  have hcandidates : s.candidates logits = ((ranking.take most).take (nucleusLength s.topP probs),
      probs.take (nucleusLength s.topP probs)) := by
    rw [← hkept]
    simp only [probs, ← hkept]
    rfl
  refine ⟨nucleusLength s.topP probs, nucleusLength_pos _ hprobs, hlen ▸ hle, ?_, ?_, ?_⟩
  · rw [hcandidates, List.take_take, min_eq_left (hlen ▸ hle)]
  · rw [hcandidates, List.length_take, min_eq_left hle]
  · rw [nucleusLength]
    split
    next hp => exact massLength_spec s.topP 0 probs (not_lt_of_lt hp.1)
    next => exact hlen

theorem checkLogits_eq_ok {logits : List Float32} :
    checkLogits logits = .ok () ↔ logits ≠ [] ∧ ∀ x ∈ logits, x.isFinite = true := by
  cases logits with
  | nil => exact iff_of_false nofun fun h => h.1 rfl
  | cons first rest =>
    simp only [checkLogits]
    split
    next x i hfind =>
      have hmem := List.fst_mem_of_mem_zipIdx (List.mem_of_find?_eq_some hfind)
      have hbad := List.find?_some hfind
      refine iff_of_false nofun fun h => ?_
      simp [h.2 x hmem] at hbad
    next hnone =>
      refine iff_of_true rfl ⟨List.cons_ne_nil _ _, fun x hx => ?_⟩
      obtain ⟨i, hi⟩ := List.mem_iff_getElem?.mp hx
      simpa using List.find?_eq_none.mp hnone (x, i) (List.mk_mem_zipIdx_iff_getElem?.mpr hi)

/-- A sampler fails for its logits or for the weights of its candidates, and is then as it was.
Where it does not fail, the index that was drawn is that of a candidate. -/
theorem exec_sample_cases (s : Sampler) (logits : List Float32) :
    (∃ fault, (checkLogits logits = .error fault ∨ ∃ why, fault = .numeric (.distribution why)) ∧
      Action.exec (sample logits) s = (.error fault, s)) ∨
    ∃ t next, Action.exec (sample logits) s = (.ok t, next) ∧ s.Answers logits t next := by
  unfold sample
  cases hcheck : checkLogits logits with
  | error fault => exact .inl ⟨fault, .inl rfl, by rw [Action.exec_bind, Action.exec_ofExcept]⟩
  | ok _ =>
    obtain ⟨hne, hfinite⟩ := checkLogits_eq_ok.mp hcheck
    simp only [Action.exec_bind, Action.exec_ofExcept, Action.exec_get]
    by_cases hgreedy : s.temperature ≤ 0
    · have hleast := argmax_isLeast hne hfinite
      obtain ⟨x, hx, -⟩ := hleast.1
      rw [if_pos (show s.isGreedy = true from decide_eq_true hgreedy), Action.exec_pure]
      exact .inr ⟨_, _, rfl, (List.getElem?_eq_some_iff.mp hx).1, fun _ => ⟨rfl, hleast⟩,
        fun h => absurd hgreedy h⟩
    rw [if_neg (show ¬ s.isGreedy = true from fun h => hgreedy (of_decide_eq_true h))]
    obtain ⟨keep, hpos, hle, hkept, hweights, hnucleus⟩ := s.candidates_spec hne
    generalize s.candidates logits = drawn at hkept hweights ⊢
    obtain ⟨kept, weights⟩ := drawn
    simp only at hkept hweights ⊢
    cases hdist : Weighted.ofWeights weights with
    | error why => exact .inl ⟨_, .inr ⟨why, rfl⟩, rfl⟩
    | ok w =>
      -- candidates and weights are cut at one count, so the index is one into both
      have hmost : topCount s.topK logits.length ≤ logits.length := topCount_le _ _
      have hlen : w.choose s.stream.word < kept.length := by
        rw [hkept, List.length_take, length_ranked, min_eq_left (hle.trans hmost), ← hweights]
        exact Weighted.choose_lt hdist _
      obtain ⟨c, hc⟩ : ∃ c, kept[w.choose s.stream.word]? = some c :=
        ⟨_, List.getElem?_eq_getElem hlen⟩
      have hmem : c.2 ∈ ((ranked (scaled s.temperature logits)).take keep).map (·.2) :=
        List.mem_map_of_mem (hkept ▸ List.mem_of_getElem? hc)
      have hlt : c.2 < logits.length := List.mem_range.mp ((ranked_perm _ _).mem_iff.mp
        (List.map_subset _ (List.take_subset _ _) hmem))
      simp only [hc]
      exact .inr ⟨c.2, _, rfl, hlt, fun h => absurd h hgreedy,
        fun _ => ⟨rfl, keep, hpos, hle, hmem, hnucleus⟩⟩

theorem lt_of_sample {s : Sampler} {logits : List Float32} {t : Token}
    (h : (Action.exec (sample logits) s).1 = .ok t) : t < logits.length := by
  rcases s.exec_sample_cases logits with ⟨fault, -, hexec⟩ | ⟨t', next, hexec, hanswers⟩ <;>
    rw [hexec] at h
  · cases h
  · cases h
    exact hanswers.lt

end Sampler

end CausalServe
