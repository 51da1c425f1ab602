import CausalServe.Model.RotaryTable
import CausalServe.Proofs.Quant.Decoding

/-! Rotations with tables and without. The entries of a table that belong to a position are the
cosines or the sines of its angles, whatever the table has room for, so that a head is turned alike
by every table and by none. -/

namespace CausalServe

theorem element_eq_ok {α : Type} {i : Nat} {xs : List α} {x : α} (h : xs[i]? = some x) :
    element i xs = .ok x := by
  rw [element, h]

namespace RotaryTable

open Trigonometric

variable {α : Type} [Trigonometric α]

/-! ## Tables -/

/-- A function of the angles of the first positions, position after position. -/
def entries (g : α → α) (frequencies : List α) (count : Nat) : List α :=
  ((List.range count).map fun position =>
    frequencies.map fun f => g (ofPosition position * f)).flatten

theorem entries_succ (g : α → α) (frequencies : List α) (count : Nat) :
    entries g frequencies (count + 1) =
      entries g frequencies count ++ frequencies.map fun f => g (ofPosition count * f) := by
  unfold entries
  rw [List.range_succ, List.map_append, List.flatten_append, List.map_singleton,
    List.flatten_singleton]

theorem addPosition_toList (frequencies : List α) (tables : Array α × Array α) (position : Nat) :
    (addPosition frequencies tables position).1.toList =
        tables.1.toList ++ frequencies.map (fun f => cos (ofPosition position * f)) ∧
      (addPosition frequencies tables position).2.toList =
        tables.2.toList ++ frequencies.map fun f => sin (ofPosition position * f) := by
  unfold addPosition
  induction frequencies generalizing tables with
  | nil => simp
  | cons f frequencies ih =>
    obtain ⟨cosines, sines⟩ := tables
    obtain ⟨hcosines, hsines⟩ := ih (cosines.push (cos (ofPosition position * f)),
      sines.push (sin (ofPosition position * f)))
    rw [List.foldl_cons, hcosines, hsines]
    simp

theorem fill_toList (frequencies : List α) (count : Nat) :
    ((List.range count).foldl (addPosition frequencies) (#[], #[])).1.toList =
        entries cos frequencies count ∧
      ((List.range count).foldl (addPosition frequencies) (#[], #[])).2.toList =
        entries sin frequencies count := by
  induction count with
  | zero => exact ⟨rfl, rfl⟩
  | succ count ih =>
    obtain ⟨hcosines, hsines⟩ := addPosition_toList frequencies
      ((List.range count).foldl (addPosition frequencies) (#[], #[])) count
    rw [List.range_succ, List.foldl_append, List.foldl_cons, List.foldl_nil, hcosines, hsines,
      ih.1, ih.2, entries_succ, entries_succ]
    exact ⟨rfl, rfl⟩

/-- Where there is no pair, positions have no entries. -/
theorem entries_nil (g : α → α) (count : Nat) : entries g [] count = [] := by
  simp [entries]

/-- What a new table holds. -/
theorem new_toList (dim count : Nat) (theta : Float) :
    (new dim count theta : RotaryTable α).cosines.toList =
        entries cos (new dim count theta).frequencies count ∧
      (new dim count theta : RotaryTable α).sines.toList =
        entries sin (new dim count theta).frequencies count := by
  unfold new
  simp only
  split
  next hempty =>
    rw [List.isEmpty_iff.mp hempty, entries_nil, entries_nil]
    exact ⟨rfl, rfl⟩
  next => exact fill_toList _ count

theorem length_frequencies (dim count : Nat) (theta : Float) :
    (new dim count theta : RotaryTable α).frequencies.length = dim / 2 :=
  (List.length_map _).trans List.length_range

theorem getElem?_frequencies {dim i : Nat} (hi : i < dim / 2) (count : Nat) (theta : Float) :
    (new dim count theta : RotaryTable α).frequencies[i]? = some (frequency dim theta i) := by
  change ((List.range (dim / 2)).map (frequency dim theta))[i]? = _
  rw [List.getElem?_map, List.getElem?_range hi]
  rfl

/-- The part of a table at the offset of a position belongs to that position. -/
theorem cut_entries (g : α → α) (frequencies : List α) {position count : Nat}
    (h : position < count) :
    cut (position * frequencies.length) ((position + 1) * frequencies.length)
        (entries g frequencies count) =
      .ok (frequencies.map fun f => g (ofPosition position * f)) := by
  have hrows : ∀ row ∈ (List.range count).map fun position =>
      frequencies.map fun f => g (ofPosition position * f), row.length = frequencies.length := by
    intro row hrow
    obtain ⟨p, -, rfl⟩ := List.mem_map.mp hrow
    exact List.length_map _
  have hlength : (entries g frequencies count).length = count * frequencies.length := by
    rw [entries, length_flatten_of_width hrows, List.length_map, List.length_range]
  have hstart : position * frequencies.length ≤ (position + 1) * frequencies.length :=
    Nat.mul_le_mul_right _ (Nat.le_succ position)
  have hstop : (position + 1) * frequencies.length ≤ (entries g frequencies count).length :=
    hlength ▸ Nat.mul_le_mul_right _ h
  rw [cut_eq_ok hstart hstop, Nat.succ_mul, Nat.add_sub_cancel_left, entries,
    slice_flatten hrows (by simpa using h)]
  simp

/-! ## Pairs -/

/-- Two halves of a head before and after their first `n` pairs were turned. -/
structure Turned (turn : Nat → α × α) (n : Nat) (before after : List α × List α) : Prop where
  left : after.1.length = before.1.length
  right : after.2.length = before.2.length
  pair : ∀ i < n, ∃ a b, before.1[i]? = some a ∧ before.2[i]? = some b ∧
    after.1[i]? = some (a * (turn i).1 - b * (turn i).2) ∧
    after.2[i]? = some (b * (turn i).1 + a * (turn i).2)
  rest : ∀ i, n ≤ i → after.1[i]? = before.1[i]? ∧ after.2[i]? = before.2[i]?

/-- One more pair is turned, and no other element changes. -/
theorem Turned.rotatePair {turn : Nat → α × α} {n : Nat} {before after : List α × List α}
    (h : Turned turn n before after) (hleft : n < before.1.length)
    (hright : n < before.2.length) :
    ∃ more, rotatePair (turn n) n after = .ok more ∧ Turned turn (n + 1) before more := by
  obtain ⟨hrest1, hrest2⟩ := h.rest n le_rfl
  have ha : after.1[n]? = some before.1[n] := hrest1.trans (List.getElem?_eq_getElem hleft)
  have hb : after.2[n]? = some before.2[n] := hrest2.trans (List.getElem?_eq_getElem hright)
  refine ⟨(after.1.set n (before.1[n] * (turn n).1 - before.2[n] * (turn n).2),
    after.2.set n (before.2[n] * (turn n).1 + before.1[n] * (turn n).2)), ?_, ?_⟩
  · unfold RotaryTable.rotatePair
    rw [element_eq_ok ha, element_eq_ok hb]
    rfl
  · refine ⟨by rw [List.length_set, h.left], by rw [List.length_set, h.right], fun i hi => ?_,
      fun i hi => ?_⟩
    · rcases Nat.lt_succ_iff_lt_or_eq.mp hi with hi | rfl
      · rw [List.getElem?_set_ne hi.ne', List.getElem?_set_ne hi.ne']
        exact h.pair i hi
      · exact ⟨_, _, List.getElem?_eq_getElem hleft, List.getElem?_eq_getElem hright,
          List.getElem?_set_self (h.left.symm ▸ hleft),
          List.getElem?_set_self (h.right.symm ▸ hright)⟩
    · have hne : n ≠ i := by omega
      rw [List.getElem?_set_ne hne, List.getElem?_set_ne hne]
      exact h.rest i (by omega)

theorem rotatePairs_succ (turn : Nat → Except Error (α × α)) (n : Nat)
    (halves : List α × List α) : rotatePairs turn (n + 1) halves =
      rotatePairs turn n halves >>= fun halves =>
        turn n >>= fun found => rotatePair found n halves := by
  unfold rotatePairs
  rw [List.range_succ, List.foldlM_append]
  simp

/-- The loop only asks for the turns of the pairs that it turns. -/
theorem rotatePairs_congr {turn turn' : Nat → Except Error (α × α)} {n : Nat}
    (h : ∀ i < n, turn i = turn' i) (halves : List α × List α) :
    rotatePairs turn n halves = rotatePairs turn' n halves := by
  induction n with
  | zero => rfl
  | succ n ih =>
    rw [rotatePairs_succ, rotatePairs_succ, ih fun i hi => h i (Nat.lt_succ_of_lt hi),
      h n (Nat.lt_succ_self n)]

theorem turned_rotatePairs (turn : Nat → α × α) {n : Nat} (halves : List α × List α)
    (hleft : n ≤ halves.1.length) (hright : n ≤ halves.2.length) :
    ∃ after, rotatePairs (fun i => .ok (turn i)) n halves = .ok after ∧
      Turned turn n halves after := by
  induction n with
  | zero => exact ⟨halves, rfl, rfl, rfl, fun i hi => absurd hi (Nat.not_lt_zero i),
      fun i _ => ⟨rfl, rfl⟩⟩
  | succ n ih =>
    obtain ⟨after, hafter, hturned⟩ := ih (Nat.le_of_succ_le hleft) (Nat.le_of_succ_le hright)
    obtain ⟨more, hmore, hturned⟩ := hturned.rotatePair hleft hright
    refine ⟨more, ?_, hturned⟩
    rw [rotatePairs_succ, hafter]
    exact hmore

/-! ## Heads -/

/-- A head before and after a rotation: element `i` is paired with the one `half` further. An
element without a partner stays. -/
structure Rotated (turn : Nat → α × α) (half : Nat) (head out : List α) : Prop where
  length : out.length = head.length
  pair : ∀ i < half, ∃ a b, head[i]? = some a ∧ head[i + half]? = some b ∧
    out[i]? = some (a * (turn i).1 - b * (turn i).2) ∧
    out[i + half]? = some (b * (turn i).1 + a * (turn i).2)
  rest : ∀ i, 2 * half ≤ i → out[i]? = head[i]?

theorem Turned.rotated {turn : Nat → α × α} {half : Nat} {head : List α}
    {after : List α × List α} (hhead : half ≤ head.length)
    (h : Turned turn half (head.take half, head.drop half) after) :
    Rotated turn half head (after.1 ++ after.2) := by
  have hleft : after.1.length = half := by
    rw [h.left, List.length_take, Nat.min_eq_left hhead]
  have hbeyond (i : Nat) : (after.1 ++ after.2)[i + half]? = after.2[i]? := by
    rw [List.getElem?_append_right (by omega), hleft, Nat.add_sub_cancel]
  have hdrop (i : Nat) : head[i + half]? = (head.drop half)[i]? := by
    rw [List.getElem?_drop, Nat.add_comm]
  refine ⟨?_, fun i hi => ?_, fun i hi => ?_⟩
  · rw [List.length_append, hleft, h.right, List.length_drop]
    omega
  · obtain ⟨a, b, ha, hb, hout, hout'⟩ := h.pair i hi
    refine ⟨a, b, ?_, (hdrop i).trans hb, ?_, (hbeyond i).trans hout'⟩
    · rwa [List.getElem?_take_of_lt hi] at ha
    · rwa [List.getElem?_append_left (hleft.symm ▸ hi)]
  · obtain ⟨j, rfl⟩ := Nat.exists_eq_add_of_le' ((Nat.le_mul_of_pos_left half two_pos).trans hi)
    rw [hbeyond, hdrop]
    exact (h.rest j (by omega)).2

/-- A rotation is told by its turns. -/
theorem Rotated.unique {turn : Nat → α × α} {half : Nat} {head out out' : List α}
    (h : Rotated turn half head out) (h' : Rotated turn half head out') : out = out' := by
  refine List.ext_getElem? fun i => ?_
  rcases Nat.lt_or_ge i (2 * half) with hi | hi
  · rcases Nat.lt_or_ge i half with hlow | hhigh
    · obtain ⟨a, b, ha, hb, hout, -⟩ := h.pair i hlow
      obtain ⟨a', b', ha', hb', hout', -⟩ := h'.pair i hlow
      cases ha.symm.trans ha'
      cases hb.symm.trans hb'
      exact hout.trans hout'.symm
    · obtain ⟨j, rfl⟩ := Nat.exists_eq_add_of_le' hhigh
      obtain ⟨a, b, ha, hb, -, hout⟩ := h.pair j (by omega)
      obtain ⟨a', b', ha', hb', -, hout'⟩ := h'.pair j (by omega)
      cases ha.symm.trans ha'
      cases hb.symm.trans hb'
      exact hout.trans hout'.symm
  · exact (h.rest i hi).trans (h'.rest i hi).symm

def turn (dim : Nat) (theta : Float) (position i : Nat) : α × α :=
  (cos (ofPosition position * frequency dim theta i),
    sin (ofPosition position * frequency dim theta i))

/-- Whether a position is in the table or beyond it, its pairs get the same turns. -/
theorem apply_new (hsinCos : ∀ x : α, sinCos x = (sin x, cos x)) {dim : Nat} {head : List α}
    (hhead : dim / 2 ≤ head.length) (count : Nat) (theta : Float) (position : Nat) :
    (new dim count theta).apply head position =
      rotatePairs (fun i => .ok (turn dim theta position i)) (dim / 2)
        (head.take (dim / 2), head.drop (dim / 2)) >>= fun halves =>
          .ok (halves.1 ++ halves.2) := by
  have hdim : (new dim count theta : RotaryTable α).dim = dim := rfl
  have hpositions : (new dim count theta : RotaryTable α).positions = count := rfl
  unfold apply
  simp only [hdim, hpositions, if_neg (Nat.not_lt.mpr hhead)]
  split
  next hposition =>
    obtain ⟨hcosines, hsines⟩ := new_toList (α := α) dim count theta
    let part (g : α → α) := (new dim count theta : RotaryTable α).frequencies.map fun f =>
      g (ofPosition position * f)
    have hcut (g : α → α) : cut (position * (dim / 2)) ((position + 1) * (dim / 2))
        (entries g (new dim count theta : RotaryTable α).frequencies count) = .ok (part g) := by
      rw [← length_frequencies (α := α) dim count theta, cut_entries g _ hposition]
    have helement (g : α → α) {i : Nat} (hi : i < dim / 2) :
        element i (part g) = .ok (g (ofPosition position * frequency dim theta i)) := by
      refine element_eq_ok ?_
      rw [List.getElem?_map, getElem?_frequencies hi]
      rfl
    rw [hcosines, hsines, hcut cos, hcut sin]
    refine congrArg (· >>= fun halves => .ok (halves.1 ++ halves.2))
      (rotatePairs_congr (fun i hi => ?_) (head.take _, head.drop _))
    rw [helement cos hi, helement sin hi]
    rfl
  next =>
    refine congrArg (· >>= fun halves => .ok (halves.1 ++ halves.2))
      (rotatePairs_congr (fun i hi => ?_) (head.take _, head.drop _))
    rw [element_eq_ok (getElem?_frequencies hi count theta)]
    change Except.ok _ = _
    rw [hsinCos]
    rfl

/-- A head is rotated, by the same turns whatever the table has room for. -/
theorem apply_rotated (hsinCos : ∀ x : α, sinCos x = (sin x, cos x)) {dim : Nat} {head : List α}
    (hhead : head.length = dim) (theta : Float) (position : Nat) :
    ∃ out, (∀ count, (new dim count theta).apply head position = .ok out) ∧
      Rotated (turn dim theta position) (dim / 2) head out := by
  have hhalf : dim / 2 ≤ head.length := by omega
  have hleft : dim / 2 ≤ (head.take (dim / 2)).length := by
    rw [List.length_take, Nat.min_eq_left hhalf]
  have hright : dim / 2 ≤ (head.drop (dim / 2)).length := by
    rw [List.length_drop]
    omega
  obtain ⟨after, hafter, hturned⟩ :=
    turned_rotatePairs (turn dim theta position) (_, _) hleft hright
  refine ⟨after.1 ++ after.2, fun count => ?_, hturned.rotated hhalf⟩
  rw [apply_new hsinCos hhalf, hafter]
  rfl

/-- A row is rotated head by head, and what is left of it stays. -/
theorem applyHeads_flatten (r : RotaryTable α) (hdim : 1 ≤ r.dim) {heads : List (List α)}
    (hheads : ∀ head ∈ heads, head.length = r.dim) {rest : List α} (hrest : rest.length < r.dim)
    (position : Nat) :
    r.applyHeads (heads.flatten ++ rest) position =
      (fun outs => outs.flatten ++ rest) <$> heads.mapM (r.apply · position) := by
  have hlength := length_flatten_of_width hheads
  have hpieces : pieces r.dim (heads.flatten ++ rest) = heads := by
    have hnone : pieces r.dim rest = [] :=
      List.eq_nil_of_length_eq_zero ((length_pieces _ _).trans (Nat.div_eq_of_lt hrest))
    rw [pieces_append hdim hlength, pieces_flatten hdim hheads, hnone, List.append_nil]
  have hcount : (heads.flatten ++ rest).length / r.dim = heads.length := by
    rw [← length_pieces, hpieces]
  unfold applyHeads
  rw [if_neg (Nat.pos_iff_ne_zero.mp hdim), hpieces, hcount, List.drop_left' hlength]
  rfl

/-- How many positions a table has room for never shows: two tables turn every head alike, bit for
bit, each element with its partner half a head further, and a row is turned head by head. Nothing is
asked of the arithmetic but that a sine and a cosine found together are those found apart. -/
theorem table_invisible (hsinCos : ∀ x : α, sinCos x = (sin x, cos x)) {dim : Nat} (hdim : 1 ≤ dim)
    (theta : Float) (position M₁ M₂ : Nat) :
    (∀ head : List α, head.length = dim → ∃ out,
      (new dim M₁ theta).apply head position = .ok out ∧
      (new dim M₂ theta).apply head position = .ok out ∧
      Rotated (turn dim theta position) (dim / 2) head out) ∧
    ∀ (heads : List (List α)) (rest : List α), (∀ head ∈ heads, head.length = dim) →
      rest.length < dim → ∃ outs,
      heads.mapM ((new dim M₁ theta).apply · position) = .ok outs ∧
      (new dim M₁ theta).applyHeads (heads.flatten ++ rest) position =
        .ok (outs.flatten ++ rest) := by
  refine ⟨fun head hhead => ?_, fun heads rest hheads hrest => ?_⟩
  · obtain ⟨out, hout, hrotated⟩ := apply_rotated hsinCos hhead theta position
    exact ⟨out, hout M₁, hout M₂, hrotated⟩
  · obtain ⟨outs, houts⟩ := exists_mapM_eq_ok fun head hhead => by
      obtain ⟨out, hout, -⟩ := apply_rotated hsinCos (hheads head hhead) theta position
      exact ⟨out, hout M₁⟩
    refine ⟨outs, houts, ?_⟩
    rw [applyHeads_flatten (new dim M₁ theta) hdim hheads hrest position, houts]
    rfl

/-- Two heads of an odd width at a position that one table holds and another one does not. -/
theorem two_heads_in_table_and_beyond :
    (∀ x : Float32, sinCos x = (sin x, cos x)) ∧ 1 ≤ 3 ∧
    (∃ out : List Float32,
      (new 3 0 10000).apply [1, 2, 3] 1 = .ok out ∧ (new 3 2 10000).apply [1, 2, 3] 1 = .ok out ∧
      Rotated (turn 3 10000 1) 1 [1, 2, 3] out) ∧
    (∀ head ∈ [[1, 2, 3], [4, 5, (6 : Float32)]], head.length = 3) ∧ [(7 : Float32)].length < 3 ∧
    ∃ outs : List (List Float32),
      [[1, 2, 3], [4, 5, 6]].mapM ((new 3 0 10000).apply · 1) = .ok outs ∧
      (new 3 0 10000).applyHeads [1, 2, 3, 4, 5, 6, 7] 1 = .ok (outs.flatten ++ [7]) := by
  have hsinCos : ∀ x : Float32, sinCos x = (sin x, cos x) := fun _ => rfl
  obtain ⟨hhead, hrow⟩ := table_invisible hsinCos (show 1 ≤ 3 by decide) 10000 1 0 2
  have hheads : ∀ head ∈ [[1, 2, 3], [4, 5, (6 : Float32)]], head.length = 3 := by simp
  exact ⟨hsinCos, by decide, hhead [1, 2, 3] rfl, hheads, by decide,
    hrow [[1, 2, 3], [4, 5, 6]] [7] hheads (by decide)⟩

/-! ## Rotations without tables -/

theorem turned_rotate {turns : List Turn} {turn : Nat → Turn}
    (hturns : ∀ i < turns.length, turns[i]? = some (turn i)) {xs ys : List Float32}
    (hxs : turns.length ≤ xs.length) (hys : turns.length ≤ ys.length) :
    Turned turn turns.length (xs, ys) (Rotary.rotate turns xs ys) := by
  induction turns generalizing turn xs ys with
  | nil => exact ⟨rfl, rfl, fun i hi => absurd hi (Nat.not_lt_zero i), fun i _ => ⟨rfl, rfl⟩⟩
  | cons t turns ih =>
    obtain ⟨x, xs, rfl⟩ := List.exists_cons_of_length_pos (Nat.zero_lt_of_lt hxs)
    obtain ⟨y, ys, rfl⟩ := List.exists_cons_of_length_pos (Nat.zero_lt_of_lt hys)
    have hfirst : t = turn 0 := Option.some.inj (hturns 0 (Nat.succ_pos _))
    have hshifted : ∀ i < turns.length, turns[i]? = some (turn (i + 1)) := fun i hi =>
      hturns (i + 1) (Nat.succ_lt_succ hi)
    have hothers := ih hshifted (Nat.le_of_succ_le_succ hxs) (Nat.le_of_succ_le_succ hys)
    refine ⟨congrArg (· + 1) hothers.left, congrArg (· + 1) hothers.right, fun i hi => ?_,
      fun i hi => ?_⟩
    · cases i with
      | zero => exact ⟨x, y, rfl, rfl, hfirst ▸ rfl, hfirst ▸ rfl⟩
      | succ i => exact hothers.pair i (Nat.lt_of_succ_lt_succ hi)
    · obtain ⟨i, rfl⟩ := Nat.exists_eq_succ_of_ne_zero (Nat.ne_zero_of_lt hi)
      exact hothers.rest i (Nat.le_of_succ_le_succ hi)

theorem turns_new (dim count : Nat) (theta : Float) (position : Nat) :
    (Rotary.new dim count theta).turns position =
      Rotary.turnsAt (Rotary.new dim count theta).turn (Rotary.frequencyList dim theta)
        position := by
  unfold Rotary.turns
  split
  next turns hturns =>
    simp only [Rotary.new, List.getElem?_toArray, List.getElem?_map,
      Option.map_eq_some_iff, List.getElem?_eq_some_iff, List.getElem_range] at hturns
    obtain ⟨_, ⟨-, rfl⟩, rfl⟩ := hturns
    rfl
  next => rfl

/-- Single-precision heads are turned as the model turns them. -/
theorem apply_eq_rotary {dim : Nat} {head : List Float32} (hhead : head.length = dim) (count : Nat)
    (theta : Float) (position : Nat) :
    (new dim count theta).apply head position =
      .ok ((Rotary.new dim count theta).apply head position) := by
  obtain ⟨out, hout, hrotated⟩ := apply_rotated (fun _ => rfl) hhead theta position
  have hlength : ((Rotary.new dim count theta).turns position).length = dim / 2 := by
    simp [turns_new, Rotary.turnsAt, Rotary.frequencyList]
  have hturns : ∀ i < ((Rotary.new dim count theta).turns position).length,
      ((Rotary.new dim count theta).turns position)[i]? = some (turn dim theta position i) := by
    intro i hi
    rw [hlength] at hi
    simp only [turns_new, Rotary.turnsAt, Rotary.frequencyList, List.getElem?_map,
      List.getElem?_range hi]
    rfl
  have hleft : ((Rotary.new dim count theta).turns position).length ≤
      (head.take (dim / 2)).length := by
    rw [hlength, List.length_take]
    omega
  have hright : ((Rotary.new dim count theta).turns position).length ≤
      (head.drop (dim / 2)).length := by
    rw [hlength, List.length_drop]
    omega
  have hturned := turned_rotate hturns hleft hright
  rw [hlength] at hturned
  rw [hout count, hrotated.unique (hturned.rotated (by omega))]
  rfl

/-- Rows of any length are turned as the model turns them. -/
theorem applyHeads_eq_rotary {dim : Nat} (hdim : 1 ≤ dim) (row : List Float32) (count : Nat)
    (theta : Float) (position : Nat) :
    (new dim count theta).applyHeads row position =
      .ok ((Rotary.new dim count theta).applyHeads row position) := by
  have hheads : (pieces dim row).mapM ((new dim count theta).apply · position) =
      .ok ((pieces dim row).map ((Rotary.new dim count theta).apply · position)) :=
    mapM_eq_ok fun head hhead => apply_eq_rotary (length_of_mem_pieces hhead) count theta position
  unfold applyHeads
  rw [if_neg (show ¬ (new dim count theta : RotaryTable Float32).dim = 0 from
    Nat.pos_iff_ne_zero.mp hdim)]
  change (pieces dim row).mapM _ >>= _ = _
  rw [hheads]
  rfl

end RotaryTable

end CausalServe
