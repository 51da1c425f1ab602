import CausalServe.Proofs.Cache.Accounting

/-! What a layer holds. Of all the rows that were ever written to it these are the latest, as many as
the capacity of its slot allows, and every head keeps its parts of them in one buffer. -/

namespace CausalServe

abbrev KeyValue := List Float32 × List Float32

/-! ## The last items of a list -/

theorem length_rtake {α : Type} (n : Nat) (xs : List α) :
    (xs.rtake n).length = min xs.length n := by
  rw [List.rtake, List.length_drop]
  omega

/-- The window after one more row: it grows until it is full, and slides from then on. -/
theorem rtake_concat {α : Type} {capacity : Nat} (hpos : 0 < capacity) (xs : List α) (x : α) :
    (xs.length < capacity ∧ (xs ++ [x]).rtake capacity = xs.rtake capacity ++ [x]) ∨
      (capacity ≤ xs.length ∧ ∃ first rest, xs.rtake capacity = first :: rest ∧
        (xs ++ [x]).rtake capacity = rest ++ [x]) := by
  rcases Nat.lt_or_ge xs.length capacity with h | h
  · refine .inl ⟨h, ?_⟩
    rw [List.rtake, List.rtake, Nat.sub_eq_zero_of_le (by simpa using h),
      Nat.sub_eq_zero_of_le h.le, List.drop_zero, List.drop_zero]
  · refine .inr ⟨h, ?_⟩
    have hlt : xs.length - capacity < xs.length := by omega
    refine ⟨_, _, List.drop_eq_getElem_cons hlt, ?_⟩
    rw [List.rtake, List.length_append, List.length_singleton,
      List.drop_append_of_le_length (by omega)]
    congr 2
    omega

/-- Rows that a window shows were all written. -/
theorem mem_of_mem_rtake {α : Type} {n : Nat} {xs : List α} {x : α} (h : x ∈ xs.rtake n) : x ∈ xs :=
  List.mem_of_mem_drop h

/-! ## Buffers -/

namespace LayerStore

/-- What one head keeps of a list of rows: its parts, one after another. -/
def parts (headDim h : Nat) (rows : List (List Float32)) : List Float32 :=
  rows.flatMap (part headDim h)

def buffersOf (numHeads headDim : Nat) (rows : List (List Float32)) : List (List Float32) :=
  (List.range numHeads).map fun h => (parts headDim h rows).reverse

@[simp] theorem parts_nil (headDim h : Nat) : parts headDim h [] = [] := rfl

@[simp] theorem parts_cons (headDim h : Nat) (row : List Float32) (rows : List (List Float32)) :
    parts headDim h (row :: rows) = part headDim h row ++ parts headDim h rows := rfl

@[simp] theorem parts_append (headDim h : Nat) (rows more : List (List Float32)) :
    parts headDim h (rows ++ more) = parts headDim h rows ++ parts headDim h more :=
  List.flatMap_append

theorem getElem?_buffersOf (numHeads headDim : Nat) (rows : List (List Float32)) (h : Nat) :
    (buffersOf numHeads headDim rows)[h]? =
      if h < numHeads then some (parts headDim h rows).reverse else none := by
  rw [buffersOf, List.getElem?_map]
  split
  next hlt => rw [List.getElem?_range hlt, Option.map_some]
  next hge => rw [List.getElem?_eq_none (by simpa using hge), Option.map_none]

theorem buffersOf_nil (numHeads headDim : Nat) :
    buffersOf numHeads headDim [] = List.replicate numHeads [] := by
  simp [buffersOf, List.map_const']

/-- A row goes behind those that the buffers hold. -/
theorem extend_buffersOf (numHeads headDim : Nat) (row : List Float32)
    (rows : List (List Float32)) :
    extend headDim false row (buffersOf numHeads headDim rows) =
      buffersOf numHeads headDim (rows ++ [row]) := by
  apply List.ext_getElem?
  intro h
  rw [getElem?_extend, getElem?_buffersOf, getElem?_buffersOf]
  by_cases hh : h < numHeads
  · simp [hh]
  · simp [hh]

/-- In a window that slides, a row goes behind those that the buffers hold, and the oldest of them
is dropped. -/
theorem extend_buffersOf_slide {numHeads headDim : Nat} {first : List Float32}
    (hw : first.length = numHeads * headDim) (row : List Float32) (rows : List (List Float32)) :
    extend headDim true row (buffersOf numHeads headDim (first :: rows)) =
      buffersOf numHeads headDim (rows ++ [row]) := by
  apply List.ext_getElem?
  intro h
  rw [getElem?_extend, getElem?_buffersOf, getElem?_buffersOf]
  by_cases hh : h < numHeads
  · have hpart := length_part hh hw
    have hkeep : (parts headDim h (first :: rows)).reverse.length - headDim =
        (parts headDim h rows).reverse.length := by
      rw [parts_cons, List.length_reverse, List.length_append, hpart, List.length_reverse]
      omega
    have hdrop : (parts headDim h (first :: rows)).reverse.take
        (parts headDim h rows).reverse.length = (parts headDim h rows).reverse := by
      rw [parts_cons, List.reverse_append, List.take_left]
    rw [if_pos hh, if_pos hh, Option.map_some, if_pos rfl, hkeep, hdrop]
    simp
  · rw [if_neg hh, if_neg hh, Option.map_none]

/-- The first positions of a buffer are those of the first rows. -/
theorem take_parts {numHeads headDim h : Nat} (hh : h < numHeads) {rows : List (List Float32)}
    (hw : ∀ row ∈ rows, row.length = numHeads * headDim) (n : Nat) :
    (parts headDim h rows).take (n * headDim) = parts headDim h (rows.take n) := by
  induction rows generalizing n with
  | nil => simp
  | cons row rows ih =>
    cases n with
    | zero => simp
    | succ n =>
      have hpart := length_part hh (hw row (by simp))
      have hsum : (n + 1) * headDim = (part headDim h row).length + n * headDim := by
        rw [hpart, Nat.add_mul, Nat.one_mul, Nat.add_comm]
      rw [parts_cons, hsum, List.take_length_add_append, List.take_succ_cons, parts_cons,
        ih fun other ho => hw other (List.mem_cons_of_mem _ ho)]

/-- A layer that holds the latest of the rows that were written to it. -/
structure Holds (l : LayerStore) (numHeads headDim capacity : Nat) (rows : List KeyValue) :
    Prop where
  keys : l.keys = buffersOf numHeads headDim ((rows.rtake capacity).map Prod.fst)
  values : l.values = buffersOf numHeads headDim ((rows.rtake capacity).map Prod.snd)
  len : l.len = min rows.length capacity
  appended : l.appended = rows.length

theorem Holds.empty (numHeads headDim capacity : Nat) :
    (empty numHeads).Holds numHeads headDim capacity [] where
  keys := by simp [List.rtake, buffersOf_nil, LayerStore.empty]
  values := by simp [List.rtake, buffersOf_nil, LayerStore.empty]
  len := (Nat.zero_min _).symm
  appended := rfl

variable {l : LayerStore} {numHeads headDim capacity : Nat} {rows : List KeyValue}

theorem Holds.push (hl : l.Holds numHeads headDim capacity rows) (hpos : 0 < capacity)
    (hw : ∀ row ∈ rows, row.1.length = numHeads * headDim ∧ row.2.length = numHeads * headDim)
    (key value : List Float32) :
    (l.push headDim (decide (capacity ≤ l.len)) key value).Holds numHeads headDim capacity
      (rows ++ [(key, value)]) := by
  have hlen := hl.len
  rcases rtake_concat hpos rows (key, value) with ⟨hroom, hwin⟩ | ⟨hfull, first, rest, hold, hwin⟩
  · have hslide : decide (capacity ≤ l.len) = false := decide_eq_false (by omega)
    rw [hslide]
    constructor
    · rw [hwin, List.map_append, List.map_singleton, ← extend_buffersOf, ← hl.keys]
      rfl
    · rw [hwin, List.map_append, List.map_singleton, ← extend_buffersOf, ← hl.values]
      rfl
    · change l.len + 1 = _
      rw [List.length_append, List.length_singleton]
      omega
    · change l.appended + 1 = _
      rw [hl.appended, List.length_append, List.length_singleton]
  · have hslide : decide (capacity ≤ l.len) = true := decide_eq_true (by omega)
    have hfirst := hw first (mem_of_mem_rtake (n := capacity) (by rw [hold]; simp))
    rw [hslide]
    constructor
    · change extend headDim true key l.keys = _
      rw [hl.keys, hold, hwin, List.map_cons, extend_buffersOf_slide hfirst.1, List.map_append,
        List.map_singleton]
    · change extend headDim true value l.values = _
      rw [hl.values, hold, hwin, List.map_cons, extend_buffersOf_slide hfirst.2, List.map_append,
        List.map_singleton]
    · change l.len = _
      rw [List.length_append, List.length_singleton]
      omega
    · change l.appended + 1 = _
      rw [hl.appended, List.length_append, List.length_singleton]

end LayerStore

namespace CacheView

/-- A view of a list of rows: each head sees its parts of them in their order. -/
structure Shows (v : CacheView) (layout : Layout) (rows : List KeyValue) : Prop where
  len : v.len = rows.length
  numHeads : v.numHeads = layout.numKvHeads
  keys : ∀ h < layout.numKvHeads,
    v.keys h = (rows.map fun row => LayerStore.part layout.headDim h row.1).flatten
  values : ∀ h < layout.numKvHeads,
    v.values h = (rows.map fun row => LayerStore.part layout.headDim h row.2).flatten

/-- What a head sees of the buffers of a window, where rows are whole. -/
theorem cut_buffersOf {v : CacheView} {numHeads h : Nat} (hh : h < numHeads)
    {f : KeyValue → List Float32} {rows : List KeyValue}
    (hw : ∀ row ∈ rows, (f row).length = numHeads * v.headDim) :
    v.cut (LayerStore.buffersOf numHeads v.headDim (rows.map f)) h =
      ((rows.take v.len).map fun row => LayerStore.part v.headDim h (f row)).flatten := by
  have hrows : ∀ row ∈ rows.map f, row.length = numHeads * v.headDim := by
    intro row hrow
    obtain ⟨pair, hpair, rfl⟩ := List.mem_map.mp hrow
    exact hw pair hpair
  rw [cut, List.getD_eq_getElem?_getD, LayerStore.getElem?_buffersOf, if_pos hh, Option.getD_some,
    List.reverse_reverse, LayerStore.take_parts hh hrows, ← List.map_take, LayerStore.parts,
    List.flatMap_def, List.map_map]
  rfl

/-- The first positions of a layer show the first rows of its window. -/
theorem shows_of_holds {l : LayerStore} {layout : Layout} {capacity : Nat} {rows : List KeyValue}
    (hl : l.Holds layout.numKvHeads layout.headDim capacity rows)
    (hw : ∀ row ∈ rows, row.1.length = layout.kvWidth ∧ row.2.length = layout.kvWidth)
    {len : Nat} (hlen : len ≤ l.len) :
    Shows { keyBuffers := l.keys, valueBuffers := l.values, len := len
            headDim := layout.headDim } layout ((rows.rtake capacity).take len) := by
  constructor
  · rw [hl.len] at hlen
    rw [List.length_take, length_rtake]
    exact (Nat.min_eq_left hlen).symm
  · rw [CacheView.numHeads, hl.keys, LayerStore.buffersOf, List.length_map, List.length_range]
  · intro h hh
    rw [CacheView.keys, hl.keys]
    exact cut_buffersOf hh fun row hrow => (hw row (mem_of_mem_rtake hrow)).1
  · intro h hh
    rw [CacheView.values, hl.values]
    exact cut_buffersOf hh fun row hrow => (hw row (mem_of_mem_rtake hrow)).2

end CacheView

end CausalServe
