import CausalServe.Proofs.Cache.Operations
import CausalServe.Proofs.Total

/-! The books of the cache: what is charged to live slots is what is in use, a slot holds no more
than it is charged for, and a released id is free exactly once. All of it survives every operation,
whether it succeeds or not. -/

namespace CausalServe

theorem dvd_roundUp (n block : Nat) : block ∣ roundUp n block := Nat.dvd_mul_left _ _

theorem le_roundUp (n : Nat) {block : Nat} (h : 0 < block) : n ≤ roundUp n block := by
  have hd := Nat.div_add_mod (n + (block - 1)) block
  have hm := Nat.mod_lt (n + (block - 1)) h
  rw [Nat.mul_comm] at hd
  unfold roundUp
  omega

theorem roundUp_mono {m n : Nat} (h : m ≤ n) (block : Nat) : roundUp m block ≤ roundUp n block :=
  Nat.mul_le_mul_right _ (Nat.div_le_div_right (by omega))

/-- No multiple of the block lies between a number and what it is rounded up to. -/
theorem roundUp_le {n target block : Nat} (hpos : 0 < block) (h : n ≤ target)
    (hdvd : block ∣ target) : roundUp n block ≤ target := by
  obtain ⟨q, rfl⟩ := hdvd
  have hq : (n + (block - 1)) / block ≤ q := by
    rw [← Nat.lt_succ_iff, Nat.div_lt_iff_lt_mul hpos, Nat.succ_mul, Nat.mul_comm q]
    omega
  rw [roundUp, Nat.mul_comm block]
  exact Nat.mul_le_mul_right _ hq

namespace LayerStore

/-- A layer with a buffer for every head, each of them exactly as long as the positions held. -/
structure Filled (l : LayerStore) (numHeads headDim : Nat) : Prop where
  keys : l.keys.length = numHeads
  values : l.values.length = numHeads
  buffers : ∀ buffer ∈ l.keys ++ l.values, buffer.length = l.len * headDim

theorem Filled.empty (numHeads headDim : Nat) : (empty numHeads).Filled numHeads headDim where
  keys := List.length_replicate
  values := List.length_replicate
  buffers := fun buffer h => by
    rcases List.mem_append.mp h with h | h <;>
      simp [List.eq_of_mem_replicate h, LayerStore.empty]

theorem length_extend (headDim : Nat) (slide : Bool) (row : List Float32)
    (buffers : List (List Float32)) :
    (extend headDim slide row buffers).length = buffers.length := by
  simp [extend]

/-- A part of a row that has one for every head is a whole one. -/
theorem length_part {headDim numHeads h : Nat} {row : List Float32} (hh : h < numHeads)
    (hw : row.length = numHeads * headDim) : (part headDim h row).length = headDim := by
  have hm : (h + 1) * headDim ≤ numHeads * headDim := Nat.mul_le_mul_right _ hh
  rw [Nat.add_mul, Nat.one_mul] at hm
  simp only [part, List.length_take, List.length_drop, hw]
  omega

theorem getElem?_extend (headDim : Nat) (slide : Bool) (row : List Float32)
    (buffers : List (List Float32)) (h : Nat) :
    (extend headDim slide row buffers)[h]? = buffers[h]?.map fun buffer =>
      (part headDim h row).reverse ++
        if slide then buffer.take (buffer.length - headDim) else buffer := by
  simp [extend]

/-- A row makes every buffer one position longer, but for a window that slides. -/
theorem length_of_mem_extend {headDim n : Nat} {slide : Bool} {row : List Float32}
    {buffers : List (List Float32)} (hw : row.length = buffers.length * headDim)
    (hb : ∀ buffer ∈ buffers, buffer.length = n * headDim) (hs : slide = true → 0 < n) :
    ∀ buffer ∈ extend headDim slide row buffers,
      buffer.length = (if slide then n else n + 1) * headDim := by
  intro buffer hm
  obtain ⟨h, hh⟩ := List.mem_iff_getElem?.mp hm
  rw [getElem?_extend] at hh
  obtain ⟨old, ho, rfl⟩ := Option.map_eq_some_iff.mp hh
  have hpart := length_part (List.getElem?_eq_some_iff.mp ho).1 hw
  have hold := hb old (List.mem_of_getElem? ho)
  cases slide with
  | false => simp [hpart, hold, Nat.add_mul, Nat.add_comm]
  | true =>
    have hle : headDim ≤ n * headDim := Nat.le_mul_of_pos_left _ (hs rfl)
    simp only [if_true, List.length_append, List.length_reverse, List.length_take, hpart, hold]
    omega

theorem Filled.push {l : LayerStore} {numHeads headDim : Nat} (hl : l.Filled numHeads headDim)
    {slide : Bool} {key value : List Float32} (hk : key.length = numHeads * headDim)
    (hv : value.length = numHeads * headDim) (hs : slide = true → 0 < l.len) :
    (l.push headDim slide key value).Filled numHeads headDim where
  keys := (length_extend ..).trans hl.keys
  values := (length_extend ..).trans hl.values
  buffers := fun buffer h => by
    rcases List.mem_append.mp h with h | h
    · exact length_of_mem_extend (hl.keys ▸ hk)
        (fun b hb => hl.buffers b (List.mem_append_left _ hb)) hs buffer h
    · exact length_of_mem_extend (hl.values ▸ hv)
        (fun b hb => hl.buffers b (List.mem_append_right _ hb)) hs buffer h

end LayerStore

structure Slot.Sound (s : Slot) (c : Cache) : Prop where
  capacity_pos : 0 < s.capacity
  allocated_le : s.allocated ≤ s.capacity
  blocks : c.blockSize ∣ s.allocated ∨ s.allocated = s.capacity
  layers : s.layers.length = c.layout.numLayers
  len_le : ∀ l ∈ s.layers, l.len ≤ s.allocated
  filled : ∀ l ∈ s.layers, l.Filled c.layout.numKvHeads c.layout.headDim
  appended : ∀ l ∈ s.layers, l.len ≤ l.appended
  stamp : s.lastExtended ≤ c.clock

theorem Slot.Sound.mono {s : Slot} {c c' : Cache} (h : s.Sound c) (hb : c'.blockSize = c.blockSize)
    (hl : c'.layout = c.layout) (ht : c.clock ≤ c'.clock) : s.Sound c' where
  capacity_pos := h.capacity_pos
  allocated_le := h.allocated_le
  blocks := by rw [hb]; exact h.blocks
  layers := by rw [hl]; exact h.layers
  len_le := h.len_le
  filled := by rw [hl]; exact h.filled
  appended := h.appended
  stamp := Nat.le_trans h.stamp ht

/-- A slot counts no more positions than it is charged for. -/
theorem Slot.Sound.holds_le {s : Slot} {c : Cache} (h : s.Sound c) : s.len ≤ s.allocated := by
  unfold Slot.len
  cases hmin : (s.layers.map LayerStore.len).min? with
  | none => exact Nat.zero_le _
  | some n =>
    obtain ⟨l, hl, rfl⟩ := List.mem_map.mp (List.min?_mem hmin)
    exact h.len_le l hl

namespace Cache

def charged (c : Cache) : Nat := total (fun o => (o.map Slot.allocated).getD 0) c.slots

structure Sound (c : Cache) : Prop where
  block_pos : 0 < c.blockSize
  free_nodup : c.free.Nodup
  free_iff : ∀ id, id ∈ c.free ↔ id < c.slots.length ∧ c.slot? id = none
  used : c.used = c.charged * c.layout.bytesPerPosition
  gauge : c.gauge = c.used
  budget : ∀ limit, c.budget = some limit → c.used ≤ limit
  slots : ∀ id s, c.slot? id = some s → s.Sound c
  stamps : ∀ id s other t, c.slot? id = some s → c.slot? other = some t →
    s.lastExtended = t.lastExtended → id = other

theorem Sound.new (layout : Layout) (config : CacheConfig) : (new layout config).Sound where
  block_pos := Nat.lt_of_lt_of_le Nat.one_pos (Nat.le_max_right _ _)
  free_nodup := List.nodup_nil
  free_iff := fun id => by simp [Cache.new]
  used := by simp [Cache.new, charged, total]
  gauge := rfl
  budget := fun _ _ => Nat.zero_le _
  slots := fun id s h => by simp [Cache.new, slot?] at h
  stamps := fun id s other t h => by simp [Cache.new, slot?] at h

/-! ## What changes with one slot -/

theorem charged_put {c : Cache} {id : SlotId} {s : Slot} (h : c.slot? id = some s)
    (new : Option Slot) :
    (c.put id new).charged + s.allocated = c.charged + (new.map Slot.allocated).getD 0 :=
  total_set (fun o : Option Slot => (o.map Slot.allocated).getD 0) c.slots (slot?_eq_some.mp h) new

/-- While a slot stays live, the free ids stay the same. -/
theorem Sound.free_iff_put {c : Cache} (hc : c.Sound) {id : SlotId} {s : Slot}
    (h : c.slot? id = some s) (t : Slot) (other : SlotId) :
    other ∈ c.free ↔ other < (c.put id (some t)).slots.length ∧
      (c.put id (some t)).slot? other = none := by
  rw [hc.free_iff, slot?_put (lt_of_slot? h)]
  simp only [put, List.length_set]
  split
  next he => subst he; simp [h]
  next => exact Iff.rfl

/-- Without a live slot nothing is in use. -/
theorem Sound.used_eq_zero {c : Cache} (hc : c.Sound) (h : c.activeSlots = 0) : c.used = 0 := by
  have hz : c.charged = 0 := total_eq_zero fun o ho => by
    obtain ⟨id, hid⟩ := List.mem_iff_getElem?.mp ho
    cases o with
    | none => rfl
    | some s =>
      have := activeSlots_eq_zero.mp h id
      rw [slot?_eq_some.mpr hid] at this
      cases this
  rw [hc.used, hz, Nat.zero_mul]

/-- Only the slot that was put in a place carries the new time. -/
theorem Sound.stamps_put {c c' : Cache} (hc : c.Sound) {id : SlotId} {s : Slot}
    (hs : s.lastExtended = c.clock + 1)
    (h : ∀ other, c'.slot? other = if other = id then some s else c.slot? other) :
    ∀ i t j u, c'.slot? i = some t → c'.slot? j = some u → t.lastExtended = u.lastExtended →
      i = j := by
  intro i t j u ht hu he
  rw [h] at ht hu
  split at ht <;> split at hu
  next h₁ h₂ => rw [h₁, h₂]
  next =>
    cases ht
    have := (hc.slots j u hu).stamp
    omega
  next =>
    cases hu
    have := (hc.slots i t ht).stamp
    omega
  next => exact hc.stamps i t j u ht hu he

/-! ## Operations -/

theorem Sound.nextId_fresh {c : Cache} (hc : c.Sound) : c.slot? c.nextId = none := by
  unfold nextId
  cases hf : c.free with
  | nil => simp [slot?]
  | cons id rest => exact ((hc.free_iff id).mp (by simp [hf])).2

theorem Sound.slot?_opened {c : Cache} (hc : c.Sound) (owner : RequestId) (capacity : Nat)
    (id : SlotId) : (c.opened owner capacity).slot? id =
      if id = c.nextId then some (c.freshSlot owner capacity) else c.slot? id := by
  cases hf : c.free with
  | cons free rest =>
    have hl := ((hc.free_iff free).mp (by simp [hf])).1
    have hn : c.nextId = free := by simp [nextId, hf]
    rw [hn]
    simpa [Cache.opened, hf, slot?, put] using slot?_put hl (some (c.freshSlot owner capacity)) id
  | nil =>
    have hn : c.nextId = c.slots.length := by simp [nextId, hf]
    rw [hn]
    simp only [Cache.opened, hf, slot?]
    rcases Nat.lt_trichotomy id c.slots.length with h | h | h
    · rw [List.getElem?_append_left h, if_neg (Nat.ne_of_lt h)]
    · subst h; simp
    · rw [if_neg (Nat.ne_of_gt h), List.getElem?_eq_none (by simp; omega),
        List.getElem?_eq_none (Nat.le_of_lt h)]

theorem Sound.charged_opened {c : Cache} (hc : c.Sound) (owner : RequestId) (capacity : Nat) :
    (c.opened owner capacity).charged = c.charged := by
  cases hf : c.free with
  | nil => simp [charged, opened, hf, total_append, total, freshSlot]
  | cons free rest =>
    obtain ⟨hl, hn⟩ := (hc.free_iff free).mp (by simp [hf])
    -- the place that is filled held no slot, so nothing was charged there
    have hg : c.slots[free]? = some none := by
      rw [List.getElem?_eq_getElem hl]
      simpa [slot?, List.getElem?_eq_getElem hl] using hn
    have := total_set (fun o : Option Slot => (o.map Slot.allocated).getD 0) c.slots hg
      (some (c.freshSlot owner capacity))
    simpa [charged, opened, hf, freshSlot] using this

theorem Sound.opened {c : Cache} (hc : c.Sound) (owner : RequestId) {capacity : Nat}
    (hpos : 0 < capacity) : (c.opened owner capacity).Sound where
  block_pos := hc.block_pos
  free_nodup := hc.free_nodup.sublist (List.tail_sublist _)
  free_iff := fun id => by
    rw [hc.slot?_opened]
    cases hf : c.free with
    | nil =>
      have hn : c.nextId = c.slots.length := by simp [nextId, hf]
      have hi := hc.free_iff id
      simp only [hf, List.not_mem_nil, false_iff] at hi
      simp only [Cache.opened, hf, hn, List.tail_nil, List.not_mem_nil, List.length_append,
        List.length_singleton, false_iff]
      rintro ⟨hlt, hnone⟩
      split at hnone
      next => cases hnone
      next hne => exact hi ⟨Nat.lt_of_le_of_ne (Nat.le_of_lt_succ hlt) hne, hnone⟩
    | cons free rest =>
      have hn : c.nextId = free := by simp [nextId, hf]
      have hi := hc.free_iff id
      have hnd := hc.free_nodup
      rw [hf, List.nodup_cons] at hnd
      rw [hf, List.mem_cons] at hi
      simp only [Cache.opened, hf, hn, List.tail_cons, List.length_set]
      by_cases he : id = free
      · subst he; simp [hnd.1]
      · simpa [he] using hi
  used := by rw [hc.charged_opened]; exact hc.used
  gauge := hc.gauge
  budget := hc.budget
  slots := fun id s h => by
    rw [hc.slot?_opened] at h
    split at h
    · cases h
      exact {
        capacity_pos := hpos
        allocated_le := Nat.zero_le _
        blocks := .inl (Nat.dvd_zero _)
        layers := List.length_replicate
        len_le := fun l hl => by rw [List.eq_of_mem_replicate hl]; exact Nat.zero_le _
        filled := fun l hl => by rw [List.eq_of_mem_replicate hl]; exact .empty _ _
        appended := fun l hl => by rw [List.eq_of_mem_replicate hl]; exact Nat.le_refl _
        stamp := Nat.le_refl _ }
    · exact (hc.slots id s h).mono rfl rfl (Nat.le_succ _)
  stamps := hc.stamps_put rfl (hc.slot?_opened owner capacity)

theorem slot?_closed {c : Cache} {id : SlotId} {s : Slot} (h : c.slot? id = some s)
    (other : SlotId) : (c.closed id s).slot? other = if other = id then none else c.slot? other :=
  slot?_put (lt_of_slot? h) none other

theorem Sound.closed {c : Cache} (hc : c.Sound) {id : SlotId} {s : Slot}
    (h : c.slot? id = some s) : (c.closed id s).Sound where
  block_pos := hc.block_pos
  free_nodup := List.nodup_cons.mpr
    ⟨fun hm => by rw [hc.free_iff, h] at hm; exact Option.some_ne_none s hm.2, hc.free_nodup⟩
  free_iff := fun other => by
    rw [slot?_closed h]
    simp only [Cache.closed, put, List.mem_cons, hc.free_iff, List.length_set]
    by_cases he : other = id
    · subst he; simp [lt_of_slot? h]
    · simp [he]
  used := by
    have := charged_put h none
    simp only [Option.map_none, Option.getD_none, Nat.add_zero] at this
    change c.used - s.allocated * _ = (c.put id none).charged * _
    rw [hc.used, ← this, Nat.add_mul, Nat.add_sub_cancel]
    rfl
  gauge := rfl
  budget := fun limit hl => Nat.le_trans (Nat.sub_le _ _) (hc.budget limit hl)
  slots := fun other t ht => by
    rw [slot?_closed h] at ht
    split at ht
    · cases ht
    · exact (hc.slots other t ht).mono rfl rfl (Nat.le_refl _)
  stamps := fun i t j u ht hu he => by
    rw [slot?_closed h] at ht hu
    split at ht
    · cases ht
    · split at hu
      · cases hu
      · exact hc.stamps i t j u ht hu he

/-- The charge for a number of positions covers those of them that fit. -/
theorem le_target {c : Cache} (hb : 0 < c.blockSize) (s : Slot) (n : Nat) :
    min n s.capacity ≤ c.target s n :=
  Nat.le_min.mpr ⟨le_roundUp _ hb, Nat.min_le_right _ _⟩

/-- A charge ends with a block, or at the capacity. -/
theorem target_blocks (c : Cache) (s : Slot) (n : Nat) :
    c.blockSize ∣ c.target s n ∨ c.target s n = s.capacity := by
  unfold target
  rcases Nat.le_total (roundUp (min n s.capacity) c.blockSize) s.capacity with hle | hle
  · rw [Nat.min_eq_left hle]
    exact .inl (dvd_roundUp _ _)
  · exact .inr (Nat.min_eq_right hle)

/-- Where a slot is short of a number of positions, the charge for them is more than it has. -/
theorem allocated_lt_target {c : Cache} {s : Slot} {n : Nat} (hb : 0 < c.blockSize)
    (h : ¬ s.Covers n) : s.allocated < c.target s n := by
  have hle := le_target hb s n
  unfold Slot.Covers at h
  omega

/-- The charge for a number of positions ends at every bound of them that is a multiple of the block
or the capacity. -/
theorem target_le {c : Cache} {s : Slot} {n bound : Nat} (hb : 0 < c.blockSize)
    (hn : min n s.capacity ≤ bound) (hblocks : c.blockSize ∣ bound ∨ bound = s.capacity) :
    c.target s n ≤ bound := by
  unfold target
  rcases hblocks with hdvd | rfl
  · exact (Nat.min_le_left _ _).trans (roundUp_le hb hn hdvd)
  · exact Nat.min_le_right _ _

theorem Sound.grown {c : Cache} (hc : c.Sound) {id : SlotId} {s : Slot} {n : Nat}
    (h : c.slot? id = some s) (hn : ¬ s.Covers n) (ha : c.affords (c.growth s n) = true) :
    (c.grown id s n).Sound where
  block_pos := hc.block_pos
  free_nodup := hc.free_nodup
  free_iff := hc.free_iff_put h _
  used := by
    have hp := charged_put h (some { s with allocated := c.target s n })
    have hl := allocated_lt_target hc.block_pos hn
    simp only [Option.map_some, Option.getD_some] at hp
    change c.used + (c.target s n - s.allocated) * _ = (c.put id _).charged * _
    rw [hc.used, ← Nat.add_mul]
    congr 1
    omega
  gauge := rfl
  budget := affords_iff.mp ha
  slots := fun other t ht => by
    rw [slot?_grown h] at ht
    split at ht
    · cases ht
      have hs := hc.slots id s h
      have hl := allocated_lt_target hc.block_pos hn
      exact {
        capacity_pos := hs.capacity_pos
        allocated_le := Nat.min_le_right _ _
        blocks := target_blocks c s n
        layers := hs.layers
        len_le := fun l hm => Nat.le_trans (hs.len_le l hm) (Nat.le_of_lt hl)
        filled := hs.filled
        appended := hs.appended
        stamp := hs.stamp }
    · exact (hc.slots other t ht).mono rfl rfl (Nat.le_refl _)
  stamps := fun i t j u ht hu he => by
    rw [slot?_grown h] at ht hu
    split at ht <;> split at hu
    next h₁ h₂ => rw [h₁, h₂]
    next h₁ _ => cases ht; rw [h₁]; exact hc.stamps id s j u h hu he
    next _ h₂ => cases hu; rw [h₂]; exact hc.stamps i t id s ht h he
    next => exact hc.stamps i t j u ht hu he

theorem slot?_pushed {c : Cache} {id : SlotId} {s : Slot} (h : c.slot? id = some s) (layer : Nat)
    (slide : Bool) (key value : List Float32) (other : SlotId) :
    (c.pushed id s layer slide key value).slot? other = if other = id then some { s with
      layers := s.layers.modify layer (LayerStore.push c.layout.headDim slide key value)
      lastExtended := c.clock + 1 } else c.slot? other :=
  slot?_put (lt_of_slot? h) _ other

/-- An append leaves the other slots as they are, whether it succeeds or not. -/
theorem slot?_append_ne (c : Cache) (id : SlotId) (layer : Nat) (key value : List Float32)
    {other : SlotId} (hne : other ≠ id) :
    (Action.exec (append id layer key value) c).2.slot? other = c.slot? other := by
  rcases exec_append_cases c id layer key value with ⟨e, he⟩ |
    ⟨s, l, c₁, s₁, -, hs, -, hfull, hroom, hs₁, hr⟩
  · rw [he]
  · rw [hr, slot?_pushed hs₁, if_neg hne]
    rcases Nat.lt_or_ge l.len s.capacity with hlt | hge
    · exact slot?_reserve_ne hs (hroom hlt) hne
    · rw [(hfull hge).2]

/-- A property of all layers of a slot survives a row written to one of them, if it survives in
that one. -/
theorem forall_mem_modify {P : LayerStore → Prop} {layers : List LayerStore} {layer : Nat}
    {f : LayerStore → LayerStore} (h : ∀ l ∈ layers, P l)
    (hf : ∀ l, layers[layer]? = some l → P (f l)) : ∀ l ∈ layers.modify layer f, P l := by
  intro l hl
  obtain ⟨i, hi⟩ := List.mem_iff_getElem?.mp hl
  rw [List.getElem?_modify] at hi
  obtain ⟨old, ho, rfl⟩ := Option.map_eq_some_iff.mp hi
  by_cases he : layer = i
  · subst he; simpa using hf old ho
  · simpa [he] using h old (List.mem_of_getElem? ho)

/-- A slot with a row more, which fits in a layer that is either full or charged for it. -/
theorem slotSound_pushed {c : Cache} {id : SlotId} {s : Slot} (hs : s.Sound c) {l : LayerStore}
    {layer : Nat} {slide : Bool} {key value : List Float32} (hl : s.layers[layer]? = some l)
    (hw : c.RowFits key value) (hf : slide = true → s.capacity ≤ l.len)
    (hr : slide = false → l.len + 1 ≤ s.allocated) :
    ({ s with
      layers := s.layers.modify layer (LayerStore.push c.layout.headDim slide key value)
      lastExtended := c.clock + 1 } : Slot).Sound (c.pushed id s layer slide key value) := by
  have hm := List.mem_of_getElem? hl
  have hlen := hs.len_le l hm
  have hcap := hs.capacity_pos
  exact {
    capacity_pos := hs.capacity_pos
    allocated_le := hs.allocated_le
    blocks := hs.blocks
    layers := by rw [List.length_modify]; exact hs.layers
    len_le := forall_mem_modify hs.len_le fun l' h' => by
      cases hl.symm.trans h'
      cases slide <;> simp_all [LayerStore.push]
    filled := forall_mem_modify hs.filled fun l' h' => by
      cases hl.symm.trans h'
      refine (hs.filled l hm).push hw.1 hw.2 fun h => ?_
      have := hf h
      omega
    appended := forall_mem_modify hs.appended fun l' h' => by
      cases hl.symm.trans h'
      have := hs.appended l hm
      cases slide <;> simp only [LayerStore.push] <;> simp <;> omega
    stamp := Nat.le_refl _ }

theorem Sound.pushed {c : Cache} (hc : c.Sound) {id : SlotId} {s : Slot} {l : LayerStore}
    {layer : Nat} {slide : Bool} {key value : List Float32} (h : c.slot? id = some s)
    (hl : s.layers[layer]? = some l) (hw : c.RowFits key value)
    (hf : slide = true → s.capacity ≤ l.len) (hr : slide = false → l.len + 1 ≤ s.allocated) :
    (c.pushed id s layer slide key value).Sound where
  block_pos := hc.block_pos
  free_nodup := hc.free_nodup
  free_iff := hc.free_iff_put h _
  used := by
    have hp := charged_put h (some { s with
      layers := s.layers.modify layer (LayerStore.push c.layout.headDim slide key value)
      lastExtended := c.clock + 1 })
    simp only [Option.map_some, Option.getD_some, Nat.add_right_cancel_iff] at hp
    change c.used = (c.put id _).charged * _
    rw [hp]
    exact hc.used
  gauge := hc.gauge
  budget := hc.budget
  slots := fun other t ht => by
    rw [slot?_pushed h] at ht
    split at ht
    · cases ht
      exact slotSound_pushed (hc.slots id s h) hl hw hf hr
    · exact (hc.slots other t ht).mono rfl rfl (Nat.le_succ _)
  stamps := hc.stamps_put rfl (slot?_pushed h layer slide key value)

/-! ## Every operation keeps the books -/

theorem Sound.allocate {c : Cache} (hc : c.Sound) (owner : RequestId) (capacity : Nat) :
    (Action.exec (allocate owner capacity) c).2.Sound := by
  rw [exec_allocate]
  split
  · exact hc
  next h => exact hc.opened owner (Nat.pos_of_ne_zero h)

theorem Sound.evict {c : Cache} (hc : c.Sound) (id : SlotId) :
    (Action.exec (evict id) c).2.Sound := by
  rw [exec_evict]
  split
  next h => exact hc.closed h
  next => exact hc

theorem Sound.reserve_ok {c c' : Cache} (hc : c.Sound) {id : SlotId} {s : Slot} {n : Nat}
    (h : c.slot? id = some s) (hr : Action.exec (reserve id n) c = (.ok (), c')) : c'.Sound := by
  rcases Cache.reserve_ok h hr with ⟨-, rfl⟩ | ⟨hn, ha, rfl⟩
  · exact hc
  · exact hc.grown h hn ha

theorem Sound.reserve {c : Cache} (hc : c.Sound) (id : SlotId) (n : Nat) :
    (Action.exec (reserve id n) c).2.Sound := by
  cases h : c.slot? id with
  | none => rw [exec_reserve_none h]; exact hc
  | some s =>
    rcases hr : Action.exec (Cache.reserve id n) c with ⟨_ | _, c'⟩
    · rw [reserve_error hr]; exact hc
    · exact hc.reserve_ok h hr

theorem covers_grown {c : Cache} (hb : 0 < c.blockSize) (s : Slot) (n : Nat) :
    ({ s with allocated := c.target s n } : Slot).Covers n :=
  le_target hb s n

/-- A claim that is met leaves the slot as it was, but for a charge that covers the claim. -/
theorem Sound.covers_of_reserve {c c' : Cache} (hc : c.Sound) {id : SlotId} {s : Slot} {n : Nat}
    (h : c.slot? id = some s) (hr : Action.exec (Cache.reserve id n) c = (.ok (), c')) :
    ∃ m, c'.slot? id = some { s with allocated := m } ∧ s.allocated ≤ m ∧
      ({ s with allocated := m } : Slot).Covers n := by
  rcases Cache.reserve_ok h hr with ⟨hn, rfl⟩ | ⟨hn, -, rfl⟩
  · exact ⟨s.allocated, h, Nat.le_refl _, hn⟩
  · exact ⟨_, by rw [slot?_grown h, if_pos rfl],
      Nat.le_of_lt (allocated_lt_target hc.block_pos hn), covers_grown hc.block_pos s n⟩

theorem Sound.append {c : Cache} (hc : c.Sound) (id : SlotId) (layer : Nat)
    (key value : List Float32) : (Action.exec (append id layer key value) c).2.Sound := by
  rcases exec_append_cases c id layer key value with ⟨e, he⟩ |
    ⟨s, l, c₁, s₁, hw, hs, hl, hfull, hroom, hs₁, hr⟩
  · rw [he]; exact hc
  · rw [hr]
    by_cases hf : s.capacity ≤ l.len
    · obtain ⟨-, rfl⟩ := hfull hf
      cases hs.symm.trans hs₁
      exact hc.pushed hs hl hw (fun _ => hf) (fun h => by simp [hf] at h)
    · have hok := hroom (Nat.lt_of_not_le hf)
      obtain ⟨m, hm, -, hcov⟩ := hc.covers_of_reserve hs hok
      cases hm.symm.trans hs₁
      have hw₁ : c₁.RowFits key value := by
        have hlay : c₁.layout = c.layout := by simpa [hok] using (reserve_limits c id (l.len + 1)).layout
        simpa only [RowFits, hlay] using hw
      refine (hc.reserve_ok hs hok).pushed hm hl hw₁ (fun h => by simp [hf] at h) fun _ => ?_
      simp only [Slot.Covers] at hcov
      change l.len + 1 ≤ m
      omega

theorem affords_mono {c : Cache} {m n : Nat} (h : c.affords n = true) (hmn : m ≤ n) :
    c.affords m = true :=
  affords_iff.mpr fun limit hl =>
    Nat.le_trans (Nat.add_le_add_left hmn _) (affords_iff.mp h limit hl)

/-- The charge of a fresh slot is no more than what `bytesFor` tells. -/
theorem growth_le_bytesFor (c : Cache) (s : Slot) (n : Nat) : c.growth s n ≤ c.bytesFor n := by
  have := roundUp_mono (Nat.min_le_left n s.capacity) c.blockSize
  unfold growth bytesFor target
  exact Nat.mul_le_mul_right _ (by omega)

/-- Where a number of positions fits, a fresh slot can be charged with them. -/
theorem Sound.reserve_fresh {c : Cache} (hc : c.Sound) {n : Nat} (hfit : c.canFit n = true)
    (owner : RequestId) (capacity : Nat) :
    ∃ c', Action.exec (Cache.reserve c.nextId n) (c.opened owner capacity) = (.ok (), c') := by
  have hs := hc.slot?_opened owner capacity c.nextId
  rw [if_pos rfl] at hs
  rw [exec_reserve hs]
  split
  · exact ⟨_, rfl⟩
  · have hroom : (c.opened owner capacity).affords ((c.opened owner capacity).bytesFor n) = true :=
      hfit
    rw [if_pos (affords_mono hroom (growth_le_bytesFor _ _ n))]
    exact ⟨_, rfl⟩

end Cache

end CausalServe
