import CausalServe.Proofs.Cache.Contents

/-! Appends as one slot sees them. What an append does to a layer depends on the layer and on the
limits of its slot, and on nothing else but the bytes that are left; and a slot that was charged up
to a number of positions in one run can be charged that far in any other run from the same cache. -/

namespace CausalServe

/-- What an append to a slot goes by, besides the layer. -/
structure SlotLimits where
  layout : Layout
  overflowPolicy : OverflowPolicy
  capacity : Nat

namespace SlotLimits

/-- A row that a layer takes as far as the budget allows. -/
structure Takes (m : SlotLimits) (l : LayerStore) (key value : List Float32) : Prop where
  key : key.length = m.layout.kvWidth
  value : value.length = m.layout.kvWidth
  full : m.capacity ≤ l.len → m.overflowPolicy ≠ .reject

def put (m : SlotLimits) (l : LayerStore) (key value : List Float32) : LayerStore :=
  l.push m.layout.headDim (decide (m.capacity ≤ l.len)) key value

theorem len_put (m : SlotLimits) (l : LayerStore) (key value : List Float32) :
    (m.put l key value).len = if m.capacity ≤ l.len then l.len else l.len + 1 := by
  simp [put, LayerStore.push]

/-- What attention reads of a layer. -/
def view (m : SlotLimits) (l : LayerStore) : CacheView :=
  { keyBuffers := l.keys, valueBuffers := l.values, len := l.len, headDim := m.layout.headDim }

theorem appended_put (m : SlotLimits) (l : LayerStore) (key value : List Float32) :
    (m.put l key value).appended = l.appended + 1 :=
  rfl

end SlotLimits

theorem min?_map_add {counts : List Nat} (hne : counts ≠ []) (n : Nat) :
    (counts.map (· + n)).min?.getD 0 = counts.min?.getD 0 + n := by
  obtain ⟨least, hleast⟩ : ∃ least, counts.min? = some least := by
    cases h : counts.min? with
    | none => exact absurd (List.min?_eq_none_iff.mp h) hne
    | some least => exact ⟨least, rfl⟩
  obtain ⟨hmem, hle⟩ := List.min?_eq_some_iff.mp hleast
  have hsum : (counts.map (· + n)).min? = some (least + n) := by
    refine List.min?_eq_some_iff.mpr ⟨List.mem_map_of_mem hmem, fun b hb => ?_⟩
    obtain ⟨count, hcount, rfl⟩ := List.mem_map.mp hb
    exact Nat.add_le_add_right (hle count hcount) n
  rw [hsum, hleast]
  rfl

namespace Cache

variable {c c' : Cache} {id : SlotId} {m : SlotLimits} {layer : Nat} {l : LayerStore}
  {key value : List Float32}

/-- A sound cache with a live slot of these limits. -/
structure Hosts (c : Cache) (id : SlotId) (m : SlotLimits) : Prop where
  sound : c.Sound
  layout : c.layout = m.layout
  overflowPolicy : c.overflowPolicy = m.overflowPolicy
  slot : ∃ s, c.slot? id = some s ∧ s.capacity = m.capacity

/-- A cache whose live slots still are live, and are charged with more positions if any. No slot
was charged with bytes that are not in use. -/
structure Grew (c c' : Cache) : Prop where
  limits : SameLimits c c'
  sound : c'.Sound
  slot : ∀ id s, c.slot? id = some s → ∃ s', c'.slot? id = some s' ∧ s'.capacity = s.capacity ∧
    s.allocated ≤ s'.allocated ∧ c.used + s'.allocated * c.layout.bytesPerPosition ≤
      c'.used + s.allocated * c.layout.bytesPerPosition

theorem Sound.grew_refl (hc : c.Sound) : c.Grew c where
  limits := .refl c
  sound := hc
  slot := fun _ s h => ⟨s, h, rfl, Nat.le_refl _, Nat.le_refl _⟩

theorem Grew.trans {c₁ c₂ : Cache} (h : c.Grew c₁) (h' : c₁.Grew c₂) : c.Grew c₂ where
  limits := h.limits.trans h'.limits
  sound := h'.sound
  slot := fun id s hs => by
    obtain ⟨s₁, hs₁, hcap, hle, hused⟩ := h.slot id s hs
    obtain ⟨s₂, hs₂, hcap', hle', hused'⟩ := h'.slot id s₁ hs₁
    rw [h.limits.layout] at hused'
    exact ⟨s₂, hs₂, hcap'.trans hcap, hle.trans hle', by omega⟩

theorem Grew.hosts (h : c.Grew c') (hc : c.Hosts id m) : c'.Hosts id m where
  sound := h.sound
  layout := h.limits.layout.trans hc.layout
  overflowPolicy := h.limits.overflowPolicy.trans hc.overflowPolicy
  slot := by
    obtain ⟨s, hs, hcap⟩ := hc.slot
    obtain ⟨s', hs', hcap', -⟩ := h.slot id s hs
    exact ⟨s', hs', hcap'.trans hcap⟩

/-! ## Layers of a live slot -/

theorem Sound.lt_of_layer (hc : c.Sound) (h : c.layer id layer = .ok l) :
    layer < c.layout.numLayers := by
  cases hs : c.slot? id with
  | none =>
    rw [Cache.layer, slot_of_none hs] at h
    cases h
  | some s =>
    rw [layer_of_slot? hs] at h
    rw [← (hc.slots id s hs).layers]
    by_contra hge
    rw [List.getElem?_eq_none (Nat.le_of_not_lt hge)] at h
    cases h

theorem Hosts.layer_of_lt (h : c.Hosts id m) (hlt : layer < m.layout.numLayers) :
    ∃ l, c.layer id layer = .ok l := by
  obtain ⟨s, hs, -⟩ := h.slot
  have hlen : layer < s.layers.length := by rwa [(h.sound.slots id s hs).layers, h.layout]
  exact ⟨_, by rw [layer_of_slot? hs, List.getElem?_eq_getElem hlen]⟩

theorem Hosts.read_eq (hc : c.Hosts id m) (h : c.layer id layer = .ok l) :
    c.read id layer = .ok (m.view l) := by
  rw [SlotLimits.view, ← hc.layout, Cache.read, cursor, h]
  change c.readPrefix id layer l.len = _
  rw [readPrefix, h]
  change (if l.len < l.len then _ else _) = _
  rw [if_neg (Nat.lt_irrefl _)]
  rfl

theorem Sound.len_le_of_layer (hc : c.Sound) {s : Slot} (hs : c.slot? id = some s)
    (h : c.layer id layer = .ok l) : l.len ≤ s.allocated := by
  rw [layer_of_slot? hs] at h
  cases hl : s.layers[layer]? with
  | none => rw [hl] at h; cases h
  | some l' =>
    rw [hl] at h
    cases h
    exact (hc.slots id s hs).len_le l (List.mem_of_getElem? hl)

/-- A slot whose layers all got a number of rows counts on by that number. -/
theorem Hosts.nextPosition_add (hc : c.Hosts id m) (hc' : c'.Hosts id m) {n : Nat}
    (hpos : 0 < m.layout.numLayers) (h : ∀ j < m.layout.numLayers, ∃ l l', c.layer id j = .ok l ∧
      c'.layer id j = .ok l' ∧ l'.appended = l.appended + n) {position : Nat}
    (hposition : c.nextPosition id = .ok position) :
    c'.nextPosition id = .ok (position + n) := by
  obtain ⟨s, hs, -⟩ := hc.slot
  obtain ⟨s', hs', -⟩ := hc'.slot
  have hlen := (hc.sound.slots id s hs).layers
  have hlen' := (hc'.sound.slots id s' hs').layers
  rw [hc.layout] at hlen
  rw [hc'.layout] at hlen'
  have hcounts : s'.layers.map LayerStore.appended =
      (s.layers.map LayerStore.appended).map (· + n) := by
    apply List.ext_getElem
    · simp [hlen, hlen']
    · intro j hj hj'
      have hlt : j < m.layout.numLayers := by simpa [hlen'] using hj
      obtain ⟨l, l', hl, hl', happended⟩ := h j hlt
      rw [layer_of_slot? hs, List.getElem?_eq_getElem (hlen.symm ▸ hlt)] at hl
      rw [layer_of_slot? hs', List.getElem?_eq_getElem (hlen'.symm ▸ hlt)] at hl'
      cases hl
      cases hl'
      simpa using happended
  rw [nextPosition_of_slot? hs] at hposition
  cases hposition
  rw [nextPosition_of_slot? hs']
  refine congrArg Except.ok ?_
  rw [Slot.nextPosition, Slot.nextPosition, hcounts]
  have hne : s.layers.map LayerStore.appended ≠ [] := by
    intro hnil
    rw [List.map_eq_nil_iff.mp hnil] at hlen
    exact absurd hlen.symm (Nat.pos_iff_ne_zero.mp hpos)
  exact min?_map_add hne n

/-- What a slot shows and counts is told by its layers. -/
theorem Hosts.nextPosition_congr (hc : c.Hosts id m) (hc' : c'.Hosts id m)
    (h : ∀ j, c'.layer id j = c.layer id j) : c'.nextPosition id = c.nextPosition id := by
  obtain ⟨s, hs, -⟩ := hc.slot
  obtain ⟨s', hs', -⟩ := hc'.slot
  have hlayers : s'.layers = s.layers := by
    apply List.ext_getElem?
    intro j
    have hj := h j
    rw [layer_of_slot? hs, layer_of_slot? hs'] at hj
    cases hl : s.layers[j]? with
    | none =>
      cases hl' : s'.layers[j]? with
      | none => rfl
      | some l' => rw [hl, hl'] at hj; cases hj
    | some l =>
      cases hl' : s'.layers[j]? with
      | none => rw [hl, hl'] at hj; cases hj
      | some l' => rw [hl, hl'] at hj; cases hj; rfl
  rw [nextPosition_of_slot? hs, nextPosition_of_slot? hs', Slot.nextPosition, Slot.nextPosition,
    hlayers]

/-! ## Appends -/

theorem grew_grown (hc : c.Sound) {s : Slot} {n : Nat} (hs : c.slot? id = some s)
    (hn : ¬ s.Covers n) (ha : c.affords (c.growth s n) = true) : c.Grew (c.grown id s n) where
  limits := ⟨rfl, rfl, rfl, rfl⟩
  sound := hc.grown hs hn ha
  slot := fun other t ht => by
    have htarget := allocated_lt_target hc.block_pos hn
    rw [slot?_grown hs]
    by_cases he : other = id
    · subst he
      cases hs.symm.trans ht
      refine ⟨_, if_pos rfl, rfl, htarget.le, ?_⟩
      change c.used + c.target s n * _ ≤ c.used + c.growth s n + s.allocated * _
      rw [growth, Nat.sub_mul]
      omega
    · refine ⟨t, by rw [if_neg he, ht], rfl, Nat.le_refl _, ?_⟩
      change c.used + _ ≤ c.used + c.growth s n + _
      omega

theorem grew_pushed {s : Slot} (hs : c.slot? id = some s)
    (hsound : (c.pushed id s layer (decide (s.capacity ≤ l.len)) key value).Sound) :
    c.Grew (c.pushed id s layer (decide (s.capacity ≤ l.len)) key value) where
  limits := ⟨rfl, rfl, rfl, rfl⟩
  sound := hsound
  slot := fun other t ht => by
    rw [slot?_pushed hs]
    by_cases he : other = id
    · subst he
      cases hs.symm.trans ht
      exact ⟨_, if_pos rfl, rfl, Nat.le_refl _, Nat.le_refl _⟩
    · exact ⟨t, by rw [if_neg he, ht], rfl, Nat.le_refl _, Nat.le_refl _⟩

/-- What an append that succeeds does. -/
theorem Hosts.append (hc : c.Hosts id m)
    (h : Action.exec (append id layer key value) c = (.ok (), c')) :
    c.Grew c' ∧ ∃ l, c.layer id layer = .ok l ∧ m.Takes l key value ∧
      c'.layer id layer = .ok (m.put l key value) := by
  have hsound := hc.sound.append id layer key value
  rw [h] at hsound
  rcases exec_append_cases c id layer key value with ⟨e, he⟩ |
    ⟨s, l, c₁, s₁, hw, hs, hl, hfull, hroom, hs₁, hr⟩
  · rw [h] at he
    cases he
  rw [h] at hr
  obtain rfl := (Prod.mk.inj hr).2
  obtain ⟨t, ht, hcapacity⟩ := hc.slot
  cases hs.symm.trans ht
  -- the charge leaves all but the number of positions charged to the slot as it was
  have hcharge : c.Grew c₁ ∧ ∃ n, s₁ = { s with allocated := n } := by
    rcases Nat.lt_or_ge l.len s.capacity with hlt | hge
    · rcases reserve_ok hs (hroom hlt) with ⟨-, rfl⟩ | ⟨hn, ha, rfl⟩
      · cases hs.symm.trans hs₁
        exact ⟨hc.sound.grew_refl, s.allocated, rfl⟩
      · rw [slot?_grown hs, if_pos rfl] at hs₁
        exact ⟨grew_grown hc.sound hs hn ha, _, (Option.some.inj hs₁).symm⟩
    · obtain ⟨-, rfl⟩ := hfull hge
      cases hs.symm.trans hs₁
      exact ⟨hc.sound.grew_refl, s.allocated, rfl⟩
  obtain ⟨hgrew, n, rfl⟩ := hcharge
  refine ⟨hgrew.trans (grew_pushed (l := l) hs₁ hsound), l, ?_, ?_, ?_⟩
  · rw [layer_of_slot? hs, hl]
  · refine ⟨hc.layout ▸ hw.1, hc.layout ▸ hw.2, fun hle => ?_⟩
    rw [← hc.overflowPolicy]
    exact (hfull (hcapacity.symm ▸ hle)).1
  · have hnew := slot?_pushed hs₁ layer (decide (s.capacity ≤ l.len)) key value id
    rw [if_pos rfl] at hnew
    rw [layer_of_slot? hnew, List.getElem?_modify, hl, SlotLimits.put, ← hcapacity, ← hc.layout,
      ← hgrew.limits.layout]
    simp

/-- An append that succeeds found its slot live. -/
theorem Sound.append_grew (hc : c.Sound)
    (h : Action.exec (Cache.append id layer key value) c = (.ok (), c')) :
    c.Grew c' ∧ ∃ l, c.layer id layer = .ok l := by
  rcases exec_append_cases c id layer key value with ⟨e, he⟩ | ⟨s, l, c₁, s₁, -, hs, hl, -⟩
  · rw [h] at he
    cases he
  · have hhosts : c.Hosts id ⟨c.layout, c.overflowPolicy, s.capacity⟩ :=
      ⟨hc, rfl, rfl, s, hs, rfl⟩
    exact ⟨(hhosts.append h).1, l, by rw [layer_of_slot? hs, hl]⟩

/-- An append changes nothing in other places. -/
theorem layer_of_append (hc : c.Sound)
    (h : Action.exec (append id layer key value) c = (.ok (), c')) {other : SlotId} {j : Nat}
    (hne : ¬ (other = id ∧ j = layer)) : c'.layer other j = c.layer other j := by
  have heffect := effect_append c id layer key value
  rw [Call.run, Action.exec_map, h] at heffect
  exact heffect.layer_eq hc hne

/-! ## Headroom -/

/-- A slot can be charged up to a number of positions. -/
def Spare (c : Cache) (id : SlotId) (target : Nat) : Prop :=
  ∃ s, c.slot? id = some s ∧ s.allocated ≤ target ∧ target ≤ s.capacity ∧
    (c.blockSize ∣ target ∨ target = s.capacity) ∧
    c.affords ((target - s.allocated) * c.layout.bytesPerPosition) = true

/-- What a slot was charged with in a run it could have been charged with at the start. -/
theorem Grew.spare (h : c.Grew c') {s s' : Slot} (hs : c.slot? id = some s)
    (hs' : c'.slot? id = some s') : c.Spare id s'.allocated := by
  obtain ⟨t, ht, hcap, hle, hused⟩ := h.slot id s hs
  cases hs'.symm.trans ht
  have hsound := h.sound.slots id s' hs'
  refine ⟨s, hs, hle, hcap ▸ hsound.allocated_le, ?_, affords_iff.mpr fun limit hlimit => ?_⟩
  · rw [← h.limits.blockSize, ← hcap]
    exact hsound.blocks
  · have hbudget := h.sound.budget limit (h.limits.budget.trans hlimit)
    have hbytes := Nat.mul_le_mul_right c.layout.bytesPerPosition hle
    rw [Nat.sub_mul]
    omega

/-- A slot with headroom covers what it is charged for. -/
theorem reserve_of_spare {target n : Nat} (hc : c.Sound) (h : c.Spare id target) (hn : n ≤ target) :
    ∃ c', Action.exec (reserve id n) c = (.ok (), c') ∧ c'.Spare id target := by
  obtain ⟨s, hs, hle, hcap, hblocks, hroom⟩ := h
  rw [exec_reserve hs]
  by_cases hcov : s.Covers n
  · exact ⟨c, by rw [if_pos hcov], s, hs, hle, hcap, hblocks, hroom⟩
  · have hlow := allocated_lt_target hc.block_pos hcov
    have hhigh := target_le hc.block_pos ((Nat.min_le_left _ _).trans hn) hblocks
    have hgrowth : c.growth s n ≤ (target - s.allocated) * c.layout.bytesPerPosition :=
      Nat.mul_le_mul_right _ (Nat.sub_le_sub_right hhigh _)
    refine ⟨c.grown id s n, by rw [if_neg hcov, if_pos (affords_mono hroom hgrowth)],
      { s with allocated := c.target s n }, by rw [slot?_grown hs, if_pos rfl], hhigh, hcap,
      hblocks, affords_iff.mpr fun limit hl => ?_⟩
    have hlimit := affords_iff.mp hroom limit hl
    change c.used + c.growth s n + (target - c.target s n) * c.layout.bytesPerPosition ≤ limit
    rw [growth, Nat.add_assoc, ← Nat.add_mul]
    have hsum : c.target s n - s.allocated + (target - c.target s n) = target - s.allocated := by
      omega
    rwa [hsum]

/-- A charge is all that an append to a layer with room still can fail for. -/
theorem exec_append_of_reserve {c₁ : Cache} {s s₁ : Slot} (hw : c.RowFits key value)
    (hs : c.slot? id = some s) (hl : s.layers[layer]? = some l) (hlt : l.len < s.capacity)
    (hr : Action.exec (reserve id (l.len + 1)) c = (.ok (), c₁)) (hs₁ : c₁.slot? id = some s₁) :
    Action.exec (append id layer key value) c =
      (.ok (), c₁.pushed id s₁ layer (decide (s.capacity ≤ l.len)) key value) := by
  unfold append
  have hw' : ¬ (key.length ≠ c.layout.kvWidth ∨ value.length ≠ c.layout.kvWidth) := by
    simpa [RowFits] using hw
  have hf : ¬ s.capacity ≤ l.len := by omega
  simp only [Action.exec_bind, Action.exec_get, if_neg hw', Action.exec_ofExcept,
    slot_of_slot? hs, layer_of_slot? hs, hl]
  by_cases ha : s.allocated < l.len + 1
  · simp [hf, ha, Action.exec_bind, hr, slot_of_slot? hs₁, pushed, put]
  · have hcov : s.Covers (l.len + 1) := by
      unfold Slot.Covers
      omega
    rw [exec_reserve hs, if_pos hcov] at hr
    obtain rfl := (Prod.mk.inj hr).2
    cases hs.symm.trans hs₁
    simp [hf, ha, Action.exec_bind, slot_of_slot? hs, pushed, put]

/-- Where there is headroom, a layer takes every row that its limits allow. -/
theorem Hosts.append_of_spare {target : Nat} (hc : c.Hosts id m) (hspare : c.Spare id target)
    (hl : c.layer id layer = .ok l) (ht : m.Takes l key value)
    (hroom : (m.put l key value).len ≤ target) :
    ∃ c', Action.exec (Cache.append id layer key value) c = (.ok (), c') ∧ c'.Spare id target := by
  obtain ⟨s, hs, hcapacity⟩ := hc.slot
  have hw : c.RowFits key value := ⟨hc.layout ▸ ht.key, hc.layout ▸ ht.value⟩
  have hlayer : s.layers[layer]? = some l := by
    rw [layer_of_slot? hs] at hl
    cases h : s.layers[layer]? with
    | none => rw [h] at hl; cases hl
    | some l' => rw [h] at hl; cases hl; rfl
  have hafter : ∀ {c₁ : Cache} {s₁ : Slot} {slide : Bool}, c₁.Spare id target →
      c₁.slot? id = some s₁ → (c₁.pushed id s₁ layer slide key value).Spare id target := by
    rintro c₁ s₁ slide ⟨t, ht, hrest⟩ hs₁
    cases hs₁.symm.trans ht
    exact ⟨_, (slot?_pushed hs₁ layer slide key value id).trans (if_pos rfl), hrest⟩
  rw [m.len_put] at hroom
  by_cases hfull : s.capacity ≤ l.len
  · have hpolicy := ht.full (hcapacity ▸ hfull)
    rw [← hc.overflowPolicy] at hpolicy
    exact ⟨_, exec_append hw hs hlayer (fun _ => hpolicy) (fun hlt => by omega), hafter hspare hs⟩
  · rw [if_neg (hcapacity ▸ hfull)] at hroom
    obtain ⟨c₁, hr, hspare₁⟩ := reserve_of_spare hc.sound hspare hroom
    obtain ⟨n, hs₁⟩ := slot?_of_reserve_ok hs hr
    exact ⟨_, exec_append_of_reserve hw hs hlayer (Nat.lt_of_not_le hfull) hr hs₁,
      hafter hspare₁ hs₁⟩

end Cache

end CausalServe
