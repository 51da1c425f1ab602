import CausalServe.Proofs.Cache.Books

/-! What a budget covers: a fresh slot, one position more for a slot that another gives way to, and
a request that fits alone, which can be admitted to an empty cache and whose slot can grow while no
other is live. -/

namespace CausalServe

/-- The budget covers a request that can come to need a number of positions, and no request is ended
to make room for another. -/
def CacheConfig.Affords (config : CacheConfig) (layout : Layout) (positions : Nat) : Prop :=
  config.memoryBudget = none ∨ (config.pressurePolicy ≠ .evictLeastRecent ∧
    ∀ limit, config.memoryBudget = some limit →
      (Cache.new layout config).bytesFor (min positions config.maxContext) ≤ limit)

theorem CacheConfig.Affords.mono {config : CacheConfig} {layout : Layout} {m n : Nat}
    (h : config.Affords layout n) (hle : m ≤ n) : config.Affords layout m := by
  refine h.imp id fun ⟨hpolicy, hbytes⟩ => ⟨hpolicy, fun limit hlimit => ?_⟩
  refine Nat.le_trans (Nat.mul_le_mul_right _ (roundUp_mono ?_ _)) (hbytes limit hlimit)
  omega

namespace Cache

variable {c : Cache} {layout : Layout} {config : CacheConfig} {n positions : Nat}

theorem bytesFor_mono (c : Cache) {m n : Nat} (h : m ≤ n) : c.bytesFor m ≤ c.bytesFor n :=
  Nat.mul_le_mul_right _ (roundUp_mono h _)

theorem SameLimits.bytesFor {c c' : Cache} (h : SameLimits c c') (n : Nat) :
    c'.bytesFor n = c.bytesFor n := by
  unfold Cache.bytesFor
  rw [h.blockSize, h.layout]

/-! ## The estimate for a fresh slot -/

/-- A slot can be opened with a capacity and charged with a number of positions at once. -/
def TakesFresh (c : Cache) (owner : RequestId) (capacity positions : Nat) : Prop :=
  ∃ id c₁ c₂, Action.exec (allocate owner capacity) c = (.ok id, c₁) ∧
    Action.exec (reserve id positions) c₁ = (.ok (), c₂)

/-- The last block of a number of positions reaches beyond a capacity, and the budget covers them
without the part that does. -/
def CutFits (c : Cache) (capacity positions : Nat) : Prop :=
  capacity < roundUp positions c.blockSize ∧
    c.affords (capacity * c.layout.bytesPerPosition) = true

theorem Sound.canFit_zero (hc : c.Sound) : c.canFit 0 = true := by
  have hround : roundUp 0 c.blockSize = 0 := by
    have := hc.block_pos
    unfold roundUp
    rw [Nat.zero_add, Nat.div_eq_of_lt (by omega), Nat.zero_mul]
  refine affords_iff.mpr fun limit hlimit => ?_
  rw [bytesFor, hround, Nat.zero_mul]
  exact hc.budget limit hlimit

/-- A cache without live slots has room for what a new one has room for. -/
theorem Sound.canFit_of_idle (hc : c.Sound) (hlimits : SameLimits (.new layout config) c)
    (hidle : c.activeSlots = 0) (n : Nat) : c.canFit n = (Cache.new layout config).canFit n := by
  rw [canFit, canFit, affords, affords, hlimits.bytesFor, hlimits.budget, hc.used_eq_zero hidle]
  rfl

/-- A fresh slot is charged with whole blocks, or with its capacity where that is less. The estimate
counts whole blocks only, so it errs by a last block that the capacity cuts, and nowhere else. -/
theorem Sound.takesFresh_iff (hc : c.Sound) (owner : RequestId) {capacity : Nat}
    (hpos : 0 < capacity) (hle : positions ≤ capacity) :
    c.TakesFresh owner capacity positions ↔
      c.canFit positions = true ∨ c.CutFits capacity positions := by
  have hopen : Action.exec (Cache.allocate owner capacity) c =
      (.ok c.nextId, c.opened owner capacity) := by
    rw [exec_allocate, if_neg (Nat.ne_of_gt hpos)]
  have hslot := hc.slot?_opened owner capacity c.nextId
  rw [if_pos rfl] at hslot
  have hcut : min positions capacity = positions := Nat.min_eq_left hle
  constructor
  · rintro ⟨id, c₁, c₂, halloc, hres⟩
    cases hopen.symm.trans halloc
    rcases Cache.reserve_ok hslot hres with ⟨hcov, -⟩ | ⟨-, hroom, -⟩
    · obtain rfl : positions = 0 := by
        change min positions capacity ≤ 0 at hcov
        omega
      exact .inl hc.canFit_zero
    · change c.affords ((min (roundUp (min positions capacity) c.blockSize) capacity - 0) *
        c.layout.bytesPerPosition) = true at hroom
      rw [hcut, Nat.sub_zero] at hroom
      rcases Nat.lt_or_ge capacity (roundUp positions c.blockSize) with hlt | hwhole
      · rw [Nat.min_eq_right (Nat.le_of_lt hlt)] at hroom
        exact .inr ⟨hlt, hroom⟩
      · rw [Nat.min_eq_left hwhole] at hroom
        exact .inl hroom
  · rintro (hfit | ⟨hlt, hroom⟩)
    · obtain ⟨c₂, hres⟩ := hc.reserve_fresh hfit owner capacity
      exact ⟨_, _, c₂, hopen, hres⟩
    · have hgrowth : (c.opened owner capacity).growth (c.freshSlot owner capacity) positions ≤
          capacity * c.layout.bytesPerPosition :=
        Nat.mul_le_mul_right _ ((Nat.sub_le _ _).trans (Nat.min_le_right _ _))
      have hgrow := affords_mono (c := c.opened owner capacity) hroom hgrowth
      have hres := exec_reserve hslot positions
      rw [if_pos hgrow] at hres
      split at hres <;> exact ⟨_, _, _, hopen, hres⟩

/-- Where slots hold whole blocks, none is cut. -/
theorem Sound.not_cutFits (hc : c.Sound) {capacity : Nat} (hle : positions ≤ capacity)
    (hdvd : c.blockSize ∣ capacity) : ¬ c.CutFits capacity positions := fun ⟨hlt, _⟩ =>
  absurd (roundUp_le hc.block_pos hle hdvd) (Nat.not_le.mpr hlt)

/-! ## One position more -/

/-- A slot that is short of one position has filled whole blocks, and takes another one, or what is
left of its capacity. -/
theorem block_of_short {s : Slot} (hs : s.Sound c) (hblock : 0 < c.blockSize)
    (hshort : ¬ s.Covers (s.len + 1)) : s.allocated = s.len ∧ c.blockSize ∣ s.len ∧
      s.len < s.capacity ∧ c.target s (s.len + 1) - s.allocated ≤ min c.blockSize s.capacity := by
  have hholds := hs.holds_le
  have hlt : s.allocated < min (s.len + 1) s.capacity := Nat.lt_of_not_le hshort
  have hfull : s.allocated = s.len := by omega
  have hdvd : c.blockSize ∣ s.len := by
    rcases hs.blocks with hdvd | hall
    · exact hfull ▸ hdvd
    · omega
  have hnext : roundUp (s.len + 1) c.blockSize ≤ s.len + c.blockSize :=
    roundUp_le hblock (by omega) (Nat.dvd_add hdvd (Nat.dvd_refl _))
  refine ⟨hfull, hdvd, by omega, ?_⟩
  have hcut : min (s.len + 1) s.capacity = s.len + 1 := by omega
  rw [target, hcut]
  omega

/-- What is charged to a slot at all is a block, or its whole capacity. -/
theorem block_le_allocated {s : Slot} (hs : s.Sound c) (hpos : 0 < s.allocated) :
    min c.blockSize s.capacity ≤ s.allocated := by
  rcases hs.blocks with hdvd | hall
  · exact (Nat.min_le_left _ _).trans (Nat.le_of_dvd hpos hdvd)
  · exact hall ▸ Nat.min_le_right _ _

/-- Any slot that is charged gives back what another of its capacity takes for one position more. -/
theorem Sound.reserve_of_closed (hc : c.Sound) {id other : SlotId} {s t : Slot}
    (hs : c.slot? id = some s) (ht : c.slot? other = some t) (hne : id ≠ other)
    (hcapacity : t.capacity = s.capacity) (hpos : 0 < t.allocated) (hshort : ¬ s.Covers (s.len + 1)) :
    ∃ c', Action.exec (Cache.reserve id (s.len + 1)) (c.closed other t) = (.ok (), c') := by
  have hkept : (c.closed other t).slot? id = some s := by rw [slot?_closed ht, if_neg hne, hs]
  have hgrow := (block_of_short (hc.slots id s hs) hc.block_pos hshort).2.2.2
  have hback := block_le_allocated (hc.slots other t ht) hpos
  rw [hcapacity] at hback
  have hcharge : c.growth s (s.len + 1) ≤ t.allocated * c.layout.bytesPerPosition :=
    Nat.mul_le_mul_right _ (hgrow.trans hback)
  have hheld := hc.charge_le ht
  have hroom : (c.closed other t).affords (c.growth s (s.len + 1)) = true :=
    affords_iff.mpr fun limit hlimit => by
      have := hc.budget limit hlimit
      change c.used - t.allocated * c.layout.bytesPerPosition + _ ≤ limit
      omega
  rw [exec_reserve hkept, if_neg hshort]
  exact ⟨_, if_pos hroom⟩

/-! ## What a budget covers -/

/-- An empty cache takes a request that the budget covers. -/
theorem canFit_of_affords (haffords : config.Affords layout positions) (hsound : c.Sound)
    (hlimits : SameLimits (.new layout config) c) (hempty : c.activeSlots = 0)
    (hn : n ≤ min positions config.maxContext) : c.canFit n = true := by
  rw [hsound.canFit_of_idle hlimits hempty]
  refine affords_iff.mpr fun limit hlimit => ?_
  rcases haffords with hnone | ⟨-, hbytes⟩
  · exact absurd (hnone.symm.trans hlimit) nofun
  · change 0 + _ ≤ limit
    rw [Nat.zero_add]
    exact Nat.le_trans (bytesFor_mono _ hn) (hbytes limit hlimit)

/-- All that is charged is charged to the only slot. -/
theorem Sound.used_of_single (hsound : c.Sound) {slot : SlotId} {st : Slot}
    (hst : c.slot? slot = some st) (honly : ∀ other t, c.slot? other = some t → other = slot) :
    c.used = st.allocated * c.layout.bytesPerPosition := by
  have hrest : (c.put slot none).charged = 0 := total_eq_zero fun o ho => by
    obtain ⟨id, hid⟩ := List.mem_iff_getElem?.mp ho
    cases o with
    | none => rfl
    | some t =>
      have hput := slot?_put (lt_of_slot? hst) none id
      rw [slot?_eq_some.mpr hid] at hput
      split at hput
      · cases hput
      next hne => exact absurd (honly id t hput.symm) hne
  have hput := charged_put hst none
  rw [hrest] at hput
  simp only [Option.map_none, Option.getD_none, Nat.zero_add, Nat.add_zero] at hput
  rw [hsound.used, ← hput]

/-- The only slot grows as far as the budget covers. -/
theorem reserve_of_affords (haffords : config.Affords layout positions) (hsound : c.Sound)
    (hlimits : SameLimits (.new layout config) c) {slot : SlotId} {st : Slot}
    (hst : c.slot? slot = some st) (honly : ∀ other t, c.slot? other = some t → other = slot)
    (hcapacity : st.capacity = config.maxContext) (hn : n ≤ positions) :
    ∃ c', Action.exec (Cache.reserve slot n) c = (.ok (), c') := by
  rw [exec_reserve hst]
  split
  · exact ⟨_, rfl⟩
  next hcov =>
    have hroom : c.affords (c.growth st n) = true := affords_iff.mpr fun limit hlimit => by
      rw [hlimits.budget] at hlimit
      rcases haffords with hnone | ⟨-, hbytes⟩
      · exact absurd (hnone.symm.trans hlimit) nofun
      have htarget := allocated_lt_target hsound.block_pos hcov
      have hsum : c.used + c.growth st n = c.target st n * c.layout.bytesPerPosition := by
        rw [hsound.used_of_single hst honly, growth, ← Nat.add_mul]
        congr 1
        omega
      have hle : c.target st n ≤ roundUp (min positions config.maxContext) c.blockSize := by
        refine Nat.le_trans (Nat.min_le_left _ _) (roundUp_mono ?_ _)
        rw [hcapacity]
        omega
      have hcharge : c.target st n * c.layout.bytesPerPosition ≤
          c.bytesFor (min positions config.maxContext) := Nat.mul_le_mul_right _ hle
      rw [hlimits.bytesFor] at hcharge
      rw [hsum]
      exact Nat.le_trans hcharge (hbytes limit hlimit)
    rw [if_pos hroom]
    exact ⟨_, rfl⟩

end Cache

end CausalServe
