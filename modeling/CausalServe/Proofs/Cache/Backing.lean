import CausalServe.Proofs.Cache.Appending

/-! Several slots that can be charged together. Each of them is to come to a number of positions, and
the budget covers what all of them lack. Rows that stay within these numbers are appended in any
order, whether their charge was made before or is made on the way. -/

namespace CausalServe

/-- What one item gives up of its share, the total gives up as well. -/
theorem total_add_le {α : Type} {f g : α → Nat} {xs : List α} (h : ∀ x ∈ xs, g x ≤ f x) {x : α}
    (hx : x ∈ xs) {d : Nat} (hd : g x + d ≤ f x) : total g xs + d ≤ total f xs := by
  induction xs with
  | nil => exact absurd hx List.not_mem_nil
  | cons y ys ih =>
    have hrest := fun z hz => h z (List.mem_cons_of_mem y hz)
    rw [total, total]
    rcases List.mem_cons.mp hx with rfl | hx
    · have := total_le hrest
      omega
    · have := h y List.mem_cons_self
      have := ih hrest hx
      omega

namespace Cache

def charge (c : Cache) (id : SlotId) : Nat := ((c.slot? id).map Slot.allocated).getD 0

/-- Bytes that a slot still is to be charged with. -/
def lack (c : Cache) (target : SlotId → Nat) (id : SlotId) : Nat :=
  (target id - c.charge id) * c.layout.bytesPerPosition

/-- Slots that can be charged up to a number of positions each, all of them together. -/
structure Backs (c : Cache) (target : SlotId → Nat) (ids : List SlotId) : Prop where
  slots : ∀ id ∈ ids, ∃ s, c.slot? id = some s ∧ target id ≤ s.capacity ∧
    (c.blockSize ∣ target id ∨ target id = s.capacity)
  budget : c.affords (total (c.lack target) ids) = true

/-- A layer stays within what its slot can be charged with when it gets a number of rows, and does
not refuse them. -/
def RoomTo (c : Cache) (target : SlotId → Nat) (id : SlotId) (layer n : Nat) : Prop :=
  ∃ s l, c.slot? id = some s ∧ s.layers[layer]? = some l ∧
    min (l.len + n) s.capacity ≤ target id ∧
    (c.overflowPolicy = .reject → l.len + n ≤ s.capacity)

variable {c c' : Cache} {target : SlotId → Nat} {ids : List SlotId} {id : SlotId}

theorem charge_of_slot? {s : Slot} (hs : c.slot? id = some s) : c.charge id = s.allocated := by
  rw [charge, hs]
  rfl

theorem RoomTo.mono {layer m n : Nat} (h : c.RoomTo target id layer n) (hmn : m ≤ n) :
    c.RoomTo target id layer m := by
  obtain ⟨s, l, hs, hl, htarget, hrej⟩ := h
  exact ⟨s, l, hs, hl, by omega, fun hp => by have := hrej hp; omega⟩

/-- Rows that are charged for already have room. -/
theorem HasRoom.roomTo {layer n : Nat} (h : c.HasRoom id layer n)
    (htarget : ∀ s, c.slot? id = some s → s.allocated ≤ target id) :
    c.RoomTo target id layer n := by
  obtain ⟨s, l, hs, hl, hcov, hrej⟩ := h
  exact ⟨s, l, hs, hl, Nat.le_trans hcov (htarget s hs), hrej⟩

/-- A layer that got some rows has room for the others. -/
theorem Grew.hasRoom (h : c.Grew c') {layer n k : Nat} (hroom : c.HasRoom id layer (n + k))
    {l l' : LayerStore} (hl : c.layer id layer = .ok l) (hl' : c'.layer id layer = .ok l')
    (hlen : l'.len ≤ l.len + n) : c'.HasRoom id layer k := by
  obtain ⟨s, _, hs, hstore, hcovers, hfits⟩ := hroom
  obtain ⟨t, ht, htl⟩ := layer_eq_ok.mp hl
  cases hs.symm.trans ht
  cases hstore.symm.trans htl
  obtain ⟨s', hs', hcap, hle, -⟩ := h.slot id s hs
  obtain ⟨t', ht', htl'⟩ := layer_eq_ok.mp hl'
  cases hs'.symm.trans ht'
  refine ⟨s', l', hs', htl', ?_, fun hpolicy => ?_⟩
  · unfold Slot.Covers at hcovers ⊢
    omega
  · have := hfits (h.limits.overflowPolicy ▸ hpolicy)
    omega

/-! ## Charges -/

/-- What slots are charged with already is backed. -/
theorem Sound.backs_charged (hc : c.Sound) (hlive : ∀ id ∈ ids, ∃ s, c.slot? id = some s) :
    c.Backs c.charge ids where
  slots := by
    intro id hid
    obtain ⟨s, hs⟩ := hlive id hid
    have hsound := hc.slots id s hs
    rw [charge_of_slot? hs]
    exact ⟨s, hs, hsound.allocated_le, hsound.blocks⟩
  budget := by
    have hnone : total (c.lack c.charge) ids = 0 := total_eq_zero fun id _ => by
      rw [lack, Nat.sub_self, Nat.zero_mul]
    rw [hnone]
    exact affords_iff.mpr fun limit hlimit => hc.budget limit hlimit

/-- A change that leaves the limits and the charges of the slots as they are leaves them backed. -/
theorem Backs.congr (h : c.Backs target ids) (hlimits : SameLimits c c') (hused : c'.used = c.used)
    (hslots : ∀ id s, c.slot? id = some s → ∃ s', c'.slot? id = some s' ∧
      s'.capacity = s.capacity ∧ s'.allocated = s.allocated) : c'.Backs target ids where
  slots := by
    intro id hid
    obtain ⟨s, hs, hcap, hblocks⟩ := h.slots id hid
    obtain ⟨s', hs', hcapacity, -⟩ := hslots id s hs
    rw [← hcapacity] at hcap hblocks
    exact ⟨s', hs', hcap, hlimits.blockSize.symm ▸ hblocks⟩
  budget := by
    have hlack : ∀ id ∈ ids, c'.lack target id = c.lack target id := by
      intro id hid
      obtain ⟨s, hs, -⟩ := h.slots id hid
      obtain ⟨s', hs', -, halloc⟩ := hslots id s hs
      rw [lack, lack, charge_of_slot? hs, charge_of_slot? hs', halloc, hlimits.layout]
    rw [total_congr hlack]
    refine affords_iff.mpr fun limit hlimit => ?_
    rw [hused]
    exact affords_iff.mp h.budget limit (hlimits.budget ▸ hlimit)

theorem Backs.pushed (h : c.Backs target ids) {s : Slot} (hs : c.slot? id = some s) (layer : Nat)
    (slide : Bool) (key value : List Float32) :
    (c.pushed id s layer slide key value).Backs target ids := by
  refine h.congr ⟨rfl, rfl, rfl, rfl⟩ rfl fun other t ht => ?_
  rw [slot?_pushed hs]
  by_cases he : other = id
  · subst he
    cases hs.symm.trans ht
    exact ⟨_, if_pos rfl, rfl, rfl⟩
  · exact ⟨t, by rw [if_neg he, ht], rfl, rfl⟩

/-- A claim within what is backed is met, and what it is charged with is not lacking any more. -/
theorem Backs.reserve (hc : c.Sound) (h : c.Backs target ids) (hid : id ∈ ids) {n : Nat} {s : Slot}
    (hs : c.slot? id = some s) (hn : min n s.capacity ≤ target id) :
    ∃ c', Action.exec (Cache.reserve id n) c = (.ok (), c') ∧ c'.Backs target ids := by
  rw [exec_reserve hs]
  by_cases hcov : s.Covers n
  · exact ⟨c, by rw [if_pos hcov], h⟩
  obtain ⟨t, ht, hcap, hblocks⟩ := h.slots id hid
  cases hs.symm.trans ht
  have hlow := allocated_lt_target hc.block_pos hcov
  have hhigh := target_le hc.block_pos hn hblocks
  have hlack : (c.grown id s n).lack target id + c.growth s n ≤ c.lack target id := by
    have hgrown := slot?_grown hs n id
    rw [if_pos rfl] at hgrown
    rw [lack, lack, charge_of_slot? hgrown, charge_of_slot? hs, growth]
    change (target id - c.target s n) * c.layout.bytesPerPosition + _ ≤ _
    rw [← Nat.add_mul]
    exact Nat.mul_le_mul_right _ (by omega)
  have hothers : ∀ other ∈ ids, (c.grown id s n).lack target other ≤ c.lack target other := by
    intro other _
    by_cases he : other = id
    · subst he
      omega
    · rw [lack, lack, charge, charge, slot?_grown hs, if_neg he]
      exact Nat.le_refl _
  have htotal := total_add_le hothers hid hlack
  have hgrowth : c.affords (c.growth s n) = true := affords_mono h.budget (by omega)
  refine ⟨c.grown id s n, by rw [if_neg hcov, if_pos hgrowth], ?_, ?_⟩
  · intro other hother
    obtain ⟨t, ht, hcap, hblocks⟩ := h.slots other hother
    rw [slot?_grown hs]
    by_cases he : other = id
    · subst he
      cases hs.symm.trans ht
      exact ⟨_, if_pos rfl, hcap, hblocks⟩
    · exact ⟨t, by rw [if_neg he, ht], hcap, hblocks⟩
  · refine affords_iff.mpr fun limit hlimit => ?_
    have hbudget := affords_iff.mp h.budget limit hlimit
    change c.used + c.growth s n + _ ≤ limit
    omega

/-- A row that stays within what is backed is appended. -/
theorem Backs.append (hc : c.Sound) (h : c.Backs target ids) {w : RowWrite} (hid : w.slot ∈ ids)
    (hw : c.RowFits w.key w.value) (hroom : c.RoomTo target w.slot w.layer 1) :
    ∃ c', Action.exec (Cache.append w.slot w.layer w.key w.value) c = (.ok (), c') ∧
      c'.Backs target ids := by
  obtain ⟨s, l, hs, hl, htarget, hrej⟩ := hroom
  by_cases hfull : s.capacity ≤ l.len
  · have hpolicy : c.overflowPolicy ≠ .reject := fun hp => by
      have := hrej hp
      omega
    exact ⟨_, exec_append hw hs hl (fun _ => hpolicy) (fun hlt => by omega), h.pushed hs ..⟩
  · obtain ⟨c₁, hr, hbacks⟩ := h.reserve hc hid hs htarget
    obtain ⟨n, hs₁⟩ := slot?_of_reserve_ok hs hr
    exact ⟨_, exec_append_of_reserve hw hs hl (Nat.lt_of_not_le hfull) hr hs₁,
      hbacks.pushed hs₁ ..⟩

/-! ## What appends leave behind -/

/-- A cache after rows were appended to some of its slots, and nothing else was done to it. -/
structure Advanced (c : Cache) (ids : List SlotId) (n : SlotId → Nat → Nat) (c' : Cache) :
    Prop where
  grew : c.Grew c'
  rows : c.GrewBy n c'
  others : ∀ id, id ∉ ids → c'.slot? id = c.slot? id

theorem Sound.advanced_refl (hc : c.Sound) (ids : List SlotId) :
    c.Advanced ids (fun _ _ => 0) c where
  grew := hc.grew_refl
  rows := hc.grewBy_refl
  others := fun _ _ => rfl

theorem Advanced.trans {c₁ : Cache} {m n : SlotId → Nat → Nat} (h : c.Advanced ids m c₁)
    (h' : c₁.Advanced ids n c') : c.Advanced ids (fun id i => m id i + n id i) c' where
  grew := h.grew.trans h'.grew
  rows := h.rows.trans h'.rows
  others := fun id hid => (h'.others id hid).trans (h.others id hid)

theorem Sound.append_advanced (hc : c.Sound) {w : RowWrite} (hid : w.slot ∈ ids)
    (h : Action.exec (Cache.append w.slot w.layer w.key w.value) c = (.ok (), c')) :
    c.Advanced ids (RowWrite.count [w]) c' where
  grew := (hc.append_grew h).1
  rows := hc.append_grewBy h
  others := by
    intro other hother
    have hne : other ≠ w.slot := fun he => hother (he ▸ hid)
    have hsame := slot?_append_ne c w.slot w.layer w.key w.value hne
    rwa [h] at hsame

/-- Rows that were appended take up room, and no other. -/
theorem Advanced.roomTo {n : SlotId → Nat → Nat} (h : c.Advanced ids n c') {layer k : Nat}
    (hroom : c.RoomTo target id layer (n id layer + k)) : c'.RoomTo target id layer k := by
  obtain ⟨s, l, hs, hl, htarget, hrej⟩ := hroom
  obtain ⟨s', hs', hgrew⟩ := h.rows.live id s hs
  obtain ⟨l', hl', hlen, -⟩ := hgrew.layers layer l hl
  have hcapacity := hgrew.capacity
  refine ⟨s', l', hs', hl', by omega, fun hp => ?_⟩
  have := hrej (h.grew.limits.overflowPolicy ▸ hp)
  omega

end Cache

end CausalServe
