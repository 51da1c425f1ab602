import CausalServe.Proofs.Cache.Contents

/-! What the books of a cache say of any run of calls: the counters, the charges, the buffers, the
free ids and the stamps agree, and nothing is ever subtracted that is not there. -/

namespace CausalServe

namespace Cache

variable {c : Cache}

/-- A total over the live slots is one over all places, where an empty place counts nothing. -/
theorem total_live (f : Slot → Nat) (c : Cache) :
    total (fun entry => f entry.2) c.live = total (fun o => (o.map f).getD 0) c.slots := by
  have key : ∀ (slots : List (Option Slot)) (start : Nat),
      total (fun entry => f entry.2) ((slots.zipIdx start).filterMap fun entry =>
        entry.1.map fun s => ((entry.2 : SlotId), s)) = total (fun o => (o.map f).getD 0) slots := by
    intro slots
    induction slots with
    | nil => intro start; rfl
    | cons o slots ih =>
      intro start
      cases o with
      | none =>
        simp only [List.zipIdx_cons, List.filterMap_cons, Option.map_none, total, ih,
          Option.getD_none, Nat.zero_add]
      | some s =>
        simp only [List.zipIdx_cons, List.filterMap_cons, Option.map_some, total, ih,
          Option.getD_some]
  exact key c.slots 0

theorem Sound.used_eq (hc : c.Sound) :
    c.used = total (fun entry => entry.2.allocated * c.layout.bytesPerPosition) c.live := by
  rw [total_mul (fun entry : SlotId × Slot => entry.2.allocated), total_live Slot.allocated,
    hc.used]
  rfl

/-- What a slot gives back when it is evicted was in use. -/
theorem Sound.charge_le (hc : c.Sound) {id : SlotId} {s : Slot} (hs : c.slot? id = some s) :
    s.allocated * c.layout.bytesPerPosition ≤ c.used := by
  rw [hc.used_eq]
  exact le_total (fun entry : SlotId × Slot => entry.2.allocated * c.layout.bytesPerPosition)
    (mem_live.mpr hs)

/-- The slot to free next is the one, of those not excluded, that grew before all others. -/
theorem Sound.leastRecentlyExtended_iff (hc : c.Sound) (excluded : List SlotId) (id : SlotId) :
    c.leastRecentlyExtended excluded = some id ↔
      id ∉ excluded ∧ ∃ s, c.slot? id = some s ∧ ∀ other t, c.slot? other = some t →
        other ∉ excluded → other ≠ id → s.lastExtended < t.lastExtended := by
  have hfound : ∀ id, c.leastRecentlyExtended excluded = some id →
      id ∉ excluded ∧ ∃ s, c.slot? id = some s ∧ ∀ other t, c.slot? other = some t →
        other ∉ excluded → other ≠ id → s.lastExtended < t.lastExtended := by
    intro id h
    obtain ⟨s, hmem, hle⟩ := oldest_some h
    obtain ⟨hlive, hx⟩ := List.mem_filter.mp hmem
    have hs := mem_live.mp hlive
    refine ⟨by simpa using hx, s, hs, fun other t ht hnot hne => ?_⟩
    have hle' := hle (other, t) (List.mem_filter.mpr ⟨mem_live.mpr ht, by simpa using hnot⟩)
    -- an equal stamp would make them one slot
    exact Nat.lt_of_le_of_ne hle' fun he => hne (hc.stamps id s other t hs ht he).symm
  constructor
  · exact hfound id
  · rintro ⟨hnot, s, hs, hlt⟩
    cases hsome : c.leastRecentlyExtended excluded with
    | none => exact absurd (leastRecentlyExtended_none hsome hs) hnot
    | some other =>
      obtain ⟨hnot', t, ht, hlt'⟩ := hfound other hsome
      by_cases he : other = id
      · rw [he]
      · have h₁ := hlt other t ht hnot' he
        have h₂ := hlt' id s hs hnot (Ne.symm he)
        omega

/-- Where a claim is not met yet, the charge for it is more than what the slot has, and its buffers
are not longer than that. -/
theorem Sound.target_of_claim (hc : c.Sound) {id : SlotId} {s : Slot} (hs : c.slot? id = some s)
    {positions : Nat} (h : s.allocated < min positions s.capacity) :
    s.allocated ≤ min (roundUp (min positions s.capacity) c.blockSize) s.capacity ∧
      ∀ l ∈ s.layers, ∀ buffer ∈ l.keys ++ l.values, buffer.length ≤
        min (roundUp (min positions s.capacity) c.blockSize) s.capacity * c.layout.headDim := by
  have hlt : s.allocated < c.target s positions :=
    allocated_lt_target hc.block_pos (Nat.not_le.mpr h)
  refine ⟨Nat.le_of_lt hlt, fun l hl buffer hb => ?_⟩
  rw [((hc.slots id s hs).filled l hl).buffers buffer hb]
  exact Nat.mul_le_mul_right _
    (Nat.le_trans ((hc.slots id s hs).len_le l hl) (Nat.le_of_lt hlt))

end Cache

end CausalServe
