import CausalServe.Cache.Basic
import CausalServe.Proofs.Action

/-! What every operation on the cache does, as a function of the cache it finds. Below this module
an operation is spoken of through these equations and through `slot?`, never through its steps. -/

namespace CausalServe

/-- A slot holds a number of positions, or all that its capacity allows, without another charge. -/
def Slot.Covers (s : Slot) (positions : Nat) : Prop := min positions s.capacity ≤ s.allocated

instance (s : Slot) (positions : Nat) : Decidable (s.Covers positions) :=
  inferInstanceAs (Decidable (_ ≤ _))

namespace Cache

/-! ## Slots by id -/

theorem slot?_eq_some {c : Cache} {id : SlotId} {s : Slot} :
    c.slot? id = some s ↔ c.slots[id]? = some (some s) := by
  simp [slot?, Option.join_eq_some_iff]

theorem lt_of_slot? {c : Cache} {id : SlotId} {s : Slot} (h : c.slot? id = some s) :
    id < c.slots.length :=
  (List.getElem?_eq_some_iff.mp (slot?_eq_some.mp h)).1

theorem slot_of_slot? {c : Cache} {id : SlotId} {s : Slot} (h : c.slot? id = some s) :
    c.slot id = .ok s := by
  simp [slot, h]

theorem slot_of_none {c : Cache} {id : SlotId} (h : c.slot? id = none) :
    c.slot id = .error (.slotNotFound id) := by
  simp [slot, h]

theorem len_of_slot? {c : Cache} {id : SlotId} {s : Slot} (h : c.slot? id = some s) :
    c.len id = .ok s.len := by
  rw [len, slot_of_slot? h]
  rfl

theorem capacity_of_slot? {c : Cache} {id : SlotId} {s : Slot} (h : c.slot? id = some s) :
    c.capacity id = .ok s.capacity := by
  rw [capacity, slot_of_slot? h]
  rfl

def put (c : Cache) (id : SlotId) (s : Option Slot) : Cache := { c with slots := c.slots.set id s }

theorem slot?_put {c : Cache} {id : SlotId} (h : id < c.slots.length) (s : Option Slot)
    (other : SlotId) : (c.put id s).slot? other = if other = id then s else c.slot? other := by
  unfold slot? put
  rw [List.getElem?_set]
  by_cases he : id = other
  · subst he; simp [h]
  · rw [if_neg he, if_neg (Ne.symm he)]

theorem mem_live {c : Cache} {id : SlotId} {s : Slot} : (id, s) ∈ c.live ↔ c.slot? id = some s := by
  simp only [live, List.mem_filterMap, slot?_eq_some]
  constructor
  · rintro ⟨⟨o, i⟩, hm, he⟩
    have hg : c.slots[i]? = some o := by simpa using List.mem_zipIdx_iff_getElem?.mp hm
    cases o with
    | none => simp at he
    | some t =>
      simp only [Option.map_some, Option.some.injEq, Prod.mk.injEq] at he
      rw [← he.1, ← he.2]
      exact hg
  · intro hg
    exact ⟨(some s, id), List.mem_zipIdx_iff_getElem?.mpr (by simpa using hg), rfl⟩

theorem activeSlots_eq_zero {c : Cache} : c.activeSlots = 0 ↔ ∀ id, c.slot? id = none := by
  rw [activeSlots, List.length_eq_zero_iff, List.eq_nil_iff_forall_not_mem]
  constructor
  · intro h id
    cases hs : c.slot? id with
    | none => rfl
    | some s => exact absurd (mem_live.mpr hs) (h _)
  · rintro h ⟨id, s⟩ hm
    rw [mem_live, h] at hm
    cases hm

/-- The search for the entry that grew longest ago ends at one that it met, and none that it met
grew before. -/
theorem foldl_older (rest : List (SlotId × Slot)) (found : SlotId × Slot) :
    let last := rest.foldl (fun found next =>
      if next.2.lastExtended < found.2.lastExtended then next else found) found
    last ∈ found :: rest ∧ ∀ entry ∈ found :: rest, last.2.lastExtended ≤ entry.2.lastExtended := by
  induction rest generalizing found with
  | nil => simp
  | cons next rest ih =>
    simp only [List.foldl_cons, List.mem_cons, forall_eq_or_imp] at ih ⊢
    by_cases hlt : next.2.lastExtended < found.2.lastExtended
    · rw [if_pos hlt]
      obtain ⟨hmem, hnext, hrest⟩ := ih next
      exact ⟨.inr hmem, by omega, hnext, hrest⟩
    · rw [if_neg hlt]
      obtain ⟨hmem, hfound, hrest⟩ := ih found
      exact ⟨hmem.imp_right .inr, hfound, by omega, hrest⟩

theorem oldest_some {entries : List (SlotId × Slot)} {id : SlotId} (h : oldest entries = some id) :
    ∃ s, (id, s) ∈ entries ∧ ∀ entry ∈ entries, s.lastExtended ≤ entry.2.lastExtended := by
  cases entries with
  | nil => cases h
  | cons first rest =>
    obtain ⟨hmem, hle⟩ := foldl_older rest first
    cases h
    exact ⟨_, hmem, hle⟩

theorem oldest_eq_none {entries : List (SlotId × Slot)} : oldest entries = none ↔ entries = [] := by
  cases entries <;> simp [oldest]

/-- The slot to free next is live and not excluded. -/
theorem leastRecentlyExtended_some {c : Cache} {excluded : List SlotId} {id : SlotId}
    (h : c.leastRecentlyExtended excluded = some id) :
    id ∉ excluded ∧ ∃ s, c.slot? id = some s := by
  obtain ⟨s, hs, -⟩ := oldest_some h
  obtain ⟨hl, hx⟩ := List.mem_filter.mp hs
  exact ⟨by simpa using hx, s, mem_live.mp hl⟩

theorem leastRecentlyExtended_none {c : Cache} {excluded : List SlotId}
    (h : c.leastRecentlyExtended excluded = none) {id : SlotId} {s : Slot}
    (hs : c.slot? id = some s) : id ∈ excluded := by
  have he := List.filter_eq_nil_iff.mp (oldest_eq_none.mp h) (id, s) (mem_live.mpr hs)
  simpa using he

/-! ## Allocation and eviction -/

def nextId (c : Cache) : SlotId := c.free.headD c.slots.length

def freshSlot (c : Cache) (owner : RequestId) (capacity : Nat) : Slot :=
  { owner := owner, capacity := capacity, lastExtended := c.clock + 1
    layers := List.replicate c.layout.numLayers (.empty c.layout.numKvHeads) }

def opened (c : Cache) (owner : RequestId) (capacity : Nat) : Cache :=
  { c with
    slots := match c.free with
      | id :: _ => c.slots.set id (some (c.freshSlot owner capacity))
      | [] => c.slots ++ [some (c.freshSlot owner capacity)]
    free := c.free.tail
    clock := c.clock + 1 }

theorem exec_allocate (c : Cache) (owner : RequestId) (capacity : Nat) :
    Action.exec (allocate owner capacity) c =
      if capacity = 0 then (.error (.invalidRequest .zeroCapacity), c)
      else (.ok c.nextId, c.opened owner capacity) := by
  unfold allocate
  by_cases h : capacity = 0
  · simp [h]
  · simp only [h, if_false, Action.exec_bind, Action.exec_get]
    cases hf : c.free <;> simp [Action.exec_map, hf, nextId, opened, freshSlot]

def closed (c : Cache) (id : SlotId) (s : Slot) : Cache :=
  { c.put id none with
    free := id :: c.free
    used := c.used - s.allocated * c.layout.bytesPerPosition
    gauge := c.used - s.allocated * c.layout.bytesPerPosition }

theorem exec_evict (c : Cache) (id : SlotId) :
    Action.exec (evict id) c = match c.slot? id with
      | some s => (.ok (), c.closed id s)
      | none => (.error (.slotNotFound id), c) := by
  unfold evict
  cases h : c.slot? id with
  | none => simp [Action.exec_bind, slot_of_none h]
  | some s => simp [Action.exec_bind, slot_of_slot? h, closed, put]

/-! ## Growth -/

/-- The positions that a slot is charged with to hold a number of them. -/
def target (c : Cache) (s : Slot) (positions : Nat) : Nat :=
  min (roundUp (min positions s.capacity) c.blockSize) s.capacity

/-- The bytes that this takes beyond what is charged. -/
def growth (c : Cache) (s : Slot) (positions : Nat) : Nat :=
  (c.target s positions - s.allocated) * c.layout.bytesPerPosition

def grown (c : Cache) (id : SlotId) (s : Slot) (positions : Nat) : Cache :=
  { c.put id (some { s with allocated := c.target s positions }) with
    used := c.used + c.growth s positions
    gauge := c.used + c.growth s positions }

theorem affords_iff {c : Cache} {bytes : Nat} :
    c.affords bytes = true ↔ ∀ limit, c.budget = some limit → c.used + bytes ≤ limit := by
  unfold affords
  cases c.budget <;> simp

theorem exec_reserve {c : Cache} {id : SlotId} {s : Slot} (h : c.slot? id = some s)
    (positions : Nat) :
    Action.exec (reserve id positions) c =
      if s.Covers positions then (.ok (), c)
      else if c.affords (c.growth s positions) then (.ok (), c.grown id s positions)
      else (.error (.cacheOverflow
        (.overBudget id (c.growth s positions) c.used (c.budget.getD 0))), c) := by
  unfold reserve
  simp only [Action.exec_bind, Action.exec_get, Action.exec_ofExcept, slot_of_slot? h]
  by_cases hc : s.Covers positions
  · rw [if_pos hc]
    have hc' : min positions s.capacity ≤ s.allocated := hc
    simp [hc']
  · rw [if_neg hc]
    have hc' : ¬ min positions s.capacity ≤ s.allocated := hc
    rw [if_neg hc']
    cases hb : c.budget with
    | none => simp [affords, hb, grown, growth, target, put]
    | some limit =>
      simp only [affords, hb, Option.all_some, decide_eq_true_eq, Option.getD_some]
      by_cases hl : c.used + c.growth s positions ≤ limit
      · have hn : ¬ limit < c.used + c.growth s positions := by omega
        rw [if_pos hl]
        simp only [growth, target] at hn
        simp [hn, grown, growth, target, put, hb]
      · have hn : limit < c.used + c.growth s positions := by omega
        rw [if_neg hl]
        simp only [growth, target] at hn ⊢
        simp [hn]

theorem exec_reserve_none {c : Cache} {id : SlotId} (h : c.slot? id = none) (positions : Nat) :
    Action.exec (reserve id positions) c = (.error (.slotNotFound id), c) := by
  unfold reserve
  simp [Action.exec_bind, slot_of_none h]

theorem slot?_grown {c : Cache} {id : SlotId} {s : Slot} (h : c.slot? id = some s)
    (positions : Nat) (other : SlotId) : (c.grown id s positions).slot? other =
      if other = id then some { s with allocated := c.target s positions } else c.slot? other :=
  slot?_put (lt_of_slot? h) _ other

/-- A claim that is met changes at most what is charged to its slot. -/
theorem reserve_ok {c c' : Cache} {id : SlotId} {s : Slot} {positions : Nat}
    (h : c.slot? id = some s) (hr : Action.exec (reserve id positions) c = (.ok (), c')) :
    (s.Covers positions ∧ c' = c) ∨
      (¬ s.Covers positions ∧ c.affords (c.growth s positions) = true ∧
        c' = c.grown id s positions) := by
  rw [exec_reserve h] at hr
  split at hr
  next hc => exact .inl ⟨hc, (Prod.mk.inj hr).2.symm⟩
  next hc =>
    split at hr
    next ha => exact .inr ⟨hc, ha, (Prod.mk.inj hr).2.symm⟩
    next => cases (Prod.mk.inj hr).1

theorem reserve_error {c c' : Cache} {id : SlotId} {positions : Nat} {e : Error}
    (hr : Action.exec (reserve id positions) c = (.error e, c')) : c' = c := by
  cases h : c.slot? id with
  | none => rw [exec_reserve_none h] at hr; exact (Prod.mk.inj hr).2.symm
  | some s =>
    rw [exec_reserve h] at hr
    split at hr
    · cases (Prod.mk.inj hr).1
    · split at hr
      · cases (Prod.mk.inj hr).1
      · exact (Prod.mk.inj hr).2.symm

/-- Without a budget no claim is refused. -/
theorem budget_of_reserve_error {c c' : Cache} {id : SlotId} {s : Slot} {positions : Nat}
    {e : Error} (h : c.slot? id = some s)
    (hr : Action.exec (reserve id positions) c = (.error e, c')) : c.budget ≠ none := fun hb => by
  rw [exec_reserve h, affords, hb] at hr
  split at hr <;> simp at hr

theorem slot?_of_reserve_ok {c c' : Cache} {id : SlotId} {s : Slot} {positions : Nat}
    (h : c.slot? id = some s) (hr : Action.exec (reserve id positions) c = (.ok (), c')) :
    ∃ n, c'.slot? id = some { s with allocated := n } := by
  rcases reserve_ok h hr with ⟨-, rfl⟩ | ⟨-, -, rfl⟩
  · exact ⟨s.allocated, h⟩
  · exact ⟨_, by rw [slot?_grown h, if_pos rfl]⟩

theorem slot?_reserve_ne {c c' : Cache} {id : SlotId} {s : Slot} {positions : Nat}
    (h : c.slot? id = some s) (hr : Action.exec (reserve id positions) c = (.ok (), c'))
    {other : SlotId} (hne : other ≠ id) : c'.slot? other = c.slot? other := by
  rcases reserve_ok h hr with ⟨-, rfl⟩ | ⟨-, -, rfl⟩
  · rfl
  · exact (slot?_grown h _ other).trans (if_neg hne)

/-- After a claim was met every live slot is as it was, but for what is charged to it. -/
theorem slot?_reserve_some {c c' : Cache} {id other : SlotId} {s t : Slot} {positions : Nat}
    (h : c.slot? id = some s) (hr : Action.exec (reserve id positions) c = (.ok (), c'))
    (ht : c'.slot? other = some t) :
    ∃ old charge, c.slot? other = some old ∧ t = { old with allocated := charge } := by
  by_cases he : other = id
  · obtain ⟨n, hn⟩ := slot?_of_reserve_ok h hr
    subst he
    exact ⟨s, n, h, Option.some.inj (ht.symm.trans hn)⟩
  · exact ⟨t, t.allocated, (slot?_reserve_ne h hr he).symm.trans ht, rfl⟩

/-! ## Rows -/

def pushed (c : Cache) (id : SlotId) (s : Slot) (layer : Nat) (slide : Bool)
    (key value : List Float32) : Cache :=
  { c.put id (some { s with
      layers := s.layers.modify layer (LayerStore.push c.layout.headDim slide key value)
      lastExtended := c.clock + 1 }) with
    clock := c.clock + 1 }

def RowFits (c : Cache) (key value : List Float32) : Prop :=
  key.length = c.layout.kvWidth ∧ value.length = c.layout.kvWidth

theorem nextPosition_of_slot? {c : Cache} {id : SlotId} {s : Slot} (h : c.slot? id = some s) :
    c.nextPosition id = .ok s.nextPosition := by
  rw [nextPosition, slot_of_slot? h]
  rfl

theorem layer_of_slot? {c : Cache} {id : SlotId} {s : Slot} (h : c.slot? id = some s)
    (layer : Nat) : c.layer id layer = match s.layers[layer]? with
      | some l => .ok l
      | none => .error (.shape "kv layer" [s.layers.length] [layer]) := by
  unfold Cache.layer
  rw [slot_of_slot? h]
  change (match s.layers[layer]? with | some l => _ | none => _) = _
  cases s.layers[layer]? <;> rfl

/-- An append that fails changes nothing; one that succeeds writes its row to a slot that covers
it, charged just before if need be. In a full layer the row takes the place of the oldest. -/
theorem exec_append_cases (c : Cache) (id : SlotId) (layer : Nat) (key value : List Float32) :
    (∃ e, Action.exec (append id layer key value) c = (.error e, c)) ∨
    ∃ s l c₁ s₁, c.RowFits key value ∧ c.slot? id = some s ∧ s.layers[layer]? = some l ∧
      (s.capacity ≤ l.len → c.overflowPolicy ≠ .reject ∧ c₁ = c) ∧
      (l.len < s.capacity → Action.exec (reserve id (l.len + 1)) c = (.ok (), c₁)) ∧
      c₁.slot? id = some s₁ ∧
      Action.exec (append id layer key value) c =
        (.ok (), c₁.pushed id s₁ layer (decide (s.capacity ≤ l.len)) key value) := by
  unfold append
  simp only [Action.exec_bind, Action.exec_get]
  by_cases hw : key.length ≠ c.layout.kvWidth ∨ value.length ≠ c.layout.kvWidth
  · exact .inl ⟨_, by rw [if_pos hw]; rfl⟩
  rw [if_neg hw]
  have hfit : c.RowFits key value := by simpa [RowFits] using hw
  cases hs : c.slot? id with
  | none => exact .inl ⟨_, by simp [Action.exec_bind, slot_of_none hs]; rfl⟩
  | some s =>
    simp only [Action.exec_bind, Action.exec_ofExcept, slot_of_slot? hs, layer_of_slot? hs]
    cases hl : s.layers[layer]? with
    | none => exact .inl ⟨_, rfl⟩
    | some l =>
      by_cases hf : s.capacity ≤ l.len
      · by_cases hp : c.overflowPolicy = .reject
        · exact .inl ⟨_, by simp [hf, hp]; rfl⟩
        · refine .inr ⟨s, l, c, s, hfit, rfl, hl, fun _ => ⟨hp, rfl⟩, fun h => by omega, hs, ?_⟩
          simp [hf, hp, Action.exec_bind, slot_of_slot? hs, pushed, put]
      · simp only [hf, decide_false, Bool.false_eq_true, false_and, if_false, Bool.not_false,
          Bool.true_and, decide_eq_true_eq]
        by_cases ha : s.allocated < l.len + 1
        · rw [if_pos ha]
          -- the charge is the only step that can still fail
          rcases hr : Action.exec (reserve id (l.len + 1)) c with ⟨_ | _, c₁⟩
          · obtain rfl := reserve_error hr
            exact .inl ⟨_, by rw [Action.exec_bind_error hr]⟩
          · obtain ⟨n, hn⟩ := slot?_of_reserve_ok hs hr
            refine .inr ⟨s, l, c₁, _, hfit, rfl, hl, fun h => absurd h hf, fun _ => hr, hn, ?_⟩
            simp [Action.exec_bind, hr, slot_of_slot? hn, pushed, put, hf]
        · rw [if_neg ha]
          have hr : Action.exec (reserve id (l.len + 1)) c = (.ok (), c) := by
            rw [exec_reserve hs, if_pos (show s.Covers _ by unfold Slot.Covers; omega)]
          refine .inr ⟨s, l, c, s, hfit, rfl, hl, fun h => absurd h hf, fun _ => hr, hs, ?_⟩
          simp [Action.exec_bind, slot_of_slot? hs, pushed, put, hf]

/-- An append that fits its slot, and needs no charge, succeeds. -/
theorem exec_append {c : Cache} {id : SlotId} {s : Slot} {layer : Nat} {l : LayerStore}
    {key value : List Float32} (hw : c.RowFits key value) (hs : c.slot? id = some s)
    (hl : s.layers[layer]? = some l) (hfull : s.capacity ≤ l.len → c.overflowPolicy ≠ .reject)
    (hroom : l.len < s.capacity → l.len + 1 ≤ s.allocated) :
    Action.exec (append id layer key value) c =
      (.ok (), c.pushed id s layer (decide (s.capacity ≤ l.len)) key value) := by
  unfold append
  have hw' : ¬ (key.length ≠ c.layout.kvWidth ∨ value.length ≠ c.layout.kvWidth) := by
    simpa [RowFits] using hw
  simp only [Action.exec_bind, Action.exec_get, if_neg hw', Action.exec_ofExcept,
    slot_of_slot? hs, layer_of_slot? hs, hl]
  by_cases hf : s.capacity ≤ l.len
  · simp [hf, hfull hf, Action.exec_bind, slot_of_slot? hs, pushed, put]
  · have ha : ¬ s.allocated < l.len + 1 := by
      have := hroom (Nat.lt_of_not_le hf)
      omega
    simp [hf, ha, Action.exec_bind, slot_of_slot? hs, pushed, put]

/-! ## What no operation changes -/

structure SameLimits (c c' : Cache) : Prop where
  layout : c'.layout = c.layout
  blockSize : c'.blockSize = c.blockSize
  budget : c'.budget = c.budget
  overflowPolicy : c'.overflowPolicy = c.overflowPolicy

theorem SameLimits.refl (c : Cache) : SameLimits c c := ⟨rfl, rfl, rfl, rfl⟩

theorem SameLimits.trans {a b c : Cache} (h : SameLimits a b) (h' : SameLimits b c) :
    SameLimits a c :=
  ⟨h'.layout.trans h.layout, h'.blockSize.trans h.blockSize, h'.budget.trans h.budget,
    h'.overflowPolicy.trans h.overflowPolicy⟩

theorem allocate_limits (c : Cache) (owner : RequestId) (capacity : Nat) :
    SameLimits c (Action.exec (allocate owner capacity) c).2 := by
  rw [exec_allocate]
  split <;> exact ⟨rfl, rfl, rfl, rfl⟩

theorem evict_limits (c : Cache) (id : SlotId) : SameLimits c (Action.exec (evict id) c).2 := by
  rw [exec_evict]
  split <;> exact ⟨rfl, rfl, rfl, rfl⟩

theorem reserve_limits (c : Cache) (id : SlotId) (positions : Nat) :
    SameLimits c (Action.exec (reserve id positions) c).2 := by
  cases h : c.slot? id with
  | none => rw [exec_reserve_none h]; exact .refl c
  | some s =>
    rw [exec_reserve h]
    split
    · exact .refl c
    · split <;> exact ⟨rfl, rfl, rfl, rfl⟩

theorem append_limits (c : Cache) (id : SlotId) (layer : Nat) (key value : List Float32) :
    SameLimits c (Action.exec (append id layer key value) c).2 := by
  rcases exec_append_cases c id layer key value with ⟨e, he⟩ |
    ⟨s, l, c₁, s₁, -, -, -, hfull, hroom, -, hr⟩
  · rw [he]; exact .refl c
  · rw [hr]
    have hlim : SameLimits c c₁ := by
      rcases Nat.lt_or_ge l.len s.capacity with h | h
      · simpa [hroom h] using reserve_limits c id (l.len + 1)
      · rw [(hfull h).2]; exact .refl c
    exact hlim.trans ⟨rfl, rfl, rfl, rfl⟩

end Cache

end CausalServe
