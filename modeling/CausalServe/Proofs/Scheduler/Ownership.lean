import CausalServe.Proofs.Cache.Room
import CausalServe.Proofs.Scheduler.Enrolment

/-! Four structures say who waits, who runs and who holds which slot: the stored requests, the queue,
the running list and the cache. `Owned` is that they agree: that the requests are enrolled, and that
the cache, which is sound, knows the same holders of slots. -/

namespace CausalServe

/-! ## Who holds a slot -/

namespace Cache

def holder (c : Cache) (id : SlotId) : Option RequestId := (c.slot? id).map Slot.owner

theorem holder_eq_some {c : Cache} {id : SlotId} {owner : RequestId} :
    c.holder id = some owner ↔ ∃ s, c.slot? id = some s ∧ s.owner = owner := by
  simp [holder]

theorem Sound.holder_opened {c : Cache} (hc : c.Sound) (owner : RequestId) (capacity : Nat)
    (id : SlotId) :
    (c.opened owner capacity).holder id = if id = c.nextId then some owner else c.holder id := by
  unfold holder
  rw [hc.slot?_opened]
  split <;> rfl

theorem Sound.holder_nextId {c : Cache} (hc : c.Sound) : c.holder c.nextId = none := by
  rw [holder, hc.nextId_fresh, Option.map_none]

theorem holder_evict (c : Cache) (id other : SlotId) :
    (Action.exec (evict id) c).2.holder other = if other = id then none else c.holder other := by
  rw [exec_evict]
  rcases h : c.slot? id with _ | s <;> simp only
  · split
    next he => rw [he, holder, h, Option.map_none]
    next => rfl
  · unfold holder
    rw [slot?_closed h]
    split <;> rfl

theorem holder_reserve (c : Cache) (id : SlotId) (n : Nat) (other : SlotId) :
    (Action.exec (reserve id n) c).2.holder other = c.holder other := by
  cases h : c.slot? id with
  | none => rw [exec_reserve_none h]
  | some s =>
    rcases hr : Action.exec (reserve id n) c with ⟨_ | _, c'⟩
    · rw [reserve_error hr]
    · rcases reserve_ok h hr with ⟨-, rfl⟩ | ⟨-, -, rfl⟩
      · rfl
      · change (c.grown id s n).holder other = _
        unfold holder
        rw [slot?_grown h]
        split
        next he => rw [he, h]; rfl
        next => rfl

theorem holder_append (c : Cache) (id : SlotId) (layer : Nat) (key value : List Float32)
    (other : SlotId) :
    (Action.exec (append id layer key value) c).2.holder other = c.holder other := by
  rcases exec_append_cases c id layer key value with ⟨e, he⟩ |
    ⟨s, l, c₁, s₁, -, hs, -, hfull, hroom, hs₁, hr⟩
  · rw [he]
  · have hc₁ : c₁.holder other = c.holder other := by
      rcases Nat.lt_or_ge l.len s.capacity with h | h
      · simpa [hroom h] using holder_reserve c id (l.len + 1) other
      · rw [(hfull h).2]
    rw [hr, ← hc₁]
    unfold holder
    rw [slot?_pushed hs₁]
    split
    next he => rw [he, hs₁]; rfl
    next => rfl

end Cache

namespace Scheduler

/-- The stored requests, the queue, the running list and the cache agree. -/
structure Owned (s : Scheduler) : Prop where
  ids : s.DistinctIds
  waiting_nodup : (s.waiting.map QueueEntry.request).Nodup
  waiting_iff : ∀ id, id ∈ s.waiting.map QueueEntry.request ↔
    ∃ r ∈ s.requests, r.id = id ∧ r.state = .queued
  running_nodup : s.running.Nodup
  running_iff : ∀ id, id ∈ s.running ↔
    ∃ r ∈ s.requests, r.id = id ∧ r.state.isRunning = true
  running_le : s.running.length ≤ s.config.maxSeqs
  slot_iff : ∀ r ∈ s.requests, r.slot.isSome = r.state.isRunning
  holder_iff : ∀ slot id, s.cache.holder slot = some id ↔
    ∃ r ∈ s.requests, r.id = id ∧ r.slot = some slot
  sound : s.cache.Sound

theorem Owned.enrolled {s : Scheduler} (h : s.Owned) : s.Enrolled := { h with }

theorem Enrolled.owned {s : Scheduler} (h : s.Enrolled)
    (hholder : ∀ slot id, s.cache.holder slot = some id ↔
      ∃ r ∈ s.requests, r.id = id ∧ r.slot = some slot)
    (hsound : s.cache.Sound) : s.Owned :=
  { h with holder_iff := hholder, sound := hsound }

theorem Owned.new (config : SchedulerConfig) (cacheConfig : CacheConfig) (layout : Layout) :
    (new config cacheConfig layout).Owned :=
  (Enrolled.new config cacheConfig layout).owned
    (by simp [Scheduler.new, Cache.new, Cache.holder, Cache.slot?]) (.new layout cacheConfig)

theorem Owned.slot_of_running {s : Scheduler} (h : s.Owned) {r : Request} (hr : r ∈ s.requests)
    (hrun : r.state.isRunning = true) :
    ∃ slot st, r.slot = some slot ∧ s.cache.slot? slot = some st ∧ st.owner = r.id := by
  obtain ⟨slot, hslot⟩ := Option.isSome_iff_exists.mp ((h.slot_iff r hr).trans hrun)
  obtain ⟨st, hst, hown⟩ := Cache.holder_eq_some.mp ((h.holder_iff slot r.id).mpr ⟨r, hr, rfl, hslot⟩)
  exact ⟨slot, st, hslot, hst, hown⟩

theorem Owned.slot_none {s : Scheduler} (h : s.Owned) {r : Request} (hr : r ∈ s.requests)
    (hrun : r.state.isRunning = false) : r.slot = none := h.enrolled.slot_none hr hrun

theorem Owned.running_of_slot {s : Scheduler} (h : s.Owned) {r : Request} (hr : r ∈ s.requests)
    {slot : SlotId} (hs : r.slot = some slot) : r.state.isRunning = true :=
  h.enrolled.running_of_slot hr hs

/-- No slot has two holders. -/
theorem Owned.slot_inj {s : Scheduler} (h : s.Owned) {r r' : Request} (hr : r ∈ s.requests)
    (hr' : r' ∈ s.requests) {slot : SlotId} (hs : r.slot = some slot) (hs' : r'.slot = some slot) :
    r = r' := by
  have h₁ := (h.holder_iff slot r.id).mpr ⟨r, hr, rfl, hs⟩
  have h₂ := (h.holder_iff slot r'.id).mpr ⟨r', hr', rfl, hs'⟩
  exact h.ids.eq hr hr' (Option.some.inj (h₁.symm.trans h₂))

theorem Owned.mem_running {s : Scheduler} (h : s.Owned) {r : Request} (hr : r ∈ s.requests) :
    r.id ∈ s.running ↔ r.state.isRunning = true := h.enrolled.mem_running hr

theorem Owned.mem_waiting {s : Scheduler} (h : s.Owned) {r : Request} (hr : r ∈ s.requests) :
    r.id ∈ s.waiting.map QueueEntry.request ↔ r.state = .queued := h.enrolled.mem_waiting hr

/-! ## The changes -/

/-- When a request takes the place of another, the cache has to change for its id alone, and as its
slot says. -/
theorem Owned.holder_replace {s s' : Scheduler} (h : s.Owned) {r r' : Request} (hr : r ∈ s.requests)
    (hid : r'.id = r.id) (hreq : s'.requests = (s.update r').requests)
    (hholder : ∀ slot id, s'.cache.holder slot = some id ↔
      (id ≠ r.id ∧ s.cache.holder slot = some id) ∨ (id = r.id ∧ r'.slot = some slot))
    (slot : SlotId) (id : RequestId) : s'.cache.holder slot = some id ↔
      ∃ x ∈ s'.requests, x.id = id ∧ x.slot = some slot := by
  rw [hholder, h.holder_iff, hreq, exists_mem_update hr hid fun x => x.slot = some slot]

/-- A request changes, but neither its slot nor whether it waits or runs. -/
theorem Owned.update {s : Scheduler} (h : s.Owned) {r r' : Request} (hr : r ∈ s.requests)
    (hid : r'.id = r.id) (hq : r'.state = .queued ↔ r.state = .queued)
    (hrun : r'.state.isRunning = r.state.isRunning) (hslot : r'.slot = r.slot) :
    (s.update r').Owned := by
  refine (h.enrolled.update hr hid hq hrun hslot).owned
    (h.holder_replace hr hid rfl fun slot id => ?_) h.sound
  change s.cache.holder slot = some id ↔ _
  rw [hslot, h.holder_iff]
  by_cases he : id = r.id
  · subst he
    simp only [ne_eq, not_true_eq_false, false_and, true_and, false_or]
    constructor
    · rintro ⟨x, hx, hxid, hs⟩
      obtain rfl := h.ids.eq hx hr hxid
      exact hs
    · intro hs
      exact ⟨r, hr, rfl, hs⟩
  · simp [he]

/-- The cache changes, but not who holds which slot. -/
theorem Owned.withCache {s : Scheduler} (h : s.Owned) {c : Cache} (hc : c.Sound)
    (hholder : ∀ slot, c.holder slot = s.cache.holder slot) : { s with cache := c }.Owned :=
  (h.enrolled.withCache c).owned (fun slot id => by
    change c.holder slot = some id ↔ _
    rw [hholder]
    exact h.holder_iff slot id) hc

theorem holder_freed (c : Cache) (slot : Option SlotId) (other : SlotId) :
    (freed c slot).holder other = if slot = some other then none else c.holder other := by
  cases slot with
  | none => simp [freed]
  | some slot =>
    rw [freed, Cache.holder_evict]
    by_cases he : other = slot
    · simp [he]
    · simp [he, Ne.symm he]

theorem sound_freed {c : Cache} (hc : c.Sound) (slot : Option SlotId) : (freed c slot).Sound := by
  cases slot with
  | none => exact hc
  | some slot => exact hc.evict slot

/-- Giving back what a request holds leaves all slots of others, and only those. -/
theorem Owned.holder_released {s : Scheduler} (h : s.Owned) {r : Request} (hr : r ∈ s.requests)
    (slot : SlotId) (id : RequestId) :
    (freed s.cache r.slot).holder slot = some id ↔ id ≠ r.id ∧ s.cache.holder slot = some id := by
  rw [holder_freed]
  split
  next he =>
    have hown := (h.holder_iff slot r.id).mpr ⟨r, hr, rfl, he⟩
    rw [hown]
    simp [eq_comm]
  next he =>
    refine ⟨fun hh => ⟨fun hid => he ?_, hh⟩, And.right⟩
    obtain ⟨x, hx, hxid, hxs⟩ := (h.holder_iff slot id).mp hh
    rw [← h.ids.eq hx hr (hxid.trans hid)]
    exact hxs

/-- A request ends, and what it held is given back. -/
theorem Owned.retire {s : Scheduler} (h : s.Owned) {r ended : Request} (hr : r ∈ s.requests)
    (hid : ended.id = r.id) (hslot : ended.slot = r.slot) (hend : ended.state.isTerminal = true) :
    (s.retire ended).Owned := by
  have hbooks := h.enrolled.retire hr hid hend
  rw [Scheduler.retire, release_eq, hslot] at *
  have hid' : ({ ended with slot := none } : Request).id = r.id := hid
  refine hbooks.owned (h.holder_replace hr hid' rfl fun slot id => ?_) (sound_freed h.sound r.slot)
  change (freed s.cache r.slot).holder slot = some id ↔ _
  rw [h.holder_released hr]
  simp

/-- The request at the front of the queue gets a fresh slot. -/
theorem Owned.enter {s : Scheduler} (h : s.Owned) {r : Request} (hr : r ∈ s.requests)
    {entry : QueueEntry} {rest : List QueueEntry} (hw : s.waiting = entry :: rest)
    (hid : entry.request = r.id) (hlt : s.running.length < s.config.maxSeqs) {c : Cache}
    (hc : c.Sound)
    (hholder : ∀ slot, c.holder slot =
      if slot = s.cache.nextId then some r.id else s.cache.holder slot) :
    { s.update (r.startIn s.cache.nextId) with
      cache := c, waiting := rest, running := s.running ++ [r.id] }.Owned := by
  have hq : r.state = .queued := (h.mem_waiting hr).mp (by simp [hw, hid])
  have hid' : (r.startIn s.cache.nextId).id = r.id := rfl
  refine (h.enrolled.enter hr hw hid hlt s.cache.nextId c).owned
    (h.holder_replace hr hid' rfl fun slot id => ?_) hc
  change c.holder slot = some id ↔ _
  rw [hholder]
  split
  next he =>
    subst he
    simp only [h.sound.holder_nextId, Request.startIn, Option.some.injEq, and_true]
    simp [eq_comm]
  next he =>
    simp only [Request.startIn, Option.some.injEq, Ne.symm he, and_false, or_false]
    refine ⟨fun hh => ⟨fun hi => ?_, hh⟩, And.right⟩
    -- a queued request holds no slot yet
    obtain ⟨x, hx, hxid, hxs⟩ := (h.holder_iff slot id).mp hh
    have := h.running_of_slot hx hxs
    rw [h.ids.eq hx hr (hxid.trans hi), hq] at this
    cases this

/-- A request gives its slot back and waits again. -/
theorem Owned.preempt {s : Scheduler} (h : s.Owned) {r r' : Request} (hr : r ∈ s.requests)
    (hid : r'.id = r.id) (hstate : r'.state = .queued) (hslot : r'.slot = none) :
    (((s.update r').release r.id r.slot).enqueue r').Owned := by
  have hbooks := h.enrolled.preempt hr hid hstate hslot
  rw [release_eq] at *
  refine hbooks.owned (h.holder_replace hr hid rfl fun slot id => ?_) (sound_freed h.sound r.slot)
  change (freed s.cache r.slot).holder slot = some id ↔ _
  rw [h.holder_released hr, hslot]
  simp

/-- A new request that waits. -/
theorem Owned.add {s : Scheduler} (h : s.Owned) {r : Request} (hnew : s.request? r.id = none)
    (hstate : r.state = .queued) (hslot : r.slot = none) (arrivals : Nat) :
    ({ s with requests := s.requests ++ [r], arrivals := arrivals }.enqueue r).Owned := by
  refine (h.enrolled.add hnew hstate hslot arrivals).owned (fun slot id => ?_) h.sound
  change s.cache.holder slot = some id ↔ ∃ x ∈ s.requests ++ [r], _
  rw [h.holder_iff]
  simp only [List.mem_append, List.mem_singleton, or_and_right, exists_or, exists_eq_left,
    hslot, reduceCtorEq, and_false, or_false]

/-- A request is forgotten, and what it held is given back. -/
theorem Owned.remove {s : Scheduler} (h : s.Owned) {r : Request} (hr : r ∈ s.requests) :
    ({ s with requests := s.requests.filter fun old => old.id ≠ r.id }.release r.id r.slot).Owned := by
  have hbooks := h.enrolled.remove r.id r.slot
  rw [release_eq] at *
  refine hbooks.owned (fun slot id => ?_) (sound_freed h.sound r.slot)
  change (freed s.cache r.slot).holder slot = some id ↔ _
  rw [h.holder_released hr, h.holder_iff, exists_mem_without fun x => x.slot = some slot]

end Scheduler

end CausalServe
