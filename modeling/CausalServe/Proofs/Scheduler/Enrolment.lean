import CausalServe.Proofs.Scheduler.Records

/-! Who waits and who runs. The stored requests, the queue and the running list agree on that, and
here nothing depends on the cache: `Enrolled` outlasts any change of it. Every change of the
scheduler puts one request in the place of another, so `Enrolled.replace` is what all of them are
proved by. -/

namespace CausalServe.Scheduler

/-- The stored requests, the queue and the running list agree. -/
structure Enrolled (s : Scheduler) : Prop where
  ids : s.DistinctIds
  waiting_nodup : (s.waiting.map QueueEntry.request).Nodup
  waiting_iff : ∀ id, id ∈ s.waiting.map QueueEntry.request ↔
    ∃ r ∈ s.requests, r.id = id ∧ r.state = .queued
  running_nodup : s.running.Nodup
  running_iff : ∀ id, id ∈ s.running ↔
    ∃ r ∈ s.requests, r.id = id ∧ r.state.isRunning = true
  running_le : s.running.length ≤ s.config.maxSeqs
  slot_iff : ∀ r ∈ s.requests, r.slot.isSome = r.state.isRunning

theorem Enrolled.new (config : SchedulerConfig) (cacheConfig : CacheConfig) (layout : Layout) :
    (new config cacheConfig layout).Enrolled where
  ids := List.nodup_nil
  waiting_nodup := List.nodup_nil
  waiting_iff := by simp [Scheduler.new]
  running_nodup := List.nodup_nil
  running_iff := by simp [Scheduler.new]
  running_le := Nat.zero_le _
  slot_iff := by simp [Scheduler.new]

theorem Enrolled.slot_none {s : Scheduler} (h : s.Enrolled) {r : Request} (hr : r ∈ s.requests)
    (hrun : r.state.isRunning = false) : r.slot = none := by
  have := h.slot_iff r hr
  rw [hrun] at this
  exact Option.isSome_eq_false_iff.mp this |> Option.isNone_iff_eq_none.mp

theorem Enrolled.running_of_slot {s : Scheduler} (h : s.Enrolled) {r : Request}
    (hr : r ∈ s.requests) {slot : SlotId} (hs : r.slot = some slot) : r.state.isRunning = true := by
  rw [← h.slot_iff r hr, hs, Option.isSome_some]

theorem Enrolled.mem_running {s : Scheduler} (h : s.Enrolled) {r : Request} (hr : r ∈ s.requests) :
    r.id ∈ s.running ↔ r.state.isRunning = true := by
  rw [h.running_iff]
  constructor
  · rintro ⟨r', hr', he, hrun⟩
    rw [← h.ids.eq hr' hr he]
    exact hrun
  · exact fun hrun => ⟨r, hr, rfl, hrun⟩

theorem Enrolled.mem_waiting {s : Scheduler} (h : s.Enrolled) {r : Request} (hr : r ∈ s.requests) :
    r.id ∈ s.waiting.map QueueEntry.request ↔ r.state = .queued := by
  rw [h.waiting_iff]
  constructor
  · rintro ⟨r', hr', he, hq⟩
    rw [← h.ids.eq hr' hr he]
    exact hq
  · exact fun hq => ⟨r, hr, rfl, hq⟩

/-- Nothing is said of the cache. -/
theorem Enrolled.withCache {s : Scheduler} (h : s.Enrolled) (c : Cache) :
    { s with cache := c }.Enrolled := { h with }

/-! ## One request in the place of another -/

theorem exists_mem_update {s : Scheduler} {r r' : Request} (hr : r ∈ s.requests)
    (hid : r'.id = r.id) (P : Request → Prop) (id : RequestId) :
    (∃ x ∈ (s.update r').requests, x.id = id ∧ P x) ↔
      (id ≠ r.id ∧ ∃ x ∈ s.requests, x.id = id ∧ P x) ∨ (id = r.id ∧ P r') := by
  constructor
  · rintro ⟨x, hx, hxid, hp⟩
    rcases mem_update.mp hx with ⟨rfl, -⟩ | ⟨hm, hne⟩
    · exact .inr ⟨hxid.symm.trans hid, hp⟩
    · exact .inl ⟨fun he => hne (hxid.trans (he.trans hid.symm)), x, hm, hxid, hp⟩
  · rintro (⟨hne, x, hm, hxid, hp⟩ | ⟨he, hp⟩)
    · exact ⟨x, mem_update.mpr (.inr ⟨hm, fun h => hne (hxid.symm.trans (h.trans hid))⟩), hxid, hp⟩
    · exact ⟨r', mem_update.mpr (.inl ⟨rfl, r, hr, hid.symm⟩), hid.trans he.symm, hp⟩

/-- When a request takes the place of another, it is enough that the queue and the running list
change for its id alone, and as its state says. -/
theorem Enrolled.replace {s s' : Scheduler} (h : s.Enrolled) {r r' : Request} (hr : r ∈ s.requests)
    (hid : r'.id = r.id) (hreq : s'.requests = (s.update r').requests)
    (hwn : (s'.waiting.map QueueEntry.request).Nodup)
    (hw : ∀ id, id ∈ s'.waiting.map QueueEntry.request ↔
      (id ≠ r.id ∧ id ∈ s.waiting.map QueueEntry.request) ∨ (id = r.id ∧ r'.state = .queued))
    (hrn : s'.running.Nodup)
    (hrun : ∀ id, id ∈ s'.running ↔
      (id ≠ r.id ∧ id ∈ s.running) ∨ (id = r.id ∧ r'.state.isRunning = true))
    (hle : s'.running.length ≤ s'.config.maxSeqs)
    (hslot : r'.slot.isSome = r'.state.isRunning) : s'.Enrolled where
  ids := by
    unfold DistinctIds
    rw [hreq]
    exact h.ids.update r'
  waiting_nodup := hwn
  waiting_iff := fun id => by rw [hw, h.waiting_iff, hreq, exists_mem_update hr hid]
  running_nodup := hrn
  running_iff := fun id => by
    rw [hrun, h.running_iff, hreq, exists_mem_update hr hid fun x => x.state.isRunning = true]
  running_le := hle
  slot_iff := fun x hx => by
    rw [hreq] at hx
    rcases mem_update.mp hx with ⟨rfl, -⟩ | ⟨hm, -⟩
    · exact hslot
    · exact h.slot_iff x hm

/-! ## The changes -/

/-- A request changes, but neither whether it has a slot nor whether it waits or runs. -/
theorem Enrolled.update {s : Scheduler} (h : s.Enrolled) {r r' : Request} (hr : r ∈ s.requests)
    (hid : r'.id = r.id) (hq : r'.state = .queued ↔ r.state = .queued)
    (hrun : r'.state.isRunning = r.state.isRunning) (hslot : r'.slot = r.slot) :
    (s.update r').Enrolled := by
  refine h.replace hr hid rfl h.waiting_nodup ?_ h.running_nodup ?_ h.running_le ?_
  · intro id
    rw [hq, ← h.mem_waiting hr]
    by_cases he : id = r.id
    · subst he; simp [Scheduler.update]
    · simp [he, Scheduler.update]
  · intro id
    rw [hrun, ← h.mem_running hr]
    by_cases he : id = r.id
    · subst he; simp [Scheduler.update]
    · simp [he, Scheduler.update]
  · rw [hslot, hrun, h.slot_iff r hr]

theorem DistinctIds.retire {s : Scheduler} (h : s.DistinctIds) (r : Request) :
    (s.retire r).DistinctIds := h.update { r with slot := none }

def freed (c : Cache) : Option SlotId → Cache
  | some slot => (Action.exec (Cache.evict slot) c).2
  | none => c

theorem release_eq (s : Scheduler) (id : RequestId) (slot : Option SlotId) :
    s.release id slot = { s with
      cache := freed s.cache slot
      running := s.running.filter fun other => other ≠ id
      waiting := s.waiting.filter fun e => e.request ≠ id } := by
  cases slot <;> rfl

theorem map_filter_request (q : List QueueEntry) (id : RequestId) :
    (q.filter fun e => e.request ≠ id).map QueueEntry.request =
      (q.map QueueEntry.request).filter fun other => other ≠ id := by
  rw [List.filter_map]
  rfl

/-- A request ends, and is taken out of the lists. -/
theorem Enrolled.retire {s : Scheduler} (h : s.Enrolled) {r ended : Request} (hr : r ∈ s.requests)
    (hid : ended.id = r.id) (hend : ended.state.isTerminal = true) : (s.retire ended).Enrolled := by
  have hrunning := RequestState.not_isRunning_of_isTerminal hend
  have hqueued := RequestState.ne_queued_of_isTerminal hend
  rw [Scheduler.retire, release_eq]
  have hid' : ({ ended with slot := none } : Request).id = r.id := hid
  refine h.replace hr hid' rfl ?_ ?_ ?_ ?_ ?_ ?_
  · rw [map_filter_request]
    exact h.waiting_nodup.filter _
  · intro id
    rw [map_filter_request]
    simp [hqueued, hid, Scheduler.update, and_comm]
  · exact h.running_nodup.filter _
  · intro id
    simp [hrunning, hid, Scheduler.update, and_comm]
  · exact Nat.le_trans (List.length_filter_le _ _) h.running_le
  · rw [hrunning]; rfl

/-- The request at the front of the queue gets a slot. -/
theorem Enrolled.enter {s : Scheduler} (h : s.Enrolled) {r : Request} (hr : r ∈ s.requests)
    {entry : QueueEntry} {rest : List QueueEntry} (hw : s.waiting = entry :: rest)
    (hid : entry.request = r.id) (hlt : s.running.length < s.config.maxSeqs) (slot : SlotId)
    (c : Cache) :
    { s.update (r.startIn slot) with
      cache := c, waiting := rest, running := s.running ++ [r.id] }.Enrolled := by
  have hq : r.state = .queued := (h.mem_waiting hr).mp (by simp [hw, hid])
  have hout : r.id ∉ s.running := fun hm => by
    have := (h.mem_running hr).mp hm
    simp [hq, RequestState.isRunning] at this
  have hnd := h.waiting_nodup
  rw [hw, List.map_cons, hid, List.nodup_cons] at hnd
  have hid' : (r.startIn slot).id = r.id := rfl
  refine h.replace hr hid' rfl hnd.2 ?_ ?_ ?_ ?_ rfl
  · intro id
    rw [hw, List.map_cons, hid, List.mem_cons]
    by_cases he : id = r.id
    · subst he; simp [hnd.1, Request.startIn]
    · simp [he]
  · exact List.nodup_append.mpr ⟨h.running_nodup, List.nodup_singleton _,
      fun a ha b hb => by rw [List.mem_singleton.mp hb]; exact fun he => hout (he ▸ ha)⟩
  · intro id
    by_cases he : id = r.id
    · subst he; simp [Request.startIn, RequestState.isRunning]
    · simp [he]
  · change (s.running ++ [r.id]).length ≤ s.config.maxSeqs
    rw [List.length_append, List.length_singleton]
    exact hlt

/-- A running request waits again. -/
theorem Enrolled.preempt {s : Scheduler} (h : s.Enrolled) {r r' : Request} (hr : r ∈ s.requests)
    (hid : r'.id = r.id) (hstate : r'.state = .queued) (hslot : r'.slot = none) :
    (((s.update r').release r.id r.slot).enqueue r').Enrolled := by
  have hperm : (((s.entry r').enqueue (s.waiting.filter fun e => e.request ≠ r.id)).map
      QueueEntry.request).Perm
        (r.id :: (s.waiting.map QueueEntry.request).filter fun other => other ≠ r.id) := by
    have := ((s.entry r').enqueue_perm (s.waiting.filter fun e => e.request ≠ r.id)).map
      QueueEntry.request
    rwa [List.map_cons, map_filter_request, show (s.entry r').request = r.id from hid] at this
  rw [release_eq]
  refine h.replace hr hid rfl ?_ ?_ (h.running_nodup.filter _) ?_ ?_ ?_
  · refine hperm.nodup_iff.mpr (List.nodup_cons.mpr ⟨?_, h.waiting_nodup.filter _⟩)
    simp
  · intro id
    refine Iff.trans hperm.mem_iff ?_
    by_cases he : id = r.id
    · simp [he, hstate]
    · simp [he]
  · intro id
    simp [hstate, RequestState.isRunning, Scheduler.update, Scheduler.enqueue, and_comm]
  · exact Nat.le_trans (List.length_filter_le _ _) h.running_le
  · rw [hslot, hstate]; rfl

/-- A new request that waits. -/
theorem Enrolled.add {s : Scheduler} (h : s.Enrolled) {r : Request} (hnew : s.request? r.id = none)
    (hstate : r.state = .queued) (hslot : r.slot = none) (arrivals : Nat) :
    ({ s with requests := s.requests ++ [r], arrivals := arrivals }.enqueue r).Enrolled := by
  have hne : ∀ x ∈ s.requests, x.id ≠ r.id := request?_eq_none.mp hnew
  have hout : ∀ id, (∃ x ∈ s.requests, x.id = id ∧ x.state = .queued) → id ≠ r.id :=
    fun id ⟨x, hx, hxid, _⟩ he => hne x hx (hxid.trans he)
  have hperm := (QueueEntry.enqueue_perm
    (entry { s with requests := s.requests ++ [r], arrivals := arrivals } r) s.waiting).map
      QueueEntry.request
  rw [List.map_cons] at hperm
  change List.Perm _ (r.id :: _) at hperm
  exact {
    ids := by
      change ((s.requests ++ [r]).map Request.id).Nodup
      rw [List.map_append, List.map_singleton]
      refine List.nodup_append.mpr ⟨h.ids, List.nodup_singleton _, fun a ha b hb => ?_⟩
      obtain ⟨x, hx, rfl⟩ := List.mem_map.mp ha
      rw [List.mem_singleton.mp hb]
      exact hne x hx
    waiting_nodup := hperm.nodup_iff.mpr (List.nodup_cons.mpr
      ⟨fun hm => hout _ ((h.waiting_iff _).mp hm) rfl, h.waiting_nodup⟩)
    waiting_iff := fun id => by
      rw [enqueue, hperm.mem_iff, List.mem_cons, h.waiting_iff]
      simp only [List.mem_append, List.mem_singleton, or_and_right, exists_or, exists_eq_left,
        hstate, and_true]
      rw [or_comm, eq_comm]
    running_nodup := h.running_nodup
    running_iff := fun id => by
      change id ∈ s.running ↔ ∃ x ∈ s.requests ++ [r], _
      rw [h.running_iff]
      simp only [List.mem_append, List.mem_singleton, or_and_right, exists_or, exists_eq_left,
        hstate, RequestState.isRunning, Bool.false_eq_true, and_false, or_false]
    running_le := h.running_le
    slot_iff := fun x hx => by
      rcases List.mem_append.mp hx with hx | hx
      · exact h.slot_iff x hx
      · rw [List.mem_singleton.mp hx, hslot, hstate]; rfl }

theorem exists_mem_without {s : Scheduler} {id : RequestId} (P : Request → Prop)
    (other : RequestId) :
    (∃ x ∈ s.requests.filter fun old => old.id ≠ id, x.id = other ∧ P x) ↔
      other ≠ id ∧ ∃ x ∈ s.requests, x.id = other ∧ P x := by
  constructor
  · rintro ⟨x, hx, rfl, hp⟩
    obtain ⟨hx, hne⟩ := List.mem_filter.mp hx
    exact ⟨by simpa using hne, x, hx, rfl, hp⟩
  · rintro ⟨hne, x, hx, rfl, hp⟩
    exact ⟨x, List.mem_filter.mpr ⟨hx, by simpa using hne⟩, rfl, hp⟩

/-- A request is forgotten. -/
theorem Enrolled.remove {s : Scheduler} (h : s.Enrolled) (id : RequestId) (slot : Option SlotId) :
    ({ s with requests := s.requests.filter fun old => old.id ≠ id }.release id slot).Enrolled := by
  rw [release_eq]
  exact {
    ids := (h.ids.sublist ((List.filter_sublist).map Request.id))
    waiting_nodup := by
      rw [map_filter_request]
      exact h.waiting_nodup.filter _
    waiting_iff := fun other => by
      rw [map_filter_request, exists_mem_without, ← h.waiting_iff]
      simp [and_comm]
    running_nodup := h.running_nodup.filter _
    running_iff := fun other => by
      rw [exists_mem_without fun x => x.state.isRunning = true, ← h.running_iff]
      simp [and_comm]
    running_le := Nat.le_trans (List.length_filter_le _ _) h.running_le
    slot_iff := fun x hx => h.slot_iff x (List.mem_filter.mp hx).1 }

end CausalServe.Scheduler
