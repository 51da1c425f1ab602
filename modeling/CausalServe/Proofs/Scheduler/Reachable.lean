import CausalServe.Proofs.Scheduler.Tick

/-! Every state that a scheduler can be brought to by its operations, in any order and whether they
succeed or not, and what holds in all of them. -/

namespace CausalServe

/-- A request as its owner makes it: no slot, and nothing cached. -/
structure Request.Fresh (r : Request) : Prop where
  slot : r.slot = none
  cached : r.cached = 0

namespace Scheduler

/-- The states of a scheduler that is used through its operations alone, with its cache only
written to. -/
inductive Reachable (config : SchedulerConfig) (cacheConfig : CacheConfig) (layout : Layout) :
    Scheduler → Prop
  | new : Reachable config cacheConfig layout (.new config cacheConfig layout)
  | addRequest {s : Scheduler} (h : Reachable config cacheConfig layout s) {r : Request}
      (hr : r.Fresh) : Reachable config cacheConfig layout (Action.exec (addRequest r) s).2
  | removeRequest {s : Scheduler} (h : Reachable config cacheConfig layout s) (id : RequestId) :
      Reachable config cacheConfig layout (s.removeRequest id).2
  | cancel {s : Scheduler} (h : Reachable config cacheConfig layout s) (id : RequestId) :
      Reachable config cacheConfig layout (Action.exec (cancel id) s).2
  | schedule {s : Scheduler} (h : Reachable config cacheConfig layout s) (now : Nat) :
      Reachable config cacheConfig layout (s.schedule now).2
  | completeStep {s : Scheduler} (h : Reachable config cacheConfig layout s) (id : RequestId)
      (token : Token) (eos : Option Token) :
      Reachable config cacheConfig layout (Action.exec (completeStep id token eos) s).2
  | failRequest {s : Scheduler} (h : Reachable config cacheConfig layout s) (id : RequestId)
      (e : Error) : Reachable config cacheConfig layout (Action.exec (failRequest id e) s).2
  | append {s : Scheduler} (h : Reachable config cacheConfig layout s) (slot : SlotId)
      (layer : Nat) (key value : List Float32) : Reachable config cacheConfig layout
        { s with cache := (Action.exec (Cache.append slot layer key value) s.cache).2 }

variable {config : SchedulerConfig} {cacheConfig : CacheConfig} {layout : Layout} {s : Scheduler}

theorem Reachable.owned (h : Reachable config cacheConfig layout s) : s.Owned := by
  induction h with
  | new => exact .new config cacheConfig layout
  | addRequest _ hr ih => exact ih.addRequest hr.slot
  | removeRequest _ id ih => exact ih.removeRequest id
  | cancel _ id ih => exact ih.cancel id
  | schedule _ now ih => exact ih.schedule now
  | completeStep _ id token eos ih => exact ih.completeStep id token eos
  | failRequest _ id e ih => exact ih.failRequest id e
  | append _ slot layer key value ih => exact ih.append slot layer key value

theorem Reachable.settings (h : Reachable config cacheConfig layout s) :
    SameSettings (.new config cacheConfig layout) s := by
  induction h with
  | new => exact .refl _
  | addRequest _ _ ih => exact ih.trans (addRequest_calls _ _).settings
  | removeRequest _ id ih => exact ih.trans (removeRequest_calls _ id).settings
  | cancel _ id ih => exact ih.trans (cancel_calls _ id).settings
  | schedule h now ih => exact ih.trans (h.owned.moves_tick now).settings
  | completeStep _ id token eos ih => exact ih.trans (completeStep_calls _ id token eos).settings
  | failRequest _ id e ih => exact ih.trans (failRequest_calls _ id e).settings
  | append _ slot layer key value ih =>
    exact ih.trans ⟨rfl, rfl, Cache.append_limits _ slot layer key value⟩

/-- While nothing is pending, no slot is live. -/
theorem Owned.activeSlots_eq_zero {s : Scheduler} (h : s.Owned) (hp : s.hasPending = false) :
    s.cache.activeSlots = 0 := Cache.activeSlots_eq_zero.mpr fun slot => by
  cases hs : s.cache.slot? slot with
  | none => rfl
  | some st =>
    obtain ⟨r, hr, -, hrs⟩ := (h.holder_iff slot st.owner).mp (Cache.holder_eq_some.mpr ⟨st, hs, rfl⟩)
    have hlive := RequestState.isTerminal_of_isRunning (h.running_of_slot hr hrs)
    rw [h.hasPending_iff.mpr ⟨r, hr, hlive⟩] at hp
    cases hp

/-- Waiting requests are queued, running requests hold a slot each, and no slot is lost: the queue,
the running list and the cache agree with the stored requests. -/
theorem Reachable.ownership (h : Reachable config cacheConfig layout s) :
    (s.requests.map Request.id).Nodup ∧
    (s.waiting.map QueueEntry.request).Nodup ∧
    (∀ id, id ∈ s.waiting.map QueueEntry.request ↔
      ∃ r ∈ s.requests, r.id = id ∧ r.state = .queued) ∧
    s.running.Nodup ∧
    (∀ id, id ∈ s.running ↔
      ∃ r ∈ s.requests, r.id = id ∧ (r.state = .prefilling ∨ r.state = .decoding)) ∧
    s.running.length ≤ config.maxSeqs ∧
    (∀ r ∈ s.requests, r.state = .prefilling ∨ r.state = .decoding →
      ∃ slot, r.slot = some slot ∧ s.cache.owner slot = .ok r.id) ∧
    (∀ r ∈ s.requests, ∀ r' ∈ s.requests, r.slot.isSome = true → r.slot = r'.slot → r = r') ∧
    (∀ slot st, s.cache.slot? slot = some st →
      ∃! r, r ∈ s.requests ∧ (r.state = .prefilling ∨ r.state = .decoding) ∧ r.slot = some slot) ∧
    (∀ r ∈ s.requests, r.state = .queued ∨ r.state.isTerminal = true → r.slot = none) ∧
    (s.hasPending = false ↔ ∀ r ∈ s.requests, r.state.isTerminal = true) ∧
    (s.hasPending = false → s.cache.activeSlots = 0 ∧ s.cache.used = 0) := by
  have ho := h.owned
  simp only [← RequestState.isRunning_iff]
  refine ⟨ho.ids, ho.waiting_nodup, ho.waiting_iff, ho.running_nodup, ho.running_iff, ?_, ?_, ?_, ?_,
    ?_, ?_, fun hp => ?_⟩
  · have hle := ho.running_le
    rwa [h.settings.config] at hle
  · intro r hr hrun
    obtain ⟨slot, st, hslot, hst, hown⟩ := ho.slot_of_running hr hrun
    exact ⟨slot, hslot, by rw [Cache.owner, Cache.slot_of_slot? hst, ← hown]; rfl⟩
  · intro r hr r' hr' hsome he
    obtain ⟨slot, hslot⟩ := Option.isSome_iff_exists.mp hsome
    exact ho.slot_inj hr hr' hslot (he ▸ hslot)
  · intro slot st hst
    obtain ⟨r, hr, -, hslot⟩ := (ho.holder_iff slot st.owner).mp
      (Cache.holder_eq_some.mpr ⟨st, hst, rfl⟩)
    refine ⟨r, ⟨hr, ho.running_of_slot hr hslot, hslot⟩, ?_⟩
    rintro r' ⟨hr', -, hslot'⟩
    exact ho.slot_inj hr' hr hslot' hslot
  · rintro r hr (hq | hterm)
    · exact ho.slot_none hr (by rw [hq]; rfl)
    · exact ho.slot_none hr (RequestState.not_isRunning_of_isTerminal hterm)
  · rw [← Bool.not_eq_true, ho.hasPending_iff]
    simp
  · have hzero := ho.activeSlots_eq_zero hp
    exact ⟨hzero, ho.sound.used_eq_zero hzero⟩

/-- Two requests of which the budget admits one: the first holds the only slot. -/
theorem ownership_when_one_waits : ∃ s : Scheduler, s.running = [1] ∧
    s.waiting.map QueueEntry.request = [2] ∧
    (∀ r ∈ s.requests, r.state = .queued ∨ r.state.isTerminal = true → r.slot = none) ∧
    ∃! r, r ∈ s.requests ∧ (r.state = .prefilling ∨ r.state = .decoding) ∧ r.slot = some 0 := by
  have hs : Reachable { maxSeqs := 2 } { blockSize := 4, memoryBudget := some 96 } ⟨1, 1, 1, 1⟩ _ :=
    .schedule (.addRequest
      (.addRequest .new (Request.Fresh.mk (r := Request.new 1 [7] (.greedy 4)) rfl rfl))
      (Request.Fresh.mk (r := Request.new 2 [5, 6] (.greedy 3)) rfl rfl)) 0
  obtain ⟨-, -, -, -, -, -, -, -, hlive, hidle, -⟩ := Reachable.ownership hs
  exact ⟨_, by cbv, by cbv, hidle, hlive 0 _ (by cbv)⟩

end Scheduler

end CausalServe
