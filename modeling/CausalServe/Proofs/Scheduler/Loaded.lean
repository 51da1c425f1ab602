import CausalServe.Proofs.Scheduler.Fitting

/-! Runs of ticks under load. Whatever requests arrive and whenever they do, as long as each of them
fits alone, none fails for want of memory, in whichever of the places that could tell it so. -/

namespace CausalServe

namespace Scheduler

/-- The states of a scheduler that is given requests that each fit alone, and whose batches are run:
every request of a batch is fed its pending tokens in all layers and then makes its step, unless it
fails for a reason of its own. -/
inductive Loaded (config : SchedulerConfig) (cacheConfig : CacheConfig) (layout : Layout) :
    Scheduler → List RequestId → (RequestId → Nat → Nat) → Prop
  | new : Loaded config cacheConfig layout (.new config cacheConfig layout) [] fun _ _ => 0
  | addRequest {s : Scheduler} {left : RequestId → Nat → Nat}
      (h : Loaded config cacheConfig layout s [] left) {r : Request} (hr : r.Fresh)
      (hfits : r.FitsAlone config cacheConfig layout) :
      Loaded config cacheConfig layout (Action.exec (addRequest r) s).2 [] left
  | cancel {s : Scheduler} {batch : List RequestId} {left : RequestId → Nat → Nat}
      (h : Loaded config cacheConfig layout s batch left) (id : RequestId) :
      Loaded config cacheConfig layout (Action.exec (cancel id) s).2 batch left
  | removeRequest {s : Scheduler} {left : RequestId → Nat → Nat}
      (h : Loaded config cacheConfig layout s [] left) (id : RequestId) :
      Loaded config cacheConfig layout (s.removeRequest id).2 [] left
  | failRequest {s : Scheduler} {batch : List RequestId} {left : RequestId → Nat → Nat}
      (h : Loaded config cacheConfig layout s batch left) (id : RequestId) {e : Error}
      (he : e.kind ≠ .cacheOverflow) :
      Loaded config cacheConfig layout (Action.exec (failRequest id e) s).2 (batch.erase id) left
  | schedule {s : Scheduler} {left : RequestId → Nat → Nat}
      (h : Loaded config cacheConfig layout s [] left) (now : Nat) :
      Loaded config cacheConfig layout (s.schedule now).2 (s.schedule now).1.batch
        fun id _ => ((s.schedule now).2.request? id).elim 0 Request.pendingLen
  | append {s : Scheduler} {batch : List RequestId} {left : RequestId → Nat → Nat}
      (h : Loaded config cacheConfig layout s batch left) {r : Request} {slot : SlotId}
      {layer : Nat} {key value : List Float32} (hr : r ∈ s.requests) (hid : r.id ∈ batch)
      (hslot : r.slot = some slot) (hlayer : layer < layout.numLayers)
      (hleft : 0 < left r.id layer)
      (hkey : key.length = layout.kvWidth) (hvalue : value.length = layout.kvWidth) :
      Loaded config cacheConfig layout
        { s with cache := (Action.exec (Cache.append slot layer key value) s.cache).2 } batch
        fun id i => if id = r.id ∧ i = layer then left id i - 1 else left id i
  | completeStep {s : Scheduler} {batch : List RequestId} {left : RequestId → Nat → Nat}
      (h : Loaded config cacheConfig layout s batch left) {id : RequestId} (hid : id ∈ batch)
      (hdone : ∀ layer < layout.numLayers, left id layer = 0) (token : Token)
      (eos : Option Token) :
      Loaded config cacheConfig layout (Action.exec (completeStep id token eos) s).2
        (batch.erase id) left

variable {config : SchedulerConfig} {cacheConfig : CacheConfig} {layout : Layout} {s : Scheduler}
  {batch : List RequestId} {left : RequestId → Nat → Nat}

theorem Loaded.ticking (h : Loaded config cacheConfig layout s batch left) :
    Ticking config cacheConfig layout s batch left := by
  induction h with
  | new => exact .new
  | addRequest _ hr _ ih => exact ih.addRequest hr
  | cancel _ id ih => exact ih.cancel id
  | removeRequest _ id ih => exact ih.removeRequest id
  | failRequest _ id _ ih => exact ih.failStep id _
  | schedule _ now ih => exact ih.schedule now
  | append _ hr hid hslot hlayer hleft hkey hvalue ih =>
    exact ih.append hr hid hslot hlayer hleft hkey hvalue
  | completeStep _ _ hdone token eos ih => exact ih.completeStep hdone token eos

theorem Loaded.settings (h : Loaded config cacheConfig layout s batch left) :
    SameSettings (.new config cacheConfig layout) s := h.ticking.settings

/-! ## Operations on single requests -/

theorem Provides.addRequest (h : s.Provides config cacheConfig layout [] left) {r : Request}
    (hr : r.Fresh) (hfits : r.FitsAlone config cacheConfig layout) :
    (Action.exec (addRequest r) s).2.Provides config cacheConfig layout [] left := by
  rcases addRequest_cases s r with ⟨e, he⟩ | ⟨-, hq, he⟩ <;> rw [he]
  · exact h
  · constructor
    · intro x hx hlive
      rcases mem_arrived.mp hx with hx | rfl
      · exact h.provided x hx hlive
      · exact {
          fits := hfits.of_same rfl (Nat.le_refl _) rfl hfits.unfinished
          short := by
            have := hfits.context.2
            change r.cached < r.totalLen
            unfold Request.totalLen
            rw [hr.cached]
            omega
          unfed := fun _ => hr.cached
          seated := fun hrun => by
            rw [hq] at hrun
            cases hrun }
    · intro x hx hfailed
      rcases mem_arrived.mp hx with hx | rfl
      · exact h.spared x hx hfailed
      · rw [hq] at hfailed
        cases hfailed
    · exact List.nodup_nil

theorem Provides.cancel (h : s.Provides config cacheConfig layout batch left) (id : RequestId) :
    (Action.exec (cancel id) s).2.Provides config cacheConfig layout batch left := by
  rw [exec_cancel]
  cases hfind : s.request? id with
  | none => exact h
  | some r =>
    have hr := (mem_of_request? hfind).1
    refine h.replace (r := { r with cancelRequested := true }) rfl h.nodup
      (fun _ _ => ⟨Iff.rfl, rfl⟩) (fun _ _ _ _ _ => rfl) (fun hlive => ?_) (h.spared r hr)
    have hp := h.provided r hr hlive
    exact ⟨hp.fits.of_same rfl (Nat.le_refl _) rfl hp.fits.unfinished, hp.short, hp.unfed,
      fun hrun => by
        obtain ⟨slot, st, hslot, hst, hgrant⟩ := hp.seated hrun
        exact ⟨slot, st, hslot, hst,
          ⟨hgrant.capacity, hgrant.prompt_le, hgrant.lens, hgrant.covers⟩⟩⟩

theorem Provides.removeRequest (h : s.Provides config cacheConfig layout [] left)
    (howned : s.Owned) (id : RequestId) :
    (s.removeRequest id).2.Provides config cacheConfig layout [] left := by
  cases hfind : s.request? id with
  | none =>
    rw [removeRequest_of_none hfind]
    exact h
  | some r =>
    obtain ⟨hr, rfl⟩ := mem_of_request? hfind
    rw [removeRequest_of_some hfind, release_eq]
    have hkept : ∀ x ∈ s.requests.filter fun old => old.id ≠ r.id, x ∈ s.requests ∧ x.id ≠ r.id :=
      fun x hx => by simpa using hx
    constructor
    · intro x hx hlive
      obtain ⟨hx, hne⟩ := hkept x hx
      refine (h.provided x hx hlive).of_same fun slot hslot => ?_
      exact Round.slots_freed (a := { scheduler := s }) howned hr hx hne hslot
    · intro x hx hfailed
      exact h.spared x (hkept x hx).1 hfailed
    · exact List.nodup_nil

/-- A request that makes no step and runs no more may leave the batch. -/
theorem Provides.erase (h : s.Provides config cacheConfig layout batch left) {id : RequestId}
    (hstill : ∀ r ∈ s.requests, r.id = id → r.state.isRunning = false) :
    s.Provides config cacheConfig layout (batch.erase id) left := by
  refine ⟨fun x hx hlive => ?_, h.spared, h.nodup.erase id⟩
  have hp := h.provided x hx hlive
  by_cases he : x.id = id
  · rcases RequestState.live_iff.mp hlive with hq | hrun
    · exact hp.of_queued hq _ _ _
    · rw [hstill x hx he] at hrun
      cases hrun
  · have hmem : x.id ∈ batch.erase id ↔ x.id ∈ batch := List.mem_erase_of_ne he
    have hfed : fedBy (batch.erase id) x = fedBy batch x := by
      unfold fedBy
      simp only [hmem]
    have howed : owed (batch.erase id) left x.id = owed batch left x.id := by
      funext i
      unfold owed
      simp only [hmem]
    rwa [hfed, howed]

theorem Provides.failRequest (h : s.Provides config cacheConfig layout batch left)
    (howned : s.Owned) (id : RequestId) {e : Error} (he : e.kind ≠ .cacheOverflow) :
    (Action.exec (failRequest id e) s).2.Provides config cacheConfig layout (batch.erase id)
      left := by
  rcases failRequest_cases s id e with ⟨fault, hexec⟩ | ⟨r, hfind, hlive, hexec⟩
  · rw [hexec]
    exact h.erase fun x hx hid => howned.ids.still_of_failRequest hexec hx hid
  · obtain ⟨hr, rfl⟩ := mem_of_request? hfind
    rw [hexec]
    have hspared : (r.failedBy e).failure.map Failure.kind ≠ some .cacheOverflow := by
      intro hkind
      exact he (Option.some.inj hkind)
    have hmade : (r.failedBy e).id = r.id ∧ (r.failedBy e).slot = r.slot := ⟨rfl, rfl⟩
    exact Round.provides_retire (a := { scheduler := s }) howned hr hmade.1 hmade.2 rfl
      (fun _ => hspared) (fun other hne => ⟨List.mem_erase_of_ne hne, rfl⟩) (h.nodup.erase _) h

/-! ## A batch -/

/-- What a batch request is owed when it is planned is what it has to feed. -/
theorem Provides.planned {round : Round} (howned : round.scheduler.Owned)
    (h : round.scheduler.Provides config cacheConfig layout [] left) :
    round.scheduler.Provides config cacheConfig layout round.plan.batch
      fun id _ => (round.scheduler.request? id).elim 0 Request.pendingLen := by
  rw [howned.batch_eq]
  refine ⟨fun r hr hlive => ?_, h.spared, howned.running_nodup⟩
  have hp := h.idle hr hlive
  rcases RequestState.live_iff.mp hlive with hq | hrun
  · exact hp.of_queued hq _ _ _
  · obtain ⟨slot, st, hslot, hst, hgrant⟩ := hp.seated hrun
    have hbatch := (howned.mem_running hr).mpr hrun
    have hsound := howned.sound.slots slot st hst
    have hfed : fedBy round.scheduler.running r = r.totalLen := if_pos hbatch
    have howed : owed round.scheduler.running
        (fun id _ => (round.scheduler.request? id).elim 0 Request.pendingLen) r.id =
          fun _ => r.pendingLen := by
      funext i
      rw [owed, if_pos hbatch, howned.ids.request? hr]
      rfl
    rw [hfed, howed]
    exact { hp with
      seated := fun _ => ⟨slot, st, hslot, hst, { hgrant with
        lens := fun i l hl => by
          have hold := hgrant.lens i l hl
          have := hsound.len_le l (List.mem_of_getElem? hl)
          have := hsound.allocated_le
          have := hp.short
          unfold Request.pendingLen
          omega }⟩ }

/-- A row of a request of the batch goes to its slot. -/
theorem Provides.append (h : s.Provides config cacheConfig layout batch left)
    (horderly : Orderly layout s batch left) {r : Request} {slot : SlotId} {layer : Nat}
    {key value : List Float32} (hr : r ∈ s.requests) (hid : r.id ∈ batch)
    (hslot : r.slot = some slot) (hlayer : layer < layout.numLayers) (hleft : 0 < left r.id layer)
    (hkey : key.length = layout.kvWidth) (hvalue : value.length = layout.kvWidth) :
    { s with cache := (Action.exec (Cache.append slot layer key value) s.cache).2 }.Provides config
      cacheConfig layout batch
      fun id i => if id = r.id ∧ i = layer then left id i - 1 else left id i := by
  obtain ⟨c, hexec, hfed⟩ := horderly.exec_append hr hid hslot hlayer hleft hkey hvalue
  rw [hexec]
  refine ⟨fun x hx hlive => ?_, h.spared, h.nodup⟩
  have hp := h.provided x hx hlive
  refine { hp with seated := fun hrun => ?_ }
  obtain ⟨other, st, hother, hst, hgrant⟩ := hp.seated hrun
  obtain ⟨st', hst', hslotFed⟩ := hfed.live other st hst
  have hcount : ∀ i, RowWrite.count [⟨slot, layer, key, value⟩] other i =
      if x.id = r.id ∧ i = layer then 1 else 0 := by
    intro i
    -- only the request itself holds this slot
    have hsame : slot = other ↔ x.id = r.id := by
      constructor
      · rintro rfl
        rw [horderly.owned.slot_inj hx hr hother hslot]
      · intro he
        rw [horderly.owned.ids.eq hx hr he, hslot] at hother
        exact Option.some.inj hother
    by_cases he : x.id = r.id <;> by_cases hi : i = layer <;>
      simp [RowWrite.count, hsame, he, hi, eq_comm]
  have hle : ∀ i, RowWrite.count [⟨slot, layer, key, value⟩] other i ≤ owed batch left x.id i := by
    intro i
    rw [hcount]
    split
    next he =>
      rw [owed, he.1, if_pos hid, he.2]
      exact hleft
    next => exact Nat.zero_le _
  have howed : owed batch (fun id i => if id = r.id ∧ i = layer then left id i - 1 else left id i)
      x.id = fun i =>
        owed batch left x.id i - RowWrite.count [⟨slot, layer, key, value⟩] other i := by
    funext i
    rw [hcount]
    unfold owed
    by_cases he : x.id = r.id ∧ i = layer
    · simp only [he, and_self, if_true]
      split
      · rfl
      · rfl
    · simp only [he, if_false, Nat.sub_zero]
  rw [howed]
  exact ⟨other, st', hother, hst', hgrant.fed hle hslotFed⟩

/-- A request of the batch that has all its rows makes its step. -/
theorem Provides.completeStep (h : s.Provides config cacheConfig layout batch left)
    (horderly : Orderly layout s batch left) {id : RequestId} (hid : id ∈ batch)
    (hdone : ∀ layer < layout.numLayers, left id layer = 0) (token : Token) (eos : Option Token) :
    (Action.exec (completeStep id token eos) s).2.Provides config cacheConfig layout
      (batch.erase id) left := by
  have howned := horderly.owned
  rcases completeStep_cases s id token eos with ⟨fault, hexec⟩ | ⟨r, hfind, hrun⟩
  · rw [hexec]
    exact h.erase fun x hx hxid => howned.ids.still_of_completeStep hexec hx hxid
  · obtain ⟨hr, rfl⟩ := mem_of_request? hfind
    have hothers : ∀ other ≠ r.id, (other ∈ batch.erase r.id ↔ other ∈ batch) ∧
        left other = left other := fun other hne => ⟨List.mem_erase_of_ne hne, rfl⟩
    have hgone : r.id ∉ batch.erase r.id := h.nodup.not_mem_erase
    rw [exec_completeStep hfind hrun]
    cases hstop : (r.stepped token).checkStop eos with
    | some reason =>
      have hmade : ((r.stepped token).completed reason).id = r.id ∧
          ((r.stepped token).completed reason).slot = r.slot := ⟨rfl, rfl⟩
      exact Round.provides_retire (a := { scheduler := s }) howned hr hmade.1 hmade.2 rfl nofun
        hothers (h.nodup.erase _) h
    | none =>
      refine h.replace (r := r.stepped token) rfl (h.nodup.erase _) hothers (fun _ _ _ _ _ => rfl)
        (fun _ => ?_) nofun
      have hp := h.provided r hr (RequestState.isTerminal_of_isRunning hrun)
      have hshort := hp.short
      have hsize : (r.stepped token).output.size = r.output.size + 1 := Array.size_push ..
      have hcached : (r.stepped token).cached = r.totalLen := by
        change min (r.cached + r.pendingLen) r.totalLen = r.totalLen
        unfold Request.pendingLen
        omega
      have hfed : fedBy (batch.erase r.id) (r.stepped token) = fedBy batch r := by
        have hout : (r.stepped token).id ∉ batch.erase r.id := hgone
        rw [fedBy, if_neg hout, hcached, fedBy, if_pos hid]
      rw [hfed]
      exact {
        fits := by
          have hbelow := Request.checkStop_none (by omega) hstop
          change _ < r.sampling.maxTokens at hbelow
          exact hp.fits.of_same rfl (Nat.le_refl _) rfl (by omega)
        short := by
          rw [hcached]
          unfold Request.totalLen
          rw [hsize]
          exact Nat.lt_succ_self _
        unfed := nofun
        seated := fun _ => by
          obtain ⟨slot, st, hslot, hst, hgrant⟩ := hp.seated hrun
          have hlayers := (howned.sound.slots slot st hst).layers
          rw [horderly.layout_eq] at hlayers
          refine ⟨slot, st, hslot, hst, hgrant.capacity, hgrant.prompt_le, ?_, hgrant.covers⟩
          intro i l hl
          -- nothing is owed any more, and nothing was left to be owed
          have hzero := hdone i (hlayers ▸ (List.getElem?_eq_some_iff.mp hl).1)
          have hold := hgrant.lens i l hl
          rw [owed, if_pos hid, hzero] at hold
          have hnone : owed (batch.erase r.id) left (r.stepped token).id i = 0 := if_neg hgone
          rw [hnone]
          exact hold }

theorem Loaded.provides (h : Loaded config cacheConfig layout s batch left)
    (hpolicy : cacheConfig.pressurePolicy ≠ .evictLeastRecent) :
    s.Provides config cacheConfig layout batch left := by
  induction h with
  | new =>
    exact ⟨fun r hr => absurd hr List.not_mem_nil, fun r hr => absurd hr List.not_mem_nil,
      List.nodup_nil⟩
  | addRequest _ hr hfits ih => exact ih.addRequest hr hfits
  | cancel _ id ih => exact ih.cancel id
  | removeRequest h id ih => exact ih.removeRequest h.ticking.orderly.owned id
  | failRequest h id he ih => exact ih.failRequest h.ticking.orderly.owned id he
  | schedule h now ih =>
    have howned := h.ticking.orderly.owned
    exact Provides.planned (howned.tick now)
      ((howned.moves_tick now).provides howned h.settings hpolicy ih)
  | append h hr hid hslot hlayer hleft hkey hvalue ih =>
    exact ih.append h.ticking.orderly hr hid hslot hlayer hleft hkey hvalue
  | completeStep h hid hdone token eos ih =>
    exact ih.completeStep h.ticking.orderly hid hdone token eos

end Scheduler

namespace Round

/-! ## Where admission is refused -/

variable {config : SchedulerConfig} {cacheConfig : CacheConfig} {layout : Layout} {a b : Round}
  {left : RequestId → Nat → Nat} {now : Nat}

/-- Where admission is refused, nobody is sent back. -/
theorem Moves.preempted_eq (hm : Moves now a b)
    (hset : Scheduler.SameSettings (.new config cacheConfig layout) a.scheduler)
    (hrefuse : cacheConfig.pressurePolicy = .refuseAdmission) : b.preempted = a.preempted := by
  have hall := hm.keep (P := fun x =>
      Scheduler.SameSettings (.new config cacheConfig layout) x.scheduler ∧
        x.preempted = a.preempted) ⟨hset, rfl⟩ fun x y hmove ⟨hs, he⟩ => by
    refine ⟨hs.trans hmove.settings, ?_⟩
    cases hmove with
    | fit | retire | enter | reserve => exact he
    | preempt hr hrun hpolicy =>
      have hcache : x.scheduler.cacheConfig = cacheConfig := hs.cacheConfig
      rw [hcache, hrefuse] at hpolicy
      cases hpolicy
  exact hall.2

/-- Where admission is refused, what a running request needs is charged to its slot already. -/
theorem reservation_of_refuse (howned : a.scheduler.Owned)
    (hset : Scheduler.SameSettings (.new config cacheConfig layout) a.scheduler)
    (hrefuse : cacheConfig.pressurePolicy = .refuseAdmission)
    (h : a.scheduler.Provides config cacheConfig layout [] left) {r : Request}
    (hr : r ∈ a.scheduler.requests) (hrun : r.state.isRunning = true) :
    ∃ slot needed, r.slot = some slot ∧ a.positionsNeeded r slot = .ok needed ∧
      Action.exec (Cache.reserve slot needed) a.scheduler.cache = (.ok (), a.scheduler.cache) := by
  have hp := h.idle hr (RequestState.isTerminal_of_isRunning hrun)
  obtain ⟨slot, st, hslot, hst, hgrant⟩ := hp.seated hrun
  obtain ⟨hmost, hfits⟩ := needed_le (howned.sound.slots slot st hst) hp.fits hgrant hp.short
  refine ⟨slot, st.len + r.pendingLen, hslot, ?_, ?_⟩
  · rw [positionsNeeded_eq hst, if_neg]
    rintro ⟨hlt, hreject⟩
    have hpolicy : a.scheduler.cache.overflowPolicy = cacheConfig.overflowPolicy :=
      hset.limits.overflowPolicy
    have := hfits (hpolicy ▸ hreject)
    omega
  · have hcov := hgrant.covers hrefuse
    have hcov' : st.Covers (st.len + r.pendingLen) := by
      unfold Slot.Covers at hcov ⊢
      omega
    rw [Cache.exec_reserve hst, if_pos hcov']

/-- So the third phase of a tick changes nothing. -/
theorem grow_of_refuse (howned : a.scheduler.Owned)
    (hset : Scheduler.SameSettings (.new config cacheConfig layout) a.scheduler)
    (hrefuse : cacheConfig.pressurePolicy = .refuseAdmission)
    (h : a.scheduler.Provides config cacheConfig layout [] left) : a.grow = a := by
  have hone : ∀ id ∈ a.scheduler.running, a.growOne id = a := by
    intro id hid
    obtain ⟨r, hr, rfl, hrun⟩ := (howned.running_iff id).mp hid
    obtain ⟨slot, needed, hslot, hneed, hres⟩ := reservation_of_refuse howned hset hrefuse h hr hrun
    rw [growOne_of_running howned hr hrun hslot, hneed]
    simp only [hres]
  have hfold : ∀ ids : List RequestId, (∀ id ∈ ids, id ∈ a.scheduler.running) →
      ids.foldl growOne a = a := by
    intro ids
    induction ids with
    | nil => exact fun _ => rfl
    | cons id rest ih =>
      intro hids
      rw [List.foldl_cons, hone id (hids id List.mem_cons_self)]
      exact ih fun other ho => hids other (List.mem_cons_of_mem _ ho)
  exact hfold a.scheduler.running fun _ => id

end Round

namespace Scheduler

variable {config : SchedulerConfig} {cacheConfig : CacheConfig} {layout : Layout} {s : Scheduler}
  {batch : List RequestId} {left : RequestId → Nat → Nat}

end Scheduler

end CausalServe
