import CausalServe.Proofs.Scheduler.Ticking

/-! The pace of running requests. Once its prompt is fed, a request feeds one token at a time; what
it feeds before is charged to its slot when it is admitted. So between two batches a running request
asks for one position more than it holds, or for none that it has not been given. -/

namespace CausalServe

namespace Request

/-- A request that feeds one token at a time. -/
def Steady (r : Request) : Prop := r.state = .decoding ∧ r.pendingLen = 1

/-- A live request with its slot if it runs. A slot has the capacity of the context, and is charged
from the start unless the prompt is empty. A request that is not in the batch has its slot ready, or
feeds one token at a time. -/
structure Paced (context : Nat) (c : Cache) (batch : List RequestId) (r : Request) : Prop where
  unfed : r.state = .queued → r.cached = 0
  seated : r.state.isRunning = true → ∃ slot st, r.slot = some slot ∧ c.slot? slot = some st ∧
    st.capacity = context ∧ (r.prompt ≠ [] → 0 < st.allocated) ∧
    (r.id ∈ batch ∨ r.Steady ∨ st.Covers (st.len + r.pendingLen))

variable {context : Nat} {c c' : Cache} {batch batch' : List RequestId} {r : Request}

/-- A request keeps its pace in its own slot. -/
theorem Paced.of_same (h : r.Paced context c batch) (hbatch : r.id ∈ batch → r.id ∈ batch')
    (hsame : ∀ slot, r.slot = some slot → c'.slot? slot = c.slot? slot) :
    r.Paced context c' batch' where
  unfed := h.unfed
  seated := fun hrun => by
    obtain ⟨slot, st, hslot, hst, hcapacity, hstocked, hpace⟩ := h.seated hrun
    exact ⟨slot, st, hslot, (hsame slot hslot).trans hst, hcapacity, hstocked,
      hpace.imp_left hbatch⟩

theorem paced_of_queued (hq : r.state = .queued) (hunfed : r.cached = 0) :
    r.Paced context c batch where
  unfed := fun _ => hunfed
  seated := fun hrun => by
    rw [hq] at hrun
    cases hrun

theorem paced_of_terminal (hend : r.state.isTerminal = true) : r.Paced context c batch where
  unfed := fun hq => absurd hq (RequestState.ne_queued_of_isTerminal hend)
  seated := fun hrun => by
    rw [RequestState.not_isRunning_of_isTerminal hend] at hrun
    cases hrun

/-- A request that has made a step has one token to feed. -/
theorem steady_stepped (r : Request) (token : Token) : (r.stepped token).Steady := by
  refine ⟨rfl, ?_⟩
  have hsize : (r.stepped token).output.size = r.output.size + 1 := Array.size_push ..
  have hcached : (r.stepped token).cached = r.totalLen := by
    change min (r.cached + r.pendingLen) r.totalLen = r.totalLen
    unfold pendingLen
    omega
  unfold pendingLen
  rw [hcached]
  unfold totalLen
  rw [hsize]
  change r.prompt.length + (r.output.size + 1) - _ = 1
  omega

end Request

namespace Scheduler

/-- A scheduler whose running requests keep their pace. -/
structure Paced (s : Scheduler) (batch : List RequestId) : Prop where
  paced : ∀ r ∈ s.requests, r.Paced s.cacheConfig.maxContext s.cache batch
  nodup : batch.Nodup

variable {s s' : Scheduler} {batch batch' : List RequestId}

/-- When a request takes the place of another, it is enough to look at that one, as long as the
slots of the others are left alone. -/
theorem Paced.replace (h : s.Paced batch) {r : Request}
    (hreq : s'.requests = (s.update r).requests) (hcache : s'.cacheConfig = s.cacheConfig)
    (hnodup : batch'.Nodup) (hbatch : ∀ id ≠ r.id, id ∈ batch → id ∈ batch')
    (hslots : ∀ x ∈ s.requests, x.id ≠ r.id → ∀ slot, x.slot = some slot →
      s'.cache.slot? slot = s.cache.slot? slot)
    (hself : r.Paced s.cacheConfig.maxContext s'.cache batch') : s'.Paced batch' where
  paced := fun x hx => by
    rw [hcache]
    rw [hreq] at hx
    rcases mem_update.mp hx with ⟨rfl, -⟩ | ⟨hx, hne⟩
    · exact hself
    · exact (h.paced x hx).of_same (hbatch x.id hne) (hslots x hx hne)
  nodup := hnodup

/-- A request that ends gives its slot back, and no other slot. -/
theorem Paced.retire (h : s.Paced batch) (howned : s.Owned) {r ended : Request}
    (hr : r ∈ s.requests) (hid : ended.id = r.id) (hslot : ended.slot = r.slot)
    (hend : ended.state.isTerminal = true) (hnodup : batch'.Nodup)
    (hbatch : ∀ id ≠ r.id, id ∈ batch → id ∈ batch') : (s.retire ended).Paced batch' := by
  rw [Scheduler.retire, Scheduler.release_eq, hslot]
  refine h.replace (r := { ended with slot := none }) rfl rfl hnodup (fun id hne => ?_) ?_
    (Request.paced_of_terminal hend)
  · exact hbatch id fun he => hne (he.trans hid.symm)
  · intro x hx hne slot hxs
    exact Round.slots_freed (a := { scheduler := s }) howned hr hx
      (fun he => hne (he.trans hid.symm)) hxs

end Scheduler

namespace Round

variable {now : Nat} {a b : Round}

/-- A queued request takes its seat in a slot that is charged for all that it feeds first. -/
theorem paced_seat (h : a.scheduler.Paced []) (howned : a.scheduler.Owned) {r : Request}
    (hr : r ∈ a.scheduler.requests) (hq : r.state = .queued)
    (hpos : 0 < a.scheduler.cacheConfig.maxContext) {cache : Cache}
    (hres : Action.exec (Cache.reserve a.scheduler.cache.nextId (a.scheduler.positionsFor r))
      (a.scheduler.cache.opened r.id a.scheduler.cacheConfig.maxContext) = (.ok (), cache))
    (rest : List QueueEntry) :
    (a.seat (r.startIn a.scheduler.cache.nextId) cache rest).scheduler.Paced [] := by
  have hfresh := howned.sound.slot?_opened r.id a.scheduler.cacheConfig.maxContext
    a.scheduler.cache.nextId
  rw [if_pos rfl] at hfresh
  have hopen := howned.sound.opened r.id hpos
  obtain ⟨m, hm, -, hcov⟩ := hopen.covers_of_reserve hfresh hres
  have hempty := (hopen.slots _ _ hfresh).holds_le
  have hunfed := (h.paced r hr).unfed hq
  have hall : min r.pendingLen a.scheduler.cacheConfig.maxContext ≤ m := by
    refine Nat.le_trans ?_ hcov
    change _ ≤ min (a.scheduler.positionsFor r) a.scheduler.cacheConfig.maxContext
    unfold Scheduler.positionsFor
    cases a.scheduler.cacheConfig.pressurePolicy <;> simp only <;> omega
  refine h.replace (r := r.startIn a.scheduler.cache.nextId) rfl rfl List.nodup_nil
    (fun _ _ => id) (fun x hx _ slot hslot => slots_seated howned hx hslot hres) ⟨nofun, fun _ => ?_⟩
  refine ⟨a.scheduler.cache.nextId, _, rfl, hm, rfl, fun hprompt => ?_, .inr (.inr ?_)⟩
  · have hlen : 0 < r.prompt.length := List.length_pos_iff.mpr hprompt
    change 0 < m
    unfold Request.pendingLen Request.totalLen at hall
    omega
  · change min ((a.scheduler.cache.freshSlot r.id a.scheduler.cacheConfig.maxContext).len +
      r.pendingLen) a.scheduler.cacheConfig.maxContext ≤ m
    rw [Nat.le_zero.mp hempty, Nat.zero_add]
    exact hall

/-- The slot of a running request grows. -/
theorem paced_reserve (h : a.scheduler.Paced []) (howned : a.scheduler.Owned) {r : Request}
    (hr : r ∈ a.scheduler.requests) (hrun : r.state.isRunning = true) {slot : SlotId}
    (hslot : r.slot = some slot) {needed : Nat} {cache : Cache}
    (hres : Action.exec (Cache.reserve slot needed) a.scheduler.cache = (.ok (), cache)) :
    ({ a.scheduler with cache := cache } : Scheduler).Paced [] := by
  have hp := h.paced r hr
  obtain ⟨slot', st, hslot', hst, hcapacity, hstocked, hpace⟩ := hp.seated hrun
  cases hslot.symm.trans hslot'
  obtain ⟨m, hm, hle, -⟩ := howned.sound.covers_of_reserve hst hres
  have hreq : a.scheduler.requests = (a.scheduler.update r).requests :=
    congrArg Scheduler.requests (howned.ids.update_self hr).symm
  refine h.replace hreq rfl List.nodup_nil (fun _ _ => id) ?_ ⟨hp.unfed, fun _ => ?_⟩
  · intro x hx hne other hother
    refine Cache.slot?_reserve_ne hst hres fun he => hne ?_
    rw [howned.slot_inj hx hr (he ▸ hother) hslot]
  · exact ⟨slot, _, hslot, hm, hcapacity, fun hne => Nat.lt_of_lt_of_le (hstocked hne) hle,
      hpace.imp_right (Or.imp_right fun hcov => Nat.le_trans hcov hle)⟩

theorem Move.paced (hm : Move now a b) (howned : a.scheduler.Owned) (h : a.scheduler.Paced []) :
    b.scheduler.Paced [] := by
  cases hm with
  | @fit r cut hr hq hfit =>
    have hkept := Scheduler.fitPrompt_kept hfit
    refine h.replace rfl rfl List.nodup_nil (fun _ _ => id) (fun _ _ _ _ _ => rfl)
      (Request.paced_of_queued ?_ ?_) <;> rw [hkept]
    · exact hq
    · exact (h.paced r hr).unfed hq
  | retire hr hlive hcause =>
    have hends := hcause.endsAs hlive
    exact h.retire howned hr hends.id hends.slot hends.terminal List.nodup_nil fun _ _ => id
  | enter hr hq hwait hentry hlt hfit hpos hres => exact paced_seat h howned hr hq hpos hres _
  | reserve hr hrun hslot hneed hres => exact paced_reserve h howned hr hrun hslot hres
  | @preempt r hr hrun hpolicy =>
    rw [unseat, Scheduler.release_eq]
    exact h.replace (r := r.requeued) rfl rfl List.nodup_nil (fun _ _ => id)
      (fun x hx hne slot hslot => slots_freed howned hr hx hne hslot)
      (Request.paced_of_queued rfl rfl)

theorem Moves.paced (hm : Moves now a b) (howned : a.scheduler.Owned) (h : a.scheduler.Paced []) :
    b.scheduler.Paced [] :=
  (hm.keep (P := fun x => x.scheduler.Owned ∧ x.scheduler.Paced []) ⟨howned, h⟩
    fun _ _ hmove hp => ⟨hmove.owned hp.1, hmove.paced hp.1 hp.2⟩).2

end Round

namespace Scheduler

/-! ## Runs of ticks -/

variable {config : SchedulerConfig} {cacheConfig : CacheConfig} {layout : Layout} {s : Scheduler}
  {batch : List RequestId} {left : RequestId → Nat → Nat}

/-- A request that does not run any more may leave the batch. -/
theorem Paced.erase (h : s.Paced batch) {id : RequestId}
    (hstill : ∀ r ∈ s.requests, r.id = id → r.state.isRunning = false) :
    s.Paced (batch.erase id) where
  paced := fun x hx => by
    have hp := h.paced x hx
    by_cases he : x.id = id
    · refine ⟨hp.unfed, fun hrun => ?_⟩
      rw [hstill x hx he] at hrun
      cases hrun
    · exact hp.of_same (List.mem_erase_of_ne he).mpr fun _ _ => rfl
  nodup := h.nodup.erase id

theorem Paced.addRequest (h : s.Paced []) {r : Request} (hr : r.Fresh) :
    (Action.exec (addRequest r) s).2.Paced [] := by
  rcases addRequest_cases s r with ⟨e, he⟩ | ⟨-, hq, he⟩ <;> rw [he]
  · exact h
  · refine ⟨fun x hx => ?_, List.nodup_nil⟩
    rcases mem_arrived.mp hx with hx | rfl
    · exact h.paced x hx
    · exact Request.paced_of_queued hq hr.cached

theorem Paced.cancel (h : s.Paced batch) (id : RequestId) :
    (Action.exec (cancel id) s).2.Paced batch := by
  rw [exec_cancel]
  cases hfind : s.request? id with
  | none => exact h
  | some r =>
    have hp := h.paced r (mem_of_request? hfind).1
    exact h.replace (r := { r with cancelRequested := true }) rfl rfl h.nodup (fun _ _ hm => hm)
      (fun _ _ _ _ _ => rfl) ⟨hp.unfed, hp.seated⟩

theorem Paced.removeRequest (h : s.Paced []) (howned : s.Owned) (id : RequestId) :
    (s.removeRequest id).2.Paced [] := by
  cases hfind : s.request? id with
  | none =>
    rw [removeRequest_of_none hfind]
    exact h
  | some r =>
    obtain ⟨hr, rfl⟩ := mem_of_request? hfind
    rw [removeRequest_of_some hfind, release_eq]
    refine ⟨fun x hx => ?_, List.nodup_nil⟩
    obtain ⟨hx, hne⟩ : x ∈ s.requests ∧ x.id ≠ r.id := by simpa using hx
    exact (h.paced x hx).of_same id fun slot hslot =>
      Round.slots_freed (a := { scheduler := s }) howned hr hx hne hslot

theorem Paced.failRequest (h : s.Paced batch) (howned : s.Owned) (id : RequestId) (e : Error) :
    (Action.exec (failRequest id e) s).2.Paced (batch.erase id) := by
  rcases failRequest_cases s id e with ⟨fault, hexec⟩ | ⟨r, hfind, hlive, hexec⟩
  · rw [hexec]
    exact h.erase fun x hx hid => howned.ids.still_of_failRequest hexec hx hid
  · obtain ⟨hr, rfl⟩ := mem_of_request? hfind
    rw [hexec]
    exact h.retire howned hr rfl rfl rfl (h.nodup.erase _)
      fun other hne => (List.mem_erase_of_ne hne).mpr

/-- A request that makes its step, and goes on, is steady. -/
theorem Paced.completeStep (h : s.Paced batch) (howned : s.Owned) (id : RequestId) (token : Token)
    (eos : Option Token) : (Action.exec (completeStep id token eos) s).2.Paced (batch.erase id) := by
  rcases completeStep_cases s id token eos with ⟨fault, hexec⟩ | ⟨r, hfind, hrun⟩
  · rw [hexec]
    exact h.erase fun x hx hid => howned.ids.still_of_completeStep hexec hx hid
  · obtain ⟨hr, rfl⟩ := mem_of_request? hfind
    have hothers : ∀ other ≠ r.id, other ∈ batch → other ∈ batch.erase r.id :=
      fun other hne => (List.mem_erase_of_ne hne).mpr
    rw [exec_completeStep hfind hrun]
    cases hstop : (r.stepped token).checkStop eos with
    | some reason => exact h.retire howned hr rfl rfl rfl (h.nodup.erase _) hothers
    | none =>
      obtain ⟨slot, st, hslot, hst, hcapacity, hstocked, -⟩ := (h.paced r hr).seated hrun
      exact h.replace (r := r.stepped token) rfl rfl (h.nodup.erase _) hothers
        (fun _ _ _ _ _ => rfl) ⟨nofun, fun _ => ⟨slot, st, hslot, hst, hcapacity, hstocked,
          .inr (.inl (r.steady_stepped token))⟩⟩

/-- A row goes to a slot of the batch. -/
theorem Paced.append (h : s.Paced batch) (horderly : Orderly layout s batch left) {r : Request}
    {slot : SlotId} {layer : Nat} {key value : List Float32} (hr : r ∈ s.requests)
    (hid : r.id ∈ batch) (hslot : r.slot = some slot) (hlayer : layer < layout.numLayers)
    (hleft : 0 < left r.id layer) (hkey : key.length = layout.kvWidth)
    (hvalue : value.length = layout.kvWidth) :
    { s with cache := (Action.exec (Cache.append slot layer key value) s.cache).2 }.Paced batch := by
  obtain ⟨c, hexec, hfed⟩ := horderly.exec_append hr hid hslot hlayer hleft hkey hvalue
  have hp := h.paced r hr
  have hreq : s.requests = (s.update r).requests :=
    congrArg Scheduler.requests (horderly.owned.ids.update_self hr).symm
  refine h.replace hreq rfl h.nodup (fun _ _ hm => hm) ?_ ⟨hp.unfed, fun hrun => ?_⟩
  · intro x hx hne other hother
    refine Cache.slot?_append_ne s.cache slot layer key value fun he => hne ?_
    rw [horderly.owned.slot_inj hx hr (he ▸ hother) hslot]
  · obtain ⟨slot', st, hslot', hst, hcapacity, hstocked, -⟩ := hp.seated hrun
    obtain ⟨st', hst', hgrew⟩ := hfed.live slot' st hst
    rw [hexec]
    exact ⟨slot', st', hslot', hst', hgrew.capacity.trans hcapacity,
      fun hprompt => hgrew.allocated ▸ hstocked hprompt, .inl hid⟩

/-- In every run a scheduler keeps its requests at their pace. -/
theorem Ticking.paced (h : Ticking config cacheConfig layout s batch left) : s.Paced batch := by
  induction h with
  | new => exact ⟨fun r hr => absurd hr List.not_mem_nil, List.nodup_nil⟩
  | addRequest _ hr ih => exact ih.addRequest hr
  | cancel _ id ih => exact ih.cancel id
  | removeRequest h id ih => exact ih.removeRequest h.orderly.owned id
  | failRequest h id e ih => exact ih.failRequest h.orderly.owned id e
  | @schedule s left h now ih =>
    have howned := h.orderly.owned.tick now
    have hp := (h.orderly.owned.moves_tick now).paced h.orderly.owned ih
    rw [schedule_eq]
    show Scheduler.Paced _ (s.tick now).plan.batch
    rw [howned.batch_eq]
    exact ⟨fun r hr => (hp.paced r hr).of_same (fun hm => absurd hm List.not_mem_nil) fun _ _ => rfl,
      howned.running_nodup⟩
  | append h hr hid hslot hlayer hleft hkey hvalue ih =>
    exact ih.append h.orderly hr hid hslot hlayer hleft hkey hvalue
  | completeStep h _ token eos ih => exact ih.completeStep h.orderly.owned _ token eos
  | failStep h id e ih => exact ih.failRequest h.orderly.owned id e

end Scheduler

end CausalServe
