import CausalServe.Proofs.Cache.Budget
import CausalServe.Proofs.Cache.History
import CausalServe.Proofs.Engine.Solo

/-! A request among others. While a tick is planned, requests are cut, seated, sent back and ended,
but what becomes of each of them stays what its loop alone would come to: a slot holds what its
request was fed, and nobody has to give way for good where the budget covers every request. -/

namespace CausalServe

def EngineConfig.solo (config : EngineConfig) (model : LanguageModel)
    (logits : List Token → List Float32) : Solo where
  logits := logits
  vocabSize := model.config.vocabSize
  eos := model.config.eosToken
  maxContext := config.cache.maxContext
  truncates := config.scheduler.truncateLongPrompts
  overflowPolicy := config.cache.overflowPolicy

/-! ## A request and its slot -/

namespace Request

/-- A slot that was fed a number of its request's tokens. -/
structure Seated (config : CacheConfig) (fed : SlotId → List Token) (n : Nat) (r : Request)
    (slot : SlotId) (st : Slot) : Prop where
  capacity : st.capacity = config.maxContext
  prompt_le : r.prompt.length ≤ config.maxContext
  lens : ∀ l ∈ st.layers, l.len = min n st.capacity
  tokens : fed slot = r.tokens.take n
  rejects : config.overflowPolicy = .reject → n ≤ config.maxContext
  covers : config.pressurePolicy = .refuseAdmission → st.Covers r.maxTotalLen

/-- A live request that nobody cancels, which runs in no time, and which the budget covers. Its slot
was fed a number of its tokens. -/
structure Tracked (config : CacheConfig) (layout : Layout) (c : Cache)
    (fed : SlotId → List Token) (n : Nat) (r : Request) : Prop where
  timeless : r.timeout = none
  uncancelled : r.cancelRequested = false
  plain : r.Plain
  sized : r.output.size < r.sampling.maxTokens
  short : r.cached < r.totalLen
  affordable : config.Affords layout r.maxTotalLen
  unfed : r.state = .queued → r.cached = 0
  seated : r.state.isRunning = true → ∃ slot st, r.slot = some slot ∧ c.slot? slot = some st ∧
    r.Seated config fed n slot st

variable {config : CacheConfig} {layout : Layout} {c c' : Cache} {fed fed' : SlotId → List Token}
  {n : Nat} {r : Request}

theorem Tracked.totalLen_le (h : r.Tracked config layout c fed n) : r.totalLen ≤ r.maxTotalLen := by
  have := h.sized
  unfold totalLen maxTotalLen
  omega

/-- A request is tracked by its own slot. -/
theorem Tracked.of_same (h : r.Tracked config layout c fed n) (hsame : ∀ slot, r.slot = some slot →
    c'.slot? slot = c.slot? slot ∧ fed' slot = fed slot) : r.Tracked config layout c' fed' n :=
  { h with
    seated := fun hrun => by
      obtain ⟨slot, st, hslot, hst, hseat⟩ := h.seated hrun
      obtain ⟨hslots, hfed⟩ := hsame slot hslot
      exact ⟨slot, st, hslot, hslots.trans hst, { hseat with tokens := hfed.trans hseat.tokens }⟩ }

theorem Seated.len {slot : SlotId} {st : Slot} (h : r.Seated config fed n slot st)
    (hlayers : st.layers ≠ []) : st.len = min n st.capacity :=
  st.len_of_forall h.lens hlayers

/-- A tracked request is due only when it is out of steps. -/
theorem Tracked.due (h : r.Tracked config layout c fed n) {now : Nat} {event : RequestEvent}
    (hdue : r.expiry? now = some event) : event = .timeout ∧ r.isStepBudgetExhausted = true := by
  rcases expiry?_some hdue with ⟨-, hcancel⟩ | ⟨rfl, -, htime | hsteps⟩
  · rw [h.uncancelled] at hcancel
    cases hcancel
  · rw [isTimedOut, h.timeless] at htime
    cases htime
  · exact ⟨rfl, hsteps⟩

end Request

/-! ## All requests -/

/-- The requests of a scheduler, with their samplers. Those that are live are tracked, each with the
number of its tokens that its slot was fed, and what becomes of every one is what is wanted. -/
structure Scheduler.Tracks (model : LanguageModel) (config : EngineConfig)
    (logits : List Token → List Float32) (want : RequestId → Outcome → Prop)
    (samplers : Table Sampler) (count : Request → Nat) (s : Scheduler)
    (fed : SlotId → List Token) : Prop where
  history : s.cache.History model config.cache fed
  tracked : ∀ r ∈ s.requests, r.state.isTerminal = false →
    r.Tracked config.cache (.ofModel model.config) s.cache fed (count r)
  wanted : ∀ r ∈ s.requests, ∀ sampler, samplers.get? r.id = some sampler →
    want r.id (r.prospect (config.solo model logits) sampler)

variable {model : LanguageModel} {config : EngineConfig} {logits : List Token → List Float32}
  {want : RequestId → Outcome → Prop} {samplers samplers' : Table Sampler}
  {count count' : Request → Nat} {fed fed' : SlotId → List Token} {now : Nat}

/-- When a request takes the place of another, it is enough to look at that one, as long as the
slots of the others are left alone. -/
theorem Scheduler.Tracks.replace {s s' : Scheduler}
    (h : s.Tracks model config logits want samplers count fed) {r : Request}
    (hreq : s'.requests = (s.update r).requests)
    (hhistory : s'.cache.History model config.cache fed')
    (hothers : ∀ x ∈ s.requests, x.id ≠ r.id → count' x = count x ∧ ∀ slot, x.slot = some slot →
      s'.cache.slot? slot = s.cache.slot? slot ∧ fed' slot = fed slot)
    (hsamplers : ∀ id ≠ r.id, samplers'.get? id = samplers.get? id)
    (hself : r.state.isTerminal = false →
      r.Tracked config.cache (.ofModel model.config) s'.cache fed' (count' r))
    (hwant : ∀ sampler, samplers'.get? r.id = some sampler →
      want r.id (r.prospect (config.solo model logits) sampler)) :
    s'.Tracks model config logits want samplers' count' fed' where
  history := hhistory
  tracked := fun x hx hlive => by
    rw [hreq] at hx
    rcases Scheduler.mem_update.mp hx with ⟨rfl, -⟩ | ⟨hx, hne⟩
    · exact hself hlive
    · obtain ⟨hcount, hsame⟩ := hothers x hx hne
      rw [hcount]
      exact (h.tracked x hx hlive).of_same hsame
  wanted := fun x hx sampler hs => by
    rw [hreq] at hx
    rcases Scheduler.mem_update.mp hx with ⟨rfl, -⟩ | ⟨hx, hne⟩
    · exact hwant sampler hs
    · rw [hsamplers x.id hne] at hs
      exact h.wanted x hx sampler hs

namespace Round

/-! ## Why a request ends -/

section Causes

variable {round : Round} {r ended : Request} {layout : Layout}

theorem fitted_of_fitPrompt (hset : Scheduler.SameSettings
      (.new config.scheduler config.cache (.ofModel model.config)) round.scheduler) {cut : Request}
    (hfit : round.scheduler.fitPrompt r = .ok cut) :
    (config.solo model logits).fitted r.prompt = some cut.prompt := by
  have hcache : round.scheduler.cacheConfig = config.cache := hset.cacheConfig
  have hconfig : round.scheduler.config = config.scheduler := hset.config
  rcases Scheduler.fitPrompt_ok hfit with ⟨rfl, hle⟩ | ⟨hlt, htrunc, rfl⟩
  · rw [hcache] at hle
    exact Solo.fitted_of_le hle
  · rw [hcache] at hlt ⊢
    rw [hconfig] at htrunc
    unfold Solo.fitted EngineConfig.solo
    rw [if_neg (Nat.not_le_of_lt hlt), if_pos htrunc]
    rfl

theorem fitted_of_fitPrompt_error (hset : Scheduler.SameSettings
      (.new config.scheduler config.cache (.ofModel model.config)) round.scheduler) {e : Error}
    (hfit : round.scheduler.fitPrompt r = .error e) :
    (config.solo model logits).fitted r.prompt = none := by
  have hcache : round.scheduler.cacheConfig = config.cache := hset.cacheConfig
  have hconfig : round.scheduler.config = config.scheduler := hset.config
  obtain ⟨hlt, htrunc, -⟩ := Scheduler.fitPrompt_error hfit
  rw [hcache] at hlt
  rw [hconfig] at htrunc
  unfold Solo.fitted EngineConfig.solo
  rw [if_neg (Nat.not_le_of_lt hlt), if_neg (by simp [htrunc])]

/-- Where the budget covers every request, none ends for want of it. -/
theorem not_starved (hkept : round.scheduler.cache.Kept model config.cache)
    (hlayers : 0 < model.config.numLayers)
    (hset : Scheduler.SameSettings
      (.new config.scheduler config.cache (.ofModel model.config)) round.scheduler)
    (hr : r.Tracked config.cache (.ofModel model.config) round.scheduler.cache fed r.cached)
    (hrun : r.state.isRunning = true) {slot : SlotId} (hslot : r.slot = some slot) {needed : Nat}
    (hneed : round.positionsNeeded r slot = .ok needed) (hvictim : round.victim? slot = none) :
    ∃ cache, Action.exec (Cache.reserve slot needed) round.scheduler.cache = (.ok (), cache) := by
  obtain ⟨slot', st, hslot', hst, hseat⟩ := hr.seated hrun
  cases hslot.symm.trans hslot'
  have hlen : st.len ≤ r.cached := by
    rw [hseat.len (hkept.layers_ne hlayers hst)]
    exact Nat.min_le_left _ _
  obtain ⟨rfl, -⟩ := positionsNeeded_ok hst hneed
  have hneeded : st.len + r.pendingLen ≤ r.maxTotalLen := by
    have := hr.short
    have := hr.totalLen_le
    unfold Request.pendingLen
    omega
  rcases victim?_none hvictim with hpolicy | honly
  · rw [show round.scheduler.cacheConfig = config.cache from hset.cacheConfig] at hpolicy
    have hcov := hseat.covers hpolicy
    have hcov' : st.Covers (st.len + r.pendingLen) := by
      unfold Slot.Covers at hcov ⊢
      omega
    rw [Cache.exec_reserve hst, if_pos hcov']
    exact ⟨_, rfl⟩
  · exact Cache.reserve_of_affords hr.affordable hkept.sound hkept.limits hst honly hseat.capacity
      hneeded

/-- A request that ends while a tick is planned ends as its loop does. -/
theorem Cause.prospect (hcause : round.Cause now r ended) (hlive : r.state.isTerminal = false)
    (hdue : r.expiry? now = none) (hkept : round.scheduler.cache.Kept model config.cache)
    (hlayers : 0 < model.config.numLayers) (hset : Scheduler.SameSettings
      (.new config.scheduler config.cache (.ofModel model.config)) round.scheduler)
    (hpos : 0 < config.cache.maxContext)
    (hr : r.Tracked config.cache (.ofModel model.config) round.scheduler.cache fed r.cached)
    (sampler : Sampler) : ended.prospect (config.solo model logits) sampler =
      r.prospect (config.solo model logits) sampler := by
  have hsteps := Request.expiry?_none hdue
  have hcache : round.scheduler.cacheConfig = config.cache := hset.cacheConfig
  cases hcause with
  | due hevent => exact absurd (hdue.symm.trans hevent) nofun
  | tooLong hq hfit hend =>
    obtain ⟨-, rfl⟩ := Request.fail_ok hend
    have hnone : (config.solo model logits).fitted r.prompt = none :=
      fitted_of_fitPrompt_error hset hfit
    obtain ⟨-, -, rfl⟩ := Scheduler.fitPrompt_error hfit
    rw [Request.prospect_failedBy hr.plain, Request.prospect_live hlive,
      Solo.run_tooLong hsteps hnone]
    rfl
  | tooLarge hq hfit hroom hend =>
    exfalso
    rcases hroom with hzero | ⟨hfull, hempty⟩
    · rw [hcache] at hzero
      omega
    · have hle := Scheduler.positionsFor_le (s := round.scheduler) hr.totalLen_le
      rw [hcache] at hle
      have hfits := Cache.canFit_of_affords hr.affordable hkept.sound hkept.limits hempty hle
      rw [hfits] at hfull
      cases hfull
  | @overgrown slot e hrun hslot hneed hend =>
    obtain ⟨-, rfl⟩ := Request.fail_ok hend
    obtain ⟨slot', st, hslot', hst, hseat⟩ := hr.seated hrun
    cases hslot.symm.trans hslot'
    rw [positionsNeeded_eq hst] at hneed
    split at hneed
    next hfull =>
      cases hneed
      obtain ⟨hlt, hpolicy⟩ := hfull
      rw [hkept.limits.overflowPolicy] at hpolicy
      rw [hseat.len (hkept.layers_ne hlayers hst), hseat.capacity] at hlt
      have hover : config.cache.maxContext < r.prompt.length + r.output.toList.length := by
        have := hr.short
        unfold Request.pendingLen Request.totalLen at *
        rw [Array.length_toList]
        omega
      rw [Request.prospect_failedBy hr.plain, Request.prospect_live hlive,
        Solo.run_overflow hsteps (Solo.fitted_of_le hseat.prompt_le) hpolicy hover]
      rfl
    next => cases hneed
  | starved hrun hslot hneed hres hvictim hend =>
    obtain ⟨cache', hok⟩ := not_starved hkept hlayers hset hr hrun hslot hneed hvictim
    exact absurd (hres.symm.trans hok) nofun
  | evicted hrun hpolicy hbudget hend =>
    exfalso
    rcases hr.affordable with hnone | ⟨hnot, -⟩
    · exact hbudget (hkept.limits.budget.trans hnone)
    · exact hnot (hcache ▸ hpolicy)

end Causes

/-! ## The phases of a plan -/

section Plans

variable {a b : Round}

theorem history_freed {c : Cache} (h : c.History model config.cache fed) (slot : Option SlotId) :
    (Scheduler.freed c slot).History model config.cache fed := by
  cases slot with
  | none => exact h
  | some slot => exact h.evict slot

/-- A request that ends gives its slot back, and no other slot. -/
theorem tracks_retire (howned : a.scheduler.Owned) {r ended : Request}
    (hr : r ∈ a.scheduler.requests) (hends : r.EndsAs ended)
    (h : a.scheduler.Tracks model config logits want samplers Request.cached fed)
    (hprospect : ∀ sampler, ended.prospect (config.solo model logits) sampler =
      r.prospect (config.solo model logits) sampler) :
    (a.retire ended).scheduler.Tracks model config logits want samplers Request.cached fed := by
  rw [Round.retire, Scheduler.retire, Scheduler.release_eq, hends.slot]
  refine h.replace (r := { ended with slot := none }) rfl (history_freed h.history r.slot) ?_
    (fun _ _ => rfl) (fun hlive => ?_) fun sampler hs => ?_
  · intro x hx hne
    exact ⟨rfl, fun slot hslot =>
      ⟨slots_freed howned hr hx (fun he => hne (he.trans hends.id.symm)) hslot, rfl⟩⟩
  · have := hends.terminal
    simp only at hlive
    rw [this] at hlive
    cases hlive
  · have hid : ended.id = r.id := hends.id
    have hsame : ({ ended with slot := none } : Request).prospect (config.solo model logits) sampler =
        ended.prospect (config.solo model logits) sampler := rfl
    rw [hsame, hprospect]
    simp only [hid] at hs ⊢
    exact h.wanted r hr sampler hs

theorem Due.tracks (hm : Due now a b) (howned : a.scheduler.Owned)
    (h : a.scheduler.Tracks model config logits want samplers Request.cached fed) :
    b.scheduler.Tracks model config logits want samplers Request.cached fed := by
  cases hm with
  | @retire r ended event hr hlive hdue hend =>
    have htracked := h.tracked r hr hlive
    obtain ⟨rfl, hsteps⟩ := htracked.due hdue
    rw [Request.apply_timeout hlive] at hend
    cases hend
    refine tracks_retire howned hr ⟨rfl, rfl⟩ h fun sampler => ?_
    rw [Request.prospect_live hlive, Solo.run_exhausted hsteps, Request.prospect_ended rfl]
    simp only [Request.outcome, htracked.plain.1]
    rfl

/-- The new slot of a request is empty, and covers what is reserved at admission. -/
theorem tracked_seat (hkept : a.scheduler.cache.Kept model config.cache)
    (hset : Scheduler.SameSettings
      (.new config.scheduler config.cache (.ofModel model.config)) a.scheduler)
    (hpos : 0 < config.cache.maxContext) {r : Request} (hq : r.state = .queued)
    (hr : r.Tracked config.cache (.ofModel model.config) a.scheduler.cache fed r.cached)
    (hfit : a.scheduler.fitPrompt r = .ok r) {cache : Cache}
    (hres : Action.exec (Cache.reserve a.scheduler.cache.nextId (a.scheduler.positionsFor r))
      (a.scheduler.cache.opened r.id config.cache.maxContext) = (.ok (), cache)) :
    (r.startIn a.scheduler.cache.nextId).Tracked config.cache (.ofModel model.config) cache
      (Function.update fed a.scheduler.cache.nextId []) r.cached := by
  have hcache : a.scheduler.cacheConfig = config.cache := hset.cacheConfig
  have hfresh := hkept.sound.slot?_opened r.id config.cache.maxContext a.scheduler.cache.nextId
  rw [if_pos rfl] at hfresh
  have hlen := Scheduler.fitPrompt_length hfit
  rw [hcache] at hlen
  have hunfed := hr.unfed hq
  obtain ⟨m, hm, -, hcov⟩ := (hkept.sound.opened r.id hpos).covers_of_reserve hfresh hres
  exact {
    hr with
    unfed := nofun
    seated := fun _ => ⟨a.scheduler.cache.nextId, _, rfl, hm, {
      capacity := rfl
      prompt_le := hlen
      lens := fun l hl => by
        rw [List.eq_of_mem_replicate hl, hunfed]
        exact (Nat.zero_min _).symm
      tokens := by rw [Function.update_self, hunfed]; rfl
      rejects := fun _ => by rw [hunfed]; exact Nat.zero_le _
      covers := fun hpolicy => by
        unfold Slot.Covers Scheduler.positionsFor at hcov
        rw [hcache, hpolicy] at hcov
        change min (max r.maxTotalLen r.pendingLen ⊓ config.cache.maxContext) config.cache.maxContext ≤
          m at hcov
        change min r.maxTotalLen config.cache.maxContext ≤ m
        omega }⟩ }

/-- A queued request whose prompt is cut goes on with what is left of it. -/
theorem tracks_fit (hset : Scheduler.SameSettings
      (.new config.scheduler config.cache (.ofModel model.config)) a.scheduler)
    (hpos : 0 < config.cache.maxContext) {r cut : Request} (hr : r ∈ a.scheduler.requests)
    (hq : r.state = .queued) (hdue : r.expiry? now = none)
    (hfit : a.scheduler.fitPrompt r = .ok cut)
    (h : a.scheduler.Tracks model config logits want samplers Request.cached fed) :
    (a.scheduler.update cut).Tracks model config logits want samplers Request.cached fed := by
  have hlive : r.state.isTerminal = false := by rw [hq]; rfl
  have htracked := h.tracked r hr hlive
  have hcache : a.scheduler.cacheConfig = config.cache := hset.cacheConfig
  have hfitted : (config.solo model logits).fitted r.prompt = some cut.prompt :=
    fitted_of_fitPrompt hset hfit
  have hsame : ∀ sampler, cut.prospect (config.solo model logits) sampler =
      r.prospect (config.solo model logits) sampler :=
    Request.prospect_fitted hlive (Request.expiry?_none hdue) hfitted (Scheduler.fitPrompt_kept hfit)
  obtain ⟨prompt, truncated, rfl, hle, hne⟩ := Scheduler.fitPrompt_shape hfit (hcache ▸ hpos)
  refine h.replace rfl h.history (fun _ _ _ => ⟨rfl, fun _ _ => ⟨rfl, rfl⟩⟩) (fun _ _ => rfl) ?_ ?_
  · intro _
    have hunfed := htracked.unfed hq
    exact { htracked with
      short := by
        have := htracked.short
        unfold Request.totalLen at this ⊢
        simp only [hunfed] at this ⊢
        omega
      affordable := htracked.affordable.mono (by
        unfold Request.maxTotalLen
        simp only
        omega)
      seated := fun hrun => by
        simp only [hq] at hrun
        cases hrun }
  · intro sampler hs
    rw [hsame]
    exact h.wanted r hr sampler hs

/-- A queued request takes its seat, and the slots of the others are left alone. -/
theorem tracks_seat (hserves : model.Serves config.cache logits) (howned : a.scheduler.Owned)
    (hset : Scheduler.SameSettings
      (.new config.scheduler config.cache (.ofModel model.config)) a.scheduler)
    (hpos : 0 < config.cache.maxContext) {r : Request} (hr : r ∈ a.scheduler.requests)
    (hq : r.state = .queued) (hfit : a.scheduler.fitPrompt r = .ok r) {cache : Cache}
    (hres : Action.exec (Cache.reserve a.scheduler.cache.nextId (a.scheduler.positionsFor r))
      (a.scheduler.cache.opened r.id config.cache.maxContext) = (.ok (), cache))
    (rest : List QueueEntry)
    (h : a.scheduler.Tracks model config logits want samplers Request.cached fed) :
    (a.seat (r.startIn a.scheduler.cache.nextId) cache rest).scheduler.Tracks model config logits
      want samplers Request.cached (Function.update fed a.scheduler.cache.nextId []) := by
  have hkept := h.history.kept hserves
  have hlive : r.state.isTerminal = false := by rw [hq]; rfl
  have htracked := h.tracked r hr hlive
  have halloc : Action.exec (Cache.allocate r.id config.cache.maxContext) a.scheduler.cache =
      (.ok a.scheduler.cache.nextId, a.scheduler.cache.opened r.id config.cache.maxContext) := by
    rw [Cache.exec_allocate, if_neg (Nat.ne_of_gt hpos)]
  have hhistory := (h.history.allocate halloc).reserve a.scheduler.cache.nextId
    (a.scheduler.positionsFor r)
  rw [hres] at hhistory
  have hfresh := hkept.sound.slot?_opened r.id config.cache.maxContext
  refine h.replace (r := r.startIn a.scheduler.cache.nextId) rfl hhistory ?_ (fun _ _ => rfl)
    (fun _ => tracked_seat hkept hset hpos hq htracked hfit hres) ?_
  · intro x hx hne
    refine ⟨rfl, fun slot hslot => ?_⟩
    -- the slots that others hold are live, and the new one was not
    have hother : slot ≠ a.scheduler.cache.nextId := by
      intro he
      obtain ⟨st, hst, -⟩ := Cache.holder_eq_some.mp
        ((howned.holder_iff slot x.id).mpr ⟨x, hx, rfl, hslot⟩)
      rw [he, hkept.sound.nextId_fresh] at hst
      cases hst
    have hnew := hfresh a.scheduler.cache.nextId
    rw [if_pos rfl] at hnew
    refine ⟨(Cache.slot?_reserve_ne hnew hres hother).trans ?_, Function.update_of_ne hother _ _⟩
    rw [hfresh, if_neg hother]
  · intro sampler hs
    rw [Request.prospect_congr (x := r.startIn a.scheduler.cache.nextId) hlive rfl rfl rfl rfl rfl rfl]
    exact h.wanted r hr sampler hs

/-- The slot of a running request grows. -/
theorem tracks_reserve (hkept : a.scheduler.cache.Kept model config.cache)
    (howned : a.scheduler.Owned) {r : Request} (hr : r ∈ a.scheduler.requests)
    (hrun : r.state.isRunning = true) {slot : SlotId} (hslot : r.slot = some slot) {needed : Nat}
    {cache : Cache}
    (hres : Action.exec (Cache.reserve slot needed) a.scheduler.cache = (.ok (), cache))
    (h : a.scheduler.Tracks model config logits want samplers Request.cached fed) :
    ({ a.scheduler with cache := cache } : Scheduler).Tracks model config logits want samplers
      Request.cached fed := by
  have htracked := h.tracked r hr (RequestState.isTerminal_of_isRunning hrun)
  obtain ⟨slot', st, hslot', hst, hseat⟩ := htracked.seated hrun
  cases hslot.symm.trans hslot'
  have hhistory := h.history.reserve slot needed
  rw [hres] at hhistory
  obtain ⟨m, hm, hle, -⟩ := hkept.sound.covers_of_reserve hst hres
  have hreq : a.scheduler.requests = (a.scheduler.update r).requests :=
    congrArg Scheduler.requests (howned.ids.update_self hr).symm
  refine h.replace hreq hhistory ?_ (fun _ _ => rfl) ?_ (h.wanted r hr)
  · intro x hx hne
    exact ⟨rfl, fun other hother => ⟨Cache.slot?_reserve_ne hst hres fun he =>
      hne (by rw [howned.slot_inj hx hr (he ▸ hother) hslot]), rfl⟩⟩
  · intro _
    exact { htracked with
      seated := fun _ => ⟨slot, _, hslot, hm, { hseat with
        covers := fun hpolicy => Nat.le_trans (hseat.covers hpolicy) hle }⟩ }

/-- A running request is sent back. It will be fed all of its tokens again. -/
theorem tracks_unseat (howned : a.scheduler.Owned) {r : Request} (hr : r ∈ a.scheduler.requests)
    (hrun : r.state.isRunning = true)
    (h : a.scheduler.Tracks model config logits want samplers Request.cached fed) :
    (a.unseat r).scheduler.Tracks model config logits want samplers Request.cached fed := by
  have hlive := RequestState.isTerminal_of_isRunning hrun
  have htracked := h.tracked r hr hlive
  rw [unseat, Scheduler.release_eq]
  refine h.replace (r := r.requeued) rfl (history_freed h.history r.slot) ?_ (fun _ _ => rfl) ?_ ?_
  · intro x hx hne
    exact ⟨rfl, fun slot hslot => ⟨slots_freed howned hr hx hne hslot, rfl⟩⟩
  · intro _
    exact { htracked with
      short := Nat.lt_of_le_of_lt (Nat.zero_le _) htracked.short
      unfed := fun _ => rfl
      seated := fun hrun => by cases hrun }
  · intro sampler hs
    rw [Request.prospect_congr (x := r.requeued) hlive rfl rfl rfl rfl rfl rfl]
    exact h.wanted r hr sampler hs

/-- A tick that is planned keeps track of its requests, once those that are due have ended. -/
theorem Move.tracks (hm : Move now a b) (hserves : model.Serves config.cache logits)
    (howned : a.scheduler.Owned) (hset : Scheduler.SameSettings
      (.new config.scheduler config.cache (.ofModel model.config)) a.scheduler)
    (hpos : 0 < config.cache.maxContext) (hdue : ∀ r ∈ a.scheduler.requests,
      r.state.isTerminal = false → r.expiry? now = none)
    (h : a.scheduler.Tracks model config logits want samplers Request.cached fed) :
    ∃ fed', b.scheduler.Tracks model config logits want samplers Request.cached fed' := by
  have hkept := h.history.kept hserves
  have hcache : a.scheduler.cacheConfig = config.cache := hset.cacheConfig
  cases hm with
  | @fit r cut hr hq hfit =>
    exact ⟨fed, tracks_fit hset hpos hr hq (hdue r hr (by rw [hq]; rfl)) hfit h⟩
  | @retire r ended hr hlive hcause =>
    exact ⟨fed, tracks_retire howned hr (hcause.endsAs hlive) h fun sampler =>
      hcause.prospect hlive (hdue r hr hlive) hkept hserves.layered hset hpos
        (h.tracked r hr hlive) sampler⟩
  | @enter r entry rest cache hr hq hwait hentry hlt hfit hcontext hres =>
    rw [hcache] at hres
    exact ⟨_, tracks_seat hserves howned hset hpos hr hq hfit hres rest h⟩
  | @reserve r slot needed cache hr hrun hslot hneed hres =>
    exact ⟨fed, tracks_reserve hkept howned hr hrun hslot hres h⟩
  | @preempt r hr hrun hpolicy => exact ⟨fed, tracks_unseat howned hr hrun h⟩

theorem Dues.tracks (hm : Dues now a b) (howned : a.scheduler.Owned)
    (h : a.scheduler.Tracks model config logits want samplers Request.cached fed) :
    b.scheduler.Owned ∧ b.scheduler.Tracks model config logits want samplers Request.cached fed := by
  induction hm with
  | refl => exact ⟨howned, h⟩
  | tail _ hm ih => exact ⟨hm.move.owned ih.1, hm.tracks ih.1 ih.2⟩

/-- A round where nobody is due, with the settings that it started from. -/
structure Undue (config : EngineConfig) (layout : Layout) (now : Nat) (round : Round) : Prop where
  owned : round.scheduler.Owned
  settings : Scheduler.SameSettings (.new config.scheduler config.cache layout) round.scheduler
  due : ∀ r ∈ round.scheduler.requests, r.state.isTerminal = false → r.expiry? now = none

theorem Undue.move {layout : Layout} (h : Undue config layout now a) (hm : Move now a b) :
    Undue config layout now b where
  owned := hm.owned h.owned
  settings := h.settings.trans hm.settings
  due := fun x hx hlive => by
    obtain ⟨r, hr, hf⟩ := hm.follows x hx
    obtain ⟨hlive', hdue⟩ := hf.live hlive
    rw [hdue]
    exact h.due r hr hlive'

theorem Moves.tracks (hm : Moves now a b) (hserves : model.Serves config.cache logits)
    (hpos : 0 < config.cache.maxContext) (hundue : Undue config (.ofModel model.config) now a)
    (h : a.scheduler.Tracks model config logits want samplers Request.cached fed) :
    ∃ fed', b.scheduler.Tracks model config logits want samplers Request.cached fed' :=
  (hm.keep (P := fun x => Undue config (.ofModel model.config) now x ∧
      ∃ fed', x.scheduler.Tracks model config logits want samplers Request.cached fed')
    ⟨hundue, fed, h⟩ fun _ _ hmove ⟨hu, _, ht⟩ =>
      ⟨hu.move hmove, hmove.tracks hserves hu.owned hu.settings hpos hu.due ht⟩).2

end Plans

end Round

/-- After a tick was planned, what becomes of each request is still what its loop would come to. -/
theorem Scheduler.Tracks.tick {s : Scheduler}
    (h : s.Tracks model config logits want samplers Request.cached fed)
    (hserves : model.Serves config.cache logits) (hpos : 0 < config.cache.maxContext)
    (howned : s.Owned) (hset : SameSettings
      (.new config.scheduler config.cache (.ofModel model.config)) s) (now : Nat) :
    ∃ fed', (s.tick now).scheduler.Tracks model config logits want samplers Request.cached fed' := by
  obtain ⟨hdues, howned', henter, -, hgrow⟩ := howned.phases now
  have hstart : ({ scheduler := s } : Round).scheduler.Tracks model config logits want samplers
    Request.cached fed := h
  have hundue : Round.Undue config (.ofModel model.config) now
      (({ scheduler := s } : Round).expire now) :=
    ⟨howned', hset.trans hdues.moves.settings, fun r hr hlive => Round.not_due_of_expire howned.ids hr hlive⟩
  exact Round.Moves.tracks (henter.trans hgrow) hserves hpos hundue (hdues.tracks howned hstart).2

end CausalServe
