import CausalServe.Proofs.Cache.Budget
import CausalServe.Proofs.Scheduler.Ticking

/-! Requests that each fit alone. Where no request is ended to make room for another, none is lost
to memory pressure: whoever must wait is admitted later, whoever is sent back comes to the same end,
and the last one running finds the whole budget. Where admission is refused instead, a running
request has all that it can come to need from the start. -/

namespace CausalServe

namespace Request

def fittedLen (r : Request) (config : CacheConfig) : Nat := min r.prompt.length config.maxContext

/-- A request that a cache could serve if there were no other: its prompt fits the context or may be
cut, the budget covers all that it can come to need, and so does the context unless its window
slides. -/
structure FitsAlone (config : SchedulerConfig) (cacheConfig : CacheConfig) (layout : Layout)
    (r : Request) : Prop where
  nonempty : 0 < r.fittedLen cacheConfig
  cut : r.prompt.length ≤ cacheConfig.maxContext ∨ config.truncateLongPrompts = true
  bytes : ∀ limit, cacheConfig.memoryBudget = some limit → (Cache.new layout cacheConfig).bytesFor
    (min (r.fittedLen cacheConfig + r.sampling.maxTokens) cacheConfig.maxContext) ≤ limit
  window : cacheConfig.overflowPolicy = .slidingWindow ∨
    r.fittedLen cacheConfig + r.sampling.maxTokens - 1 ≤ cacheConfig.maxContext
  unfinished : r.output.size < max r.sampling.maxTokens 1

/-- A slot that was granted to a request, and that will have been fed a number of its tokens once it
got the rows that it is owed. -/
structure Granted (cacheConfig : CacheConfig) (n : Nat) (owed : Nat → Nat) (r : Request)
    (st : Slot) : Prop where
  capacity : st.capacity = cacheConfig.maxContext
  prompt_le : r.prompt.length ≤ cacheConfig.maxContext
  lens : ∀ (i : Nat) (l : LayerStore), st.layers[i]? = some l →
    min (l.len + owed i) st.capacity = min n st.capacity
  covers : cacheConfig.pressurePolicy = .refuseAdmission → st.Covers r.maxTotalLen

/-- A live request that fits alone, with its slot if it runs. -/
structure Provided (config : SchedulerConfig) (cacheConfig : CacheConfig) (layout : Layout)
    (c : Cache) (n : Nat) (owed : Nat → Nat) (r : Request) : Prop where
  fits : r.FitsAlone config cacheConfig layout
  short : r.cached < r.totalLen
  unfed : r.state = .queued → r.cached = 0
  seated : r.state.isRunning = true → ∃ slot st, r.slot = some slot ∧ c.slot? slot = some st ∧
    r.Granted cacheConfig n owed st

variable {config : SchedulerConfig} {cacheConfig : CacheConfig} {layout : Layout} {c c' : Cache}
  {n : Nat} {owed : Nat → Nat} {r : Request} {st : Slot}

theorem FitsAlone.context (h : r.FitsAlone config cacheConfig layout) :
    0 < cacheConfig.maxContext ∧ 0 < r.prompt.length := by
  have := h.nonempty
  unfold fittedLen at this
  omega

/-- Whether a request fits shows in its prompt, its limit and its output. -/
theorem FitsAlone.of_same (h : r.FitsAlone config cacheConfig layout) {x : Request}
    (hprompt : x.fittedLen cacheConfig = r.fittedLen cacheConfig)
    (hcut : x.prompt.length ≤ r.prompt.length) (hsampling : x.sampling = r.sampling)
    (houtput : x.output.size < max r.sampling.maxTokens 1) :
    x.FitsAlone config cacheConfig layout where
  nonempty := hprompt ▸ h.nonempty
  cut := h.cut.imp_left (Nat.le_trans hcut)
  bytes := by
    rw [hprompt, hsampling]
    exact h.bytes
  window := by
    rw [hprompt, hsampling]
    exact h.window
  unfinished := hsampling ▸ houtput

/-- A live request is no longer than it can come to be, and than its context if that does not
slide. -/
theorem FitsAlone.totalLen_le (h : r.FitsAlone config cacheConfig layout)
    (hprompt : r.prompt.length ≤ cacheConfig.maxContext) : r.totalLen ≤ r.maxTotalLen ∧
      (cacheConfig.overflowPolicy = .reject → r.totalLen ≤ cacheConfig.maxContext) := by
  have hout := h.unfinished
  have hfit : r.fittedLen cacheConfig = r.prompt.length := Nat.min_eq_left hprompt
  refine ⟨?_, fun hp => ?_⟩
  · unfold totalLen maxTotalLen
    omega
  · rcases h.window with hslide | hwindow
    · rw [hp] at hslide
      cases hslide
    · unfold totalLen
      omega

/-- A request that fits alone is one that its budget covers. -/
theorem FitsAlone.affords (h : r.FitsAlone config cacheConfig layout)
    (hpolicy : cacheConfig.pressurePolicy ≠ .evictLeastRecent) :
    cacheConfig.Affords layout r.maxTotalLen := by
  refine .inr ⟨hpolicy, fun limit hlimit => ?_⟩
  have hsame : min (r.fittedLen cacheConfig + r.sampling.maxTokens) cacheConfig.maxContext =
      min r.maxTotalLen cacheConfig.maxContext := by
    unfold fittedLen maxTotalLen
    omega
  rw [← hsame]
  exact h.bytes limit hlimit

/-- Rows that were owed are written. -/
theorem Granted.fed (h : r.Granted cacheConfig n owed st) {st' : Slot} {k : Nat → Nat}
    (hk : ∀ i, k i ≤ owed i) (hfed : st.FedTo k st') :
    r.Granted cacheConfig n (fun i => owed i - k i) st' where
  capacity := hfed.capacity.trans h.capacity
  prompt_le := h.prompt_le
  lens := fun i l' hl' => by
    have hlt : i < st.layers.length := hfed.numLayers ▸ (List.getElem?_eq_some_iff.mp hl').1
    obtain ⟨m, hm, hlen, -⟩ := hfed.layers i _ (List.getElem?_eq_getElem hlt)
    cases hm.symm.trans hl'
    have hold := h.lens i _ (List.getElem?_eq_getElem hlt)
    have := hk i
    rw [hfed.capacity]
    omega
  covers := fun hpolicy => by
    have hcov := h.covers hpolicy
    unfold Slot.Covers at hcov ⊢
    rwa [hfed.capacity, hfed.allocated]

/-- A request is provided for by its own slot. -/
theorem Provided.of_same (h : r.Provided config cacheConfig layout c n owed)
    (hsame : ∀ slot, r.slot = some slot → c'.slot? slot = c.slot? slot) :
    r.Provided config cacheConfig layout c' n owed :=
  { h with
    seated := fun hrun => by
      obtain ⟨slot, st, hslot, hst, hgrant⟩ := h.seated hrun
      exact ⟨slot, st, hslot, (hsame slot hslot).trans hst, hgrant⟩ }

/-- No request that waits is provided with rows. -/
theorem Provided.of_queued (h : r.Provided config cacheConfig layout c n owed)
    (hq : r.state = .queued) (c' : Cache) (n' : Nat) (owed' : Nat → Nat) :
    r.Provided config cacheConfig layout c' n' owed' :=
  { h with
    seated := fun hrun => by
      rw [hq] at hrun
      cases hrun }

end Request

namespace Scheduler

/-- How many of its tokens a request's slot will have been fed when the batch is through. -/
def fedBy (batch : List RequestId) (r : Request) : Nat :=
  if r.id ∈ batch then r.totalLen else r.cached

/-- A scheduler whose live requests are provided for, and none of whose requests was lost to memory
pressure. -/
structure Provides (config : SchedulerConfig) (cacheConfig : CacheConfig) (layout : Layout)
    (s : Scheduler) (batch : List RequestId) (left : RequestId → Nat → Nat) : Prop where
  provided : ∀ r ∈ s.requests, r.state.isTerminal = false →
    r.Provided config cacheConfig layout s.cache (fedBy batch r) (owed batch left r.id)
  spared : ∀ r ∈ s.requests, r.state = .failed →
    r.failure.map Failure.kind ≠ some .cacheOverflow
  nodup : batch.Nodup

variable {config : SchedulerConfig} {cacheConfig : CacheConfig} {layout : Layout} {s s' : Scheduler}
  {batch batch' : List RequestId} {left left' : RequestId → Nat → Nat}

/-- When a request takes the place of another, it is enough to look at that one, as long as the
slots of the others are left alone. -/
theorem Provides.replace (h : s.Provides config cacheConfig layout batch left) {r : Request}
    (hreq : s'.requests = (s.update r).requests) (hnodup : batch'.Nodup)
    (hbatch : ∀ id ≠ r.id, (id ∈ batch' ↔ id ∈ batch) ∧ left' id = left id)
    (hslots : ∀ x ∈ s.requests, x.id ≠ r.id → ∀ slot, x.slot = some slot →
      s'.cache.slot? slot = s.cache.slot? slot)
    (hself : r.state.isTerminal = false →
      r.Provided config cacheConfig layout s'.cache (fedBy batch' r) (owed batch' left' r.id))
    (hspared : r.state = .failed → r.failure.map Failure.kind ≠ some .cacheOverflow) :
    s'.Provides config cacheConfig layout batch' left' where
  provided := fun x hx hlive => by
    rw [hreq] at hx
    rcases mem_update.mp hx with ⟨rfl, -⟩ | ⟨hx, hne⟩
    · exact hself hlive
    · obtain ⟨hmem, hleft⟩ := hbatch x.id hne
      have hfed : fedBy batch' x = fedBy batch x := by
        unfold fedBy
        simp only [hmem]
      have howed : owed batch' left' x.id = owed batch left x.id := by
        funext i
        unfold owed
        simp only [hmem, hleft]
      rw [hfed, howed]
      exact (h.provided x hx hlive).of_same (hslots x hx hne)
  spared := fun x hx hfailed => by
    rw [hreq] at hx
    rcases mem_update.mp hx with ⟨rfl, -⟩ | ⟨hx, hne⟩
    · exact hspared hfailed
    · exact h.spared x hx hfailed
  nodup := hnodup

theorem fedBy_nil (r : Request) : fedBy [] r = r.cached := if_neg List.not_mem_nil

theorem owed_nil (left : RequestId → Nat → Nat) (id : RequestId) : owed [] left id = fun _ => 0 :=
  funext fun _ => if_neg List.not_mem_nil

/-- Between two batches a live request is owed nothing. -/
theorem Provides.idle (h : s.Provides config cacheConfig layout [] left) {r : Request}
    (hr : r ∈ s.requests) (hlive : r.state.isTerminal = false) :
    r.Provided config cacheConfig layout s.cache r.cached fun _ => 0 := by
  have hp := h.provided r hr hlive
  rwa [fedBy_nil, owed_nil] at hp

/-- A change to one request between two batches. -/
theorem Provides.replace_idle (h : s.Provides config cacheConfig layout [] left) {r : Request}
    (hreq : s'.requests = (s.update r).requests)
    (hslots : ∀ x ∈ s.requests, x.id ≠ r.id → ∀ slot, x.slot = some slot →
      s'.cache.slot? slot = s.cache.slot? slot)
    (hself : r.state.isTerminal = false →
      r.Provided config cacheConfig layout s'.cache r.cached fun _ => 0)
    (hspared : r.state = .failed → r.failure.map Failure.kind ≠ some .cacheOverflow) :
    s'.Provides config cacheConfig layout [] left := by
  refine h.replace hreq List.nodup_nil (fun _ _ => ⟨Iff.rfl, rfl⟩) hslots (fun hlive => ?_) hspared
  rw [fedBy_nil, owed_nil]
  exact hself hlive

end Scheduler

namespace Round

/-! ## A tick that is planned -/

variable {config : SchedulerConfig} {cacheConfig : CacheConfig} {layout : Layout} {a b : Round}
  {left : RequestId → Nat → Nat} {now : Nat} {r : Request}

/-- What a running request needs is no more than it can come to need, and its slot can hold it
unless the window slides. -/
theorem needed_le {st : Slot} {c : Cache} (hst : st.Sound c)
    (hfits : r.FitsAlone config cacheConfig layout)
    (hgrant : r.Granted cacheConfig r.cached (fun _ => 0) st) (hshort : r.cached < r.totalLen) :
    st.len + r.pendingLen ≤ r.maxTotalLen ∧
      (cacheConfig.overflowPolicy = .reject → st.len + r.pendingLen ≤ st.capacity) := by
  have hlen : st.len ≤ r.cached := by
    by_cases hne : st.layers = []
    · have hzero : st.len = 0 := by
        unfold Slot.len
        rw [hne]
        rfl
      omega
    · have hall : ∀ l ∈ st.layers, l.len = min r.cached st.capacity := by
        intro l hl
        obtain ⟨i, hi⟩ := List.mem_iff_getElem?.mp hl
        have := hgrant.lens i l hi
        have := hst.len_le l hl
        have := hst.allocated_le
        omega
      rw [st.len_of_forall hall hne]
      exact Nat.min_le_left _ _
  obtain ⟨hmost, hcontext⟩ := hfits.totalLen_le hgrant.prompt_le
  unfold Request.pendingLen
  refine ⟨by omega, fun hp => ?_⟩
  have := hcontext hp
  rw [hgrant.capacity]
  omega

/-- Where no request is ended to make room, a request that fits alone is ended only when it is
due. -/
theorem Cause.spares {ended : Request} (hcause : a.Cause now r ended)
    (hlive : r.state.isTerminal = false)
    (hr : r.Provided config cacheConfig layout a.scheduler.cache r.cached fun _ => 0)
    (howned : a.scheduler.Owned)
    (hset : Scheduler.SameSettings (.new config cacheConfig layout) a.scheduler)
    (hpolicy : cacheConfig.pressurePolicy ≠ .evictLeastRecent) : ended.state ≠ .failed := by
  have hcache : a.scheduler.cacheConfig = cacheConfig := hset.cacheConfig
  have hlimits : Cache.SameLimits (.new layout cacheConfig) a.scheduler.cache := hset.limits
  have haffords := hr.fits.affords hpolicy
  cases hcause with
  | @due event hdue hend =>
    rcases Request.expiry?_some hdue with ⟨rfl, -⟩ | ⟨rfl, -⟩
    · rw [Request.apply_cancel hlive] at hend
      cases hend
      exact nofun
    · rw [Request.apply_timeout hlive] at hend
      cases hend
      exact nofun
  | tooLong hq hfit hend =>
    obtain ⟨hlong, hwhole, -⟩ := Scheduler.fitPrompt_error hfit
    rw [hcache] at hlong
    rw [show a.scheduler.config = config from hset.config] at hwhole
    rcases hr.fits.cut with hle | hcut
    · omega
    · rw [hwhole] at hcut
      cases hcut
  | tooLarge hq hfit hroom hend =>
    have hle := Scheduler.fitPrompt_length hfit
    rw [hcache] at hroom hle
    rcases hroom with hzero | ⟨hfull, hempty⟩
    · have := hr.fits.context
      omega
    · have hneed := Scheduler.positionsFor_le (s := a.scheduler) (hr.fits.totalLen_le hle).1
      rw [hcache] at hneed
      rw [Cache.canFit_of_affords haffords howned.sound hlimits hempty hneed] at hfull
      cases hfull
  | overgrown hrun hslot hneed hend =>
    obtain ⟨slot, st, hslot', hst, hgrant⟩ := hr.seated hrun
    cases hslot.symm.trans hslot'
    have hfits := (needed_le (howned.sound.slots _ st hst) hr.fits hgrant hr.short).2
    rw [positionsNeeded_eq hst] at hneed
    split at hneed
    next hover =>
      rw [hlimits.overflowPolicy] at hover
      have := hfits hover.2
      omega
    next => cases hneed
  | starved hrun hslot hneed hres hvictim hend =>
    obtain ⟨slot, st, hslot', hst, hgrant⟩ := hr.seated hrun
    cases hslot.symm.trans hslot'
    have hle := (needed_le (howned.sound.slots _ st hst) hr.fits hgrant hr.short).1
    obtain ⟨rfl, -⟩ := positionsNeeded_ok hst hneed
    rcases victim?_none hvictim with hrefuse | honly
    · rw [hcache] at hrefuse
      have hcov := hgrant.covers hrefuse
      have hcov' : st.Covers (st.len + r.pendingLen) := by
        unfold Slot.Covers at hcov ⊢
        omega
      rw [Cache.exec_reserve hst, if_pos hcov'] at hres
      cases hres
    · obtain ⟨c, hok⟩ := Cache.reserve_of_affords haffords howned.sound hlimits hst honly
        hgrant.capacity hle
      exact absurd (hres.symm.trans hok) nofun
  | evicted hrun hevict hbudget hend =>
    rw [hcache] at hevict
    exact absurd hevict hpolicy

/-- A queued request whose prompt is cut still fits. -/
theorem provides_fit (hset : Scheduler.SameSettings (.new config cacheConfig layout) a.scheduler)
    {cut : Request} (hr : r ∈ a.scheduler.requests) (hq : r.state = .queued)
    (hfit : a.scheduler.fitPrompt r = .ok cut)
    (h : a.scheduler.Provides config cacheConfig layout [] left) :
    (a.scheduler.update cut).Provides config cacheConfig layout [] left := by
  have hcache : a.scheduler.cacheConfig = cacheConfig := hset.cacheConfig
  have hp := h.idle hr (by rw [hq]; rfl)
  have hcut : cut.fittedLen cacheConfig = r.fittedLen cacheConfig ∧
      cut.prompt.length ≤ r.prompt.length := by
    have hlen := Scheduler.fitPrompt_length hfit
    rcases Scheduler.fitPrompt_ok hfit with ⟨rfl, -⟩ | ⟨hlong, -, rfl⟩
    · exact ⟨rfl, Nat.le_refl _⟩
    · rw [hcache] at hlong hlen ⊢
      unfold Request.fittedLen Request.truncatePrompt
      rw [List.length_drop]
      omega
  have hkept := Scheduler.fitPrompt_kept hfit
  have hfits : cut.FitsAlone config cacheConfig layout := by
    refine hp.fits.of_same hcut.1 hcut.2 ?_ ?_ <;> rw [hkept]
    exact hp.fits.unfinished
  have hunfed : cut.cached = 0 := by
    rw [hkept]
    exact hp.unfed hq
  have hqueued : cut.state = .queued := by
    rw [hkept]
    exact hq
  refine h.replace_idle rfl (fun _ _ _ _ _ => rfl) (fun _ => ?_) fun hfailed => ?_
  · exact {
      fits := hfits
      short := by
        have := hfits.context.2
        unfold Request.totalLen
        omega
      unfed := fun _ => hunfed
      seated := fun hrun => by
        rw [hqueued] at hrun
        cases hrun }
  · rw [hqueued] at hfailed
    cases hfailed

/-- A request that ends gives its slot back, and no other slot. -/
theorem provides_retire (howned : a.scheduler.Owned) {ended : Request}
    (hr : r ∈ a.scheduler.requests) (hid : ended.id = r.id) (hslot : ended.slot = r.slot)
    (hterminal : ended.state.isTerminal = true)
    (hspared : ended.state = .failed → ended.failure.map Failure.kind ≠ some .cacheOverflow)
    {batch batch' : List RequestId} {left' : RequestId → Nat → Nat}
    (hbatch : ∀ id ≠ r.id, (id ∈ batch' ↔ id ∈ batch) ∧ left' id = left id)
    (hnodup : batch'.Nodup)
    (h : a.scheduler.Provides config cacheConfig layout batch left) :
    (a.scheduler.retire ended).Provides config cacheConfig layout batch' left' := by
  rw [Scheduler.retire, Scheduler.release_eq, hslot]
  refine h.replace (r := { ended with slot := none }) rfl hnodup ?_ ?_ (fun hlive => ?_) hspared
  · intro id hne
    exact hbatch id (hid ▸ hne)
  · intro x hx hne slot hslot
    exact slots_freed howned hr hx (fun he => hne (he.trans hid.symm)) hslot
  · simp only at hlive
    rw [hterminal] at hlive
    cases hlive

/-- A queued request takes its seat, and the slots of the others are left alone. -/
theorem provides_seat (howned : a.scheduler.Owned)
    (hset : Scheduler.SameSettings (.new config cacheConfig layout) a.scheduler)
    (hr : r ∈ a.scheduler.requests) (hq : r.state = .queued)
    (hfit : a.scheduler.fitPrompt r = .ok r) (hpos : 0 < cacheConfig.maxContext) {cache : Cache}
    (hres : Action.exec (Cache.reserve a.scheduler.cache.nextId (a.scheduler.positionsFor r))
      (a.scheduler.cache.opened r.id cacheConfig.maxContext) = (.ok (), cache))
    (rest : List QueueEntry) (h : a.scheduler.Provides config cacheConfig layout [] left) :
    (a.seat (r.startIn a.scheduler.cache.nextId) cache rest).scheduler.Provides config cacheConfig
      layout [] left := by
  have hcache : a.scheduler.cacheConfig = cacheConfig := hset.cacheConfig
  have hp := h.idle hr (by rw [hq]; rfl)
  have hunfed := hp.unfed hq
  have hlen := Scheduler.fitPrompt_length hfit
  rw [hcache] at hlen
  have hfresh := howned.sound.slot?_opened r.id cacheConfig.maxContext a.scheduler.cache.nextId
  rw [if_pos rfl] at hfresh
  obtain ⟨m, hm, -, hcov⟩ := (howned.sound.opened r.id hpos).covers_of_reserve hfresh hres
  have hgrant : r.Granted cacheConfig r.cached (fun _ => 0)
      { a.scheduler.cache.freshSlot r.id cacheConfig.maxContext with allocated := m } := {
    capacity := rfl
    prompt_le := hlen
    lens := fun i l hl => by
      rw [List.eq_of_mem_replicate (List.mem_of_getElem? hl), hunfed]
      rfl
    covers := fun hrefuse => by
      unfold Slot.Covers Scheduler.positionsFor at hcov
      rw [hcache, hrefuse] at hcov
      change min (max r.maxTotalLen r.pendingLen ⊓ cacheConfig.maxContext) cacheConfig.maxContext ≤
        m at hcov
      change min r.maxTotalLen cacheConfig.maxContext ≤ m
      omega }
  refine h.replace_idle (r := r.startIn a.scheduler.cache.nextId) rfl ?_ (fun _ => ?_) nofun
  · intro x hx hne slot hslot
    exact slots_seated howned hx hslot hres
  · exact {
      fits := hp.fits.of_same rfl (Nat.le_refl _) rfl hp.fits.unfinished
      short := hp.short
      unfed := nofun
      seated := fun _ => ⟨a.scheduler.cache.nextId, _, rfl, hm,
        ⟨hgrant.capacity, hgrant.prompt_le, hgrant.lens, hgrant.covers⟩⟩ }

/-- The slot of a running request grows. -/
theorem provides_reserve (howned : a.scheduler.Owned) (hr : r ∈ a.scheduler.requests)
    (hrun : r.state.isRunning = true) {slot : SlotId} (hslot : r.slot = some slot) {needed : Nat}
    {cache : Cache}
    (hres : Action.exec (Cache.reserve slot needed) a.scheduler.cache = (.ok (), cache))
    (h : a.scheduler.Provides config cacheConfig layout [] left) :
    ({ a.scheduler with cache := cache } : Scheduler).Provides config cacheConfig layout []
      left := by
  have hp := h.idle hr (RequestState.isTerminal_of_isRunning hrun)
  obtain ⟨slot', st, hslot', hst, hgrant⟩ := hp.seated hrun
  cases hslot.symm.trans hslot'
  obtain ⟨m, hm, hle, -⟩ := howned.sound.covers_of_reserve hst hres
  have hreq : a.scheduler.requests = (a.scheduler.update r).requests :=
    congrArg Scheduler.requests (howned.ids.update_self hr).symm
  refine h.replace_idle hreq ?_ (fun _ => ?_) (h.spared r hr)
  · intro x hx hne other hother
    refine Cache.slot?_reserve_ne hst hres fun he => hne ?_
    rw [howned.slot_inj hx hr (he ▸ hother) hslot]
  · exact { hp with
      seated := fun _ => ⟨slot, _, hslot, hm, { hgrant with
        covers := fun hrefuse => Nat.le_trans (hgrant.covers hrefuse) hle }⟩ }

/-- A running request is sent back. It will be fed all of its tokens again. -/
theorem provides_unseat (howned : a.scheduler.Owned) (hr : r ∈ a.scheduler.requests)
    (hrun : r.state.isRunning = true) (h : a.scheduler.Provides config cacheConfig layout [] left) :
    (a.unseat r).scheduler.Provides config cacheConfig layout [] left := by
  have hp := h.idle hr (RequestState.isTerminal_of_isRunning hrun)
  rw [unseat, Scheduler.release_eq]
  refine h.replace_idle (r := r.requeued) rfl ?_ (fun _ => ?_) fun hfailed => by cases hfailed
  · intro x hx hne slot hslot
    exact slots_freed howned hr hx hne hslot
  · exact {
      fits := hp.fits.of_same rfl (Nat.le_refl _) rfl hp.fits.unfinished
      short := Nat.lt_of_le_of_lt (Nat.zero_le _) hp.short
      unfed := fun _ => rfl
      seated := fun hrun => by cases hrun }

theorem Move.provides (hm : Move now a b) (howned : a.scheduler.Owned)
    (hset : Scheduler.SameSettings (.new config cacheConfig layout) a.scheduler)
    (hpolicy : cacheConfig.pressurePolicy ≠ .evictLeastRecent)
    (h : a.scheduler.Provides config cacheConfig layout [] left) :
    b.scheduler.Provides config cacheConfig layout [] left := by
  have hcache : a.scheduler.cacheConfig = cacheConfig := hset.cacheConfig
  cases hm with
  | fit hr hq hfit => exact provides_fit hset hr hq hfit h
  | retire hr hlive hcause =>
    have hspared := hcause.spares hlive (h.idle hr hlive) howned hset hpolicy
    have hends := hcause.endsAs hlive
    exact provides_retire howned hr hends.id hends.slot hends.terminal (fun hf => absurd hf hspared)
      (fun _ _ => ⟨Iff.rfl, rfl⟩) List.nodup_nil h
  | enter hr hq hwait hentry hlt hfit hpos hres =>
    rw [hcache] at hpos hres
    exact provides_seat howned hset hr hq hfit hpos hres _ h
  | reserve hr hrun hslot hneed hres => exact provides_reserve howned hr hrun hslot hres h
  | preempt hr hrun _ => exact provides_unseat howned hr hrun h

theorem Moves.provides (hm : Moves now a b) (howned : a.scheduler.Owned)
    (hset : Scheduler.SameSettings (.new config cacheConfig layout) a.scheduler)
    (hpolicy : cacheConfig.pressurePolicy ≠ .evictLeastRecent)
    (h : a.scheduler.Provides config cacheConfig layout [] left) :
    b.scheduler.Provides config cacheConfig layout [] left := by
  have hall := hm.keep (P := fun x => x.scheduler.Owned ∧
    Scheduler.SameSettings (.new config cacheConfig layout) x.scheduler ∧
      x.scheduler.Provides config cacheConfig layout [] left) ⟨howned, hset, h⟩
    fun _ _ hmove ⟨ho, hs, hp⟩ =>
      ⟨hmove.owned ho, hs.trans hmove.settings, hmove.provides ho hs hpolicy hp⟩
  exact hall.2.2

end Round

end CausalServe
