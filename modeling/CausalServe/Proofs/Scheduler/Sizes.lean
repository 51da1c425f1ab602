import CausalServe.Proofs.Cache.Books
import CausalServe.Proofs.Scheduler.Tick
import CausalServe.Scheduler.Sizes

/-! Limits under which a tick computes words only. Every sum and product of a tick is about the
tokens of one request, the positions of one slot or the bytes of all of them, and each of these is
bounded by the configuration and by what a request may ask for. -/

namespace CausalServe

/-- The bytes that can be in use: those of the budget, or all positions of as many slots as there
may be. -/
def CacheConfig.mostBytes (config : CacheConfig) (layout : Layout) (slots : Nat) : Nat :=
  match config.memoryBudget with
  | some limit => limit
  | none => slots * (config.maxContext * layout.bytesPerPosition)

/-- Limits for requests that ask for a number of positions at most, prompt and output together. -/
structure Roomy (config : SchedulerConfig) (cacheConfig : CacheConfig) (layout : Layout)
    (most : Nat) : Prop where
  factors : ∀ n ∈ layout.sizes, n < wordSize
  prefill : max config.maxPrefillTokens most + most < wordSize
  window : cacheConfig.maxContext + most < wordSize
  blocks : roundUp cacheConfig.maxContext (max cacheConfig.blockSize 1) < wordSize
  bytes : cacheConfig.mostBytes layout config.maxSeqs +
    (Cache.new layout cacheConfig).bytesFor cacheConfig.maxContext < wordSize

variable {config : SchedulerConfig} {cacheConfig : CacheConfig} {layout : Layout} {most : Nat}

/-! ## The bytes of a cache -/

namespace Cache

/-- A cache that was set up with a configuration, and has no more in use than may be. -/
structure Bounded (config : SchedulerConfig) (cacheConfig : CacheConfig) (layout : Layout)
    (c : Cache) : Prop where
  limits : SameLimits (.new layout cacheConfig) c
  used : c.used ≤ cacheConfig.mostBytes layout config.maxSeqs

variable {c : Cache} {positions : Nat}

/-- Positions that fit a window, and blocks of them, can be charged in words. -/
theorem Bounded.charge_lt (h : c.Bounded config cacheConfig layout)
    (hroomy : Roomy config cacheConfig layout most)
    (hpositions : positions ≤ roundUp cacheConfig.maxContext c.blockSize) :
    positions < wordSize ∧ c.used + positions * c.layout.bytesPerPosition < wordSize := by
  have hbytes := hroomy.bytes
  have hblock : c.blockSize = max cacheConfig.blockSize 1 := h.limits.blockSize
  have hlayout : c.layout = layout := h.limits.layout
  have hcharge : positions * c.layout.bytesPerPosition ≤
      (Cache.new layout cacheConfig).bytesFor cacheConfig.maxContext := by
    rw [hlayout]
    rw [hblock] at hpositions
    exact Nat.mul_le_mul_right _ hpositions
  have hused := h.used
  rw [hblock] at hpositions
  exact ⟨Nat.lt_of_le_of_lt hpositions hroomy.blocks, by omega⟩

theorem Bounded.factors_lt (h : c.Bounded config cacheConfig layout)
    (hroomy : Roomy config cacheConfig layout most) : ∀ n ∈ c.layout.sizes, n < wordSize := by
  rw [show c.layout = layout from h.limits.layout]
  exact hroomy.factors

theorem Bounded.sizesToFit_lt (h : c.Bounded config cacheConfig layout)
    (hroomy : Roomy config cacheConfig layout most)
    (hpositions : positions ≤ cacheConfig.maxContext) :
    ∀ n ∈ c.sizesToFit positions, n < wordSize := by
  obtain ⟨hrounded, hbytes⟩ := h.charge_lt hroomy (roundUp_mono hpositions c.blockSize)
  have hfactors := h.factors_lt hroomy
  intro n hn
  unfold sizesToFit sizesFor at hn
  cases hbudget : c.budget with
  | none =>
    rw [hbudget] at hn
    cases hn
  | some limit =>
    rw [hbudget] at hn
    simp only [List.mem_append, List.mem_cons, List.not_mem_nil, or_false] at hn
    unfold bytesFor at hn
    rcases hn with (hn | rfl | rfl) | rfl
    · exact hfactors n hn
    · exact hrounded
    · exact Nat.lt_of_le_of_lt (Nat.le_add_left _ _) hbytes
    · exact hbytes

theorem Bounded.sizesToReserve_lt (h : c.Bounded config cacheConfig layout)
    (hroomy : Roomy config cacheConfig layout most) {id : SlotId}
    (hcapacity : ∀ s, c.slot? id = some s → s.capacity ≤ cacheConfig.maxContext) :
    ∀ n ∈ c.sizesToReserve id positions, n < wordSize := by
  have hfactors := h.factors_lt hroomy
  intro n hn
  unfold sizesToReserve at hn
  cases hs : c.slot? id with
  | none =>
    rw [hs] at hn
    exact hfactors n hn
  | some s =>
    rw [hs] at hn
    simp only at hn
    split at hn
    · exact hfactors n hn
    · have hwanted : min positions s.capacity ≤ cacheConfig.maxContext :=
        Nat.le_trans (Nat.min_le_right _ _) (hcapacity s hs)
      have hrounded := roundUp_mono hwanted c.blockSize
      obtain ⟨hword, -⟩ := h.charge_lt hroomy hrounded
      have hgrowth : min (roundUp (min positions s.capacity) c.blockSize) s.capacity -
          s.allocated ≤ roundUp cacheConfig.maxContext c.blockSize := by omega
      obtain ⟨-, hbytes⟩ := h.charge_lt hroomy hgrowth
      simp only [List.mem_append, List.mem_cons, List.not_mem_nil, or_false] at hn
      rcases hn with hn | rfl | rfl | rfl
      · exact hfactors n hn
      · exact hword
      · exact Nat.lt_of_le_of_lt (Nat.le_add_left _ _) hbytes
      · exact hbytes

end Cache

namespace Scheduler

variable {s : Scheduler}

/-- Every live slot is that of another running request. -/
theorem Owned.activeSlots_le (h : s.Owned) : s.cache.activeSlots ≤ s.running.length := by
  have hentries : s.cache.live.Nodup := by
    refine List.Nodup.filterMap ?_ (List.Nodup.of_map Prod.snd ?_)
    · rintro ⟨a, i⟩ ⟨b, j⟩ ⟨id, st⟩ ha hb
      obtain ⟨st₁, hst₁, he₁⟩ := Option.map_eq_some_iff.mp ha
      obtain ⟨st₂, hst₂, he₂⟩ := Option.map_eq_some_iff.mp hb
      cases he₁
      cases he₂
      exact Prod.ext (hst₁.trans hst₂.symm) rfl
    · rw [List.zipIdx_map_snd]
      exact List.nodup_range'
  have hnodup : (s.cache.live.map fun entry => entry.2.owner).Nodup := by
    refine hentries.map_on ?_
    rintro ⟨i, a⟩ ha ⟨j, b⟩ hb howner
    have hi := Cache.mem_live.mp ha
    have hj := Cache.mem_live.mp hb
    obtain ⟨r, hr, hid, hslot⟩ := (h.holder_iff i a.owner).mp (Cache.holder_eq_some.mpr ⟨a, hi, rfl⟩)
    obtain ⟨x, hx, hxid, hxslot⟩ :=
      (h.holder_iff j b.owner).mp (Cache.holder_eq_some.mpr ⟨b, hj, rfl⟩)
    obtain rfl := h.ids.eq hr hx (hid.trans (howner.trans hxid.symm))
    cases hslot.symm.trans hxslot
    cases hi.symm.trans hj
    rfl
  have hrunning : (s.cache.live.map fun entry => entry.2.owner) ⊆ s.running := by
    intro id hid
    obtain ⟨⟨slot, st⟩, hst, rfl⟩ := List.mem_map.mp hid
    obtain ⟨r, hr, hrid, hslot⟩ := (h.holder_iff slot st.owner).mp
      (Cache.holder_eq_some.mpr ⟨st, Cache.mem_live.mp hst, rfl⟩)
    exact hrid ▸ (h.mem_running hr).mpr (h.running_of_slot hr hslot)
  calc s.cache.activeSlots = (s.cache.live.map fun entry => entry.2.owner).length :=
        (List.length_map _).symm
    _ ≤ s.running.length := (List.subperm_of_subset hnodup hrunning).length_le

/-- A scheduler whose requests are no longer than they asked for, and ask for a number of positions
at most, and all of whose slots have the length of the context. -/
structure Bounded (config : SchedulerConfig) (cacheConfig : CacheConfig) (layout : Layout)
    (most : Nat) (s : Scheduler) : Prop where
  owned : s.Owned
  settings : SameSettings (.new config cacheConfig layout) s
  sized : ∀ r ∈ s.requests, r.totalLen ≤ r.maxTotalLen
  asks : ∀ r ∈ s.requests, r.maxTotalLen ≤ most
  capacity : ∀ slot st, s.cache.slot? slot = some st → st.capacity = cacheConfig.maxContext

theorem Bounded.cache (h : s.Bounded config cacheConfig layout most) :
    s.cache.Bounded config cacheConfig layout := by
  have hlimits : Cache.SameLimits (.new layout cacheConfig) s.cache := h.settings.limits
  have hlayout : s.cache.layout = layout := hlimits.layout
  have hbudget : s.cache.budget = cacheConfig.memoryBudget := hlimits.budget
  have hsound := h.owned.sound
  refine ⟨hlimits, ?_⟩
  unfold CacheConfig.mostBytes
  cases hb : cacheConfig.memoryBudget with
  | some limit => exact hsound.budget limit (hbudget.trans hb)
  | none =>
    have hseqs : s.running.length ≤ config.maxSeqs := by
      have hle := h.owned.running_le
      rwa [show s.config = config from h.settings.config] at hle
    calc s.cache.used
        = total (fun entry => entry.2.allocated * s.cache.layout.bytesPerPosition) s.cache.live :=
          hsound.used_eq
      _ ≤ s.cache.live.length * (cacheConfig.maxContext * layout.bytesPerPosition) := by
          refine total_le_mul fun entry hentry => ?_
          have hst := Cache.mem_live.mp hentry
          rw [hlayout, ← h.capacity _ _ hst]
          exact Nat.mul_le_mul_right _ (hsound.slots _ _ hst).allocated_le
      _ ≤ config.maxSeqs * (cacheConfig.maxContext * layout.bytesPerPosition) :=
          Nat.mul_le_mul_right _ (Nat.le_trans h.owned.activeSlots_le hseqs)

end Scheduler

/-! ## A tick keeps the bounds -/

namespace Round

theorem Move.bounded {now : Nat} {a b : Round} (hm : Move now a b)
    (h : a.scheduler.Bounded config cacheConfig layout most) :
    b.scheduler.Bounded config cacheConfig layout most := by
  have key : ∀ changed : Request, changed.totalLen ≤ changed.maxTotalLen →
      changed.maxTotalLen ≤ most → ∀ x ∈ (a.scheduler.update changed).requests,
        x.totalLen ≤ x.maxTotalLen ∧ x.maxTotalLen ≤ most := by
    intro changed hsized hasks x hx
    rcases Scheduler.mem_update.mp hx with ⟨rfl, -⟩ | ⟨hx, -⟩
    · exact ⟨hsized, hasks⟩
    · exact ⟨h.sized x hx, h.asks x hx⟩
  have hrequests : ∀ x ∈ b.scheduler.requests,
      x.totalLen ≤ x.maxTotalLen ∧ x.maxTotalLen ≤ most := by
    cases hm with
    | @fit r cut hr hq hfit =>
      have hsized := h.sized r hr
      have hasks := h.asks r hr
      have hle : cut.prompt.length ≤ r.prompt.length := by
        rcases Scheduler.fitPrompt_ok hfit with ⟨rfl, -⟩ | ⟨-, -, rfl⟩
        · exact Nat.le_refl _
        · exact (List.length_drop ..).trans_le (Nat.sub_le _ _)
      refine key cut ?_ ?_ <;> rw [Scheduler.fitPrompt_kept hfit] <;>
        simp only [Request.totalLen, Request.maxTotalLen] at hsized hasks ⊢ <;> omega
    | @retire r ended hr hlive hcause =>
      have hkept := (hcause.endsAs hlive).kept
      refine key { ended with slot := none } ?_ ?_ <;> rw [hkept]
      · exact h.sized r hr
      · exact h.asks r hr
    | @enter r entry rest cache hr =>
      exact key (r.startIn a.scheduler.cache.nextId) (h.sized r hr) (h.asks r hr)
    | reserve => exact fun x hx => ⟨h.sized x hx, h.asks x hx⟩
    | @preempt r hr => exact key r.requeued (h.sized r hr) (h.asks r hr)
  exact {
    owned := hm.owned h.owned
    settings := h.settings.trans hm.settings
    sized := fun x hx => (hrequests x hx).1
    asks := fun x hx => (hrequests x hx).2
    capacity := by
      intro slot st hst
      obtain ⟨old, charge, rfl, hold | ⟨-, owner, rfl⟩⟩ := hm.slots h.owned hst
      · exact h.capacity slot old hold
      · exact congrArg CacheConfig.maxContext h.settings.cacheConfig }

theorem Moves.bounded {now : Nat} {a b : Round} (hm : Moves now a b)
    (h : a.scheduler.Bounded config cacheConfig layout most) :
    b.scheduler.Bounded config cacheConfig layout most :=
  hm.keep (P := fun x => x.scheduler.Bounded config cacheConfig layout most) h
    fun _ _ hmove hp => hmove.bounded hp

end Round

/-! ## Admission -/

namespace Scheduler

variable {s : Scheduler} {fed : Option Nat}

/-- Only the first request that is admitted may bring more tokens than a tick prefills. -/
theorem fed_le_of_admitted {r started : Request} {cache : Cache}
    (h : s.admission fed r = .admitted started cache) :
    ∀ tokens ∈ fed, tokens + started.pendingLen ≤ s.config.maxPrefillTokens := by
  unfold admission at h
  cases hfit : s.fitPrompt r with
  | error e =>
    rw [hfit] at h
    cases h
  | ok cut =>
    rw [hfit] at h
    simp only at h
    split at h
    · cases h
    next hfed =>
      have hstarted : started.pendingLen = cut.pendingLen := by
        split at h
        · unfold place at h
          split at h
          · cases h
          · split at h
            · cases h
              rfl
            · cases h
        · split at h <;> cases h
      intro tokens htokens
      rw [Option.mem_def.mp htokens] at hfed
      rw [hstarted]
      simpa using hfed

theorem Bounded.sizesToPlace_lt (h : s.Bounded config cacheConfig layout most)
    (hroomy : Roomy config cacheConfig layout most) (r : Request) (positions : Nat) :
    ∀ n ∈ s.sizesToPlace r positions, n < wordSize := by
  intro n hn
  unfold sizesToPlace at hn
  rw [Cache.exec_allocate] at hn
  by_cases hzero : s.cacheConfig.maxContext = 0
  · rw [if_pos hzero] at hn
    cases hn
  · rw [if_neg hzero] at hn
    -- the new slot is not charged for anything yet
    have hopened : (s.cache.opened r.id s.cacheConfig.maxContext).Bounded config cacheConfig layout :=
      ⟨h.cache.limits.trans ⟨rfl, rfl, rfl, rfl⟩, h.cache.used⟩
    refine hopened.sizesToReserve_lt hroomy ?_ n hn
    intro st hst
    rw [h.owned.sound.slot?_opened, if_pos rfl] at hst
    cases hst
    exact Nat.le_of_eq (congrArg CacheConfig.maxContext h.settings.cacheConfig)

theorem Bounded.sizesToAdmit_lt (h : s.Bounded config cacheConfig layout most)
    (hroomy : Roomy config cacheConfig layout most) {r : Request} (hr : r ∈ s.requests)
    (hq : r.state = .queued)
    (hfed : ∀ tokens ∈ fed, tokens ≤ max config.maxPrefillTokens most) :
    ∀ n ∈ s.sizesToAdmit fed r, n < wordSize := by
  intro n hn
  unfold sizesToAdmit at hn
  cases hfit : s.fitPrompt r with
  | error e =>
    rw [hfit] at hn
    cases hn
  | ok cut =>
    rw [hfit] at hn
    -- the cut request could be stored in the place of the other
    have hmove : Round.Move 0 { scheduler := s } { scheduler := s.update cut } := .fit hr hq hfit
    have hcut : cut ∈ (s.update cut).requests := by
      refine mem_update.mpr (.inl ⟨rfl, r, hr, ?_⟩)
      rw [fitPrompt_kept hfit]
    have hsized := (hmove.bounded h).sized cut hcut
    have hasks := (hmove.bounded h).asks cut hcut
    have hprefill := hroomy.prefill
    have hpositions : s.positionsFor cut ≤ cacheConfig.maxContext := by
      rw [← show s.cacheConfig = cacheConfig from h.settings.cacheConfig]
      exact Nat.min_le_right _ _
    have htokens : fed.getD 0 ≤ max config.maxPrefillTokens most := by
      cases fed with
      | none => exact Nat.zero_le _
      | some tokens => exact hfed tokens rfl
    have hpending : cut.pendingLen ≤ cut.totalLen := Nat.sub_le _ _
    have hfirst : ∀ n ∈ [cut.totalLen, fed.getD 0 + cut.pendingLen], n < wordSize := by
      simp only [List.mem_cons, List.not_mem_nil, or_false, forall_eq_or_imp, forall_eq]
      omega
    have hmost : cut.maxTotalLen < wordSize := by omega
    simp only at hn
    split at hn
    · exact hfirst n hn
    · simp only [List.mem_append] at hn
      rcases hn with ((hn | hn) | hn) | hn
      · exact hfirst n hn
      · split at hn
        · rw [List.mem_singleton.mp hn]
          exact hmost
        all_goals cases hn
      · exact h.cache.sizesToFit_lt hroomy hpositions n hn
      · split at hn
        · exact h.sizesToPlace_lt hroomy cut _ n hn
        · cases hn

end Scheduler

namespace Round

theorem sizesToAdmit_withQueue (round : Round) (queue queue' : List QueueEntry) (fed : Option Nat) :
    (round.withQueue queue').sizesToAdmit fed queue = round.sizesToAdmit fed queue := by
  induction queue generalizing round fed with
  | nil => rfl
  | cons entry rest ih =>
    unfold sizesToAdmit
    have hsame : (round.withQueue queue').scheduler.requests = round.scheduler.requests := rfl
    have hsizes : ∀ r, (round.withQueue queue').scheduler.sizesToAdmit fed r =
        round.scheduler.sizesToAdmit fed r := fun _ => rfl
    have hadm : ∀ r, (round.withQueue queue').scheduler.admission fed r =
        round.scheduler.admission fed r := fun _ => rfl
    simp only [hsame, hsizes, hadm]
    change (if round.scheduler.config.maxSeqs ≤ round.scheduler.running.length then _ else _) = _
    split
    · rfl
    · cases round.scheduler.requests.find? fun r => r.id = entry.request && r.state == .queued with
      | none => exact ih round fed
      | some r =>
        simp only
        cases round.scheduler.admission fed r with
        | refused r e =>
          simp only [refuse_withQueue]
          rw [ih]
        | postponed r cache => rfl
        | admitted r cache =>
          simp only
          exact congrArg _ (ih { round with
            scheduler := { round.scheduler.update r with
              cache := cache, running := round.scheduler.running ++ [r.id] } } _)

theorem sizesToAdmit_lt (queue : List QueueEntry) {round : Round} {fed : Option Nat}
    (h : round.scheduler.Bounded config cacheConfig layout most)
    (hroomy : Roomy config cacheConfig layout most) (hwait : round.scheduler.waiting = queue)
    (hfed : ∀ tokens ∈ fed, tokens ≤ max config.maxPrefillTokens most) :
    ∀ n ∈ round.sizesToAdmit fed queue, n < wordSize := by
  induction queue generalizing round fed with
  | nil => exact fun n hn => (List.not_mem_nil hn).elim
  | cons entry rest ih =>
    intro n hn
    unfold sizesToAdmit at hn
    simp only at hn
    split at hn
    · cases hn
    next hlt =>
      obtain ⟨r, hr, hid, hq⟩ := (h.owned.waiting_iff entry.request).mp (by simp [hwait])
      have hfind := h.owned.ids.find? hr (p := fun r => r.state == .queued) (by simp [hq])
      have hturn := moves_afterTurn 0 fed h.owned hwait (Nat.lt_of_not_le hlt) hr hid hq
      have hnext := hturn.bounded h
      rw [← hid, hfind] at hn
      simp only at hn
      rcases List.mem_append.mp hn with hn | hn
      · exact h.sizesToAdmit_lt hroomy hr hq hfed n hn
      · cases hadm : round.scheduler.admission fed r with
        | refused r e =>
          rw [hadm] at hn hnext
          simp only at hn
          rw [← sizesToAdmit_withQueue _ rest rest] at hn
          exact ih hnext rfl hfed n hn
        | postponed r cache =>
          rw [hadm] at hn
          cases hn
        | admitted started cache =>
          rw [hadm] at hn hnext
          simp only at hn
          rw [← sizesToAdmit_withQueue _ rest rest] at hn
          refine ih hnext rfl ?_ n hn
          -- the tokens so far are within the limit, or they are those of this request alone
          obtain ⟨x, hx, hid', -⟩ := (hnext.owned.running_iff started.id).mp
            (List.mem_append_right _ (List.mem_singleton.mpr rfl))
          have hstored : started ∈ (round.scheduler.update started).requests := by
            rcases Scheduler.mem_update.mp hx with ⟨rfl, -⟩ | ⟨-, hne⟩
            · exact hx
            · exact absurd hid' hne
          have hsized := hnext.sized started hstored
          have hasks := hnext.asks started hstored
          have hpending : started.pendingLen ≤ started.totalLen := Nat.sub_le _ _
          have hconfig : round.scheduler.config = config := h.settings.config
          have hle := Scheduler.fed_le_of_admitted hadm
          rw [hconfig] at hle
          cases fed with
          | none =>
            intro tokens htokens
            cases htokens
            simp only [Option.getD_none]
            omega
          | some fed =>
            have := hle fed rfl
            intro tokens htokens
            cases htokens
            simp only [Option.getD_some]
            omega

end Round

/-! ## Growth -/

namespace Round

theorem sizesOfTurn_lt {round : Round} (h : round.scheduler.Bounded config cacheConfig layout most)
    (hroomy : Roomy config cacheConfig layout most) {r : Request}
    (hr : r ∈ round.scheduler.requests) (slot : SlotId) :
    ∀ n ∈ round.sizesOfTurn r slot, n < wordSize := by
  have hsized := h.sized r hr
  have hasks := h.asks r hr
  have hpending : r.pendingLen ≤ r.totalLen := Nat.sub_le _ _
  have hwindow := hroomy.window
  intro n hn
  unfold sizesOfTurn at hn
  cases hst : round.scheduler.cache.slot? slot with
  | none =>
    have hnone : round.scheduler.cache.len slot = .error (.slotNotFound slot) := by
      rw [Cache.len, Cache.slot_of_none hst]
      rfl
    simp only [hnone, List.mem_singleton] at hn
    omega
  | some st =>
    have hsound := h.owned.sound.slots slot st hst
    have hheld : st.len ≤ cacheConfig.maxContext :=
      h.capacity slot st hst ▸ Nat.le_trans hsound.holds_le hsound.allocated_le
    have hfirst : ∀ n ∈ [r.totalLen, st.len + r.pendingLen], n < wordSize := by
      simp only [List.mem_cons, List.not_mem_nil, or_false, forall_eq_or_imp, forall_eq]
      omega
    simp only [Cache.len_of_slot? hst] at hn
    cases hneed : round.positionsNeeded r slot with
    | error e =>
      rw [hneed] at hn
      exact hfirst n hn
    | ok needed =>
      rw [hneed] at hn
      rcases List.mem_append.mp hn with hn | hn
      · exact hfirst n hn
      · refine h.cache.sizesToReserve_lt hroomy ?_ n hn
        intro st' hst'
        exact Nat.le_of_eq (h.capacity slot st' hst')

theorem sizesToGrowOne_lt {round : Round}
    (h : round.scheduler.Bounded config cacheConfig layout most)
    (hroomy : Roomy config cacheConfig layout most) (id : RequestId) :
    ∀ n ∈ round.sizesToGrowOne id, n < wordSize := by
  fun_induction sizesToGrowOne round id with
  | case1 => exact fun n hn => (List.not_mem_nil hn).elim
  | case2 => exact fun n hn => (List.not_mem_nil hn).elim
  | case3 round r hfind slot hslot ih =>
    have hr := List.mem_of_find?_eq_some hfind
    intro n hn
    rcases List.mem_append.mp hn with hn | hn
    · exact sizesOfTurn_lt h hroomy hr slot n hn
    split at hn
    · cases hn
    next needed hneed =>
      split at hn
      · cases hn
      next e cache hres =>
        split at hn
        · cases hn
        next victim hvictim =>
          simp only at hn
          split at hn
          next hless =>
            obtain ⟨v, hv, rfl, hvrun, -, hpolicy⟩ := victim?_some h.owned hvictim
            obtain ⟨st, hst, -⟩ := Cache.holder_eq_some.mp
              ((h.owned.holder_iff slot r.id).mpr ⟨r, hr, rfl, hslot⟩)
            have hbudget := Cache.budget_of_reserve_error hst hres
            have hgive := (giveWay_move 0 h.owned hv hvrun hpolicy hbudget id).1
            exact ih v.id hless (hgive.bounded h) n hn
          · cases hn

theorem sizesToGrow_lt (ids : List RequestId) {round : Round}
    (h : round.scheduler.Bounded config cacheConfig layout most)
    (hroomy : Roomy config cacheConfig layout most) : ∀ n ∈ round.sizesToGrow ids, n < wordSize := by
  induction ids generalizing round with
  | nil => exact fun n hn => (List.not_mem_nil hn).elim
  | cons id rest ih =>
    intro n hn
    rcases List.mem_append.mp hn with hn | hn
    · exact sizesToGrowOne_lt h hroomy id n hn
    · exact ih ((grown_growOne 0 h.owned id).moves.bounded h) n hn

end Round

/-- Within the limits all sizes of a tick are words. -/
theorem Scheduler.Bounded.sizes_lt {s : Scheduler} (h : s.Bounded config cacheConfig layout most)
    (hroomy : Roomy config cacheConfig layout most) (now : Nat) :
    ∀ n ∈ s.sizes now, n < wordSize := by
  obtain ⟨hexpire, -, hadmitted, -, -⟩ := h.owned.phases now
  have hexpired := hexpire.moves.bounded h
  intro n hn
  rcases List.mem_append.mp hn with hn | hn
  · refine Round.sizesToAdmit_lt _ hexpired hroomy rfl ?_ n hn
    exact fun tokens htokens => (Option.not_mem_none tokens htokens).elim
  · exact Round.sizesToGrow_lt _ (hadmitted.bounded hexpired) hroomy n hn

end CausalServe
