import CausalServe.Proofs.Cache.Budget
import CausalServe.Proofs.Scheduler.Pace

/-! Who gives way in a tick. A running request asks for one block more at most, and every other slot
is charged with as much, so one request that gives way is always enough. A request that was admitted
in the same tick asks for nothing. -/

namespace CausalServe

/-- A slot whose blocks are all full, with room for another. -/
def Slot.atBoundary (s : Slot) (block : Nat) : Bool :=
  decide (0 < s.len ∧ block ∣ s.len ∧ s.len < s.capacity)

/-- A request that feeds a token which no block of its slot has a place for. -/
def Scheduler.crosses (s : Scheduler) (id : RequestId) : Bool :=
  (s.request? id).any fun r => r.state == .decoding &&
    (r.slot.bind s.cache.slot?).any fun st => st.atBoundary s.cache.blockSize

theorem Scheduler.crosses_iff {s : Scheduler} {id : RequestId} : s.crosses id = true ↔
    ∃ r slot st, s.request? id = some r ∧ r.state = .decoding ∧ r.slot = some slot ∧
      s.cache.slot? slot = some st ∧ st.atBoundary s.cache.blockSize = true := by
  unfold Scheduler.crosses
  cases s.request? id with
  | none => simp
  | some r =>
    cases hslot : r.slot with
    | none => simp [hslot]
    | some slot => cases hst : s.cache.slot? slot <;> simp [hslot, hst]

namespace Round

/-- How the loop for one request goes, with the request that gives way if there is one. -/
inductive Serves (round : Round) (id : RequestId) : Option RequestId → Round → Prop
  /-- It gave way itself before its turn came. -/
  | absent (hid : id ∉ round.scheduler.running) : Serves round id none round
  /-- It asks for more than its slot can ever hold. -/
  | overgrown {r : Request} {slot : SlotId} {e : Error} (hr : r ∈ round.scheduler.requests)
      (hid : r.id = id) (hrun : r.state.isRunning = true) (hslot : r.slot = some slot)
      (hneed : round.positionsNeeded r slot = .error e) : Serves round id none (round.fail id e)
  /-- The budget covers what it asks for. -/
  | met {r : Request} {slot : SlotId} {needed : Nat} {cache : Cache}
      (hr : r ∈ round.scheduler.requests) (hid : r.id = id) (hrun : r.state.isRunning = true)
      (hslot : r.slot = some slot) (hneed : round.positionsNeeded r slot = .ok needed)
      (hres : Action.exec (Cache.reserve slot needed) round.scheduler.cache = (.ok (), cache)) :
      Serves round id none { round with scheduler := { round.scheduler with cache := cache } }
  /-- The budget covers it once the owner of the slot that grew longest ago has given way. -/
  | cleared {r victim : Request} {slot other : SlotId} {needed : Nat} {e : Error} {t : Slot}
      {unchanged cache : Cache} (hr : r ∈ round.scheduler.requests) (hid : r.id = id)
      (hslot : r.slot = some slot) (hcrosses : round.scheduler.crosses id = true)
      (hneed : round.positionsNeeded r slot = .ok needed)
      (hres : Action.exec (Cache.reserve slot needed) round.scheduler.cache = (.error e, unchanged))
      (hvictim : victim ∈ round.scheduler.requests) (hother : victim.slot = some other)
      (hne : other ≠ slot) (ht : round.scheduler.cache.slot? other = some t)
      (hleast : ∀ x u, round.scheduler.cache.slot? x = some u → x ≠ slot → x ≠ other →
        t.lastExtended < u.lastExtended)
      (hmet : Action.exec (Cache.reserve slot needed)
        (round.giveWay victim.id id).scheduler.cache = (.ok (), cache)) :
      Serves round id (some victim.id) { round.giveWay victim.id id with
        scheduler := { (round.giveWay victim.id id).scheduler with cache := cache } }
  /-- The budget does not cover it, and no other slot is live. -/
  | starved {r : Request} {slot : SlotId} {needed : Nat} {e : Error} {unchanged : Cache}
      (hr : r ∈ round.scheduler.requests) (hid : r.id = id) (hrun : r.state.isRunning = true)
      (hslot : r.slot = some slot) (hneed : round.positionsNeeded r slot = .ok needed)
      (hres : Action.exec (Cache.reserve slot needed) round.scheduler.cache = (.error e, unchanged))
      (honly : ∀ other t, round.scheduler.cache.slot? other = some t → other = slot) :
      Serves round id none (round.fail id e)

/-- The turns of the third phase, with who gives way for whom. -/
inductive Serving : Round → List RequestId → List (RequestId × RequestId) → Round → Prop
  | nil {round : Round} : Serving round [] [] round
  | cons {round next result : Round} {id : RequestId} {victim : Option RequestId}
      {ids : List RequestId} {yields : List (RequestId × RequestId)}
      (h : Serves round id victim next) (rest : Serving next ids yields result) :
      Serving round (id :: ids) ((victim.map fun v => (v, id)).toList ++ yields) result

/-- The slot that another request gives up is the one that grew longest ago. -/
theorem least_of_victim? {round : Round} (h : round.scheduler.Owned) {slot : SlotId}
    {id : RequestId} (hv : round.victim? slot = some id) :
    ∃ victim ∈ round.scheduler.requests, victim.id = id ∧ victim.state.isRunning = true ∧
      ∃ other t, victim.slot = some other ∧ other ≠ slot ∧
        round.scheduler.cache.slot? other = some t ∧
        ∀ x u, round.scheduler.cache.slot? x = some u → x ≠ slot → x ≠ other →
          t.lastExtended < u.lastExtended := by
  rw [victim?_eq] at hv
  split at hv
  · cases hv
  · obtain ⟨other, hother, hown⟩ := Option.bind_eq_some_iff.mp hv
    obtain ⟨hne, t, ht, hleast⟩ := (h.sound.leastRecentlyExtended_iff [slot] other).mp hother
    have howner : round.scheduler.cache.owner other = .ok t.owner := by
      unfold Cache.owner
      rw [Cache.slot_of_slot? ht]
      rfl
    rw [howner] at hown
    obtain rfl : t.owner = id := by simpa [Except.toOption] using hown
    obtain ⟨victim, hvictim, hid, hvslot⟩ := (h.holder_iff other t.owner).mp
      (Cache.holder_eq_some.mpr ⟨t, ht, rfl⟩)
    exact ⟨victim, hvictim, hid, h.running_of_slot hvictim hvslot, other, t, hvslot,
      by simpa using hne, ht, fun x u hu hx => hleast x u hu (by simpa using hx)⟩

variable {round : Round}

/-- A request of a round in which all running requests keep their pace either has its slot ready, or
stands at the end of its blocks and asks for one position more. -/
theorem ready_or_crosses (howned : round.scheduler.Owned) (hpaced : round.scheduler.Paced [])
    {r : Request} (hr : r ∈ round.scheduler.requests) (hrun : r.state.isRunning = true)
    (hprompt : r.prompt ≠ []) {slot : SlotId} {st : Slot} (hslot : r.slot = some slot)
    (hst : round.scheduler.cache.slot? slot = some st) :
    st.Covers (st.len + r.pendingLen) ∨ r.pendingLen = 1 ∧ ¬ st.Covers (st.len + 1) ∧
      round.scheduler.crosses r.id = true := by
  obtain ⟨slot', st', hslot', hst', -, hstocked, hpace⟩ := (hpaced.paced r hr).seated hrun
  cases hslot.symm.trans hslot'
  cases hst.symm.trans hst'
  by_cases hcov : st.Covers (st.len + r.pendingLen)
  · exact .inl hcov
  rcases hpace with hmem | ⟨hstate, hone⟩ | hready
  · cases hmem
  · rw [hone] at hcov
    obtain ⟨hfull, hdvd, hlt, -⟩ := Cache.block_of_short (howned.sound.slots slot st hst)
      howned.sound.block_pos hcov
    have hpos := hstocked hprompt
    refine .inr ⟨hone, hcov, Scheduler.crosses_iff.mpr
      ⟨r, slot, st, howned.ids.request? hr, hstate, hslot, hst, decide_eq_true ?_⟩⟩
    exact ⟨hfull ▸ hpos, hdvd, hlt⟩
  · exact absurd hready hcov

/-- Whoever runs on when another leaves is stored as before. -/
theorem Leaves.mem {result : Round} {r x : Request} (hl : Leaves round r result)
    (h : round.scheduler.Owned) (h' : result.scheduler.Owned) (hx : x ∈ round.scheduler.requests)
    (hrun : x.state.isRunning = true) (hne : x.id ≠ r.id) : x ∈ result.scheduler.requests := by
  have hmem : x.id ∈ result.scheduler.running := by
    rw [hl.running]
    simpa using ⟨(h.mem_running hx).mpr hrun, hne⟩
  obtain ⟨y, hy, hid, hyrun⟩ := (h'.running_iff x.id).mp hmem
  obtain ⟨hy', -⟩ := hl.others y hy hyrun
  rwa [← h.ids.eq hy' hx hid]

/-- What any other request gives back covers the block that a request asks for. -/
theorem closed_meets (howned : round.scheduler.Owned) (hpaced : round.scheduler.Paced [])
    {r victim : Request} {slot other : SlotId} {st t : Slot} (hr : r ∈ round.scheduler.requests)
    (hrun : r.state.isRunning = true) (hslot : r.slot = some slot)
    (hst : round.scheduler.cache.slot? slot = some st)
    (hvictim : victim ∈ round.scheduler.requests) (hvrun : victim.state.isRunning = true)
    (hprompt : victim.prompt ≠ []) (hother : victim.slot = some other)
    (ht : round.scheduler.cache.slot? other = some t) (hne : other ≠ slot)
    (hshort : ¬ st.Covers (st.len + 1)) : ∃ cache,
      Action.exec (Cache.reserve slot (st.len + 1)) (round.scheduler.cache.closed other t) =
        (.ok (), cache) := by
  obtain ⟨_, _, hs, hst', hcapacity, -⟩ := (hpaced.paced r hr).seated hrun
  obtain ⟨_, _, hs', ht', hcapacity', hstocked, -⟩ := (hpaced.paced victim hvictim).seated hvrun
  cases hs.symm.trans hslot
  cases hst'.symm.trans hst
  cases hs'.symm.trans hother
  cases ht'.symm.trans ht
  exact howned.sound.reserve_of_closed hst ht (Ne.symm hne) (hcapacity'.trans hcapacity.symm)
    (hstocked hprompt) hshort

/-- A claim that the budget does not cover is met once the owner of the slot that grew longest ago
has given way. -/
theorem serves_of_victim? (howned : round.scheduler.Owned) (hpaced : round.scheduler.Paced [])
    (hprompts : ∀ r ∈ round.scheduler.requests, r.state.isRunning = true → r.prompt ≠ [])
    (hpolicy : round.scheduler.cacheConfig.pressurePolicy ≠ .refuseAdmission) {r : Request}
    {slot : SlotId} {needed : Nat} {e : Error} {unchanged : Cache} {v : RequestId}
    (hr : r ∈ round.scheduler.requests) (hrun : r.state.isRunning = true)
    (hslot : r.slot = some slot) (hneed : round.positionsNeeded r slot = .ok needed)
    (hres : Action.exec (Cache.reserve slot needed) round.scheduler.cache = (.error e, unchanged))
    (hv : round.victim? slot = some v) :
    Serves round r.id (some v) ((round.giveWay v r.id).growOne r.id) := by
  obtain ⟨_, st, hslot', hst, -⟩ := howned.slot_of_running hr hrun
  cases hslot.symm.trans hslot'
  obtain ⟨rfl, -⟩ := positionsNeeded_ok hst hneed
  have hshort : ¬ st.Covers (st.len + r.pendingLen) := fun hcov => by
    rw [Cache.exec_reserve hst, if_pos hcov] at hres
    cases hres
  obtain ⟨hone, hfull, hcrosses⟩ :=
    (ready_or_crosses howned hpaced hr hrun (hprompts r hr hrun) hslot hst).resolve_left hshort
  obtain ⟨victim, hvictim, rfl, hvrun, other, t, hother, hne, ht, hleast⟩ :=
    least_of_victim? howned hv
  have hdiff : r.id ≠ victim.id := fun he => hne (by
    rw [howned.ids.eq hr hvictim he, hother] at hslot
    exact Option.some.inj hslot)
  obtain ⟨hm, hl⟩ := giveWay_move 0 howned hvictim hvrun hpolicy
    (Cache.budget_of_reserve_error hst hres) r.id
  have hcache : (round.giveWay victim.id r.id).scheduler.cache =
      round.scheduler.cache.closed other t := by
    rw [hl.cache, hother, Scheduler.freed, Cache.exec_evict, ht]
  obtain ⟨cache, hmet⟩ := closed_meets howned hpaced hr hrun hslot hst hvictim hvrun
    (hprompts victim hvictim hvrun) hother ht hne hfull
  rw [← hcache, ← hone] at hmet
  -- the loop asks again, for as much as before
  have hst' : (round.giveWay victim.id r.id).scheduler.cache.slot? slot = some st := by
    rw [hcache, Cache.slot?_closed ht, if_neg (Ne.symm hne), hst]
  have hneed' : (round.giveWay victim.id r.id).positionsNeeded r slot =
      .ok (st.len + r.pendingLen) := by
    rw [← hneed, positionsNeeded_eq hst', positionsNeeded_eq hst,
      hm.settings.limits.overflowPolicy]
  have howned' := hm.owned howned
  rw [growOne_of_running howned' (hl.mem howned howned' hr hrun hdiff) hrun hslot, hneed']
  simp only [hmet]
  exact .cleared hr rfl hslot hcrosses hneed hres hvictim hother hne ht hleast hmet

/-- One request that gives way is enough. -/
theorem serves_growOne (howned : round.scheduler.Owned) (hpaced : round.scheduler.Paced [])
    (hprompts : ∀ r ∈ round.scheduler.requests, r.state.isRunning = true → r.prompt ≠ [])
    (hpolicy : round.scheduler.cacheConfig.pressurePolicy ≠ .refuseAdmission) (id : RequestId) :
    ∃ victim, Serves round id victim (round.growOne id) := by
  cases grows howned id with
  | absent hid hgrown =>
    rw [hgrown]
    exact ⟨none, .absent hid⟩
  | overgrown hr hrun hslot hneed hgrown =>
    rw [hgrown]
    exact ⟨none, .overgrown hr rfl hrun hslot hneed⟩
  | met hr hrun hslot hneed hres hgrown =>
    rw [hgrown]
    exact ⟨none, .met hr rfl hrun hslot hneed hres⟩
  | starved hr hrun hslot hneed hres hv hgrown =>
    rw [hgrown]
    exact ⟨none, .starved hr rfl hrun hslot hneed hres ((victim?_none hv).resolve_left hpolicy)⟩
  | yielded hr hrun hslot hneed hres hv _ _ _ _ _ hgrown =>
    rw [hgrown]
    exact ⟨some _, serves_of_victim? howned hpaced hprompts hpolicy hr hrun hslot hneed hres hv⟩

/-! ## What the turns leave -/

/-- The requests that run on are stored as before, and their slots are as they were, but for what is
charged to them. -/
structure Keeps (a b : Round) : Prop where
  requests : ∀ x ∈ b.scheduler.requests, x.state.isRunning = true → x ∈ a.scheduler.requests
  slots : ∀ slot st, b.scheduler.cache.slot? slot = some st →
    ∃ old charge, a.scheduler.cache.slot? slot = some old ∧ st = { old with allocated := charge }
  blockSize : b.scheduler.cache.blockSize = a.scheduler.cache.blockSize

theorem Keeps.refl (a : Round) : Keeps a a :=
  ⟨fun _ hx _ => hx, fun _ st hst => ⟨st, st.allocated, hst, rfl⟩, rfl⟩

theorem Keeps.trans {a b c : Round} (h : Keeps a b) (h' : Keeps b c) : Keeps a c where
  requests := fun x hx hrun => h.requests x (h'.requests x hx hrun) hrun
  slots := fun slot st hst => by
    obtain ⟨mid, charge, hmid, rfl⟩ := h'.slots slot st hst
    obtain ⟨old, _, hold, rfl⟩ := h.slots slot mid hmid
    exact ⟨old, charge, hold, rfl⟩
  blockSize := h'.blockSize.trans h.blockSize

theorem Leaves.keeps {r : Request} {result : Round} (hl : Leaves round r result) :
    Keeps round result where
  requests := fun x hx hrun => (hl.others x hx hrun).1
  slots := fun slot st hst => by
    rw [hl.cache] at hst
    exact ⟨st, st.allocated, (slot?_freed_some hst).2, rfl⟩
  blockSize := by
    rw [hl.cache]
    exact (Scheduler.freed_limits _ _).blockSize

theorem keeps_reserve {slot : SlotId} {st : Slot} {needed : Nat} {cache : Cache}
    (hst : round.scheduler.cache.slot? slot = some st)
    (hres : Action.exec (Cache.reserve slot needed) round.scheduler.cache = (.ok (), cache)) :
    Keeps round { round with scheduler := { round.scheduler with cache := cache } } where
  requests := fun _ hx _ => hx
  slots := fun _ _ ht => Cache.slot?_reserve_some hst hres ht
  blockSize := by
    have hlim := Cache.reserve_limits round.scheduler.cache slot needed
    rw [hres] at hlim
    exact hlim.blockSize

theorem keeps_fail (howned : round.scheduler.Owned) {r : Request}
    (hr : r ∈ round.scheduler.requests) (hrun : r.state.isRunning = true) (e : Error) :
    Keeps round (round.fail r.id e) := by
  obtain ⟨ended, -, hends, he⟩ :=
    fail_eq_retire howned.ids hr (RequestState.isTerminal_of_isRunning hrun) e
  rw [he]
  exact (leaves_retire round hends).keeps

/-- Who stands at the end of its blocks after a turn did so before. -/
theorem Keeps.crosses {a b : Round} (h : Keeps a b) (ha : a.scheduler.Owned)
    {id : RequestId} (hcrosses : b.scheduler.crosses id = true) : a.scheduler.crosses id = true := by
  obtain ⟨r, slot, st, hfind, hstate, hslot, hst, hboundary⟩ := Scheduler.crosses_iff.mp hcrosses
  obtain ⟨hr, rfl⟩ := Scheduler.mem_of_request? hfind
  have hrun : r.state.isRunning = true := RequestState.isRunning_iff.mpr (.inr hstate)
  obtain ⟨old, charge, hold, rfl⟩ := h.slots slot st hst
  exact Scheduler.crosses_iff.mpr ⟨r, slot, old, ha.ids.request? (h.requests r hr hrun), hstate,
    hslot, hold, h.blockSize ▸ hboundary⟩

/-- Nobody gives way but to a request at the end of its blocks. -/
theorem Serves.crosses {id v : RequestId} {next : Round} (h : Serves round id (some v) next) :
    round.scheduler.crosses id = true := by
  cases h with
  | cleared _ _ _ hcrosses => exact hcrosses

theorem Serves.keeps {id : RequestId} {victim : Option RequestId} {next : Round}
    (h : Serves round id victim next) (howned : round.scheduler.Owned)
    (hpolicy : round.scheduler.cacheConfig.pressurePolicy ≠ .refuseAdmission) :
    Keeps round next := by
  cases h with
  | absent => exact .refl round
  | overgrown hr hid hrun => exact hid ▸ keeps_fail howned hr hrun _
  | @met r slot needed cache hr hid hrun hslot hneed hres =>
    obtain ⟨slot', st, hslot', hst, -⟩ := howned.slot_of_running hr hrun
    cases hslot.symm.trans hslot'
    exact keeps_reserve hst hres
  | @cleared r victim slot other needed e t unchanged cache hr hid hslot _ _ hres hvictim hother _ _
      _ hmet =>
    have hrun := howned.running_of_slot hr hslot
    obtain ⟨slot', st, hslot', hst, -⟩ := howned.slot_of_running hr hrun
    cases hslot.symm.trans hslot'
    obtain ⟨-, hl⟩ := giveWay_move 0 howned hvictim (howned.running_of_slot hvictim hother) hpolicy
      (Cache.budget_of_reserve_error hst hres) id
    cases hst' : (round.giveWay victim.id id).scheduler.cache.slot? slot with
    | none =>
      rw [Cache.exec_reserve_none hst'] at hmet
      cases hmet
    | some st' => exact hl.keeps.trans (keeps_reserve hst' hmet)
  | starved hr hid hrun => exact hid ▸ keeps_fail howned hr hrun _

theorem preempted_fail (round : Round) (id : RequestId) (e : Error) :
    (round.fail id e).preempted = round.preempted := by
  unfold fail
  rcases Action.exec (Scheduler.failRequest id e) round.scheduler with ⟨_ | _, _⟩ <;> rfl

/-- A request that gives way is sent back, or has failed for the one that it gave way to. -/
theorem Serves.reported {id : RequestId} {victim : Option RequestId} {next : Round}
    (h : Serves round id victim next) (howned : round.scheduler.Owned) :
    (next.preempted = round.preempted ++
      if round.scheduler.cacheConfig.pressurePolicy = .preemptLeastRecent then victim.toList
      else []) ∧
    (round.scheduler.cacheConfig.pressurePolicy ≠ .preemptLeastRecent → ∀ v ∈ victim,
      v ∈ next.retired ∧ ∃ x ∈ next.scheduler.requests, x.id = v ∧ x.state.isTerminal = true ∧
        x.failure = some (.ofError (.cacheOverflow (.evictedFor id)))) := by
  cases h with
  | absent | met => exact ⟨by simp, nofun⟩
  | overgrown | starved => exact ⟨by simp [preempted_fail], nofun⟩
  | @cleared r victim slot other needed e t unchanged cache _ _ _ _ _ _ hvictim hother =>
    have hrun := howned.running_of_slot hvictim hother
    by_cases hp : round.scheduler.cacheConfig.pressurePolicy = .preemptLeastRecent
    · refine ⟨?_, fun hne => absurd hp hne⟩
      simp only [giveWay, if_pos hp, preempt, howned.ids.request? hvictim,
        Request.apply_preempt hrun, Option.toList_some]
    · have hlive := RequestState.isTerminal_of_isRunning hrun
      obtain ⟨ended, hend, hends, he⟩ :=
        fail_eq_retire howned.ids hvictim hlive (.cacheOverflow (.evictedFor id))
      obtain ⟨-, rfl⟩ := Request.fail_ok hend
      have hgive : round.giveWay victim.id id =
          round.retire (victim.failedBy (.cacheOverflow (.evictedFor id))) := by
        rw [giveWay, if_neg hp, he]
      refine ⟨by simp [giveWay, hp, preempted_fail], fun _ v hv => ?_⟩
      cases Option.some.inj hv
      rw [hgive]
      exact ⟨by simp [retire, hends.id],
        { victim.failedBy (.cacheOverflow (.evictedFor id)) with slot := none },
        Scheduler.mem_update.mpr (.inl ⟨rfl, victim, hvictim, rfl⟩), rfl, rfl, rfl⟩

/-- A move puts a request that has not ended in another form, which is not that of a decoding one; a
prompt that is cut is not cut to nothing. -/
theorem Move.requests {now : Nat} {a b : Round} (hm : Move now a b) :
    b.scheduler.requests = a.scheduler.requests ∨ ∃ r ∈ a.scheduler.requests, ∃ changed : Request,
      b.scheduler.requests = (a.scheduler.update changed).requests ∧ changed.id = r.id ∧
      r.state.isTerminal = false ∧ changed.state ≠ .decoding ∧
      (0 < a.scheduler.cacheConfig.maxContext → r.prompt ≠ [] → changed.prompt ≠ []) := by
  cases hm with
  | @fit r cut hr hq hfit =>
    have hkept := Scheduler.fitPrompt_kept hfit
    refine .inr ⟨r, hr, cut, rfl, by rw [hkept], by rw [hq]; rfl, by rw [hkept, hq]; nofun, ?_⟩
    intro hpos hprompt
    obtain ⟨prompt, truncated, rfl, -, hne⟩ := Scheduler.fitPrompt_shape hfit hpos
    exact List.length_pos_iff.mp (hne (List.length_pos_iff.mpr hprompt))
  | @retire r ended hr hlive hcause =>
    have hends := hcause.endsAs hlive
    have hprompt : ended.prompt = r.prompt := by rw [hends.kept]
    refine .inr ⟨r, hr, { ended with slot := none }, rfl, hends.id, hlive, fun hdec => ?_,
      fun _ hne => hprompt ▸ hne⟩
    have hend := hends.terminal
    rw [show ended.state = .decoding from hdec] at hend
    cases hend
  | @enter r entry rest cache hr hq =>
    exact .inr ⟨r, hr, r.startIn a.scheduler.cache.nextId, rfl, rfl, by rw [hq]; rfl,
      (fun hdec : RequestState.prefilling = .decoding => nomatch hdec), fun _ => id⟩
  | reserve => exact .inl rfl
  | @preempt r hr hrun =>
    exact .inr ⟨r, hr, r.requeued, rfl, rfl, RequestState.isTerminal_of_isRunning hrun,
      (fun hdec : RequestState.queued = .decoding => nomatch hdec), fun _ => id⟩

/-- What has ended stays ended, and stays reported. -/
theorem Moves.ended {now : Nat} {a b : Round} (hm : Moves now a b) (h : a.scheduler.Owned) :
    (∀ id ∈ a.retired, id ∈ b.retired) ∧ ∀ x ∈ a.scheduler.requests, x.state.isTerminal = true →
      x ∈ b.scheduler.requests := by
  refine (hm.keep (P := fun y => y.scheduler.Owned ∧ (∀ id ∈ a.retired, id ∈ y.retired) ∧
    ∀ x ∈ a.scheduler.requests, x.state.isTerminal = true → x ∈ y.scheduler.requests)
    ⟨h, fun _ => id, fun _ hx _ => hx⟩ fun y z hmove ⟨ho, hids, hxs⟩ => ?_).2
  refine ⟨hmove.owned ho, fun id hid => ?_, fun x hx hend => ?_⟩
  · have hold := hids id hid
    cases hmove with
    | fit | enter | reserve | preempt => exact hold
    | retire => exact List.mem_append_left _ hold
  · have hold := hxs x hx hend
    rcases hmove.requests with heq | ⟨r, hr, changed, heq, hid, hlive, -⟩ <;> rw [heq]
    · exact hold
    · refine Scheduler.mem_update.mpr (.inr ⟨hold, fun he => ?_⟩)
      rw [ho.ids.eq hold hr (he.trans hid), hlive] at hend
      cases hend

/-- A tick brings no request to the decoding state. -/
theorem Moves.decoding {now : Nat} {a b : Round} (hm : Moves now a b) :
    ∀ x ∈ b.scheduler.requests, x.state = .decoding → x ∈ a.scheduler.requests := by
  refine hm.keep (P := fun y => ∀ x ∈ y.scheduler.requests, x.state = .decoding →
    x ∈ a.scheduler.requests) (fun _ hx _ => hx) fun y z hmove h x hx hstate => h x ?_ hstate
  rcases hmove.requests with heq | ⟨r, hr, changed, heq, -, -, hother, -⟩ <;> rw [heq] at hx
  · exact hx
  · rcases Scheduler.mem_update.mp hx with ⟨rfl, -⟩ | ⟨hx, -⟩
    · exact absurd hstate hother
    · exact hx

/-- Where prompts were not empty, they are not. -/
theorem Moves.prompts {now : Nat} {a b : Round} (hm : Moves now a b)
    (hpos : 0 < a.scheduler.cacheConfig.maxContext)
    (h : ∀ r ∈ a.scheduler.requests, r.state.isTerminal = false → r.prompt ≠ []) :
    ∀ r ∈ b.scheduler.requests, r.state.isTerminal = false → r.prompt ≠ [] := by
  refine (hm.keep (P := fun y => 0 < y.scheduler.cacheConfig.maxContext ∧
    ∀ r ∈ y.scheduler.requests, r.state.isTerminal = false → r.prompt ≠ []) ⟨hpos, h⟩
    fun y z hmove ⟨hy, hs⟩ => ⟨hmove.settings.cacheConfig ▸ hy, fun x hx hlive => ?_⟩).2
  rcases hmove.requests with heq | ⟨r, hr, changed, heq, -, hrlive, -, hkept⟩ <;> rw [heq] at hx
  · exact hs x hx hlive
  · rcases Scheduler.mem_update.mp hx with ⟨rfl, -⟩ | ⟨hx, -⟩
    · exact hkept hy (hs r hr hrlive)
    · exact hs x hx hlive

/-- What the turns of a phase come to, with who gives way for whom. -/
structure Tally (round : Round) (ids : List RequestId) (yields : List (RequestId × RequestId))
    (result : Round) : Prop where
  serving : Serving round ids yields result
  length_le : yields.length ≤ ids.countP round.scheduler.crosses
  crosses : ∀ p ∈ yields, round.scheduler.crosses p.2 = true
  preempted : result.preempted = round.preempted ++
    if round.scheduler.cacheConfig.pressurePolicy = .preemptLeastRecent then yields.map Prod.fst
    else []
  evicted : round.scheduler.cacheConfig.pressurePolicy ≠ .preemptLeastRecent → ∀ p ∈ yields,
    p.1 ∈ result.retired ∧ ∃ x ∈ result.scheduler.requests, x.id = p.1 ∧
      x.state.isTerminal = true ∧
      x.failure = some (.ofError (.cacheOverflow (.evictedFor p.2)))

/-- One turn more, before the others. -/
theorem Tally.cons {id : RequestId} {victim : Option RequestId} {rest : List RequestId}
    {yields : List (RequestId × RequestId)} (howned : round.scheduler.Owned)
    (hpolicy : round.scheduler.cacheConfig.pressurePolicy ≠ .refuseAdmission)
    (hserves : Serves round id victim (round.growOne id))
    (htally : Tally (round.growOne id) rest yields (rest.foldl growOne (round.growOne id))) :
    Tally round (id :: rest) ((victim.map fun v => (v, id)).toList ++ yields)
      (rest.foldl growOne (round.growOne id)) := by
  have hm := (grown_growOne 0 howned id).moves
  have hkeeps := hserves.keeps howned hpolicy
  have hsame : (round.growOne id).scheduler.cacheConfig = round.scheduler.cacheConfig :=
    hm.settings.cacheConfig
  obtain ⟨hsent, hfailed⟩ := hserves.reported howned
  have hmono : rest.countP (round.growOne id).scheduler.crosses ≤
      rest.countP round.scheduler.crosses :=
    List.countP_mono_left fun _ _ h => hkeeps.crosses howned h
  refine {
    serving := .cons hserves htally.serving
    length_le := ?_
    crosses := fun p hp => ?_
    preempted := ?_
    evicted := fun hp p hmem => ?_ }
  · rw [List.countP_cons, List.length_append]
    have hle := htally.length_le
    cases victim with
    | none => exact (by simpa using hle.trans hmono : _ ≤ _).trans (Nat.le_add_right _ _)
    | some v =>
      rw [hserves.crosses]
      simp only [Option.map_some, Option.toList_some, List.length_singleton, if_true]
      omega
  · rcases List.mem_append.mp hp with hp | hp
    · cases victim with
      | none => cases hp
      | some v =>
        cases List.mem_singleton.mp hp
        exact hserves.crosses
    · exact hkeeps.crosses howned (htally.crosses p hp)
  · rw [htally.preempted, hsent, hsame, List.append_assoc]
    split
    · cases victim <;> rfl
    · rfl
  · rcases List.mem_append.mp hmem with hmem | hmem
    · cases victim with
      | none => cases hmem
      | some v =>
        cases List.mem_singleton.mp hmem
        obtain ⟨hretired, x, hx, hid, hend, hfailure⟩ := hfailed hp v rfl
        have howned' := hm.owned howned
        obtain ⟨hstays, hkept⟩ := (grow_fold 0 rest howned').1.ended howned'
        exact ⟨hstays v hretired, x, hkept x hx hend, hid, hend, hfailure⟩
    · exact htally.evicted (hsame ▸ hp) p hmem

/-- Turn by turn, no more requests give way than stood at the end of their blocks. -/
theorem tally_fold (ids : List RequestId) {round : Round} (howned : round.scheduler.Owned)
    (hpaced : round.scheduler.Paced [])
    (hprompts : ∀ r ∈ round.scheduler.requests, r.state.isRunning = true → r.prompt ≠ [])
    (hpolicy : round.scheduler.cacheConfig.pressurePolicy ≠ .refuseAdmission) :
    ∃ yields, Tally round ids yields (ids.foldl growOne round) := by
  induction ids generalizing round with
  | nil => exact ⟨[], .nil, Nat.zero_le _, nofun, by simp, nofun⟩
  | cons id rest ih =>
    obtain ⟨victim, hserves⟩ := serves_growOne howned hpaced hprompts hpolicy id
    have hm := (grown_growOne 0 howned id).moves
    have hkeeps := hserves.keeps howned hpolicy
    obtain ⟨yields, htally⟩ := ih (hm.owned howned) (hm.paced howned hpaced)
      (fun r hr hrun => hprompts r (hkeeps.requests r hr hrun) hrun)
      (hm.settings.cacheConfig ▸ hpolicy)
    exact ⟨_, htally.cons howned hpolicy hserves⟩

end Round

namespace Scheduler

variable {config : SchedulerConfig} {cacheConfig : CacheConfig} {layout : Layout} {s : Scheduler}
  {left : RequestId → Nat → Nat}

/-- Where requests are made to give way, one is always enough. Every turn of the third phase is one
of five: the request gave way itself before; it has outgrown its slot; its claim is met at once; it
is met once the owner of the slot that grew longest ago has given way; or no other slot is live.
Nobody gives way to a request that was admitted in the same tick, and no more requests do than have
come to the end of their blocks. -/
theorem Ticking.one_victim_is_enough (h : Ticking config cacheConfig layout s [] left)
    (hprompts : ∀ r ∈ s.requests, r.state.isTerminal = false → r.prompt ≠ [])
    (hpolicy : cacheConfig.pressurePolicy = .evictLeastRecent ∨
      cacheConfig.pressurePolicy = .preemptLeastRecent) (now : Nat) :
    let admitted := (({ scheduler := s } : Round).expire now).admitWaiting
    ∃ yields : List (RequestId × RequestId),
      admitted.Serving admitted.scheduler.running yields (s.tick now) ∧
      yields.length ≤ admitted.scheduler.running.countP admitted.scheduler.crosses ∧
      (∀ p ∈ yields, p.2 ∈ s.running) ∧
      (cacheConfig.pressurePolicy = .preemptLeastRecent →
        (s.schedule now).1.preempted = yields.map Prod.fst) ∧
      (cacheConfig.pressurePolicy = .evictLeastRecent →
        (s.schedule now).1.preempted = [] ∧
        ∀ p ∈ yields, p.1 ∈ (s.schedule now).1.retired ∧
          ∃ x ∈ (s.schedule now).2.requests, x.id = p.1 ∧
            x.failure = some (.ofError (.cacheOverflow (.evictedFor p.2)))) := by
  intro admitted
  have howned := h.orderly.owned
  obtain ⟨hdues, -, henter, howned', -⟩ := howned.phases now
  have hm : Round.Moves now { scheduler := s } admitted := hdues.moves.trans henter
  have hset := h.settings.trans hm.settings
  have hpaced := hm.paced howned h.paced
  have hsame : admitted.scheduler.cacheConfig = cacheConfig := hset.cacheConfig
  have hnew : admitted.preempted = [] :=
    (Round.preempted_admitFrom _ _ _).trans (Round.preempted_expire _ now)
  have hfull : ∀ r ∈ admitted.scheduler.requests, r.state.isRunning = true → r.prompt ≠ [] := by
    intro r hr hrun
    obtain ⟨slot, st, -, hst, hcapacity, -⟩ := (hpaced.paced r hr).seated hrun
    have hpos := (howned'.sound.slots slot st hst).capacity_pos
    rw [hcapacity, hm.settings.cacheConfig] at hpos
    exact hm.prompts hpos hprompts r hr (RequestState.isTerminal_of_isRunning hrun)
  have hmakes : admitted.scheduler.cacheConfig.pressurePolicy ≠ .refuseAdmission := by
    rw [hsame]
    rcases hpolicy with hp | hp <;> rw [hp] <;> nofun
  obtain ⟨yields, htally⟩ :=
    Round.tally_fold admitted.scheduler.running howned' hpaced hfull hmakes
  have hsent := htally.preempted
  rw [hnew, hsame, List.nil_append] at hsent
  refine ⟨yields, htally.serving, htally.length_le, fun p hp => ?_, fun hp => ?_, fun hp => ?_⟩
  · -- it was decoding before the tick, so it was not admitted in it
    obtain ⟨r, slot, st, hfind, hstate, -⟩ := crosses_iff.mp (htally.crosses p hp)
    obtain ⟨hr, hid⟩ := mem_of_request? hfind
    rw [← hid, howned.mem_running (hm.decoding r hr hstate)]
    exact RequestState.isRunning_iff.mpr (.inr hstate)
  · rwa [if_pos hp] at hsent
  · have hne : cacheConfig.pressurePolicy ≠ .preemptLeastRecent := by
      rw [hp]
      nofun
    rw [if_neg hne] at hsent
    refine ⟨hsent, fun p hmem => ?_⟩
    obtain ⟨hretired, x, hx, hid, -, hfailure⟩ := htally.evicted (hsame ▸ hne) p hmem
    exact ⟨hretired, x, hx, hid, hfailure⟩

/-- Two requests of which each holds one of two positions that the budget covers: when the first
feeds its second token, the other is sent back. -/
theorem one_of_two_gives_way : ∃ s : Scheduler, s.running = [1, 2] ∧
    (s.schedule 0).1.preempted = [2] ∧
    ∃ yields : List (RequestId × RequestId), yields.map Prod.fst = [2] ∧
      ∀ p ∈ yields, p.2 ∈ s.running := by
  have hplanned : Ticking {}
      { maxContext := 4, blockSize := 1, memoryBudget := some 16
        pressurePolicy := .preemptLeastRecent } ⟨1, 1, 1, 1⟩ _ _ _ :=
    .schedule (.addRequest (.addRequest .new
      (Request.Fresh.mk (r := Request.new 1 [7] (.greedy 4)) rfl rfl))
      (Request.Fresh.mk (r := Request.new 2 [8] (.greedy 4)) rfl rfl)) 0
  have hfed := hplanned.append
    (@mem_of_request? _ 1 { Request.new 1 [7] (.greedy 4) with
      arrivalSeq := 0, state := .prefilling, slot := some 0 } (by cbv)).1
    (by cbv; exact List.mem_cons_self) rfl (by decide : 0 < 1) (by cbv)
    (rfl : [(1 : Float32)].length = 1) (rfl : [(2 : Float32)].length = 1)
  have hboth := hfed.append
    (@mem_of_request? _ 2 { Request.new 2 [8] (.greedy 4) with
      arrivalSeq := 1, state := .prefilling, slot := some 1 } (by cbv)).1
    (by cbv; exact List.mem_cons_of_mem _ List.mem_cons_self) rfl (by decide : 0 < 1) (by cbv)
    (rfl : [(3 : Float32)].length = 1) (rfl : [(4 : Float32)].length = 1)
  have hstep := @Ticking.completeStep _ _ _ _ _ _ hboth 1
    (fun layer hlayer => by obtain rfl := Nat.lt_one_iff.mp hlayer; cbv) 5 none
  have hsteps := @Ticking.completeStep _ _ _ _ _ _ hstep 2
    (fun layer hlayer => by obtain rfl := Nat.lt_one_iff.mp hlayer; cbv) 6 none
  rw [show ((_ : List RequestId).erase 1).erase 2 = [] from by cbv] at hsteps
  obtain ⟨yields, -, -, hrunning, hsent, -⟩ := Ticking.one_victim_is_enough hsteps
    (fun r hr _ => by
      have hprompt := List.all_eq_true.mp
        (by cbv : List.all _ (fun r : Request => !r.prompt.isEmpty) = true) r hr
      simpa using hprompt) (.inr rfl) 0
  refine ⟨_, by cbv, by cbv, yields, ?_, hrunning⟩
  rw [← hsent rfl]
  cbv

end Scheduler

end CausalServe
