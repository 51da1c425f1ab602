import CausalServe.Proofs.Scheduler.Admission

/-! The third phase of a tick. A request that must grow frees slots of others until its claim is met
or it fails itself; it never frees its own. So whoever still runs at the end has room for all that
it is about to feed. -/

namespace CausalServe

/-- A request can feed all its pending tokens without a charge and without a refusal. -/
def Cache.ReadyFor (c : Cache) (r : Request) : Prop :=
  ∃ slot st, r.slot = some slot ∧ c.slot? slot = some st ∧ st.Covers (st.len + r.pendingLen) ∧
    (c.overflowPolicy = .reject → st.len + r.pendingLen ≤ st.capacity)

/-- Whether a request is ready shows in its own slot. -/
theorem Cache.ReadyFor.of_same {c c' : Cache} {r : Request} (h : c.ReadyFor r)
    (hpolicy : c'.overflowPolicy = c.overflowPolicy)
    (hsame : ∀ slot, r.slot = some slot → c'.slot? slot = c.slot? slot) : c'.ReadyFor r := by
  obtain ⟨slot, st, hs, hst, hcov, hrej⟩ := h
  exact ⟨slot, st, hs, (hsame slot hs).trans hst, hcov, fun hp => hrej (hpolicy ▸ hp)⟩

theorem Scheduler.slot?_freed {c : Cache} {slot : Option SlotId} {other : SlotId}
    (h : slot ≠ some other) : (freed c slot).slot? other = c.slot? other := by
  cases slot with
  | none => rfl
  | some slot =>
    have hne : other ≠ slot := fun he => h (he ▸ rfl)
    rw [freed, Cache.exec_evict]
    rcases hs : c.slot? slot with _ | s <;> simp only
    rw [Cache.slot?_closed hs, if_neg hne]

namespace Round

/-- Freeing the slot of a request leaves the slots of the others. -/
theorem slots_freed {a : Round} (h : a.scheduler.Owned) {r x : Request}
    (hr : r ∈ a.scheduler.requests) (hx : x ∈ a.scheduler.requests) (hne : x.id ≠ r.id)
    {slot : SlotId} (hslot : x.slot = some slot) :
    (Scheduler.freed a.scheduler.cache r.slot).slot? slot = a.scheduler.cache.slot? slot :=
  Scheduler.slot?_freed fun he => hne (by rw [h.slot_inj hx hr hslot he])

/-- A new slot leaves those that requests hold as they are: they are live, and it was not. -/
theorem slots_seated {a : Round} (h : a.scheduler.Owned) {x : Request}
    (hx : x ∈ a.scheduler.requests) {slot : SlotId} (hslot : x.slot = some slot)
    {owner : RequestId} {capacity n : Nat} {cache : Cache}
    (hres : Action.exec (Cache.reserve a.scheduler.cache.nextId n)
      (a.scheduler.cache.opened owner capacity) = (.ok (), cache)) :
    cache.slot? slot = a.scheduler.cache.slot? slot := by
  have hopen := h.sound.slot?_opened owner capacity
  have hnew := hopen a.scheduler.cache.nextId
  rw [if_pos rfl] at hnew
  have hother : slot ≠ a.scheduler.cache.nextId := by
    intro he
    obtain ⟨st, hst, -⟩ := Cache.holder_eq_some.mp
      ((h.holder_iff slot x.id).mpr ⟨x, hx, rfl, hslot⟩)
    rw [he, h.sound.nextId_fresh] at hst
    cases hst
  rw [Cache.slot?_reserve_ne hnew hres hother, hopen, if_neg hother]

/-! ## One request leaves the batch -/

/-- A round without one of its running requests: the others run on as they did. -/
structure Leaves (round : Round) (r : Request) (result : Round) : Prop where
  running : result.scheduler.running = round.scheduler.running.filter fun other => other ≠ r.id
  cache : result.scheduler.cache = Scheduler.freed round.scheduler.cache r.slot
  others : ∀ x ∈ result.scheduler.requests, x.state.isRunning = true →
    x ∈ round.scheduler.requests ∧ x.id ≠ r.id

theorem leaves_retire (round : Round) {r ended : Request} (h : r.EndsAs ended) :
    Leaves round r (round.retire ended) := by
  have hstopped := RequestState.not_isRunning_of_isTerminal h.terminal
  unfold retire Scheduler.retire
  rw [Scheduler.release_eq, h.slot]
  refine ⟨by rw [← h.id]; rfl, rfl, fun x hx hrun => ?_⟩
  rcases Scheduler.mem_update.mp hx with ⟨rfl, -⟩ | ⟨hm, hne⟩
  · exact absurd (hrun.symm.trans hstopped) nofun
  · exact ⟨hm, fun he => hne (he.trans h.id.symm)⟩

theorem leaves_unseat (round : Round) (r : Request) : Leaves round r (round.unseat r) := by
  unfold unseat
  rw [Scheduler.release_eq]
  refine ⟨rfl, rfl, fun x hx hrun => ?_⟩
  rcases Scheduler.mem_update.mp hx with ⟨rfl, -⟩ | ⟨hm, hne⟩
  · cases hrun
  · exact ⟨hm, hne⟩

/-- The slots of those that run on are untouched. -/
theorem Leaves.readyFor {round result : Round} {r x : Request} (hl : Leaves round r result)
    (h : round.scheduler.Owned) (hr : r ∈ round.scheduler.requests)
    (hx : x ∈ result.scheduler.requests) (hrun : x.state.isRunning = true)
    (hready : round.scheduler.cache.ReadyFor x) : result.scheduler.cache.ReadyFor x := by
  obtain ⟨hm, hne⟩ := hl.others x hx hrun
  rw [hl.cache]
  refine hready.of_same (Scheduler.freed_limits _ _).overflowPolicy fun slot hs => ?_
  exact Scheduler.slot?_freed fun he => hne (by rw [h.slot_inj hm hr hs he])

/-- A slot comes free, so one running request fewer is left. -/
theorem Leaves.length {round result : Round} {r : Request} (hl : Leaves round r result)
    (h : round.scheduler.Owned) (hr : r ∈ round.scheduler.requests)
    (hrun : r.state.isRunning = true) :
    result.scheduler.running.length + 1 = round.scheduler.running.length := by
  have hm := (h.mem_running hr).mpr hrun
  have herase : round.scheduler.running.filter (fun other => other ≠ r.id) =
      round.scheduler.running.erase r.id := by
    rw [h.running_nodup.erase_eq_filter]
    exact List.filter_congr fun other _ => by rw [Bool.eq_iff_iff]; simp
  rw [hl.running, herase, List.length_erase_of_mem hm]
  have := List.length_pos_of_mem hm
  omega

/-! ## What one turn of the loop finds -/

theorem positionsNeeded_eq {round : Round} {slot : SlotId} {st : Slot}
    (hst : round.scheduler.cache.slot? slot = some st) (r : Request) :
    round.positionsNeeded r slot =
      if st.capacity < st.len + r.pendingLen ∧ round.scheduler.cache.overflowPolicy = .reject then
        .error (.cacheOverflow
          (.beyondCapacity r.id (st.len + r.pendingLen) slot st.capacity))
      else .ok (st.len + r.pendingLen) := by
  simp only [positionsNeeded, Cache.len_of_slot? hst, Cache.capacity_of_slot? hst]
  change (if _ then _ else _) = _
  split <;> rfl

theorem positionsNeeded_ok {round : Round} {slot : SlotId} {st : Slot} {r : Request} {needed : Nat}
    (hst : round.scheduler.cache.slot? slot = some st)
    (h : round.positionsNeeded r slot = .ok needed) : needed = st.len + r.pendingLen ∧
      (round.scheduler.cache.overflowPolicy = .reject → st.len + r.pendingLen ≤ st.capacity) := by
  rw [positionsNeeded_eq hst] at h
  split at h
  · cases h
  next hfit => exact ⟨(Except.ok.inj h).symm, fun hp => by
      by_contra hlt
      exact hfit ⟨by omega, hp⟩⟩

theorem victim?_eq (round : Round) (slot : SlotId) : round.victim? slot =
    if round.scheduler.cacheConfig.pressurePolicy = .refuseAdmission then none
    else (round.scheduler.cache.leastRecentlyExtended [slot]).bind fun other =>
      (round.scheduler.cache.owner other).toOption := by
  unfold victim?
  cases hp : round.scheduler.cacheConfig.pressurePolicy <;> simp only [hp] <;> rfl

/-- The request that gives way is another one that runs. -/
theorem victim?_some {round : Round} (h : round.scheduler.Owned) {slot : SlotId}
    {victim : RequestId} (hv : round.victim? slot = some victim) :
    ∃ r ∈ round.scheduler.requests, r.id = victim ∧ r.state.isRunning = true ∧
      r.slot ≠ some slot ∧ round.scheduler.cacheConfig.pressurePolicy ≠ .refuseAdmission := by
  rw [victim?_eq] at hv
  split at hv
  · cases hv
  next hpolicy =>
    obtain ⟨other, hother, hown⟩ := Option.bind_eq_some_iff.mp hv
    obtain ⟨hne, st, hst⟩ := Cache.leastRecentlyExtended_some hother
    have howner : round.scheduler.cache.owner other = .ok st.owner := by
      unfold Cache.owner
      rw [Cache.slot_of_slot? hst]
      rfl
    rw [howner] at hown
    obtain rfl : st.owner = victim := by simpa [Except.toOption] using hown
    obtain ⟨r, hr, hid, hs⟩ := (h.holder_iff other st.owner).mp (Cache.holder_eq_some.mpr ⟨st, hst, rfl⟩)
    refine ⟨r, hr, hid, h.running_of_slot hr hs, fun he => hne ?_, hpolicy⟩
    rw [hs] at he
    simp [Option.some.inj he]

/-- Where no request can give way, the policy spares all of them, or no other slot is live. -/
theorem victim?_none {round : Round} {slot : SlotId} (hv : round.victim? slot = none) :
    round.scheduler.cacheConfig.pressurePolicy = .refuseAdmission ∨
      ∀ other st, round.scheduler.cache.slot? other = some st → other = slot := by
  rw [victim?_eq] at hv
  split at hv
  next hp => exact .inl hp
  next =>
    refine .inr fun other st hst => ?_
    cases hl : round.scheduler.cache.leastRecentlyExtended [slot] with
    | none => simpa using Cache.leastRecentlyExtended_none hl hst
    | some found =>
      obtain ⟨-, s, hs⟩ := Cache.leastRecentlyExtended_some hl
      rw [hl] at hv
      simp [Cache.owner, Cache.slot_of_slot? hs, Except.toOption] at hv

theorem fail_eq_retire {round : Round} (h : round.scheduler.DistinctIds) {r : Request}
    (hr : r ∈ round.scheduler.requests) (hlive : r.state.isTerminal = false) (e : Error) :
    ∃ ended, r.fail e = .ok ended ∧ r.EndsAs ended ∧ round.fail r.id e = round.retire ended := by
  have hfail := Request.fail_of_live hlive e
  refine ⟨_, hfail, Request.fail_endsAs hfail, ?_⟩
  unfold fail
  rw [Scheduler.exec_failRequest (h.request? hr) hlive]
  rfl

/-- Giving way is a move, after which one request fewer runs. -/
theorem giveWay_move (now : Nat) {round : Round} (h : round.scheduler.Owned) {r : Request}
    (hr : r ∈ round.scheduler.requests) (hrun : r.state.isRunning = true)
    (hpolicy : round.scheduler.cacheConfig.pressurePolicy ≠ .refuseAdmission)
    (hbudget : round.scheduler.cache.budget ≠ none) (id : RequestId) :
    Move now round (round.giveWay r.id id) ∧ Leaves round r (round.giveWay r.id id) := by
  unfold giveWay
  split
  next hp =>
    have hw := Request.apply_preempt hrun
    have he : round.preempt r.id = round.unseat r := by
      unfold preempt
      rw [h.ids.request? hr]
      simp only [hw]
      rfl
    rw [he]
    exact ⟨.preempt hr hrun hp, leaves_unseat round r⟩
  next hp =>
    have hlive := RequestState.isTerminal_of_isRunning hrun
    obtain ⟨ended, hend, hends, he⟩ :=
      fail_eq_retire h.ids hr hlive (.cacheOverflow (.evictedFor id))
    rw [he]
    have hevict : round.scheduler.cacheConfig.pressurePolicy = .evictLeastRecent := by
      cases hc : round.scheduler.cacheConfig.pressurePolicy <;> simp_all
    exact ⟨.retire hr hlive (.evicted hrun hevict hbudget hend), leaves_retire round hends⟩

/-! ## The loop -/

theorem growOne_of_not_running {round : Round} (h : round.scheduler.Owned) {id : RequestId}
    (hid : id ∉ round.scheduler.running) : round.growOne id = round := by
  have hfind : (round.scheduler.requests.find? fun r => r.id = id && r.state.isRunning) = none :=
    List.find?_eq_none.mpr fun r hr hp => hid ((h.running_iff id).mpr ⟨r, hr, by simpa using hp⟩)
  rw [growOne, hfind]

/-- What the loop does for a running request. It needs no bound to end: each turn that goes round
leaves fewer requests running. -/
theorem growOne_of_running {round : Round} (h : round.scheduler.Owned) {r : Request}
    (hr : r ∈ round.scheduler.requests) (hrun : r.state.isRunning = true) {slot : SlotId}
    (hslot : r.slot = some slot) :
    round.growOne r.id = match round.positionsNeeded r slot with
      | .error e => round.fail r.id e
      | .ok needed => match Action.exec (Cache.reserve slot needed) round.scheduler.cache with
        | (.ok (), cache) => { round with scheduler := { round.scheduler with cache := cache } }
        | (.error e, _) => match round.victim? slot with
          | none => round.fail r.id e
          | some victim => (round.giveWay victim r.id).growOne r.id := by
  conv_lhs => rw [growOne, h.ids.find? hr hrun]
  simp only [hslot]
  cases hneed : round.positionsNeeded r slot with
  | error e => rfl
  | ok needed =>
    simp only
    rcases hres : Action.exec (Cache.reserve slot needed) round.scheduler.cache with ⟨e | _, cache⟩
    · simp only
      cases hv : round.victim? slot with
      | none => rfl
      | some victim =>
        obtain ⟨v, hvm, rfl, hvrun, -, hpolicy⟩ := victim?_some h hv
        obtain ⟨slot', st, hs, hst, -⟩ := h.slot_of_running hr hrun
        cases hs.symm.trans hslot
        have hbudget := Cache.budget_of_reserve_error hst hres
        have hlen := (giveWay_move 0 h hvm hvrun hpolicy hbudget r.id).2.length h hvm hvrun
        simp only
        rw [dif_pos (by omega)]
    · rfl

/-- How the loop for a request goes, turn by turn. Only a turn that makes another request give way is
followed by one more. -/
inductive Grows : Round → RequestId → Prop
  /-- It does not run: it gave way itself before. -/
  | absent {round : Round} {id : RequestId} (hid : id ∉ round.scheduler.running)
      (hgrown : round.growOne id = round) : Grows round id
  /-- Its slot can never hold what it needs. -/
  | overgrown {round : Round} {r : Request} {slot : SlotId} {e : Error}
      (hr : r ∈ round.scheduler.requests) (hrun : r.state.isRunning = true)
      (hslot : r.slot = some slot) (hneed : round.positionsNeeded r slot = .error e)
      (hgrown : round.growOne r.id = round.fail r.id e) : Grows round r.id
  /-- The budget covers what it needs. -/
  | met {round : Round} {r : Request} {slot : SlotId} {needed : Nat} {cache : Cache}
      (hr : r ∈ round.scheduler.requests) (hrun : r.state.isRunning = true)
      (hslot : r.slot = some slot) (hneed : round.positionsNeeded r slot = .ok needed)
      (hres : Action.exec (Cache.reserve slot needed) round.scheduler.cache = (.ok (), cache))
      (hgrown : round.growOne r.id =
        { round with scheduler := { round.scheduler with cache := cache } }) : Grows round r.id
  /-- The budget does not cover it, and nobody can give way. -/
  | starved {round : Round} {r : Request} {slot : SlotId} {needed : Nat} {e : Error}
      {unchanged : Cache} (hr : r ∈ round.scheduler.requests) (hrun : r.state.isRunning = true)
      (hslot : r.slot = some slot) (hneed : round.positionsNeeded r slot = .ok needed)
      (hres : Action.exec (Cache.reserve slot needed) round.scheduler.cache = (.error e, unchanged))
      (hv : round.victim? slot = none) (hgrown : round.growOne r.id = round.fail r.id e) :
      Grows round r.id
  /-- The budget does not cover it, and another request gives way. -/
  | yielded {round : Round} {r v : Request} {slot : SlotId} {needed : Nat} {e : Error}
      {unchanged : Cache} (hr : r ∈ round.scheduler.requests) (hrun : r.state.isRunning = true)
      (hslot : r.slot = some slot) (hneed : round.positionsNeeded r slot = .ok needed)
      (hres : Action.exec (Cache.reserve slot needed) round.scheduler.cache = (.error e, unchanged))
      (hv : round.victim? slot = some v.id) (hvm : v ∈ round.scheduler.requests)
      (hvrun : v.state.isRunning = true) (hne : r.id ≠ v.id)
      (hway : ∀ now, Move now round (round.giveWay v.id r.id))
      (hleaves : Leaves round v (round.giveWay v.id r.id))
      (hgrown : round.growOne r.id = (round.giveWay v.id r.id).growOne r.id)
      (rest : Grows (round.giveWay v.id r.id) r.id) : Grows round r.id

/-- The loop ends after one turn more than there are others that run. -/
theorem grows {round : Round} (h : round.scheduler.Owned) (id : RequestId) : Grows round id := by
  induction hn : round.scheduler.running.length using Nat.strong_induction_on generalizing round with
  | _ n ih =>
  subst hn
  by_cases hid : id ∈ round.scheduler.running
  · obtain ⟨r, hr, rfl, hrun⟩ := (h.running_iff id).mp hid
    obtain ⟨slot, st, hslot, hst, -⟩ := h.slot_of_running hr hrun
    have hgrown := growOne_of_running h hr hrun hslot
    cases hneed : round.positionsNeeded r slot with
    | error e => exact .overgrown hr hrun hslot hneed (by rw [hgrown, hneed])
    | ok needed =>
      rw [hneed] at hgrown
      rcases hres : Action.exec (Cache.reserve slot needed) round.scheduler.cache with ⟨e | _, cache⟩
      · cases hv : round.victim? slot with
        | none => exact .starved hr hrun hslot hneed hres hv (by simp only [hgrown, hres, hv])
        | some victim =>
          obtain ⟨v, hvm, rfl, hvrun, hvslot, hpolicy⟩ := victim?_some h hv
          have hway := fun now => giveWay_move now h hvm hvrun hpolicy
            (Cache.budget_of_reserve_error hst hres) r.id
          have hleaves := (hway 0).2
          have hne : r.id ≠ v.id := fun he => hvslot (by rw [← h.ids.eq hr hvm he, hslot])
          have hless := hleaves.length h hvm hvrun
          exact .yielded hr hrun hslot hneed hres hv hvm hvrun hne (fun now => (hway now).1) hleaves
            (by simp only [hgrown, hres, hv]) (ih _ (by omega) ((hway 0).1.owned h) rfl)
      · exact .met hr hrun hslot hneed hres (by simp only [hgrown, hres])
  · exact .absent hid (growOne_of_not_running h hid)

/-- What the loop for one request leaves. -/
structure Grown (now : Nat) (id : RequestId) (round result : Round) : Prop where
  moves : Moves now round result
  stays : ∀ x ∈ result.scheduler.requests, x.state.isRunning = true → x ∈ round.scheduler.requests
  ready : ∀ x ∈ result.scheduler.requests, x.state.isRunning = true → x.id = id →
    result.scheduler.cache.ReadyFor x
  others : ∀ x ∈ result.scheduler.requests, x.state.isRunning = true → x.id ≠ id →
    round.scheduler.cache.ReadyFor x → result.scheduler.cache.ReadyFor x
  survives : id ∈ round.scheduler.running → result.retired ≠ [] ∨ id ∈ result.scheduler.running

theorem grown_of_retire {now : Nat} {round : Round} (h : round.scheduler.Owned)
    {r ended : Request} (hr : r ∈ round.scheduler.requests) (hlive : r.state.isTerminal = false)
    (hcause : round.Cause now r ended) : Grown now r.id round (round.retire ended) := by
  have hl := leaves_retire round (hcause.endsAs hlive)
  exact {
    moves := .single (.retire hr hlive hcause)
    stays := fun x hx hrun => (hl.others x hx hrun).1
    ready := fun x hx hrun hid => absurd hid (hl.others x hx hrun).2
    others := fun x hx hrun _ hready => hl.readyFor h hr hx hrun hready
    survives := fun _ => .inl (by simp [retire]) }

theorem grown_of_reserve {now : Nat} {round : Round} (h : round.scheduler.Owned) {r : Request}
    (hr : r ∈ round.scheduler.requests) (hrun : r.state.isRunning = true) {slot : SlotId}
    (hslot : r.slot = some slot) {needed : Nat} (hneed : round.positionsNeeded r slot = .ok needed)
    {cache : Cache}
    (hres : Action.exec (Cache.reserve slot needed) round.scheduler.cache = (.ok (), cache)) :
    Grown now r.id round { round with scheduler := { round.scheduler with cache := cache } } := by
  obtain ⟨slot', st, hs, hst, -⟩ := h.slot_of_running hr hrun
  cases hs.symm.trans hslot
  obtain ⟨rfl, hrej⟩ := positionsNeeded_ok hst hneed
  obtain ⟨m, hm, -, hcov⟩ := h.sound.covers_of_reserve hst hres
  have hlim := Cache.reserve_limits round.scheduler.cache slot (st.len + r.pendingLen)
  rw [hres] at hlim
  exact {
    moves := .single (.reserve hr hrun hslot hneed hres)
    stays := fun x hx _ => hx
    ready := fun x hx _ hid => by
      obtain rfl := h.ids.eq hx hr hid
      exact ⟨slot, _, hslot, hm, hcov, fun hp => hrej (hlim.overflowPolicy ▸ hp)⟩
    others := fun x hx _ hne hready => hready.of_same hlim.overflowPolicy fun other ho => by
      have hother : other ≠ slot := fun he => hne (by rw [h.slot_inj hx hr (he ▸ ho) hslot])
      exact Cache.slot?_reserve_ne hst hres hother
    survives := fun hm => .inr hm }

/-- The loop ends with the request ready, or with its end. -/
theorem grown_growOne (now : Nat) {round : Round} (h : round.scheduler.Owned) (id : RequestId) :
    Grown now id round (round.growOne id) := by
  induction grows h id with
  | @absent round id hid hgrown =>
    rw [hgrown]
    exact {
      moves := .refl
      stays := fun x hx _ => hx
      ready := fun x hx hrun he => absurd (he ▸ (h.mem_running hx).mpr hrun) hid
      others := fun x _ _ _ hready => hready
      survives := fun hmem => absurd hmem hid }
  | @overgrown _ r _ e hr hrun hslot hneed hgrown =>
    have hlive := RequestState.isTerminal_of_isRunning hrun
    obtain ⟨ended, hend, -, hretire⟩ := fail_eq_retire h.ids hr hlive e
    rw [hgrown, hretire]
    exact grown_of_retire h hr hlive (.overgrown hrun hslot hneed hend)
  | met hr hrun hslot hneed hres hgrown =>
    rw [hgrown]
    exact grown_of_reserve h hr hrun hslot hneed hres
  | @starved _ r _ _ e _ hr hrun hslot hneed hres hv hgrown =>
    have hlive := RequestState.isTerminal_of_isRunning hrun
    obtain ⟨ended, hend, -, hretire⟩ := fail_eq_retire h.ids hr hlive e
    rw [hgrown, hretire]
    exact grown_of_retire h hr hlive (.starved hrun hslot hneed hres hv hend)
  | yielded hr hrun _ _ _ _ hvm hvrun hne hway hl hgrown _ ih =>
    have hg := ih ((hway now).owned h)
    rw [hgrown]
    exact {
      moves := .head (hway now) hg.moves
      stays := fun x hx hxrun => (hl.others x (hg.stays x hx hxrun) hxrun).1
      ready := hg.ready
      others := fun x hx hxrun hxne hready => hg.others x hx hxrun hxne
        (hl.readyFor h hvm (hg.stays x hx hxrun) hxrun hready)
      survives := fun hmem => hg.survives (by rw [hl.running]; simpa using ⟨hmem, hne⟩) }

/-! ## The phase -/

/-- Those that still run after the loops for some requests are ready, if their own loop was among
them or they were ready before. -/
theorem grow_fold (now : Nat) (ids : List RequestId) {round : Round} (h : round.scheduler.Owned) :
    Moves now round (ids.foldl growOne round) ∧
      ∀ x ∈ (ids.foldl growOne round).scheduler.requests, x.state.isRunning = true →
        x ∈ round.scheduler.requests ∧ (x.id ∈ ids ∨ round.scheduler.cache.ReadyFor x →
          (ids.foldl growOne round).scheduler.cache.ReadyFor x) := by
  induction ids generalizing round with
  | nil => exact ⟨.refl, fun x hx _ => ⟨hx, fun hor => hor.resolve_left List.not_mem_nil⟩⟩
  | cons id rest ih =>
    have hg := grown_growOne now h id
    obtain ⟨hmoves, hpost⟩ := ih (hg.moves.owned h)
    rw [List.foldl_cons]
    refine ⟨hg.moves.trans hmoves, fun x hx hrun => ?_⟩
    obtain ⟨hx₁, himp⟩ := hpost x hx hrun
    refine ⟨hg.stays x hx₁ hrun, fun hor => himp ?_⟩
    by_cases hid : x.id = id
    · exact .inr (hg.ready x hx₁ hrun hid)
    · rcases hor with hmem | hready
      · exact .inl ((List.mem_cons.mp hmem).resolve_left hid)
      · exact .inr (hg.others x hx₁ hrun hid hready)

theorem moves_grow {round : Round} (h : round.scheduler.Owned) (now : Nat) :
    Moves now round round.grow := (grow_fold now _ h).1

/-- After the third phase every running request is ready. -/
theorem ready_of_grow {round : Round} (h : round.scheduler.Owned) {r : Request}
    (hr : r ∈ round.grow.scheduler.requests) (hrun : r.state.isRunning = true) :
    round.grow.scheduler.cache.ReadyFor r := by
  obtain ⟨hm, himp⟩ := (grow_fold 0 _ h).2 r hr hrun
  exact himp (.inl ((h.mem_running hm).mpr hrun))

/-- Requests that grow do not all give way: one is left, or one ended. -/
theorem Busy.grow {round : Round} (hb : round.Busy) (h : round.scheduler.Owned) :
    round.grow.Busy := by
  have key : ∀ (ids : List RequestId) (round : Round), round.scheduler.Owned → round.Busy →
      (ids.foldl growOne round).Busy := by
    intro ids
    induction ids with
    | nil => exact fun _ _ hb => hb
    | cons id rest ih =>
      intro round h hb
      have hg := grown_growOne 0 h id
      refine ih _ (hg.moves.owned h) ?_
      by_cases hid : id ∈ round.scheduler.running
      · exact (hg.survives hid).imp_right List.ne_nil_of_mem
      · rw [growOne_of_not_running h hid]
        exact hb
  exact key _ _ h hb

end Round

end CausalServe
