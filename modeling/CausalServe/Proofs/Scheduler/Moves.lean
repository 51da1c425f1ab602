import CausalServe.Proofs.Scheduler.Operations

/-! A tick is a sequence of moves, and every move is about one request: its prompt is cut, it ends,
it gets a slot, its slot grows, or it is sent back to the queue. What is to survive a tick has to
survive these five. -/

namespace CausalServe

namespace Round

def retire (round : Round) (ended : Request) : Round :=
  { round with
    scheduler := round.scheduler.retire ended
    retired := round.retired ++ [ended.id] }

def seat (round : Round) (r : Request) (cache : Cache) (rest : List QueueEntry) : Round :=
  { round with
    scheduler := { round.scheduler.update r with
      cache := cache, waiting := rest, running := round.scheduler.running ++ [r.id] } }

def unseat (round : Round) (r : Request) : Round :=
  { round with
    scheduler := ((round.scheduler.update r.requeued).release r.id r.slot).enqueue r.requeued
    preempted := round.preempted ++ [r.id] }

inductive Cause (now : Nat) (round : Round) : Request → Request → Prop
  /-- It is cancelled, out of time or out of steps. -/
  | due {r ended : Request} {event : RequestEvent} (hdue : r.expiry? now = some event)
      (hend : r.apply event = .ok ended) : Cause now round r ended
  | tooLong {r ended : Request} {e : Error} (hq : r.state = .queued)
      (hfit : round.scheduler.fitPrompt r = .error e) (hend : r.fail e = .ok ended) :
      Cause now round r ended
  /-- It would not even fit an empty cache. -/
  | tooLarge {r ended : Request} {e : Error} (hq : r.state = .queued)
      (hfit : round.scheduler.fitPrompt r = .ok r)
      (hroom : round.scheduler.cacheConfig.maxContext = 0 ∨
        round.scheduler.cache.canFit (round.scheduler.positionsFor r) = false ∧
          round.scheduler.cache.activeSlots = 0)
      (hend : r.fail e = .ok ended) : Cause now round r ended
  /-- It has come to need more than its slot can ever hold. -/
  | overgrown {r ended : Request} {slot : SlotId} {e : Error} (hrun : r.state.isRunning = true)
      (hslot : r.slot = some slot) (hneed : round.positionsNeeded r slot = .error e)
      (hend : r.fail e = .ok ended) : Cause now round r ended
  /-- The budget is used up, and no other request can give way. -/
  | starved {r ended : Request} {slot : SlotId} {needed : Nat} {e : Error} {cache : Cache}
      (hrun : r.state.isRunning = true) (hslot : r.slot = some slot)
      (hneed : round.positionsNeeded r slot = .ok needed)
      (hres : Action.exec (Cache.reserve slot needed) round.scheduler.cache = (.error e, cache))
      (hvictim : round.victim? slot = none) (hend : r.fail e = .ok ended) :
      Cause now round r ended
  /-- It gives way to another request. -/
  | evicted {r ended : Request} {e : Error} (hrun : r.state.isRunning = true)
      (hpolicy : round.scheduler.cacheConfig.pressurePolicy = .evictLeastRecent)
      (hbudget : round.scheduler.cache.budget ≠ none) (hend : r.fail e = .ok ended) :
      Cause now round r ended

inductive Move (now : Nat) : Round → Round → Prop
  | fit {round : Round} {r cut : Request} (hr : r ∈ round.scheduler.requests)
      (hq : r.state = .queued) (hfit : round.scheduler.fitPrompt r = .ok cut) :
      Move now round { round with scheduler := round.scheduler.update cut }
  | retire {round : Round} {r ended : Request} (hr : r ∈ round.scheduler.requests)
      (hlive : r.state.isTerminal = false) (hcause : round.Cause now r ended) :
      Move now round (round.retire ended)
  | enter {round : Round} {r : Request} {entry : QueueEntry} {rest : List QueueEntry}
      {cache : Cache} (hr : r ∈ round.scheduler.requests) (hq : r.state = .queued)
      (hwait : round.scheduler.waiting = entry :: rest) (hentry : entry.request = r.id)
      (hlt : round.scheduler.running.length < round.scheduler.config.maxSeqs)
      (hfit : round.scheduler.fitPrompt r = .ok r)
      (hpos : 0 < round.scheduler.cacheConfig.maxContext)
      (hres : Action.exec
        (Cache.reserve round.scheduler.cache.nextId (round.scheduler.positionsFor r))
        (round.scheduler.cache.opened r.id round.scheduler.cacheConfig.maxContext) =
          (.ok (), cache)) :
      Move now round (round.seat (r.startIn round.scheduler.cache.nextId) cache rest)
  | reserve {round : Round} {r : Request} {slot : SlotId} {needed : Nat} {cache : Cache}
      (hr : r ∈ round.scheduler.requests) (hrun : r.state.isRunning = true)
      (hslot : r.slot = some slot) (hneed : round.positionsNeeded r slot = .ok needed)
      (hres : Action.exec (Cache.reserve slot needed) round.scheduler.cache = (.ok (), cache)) :
      Move now round { round with scheduler := { round.scheduler with cache := cache } }
  | preempt {round : Round} {r : Request} (hr : r ∈ round.scheduler.requests)
      (hrun : r.state.isRunning = true)
      (hpolicy : round.scheduler.cacheConfig.pressurePolicy = .preemptLeastRecent) :
      Move now round (round.unseat r)

def Moves (now : Nat) : Round → Round → Prop := Relation.ReflTransGen (Move now)

/-- What every move keeps, a tick keeps. -/
theorem Moves.keep {now : Nat} {P : Round → Prop} {a b : Round} (h : Moves now a b) (ha : P a)
    (hstep : ∀ x y, Move now x y → P x → P y) : P b := by
  induction h with
  | refl => exact ha
  | tail _ hm ih => exact hstep _ _ hm ih

end Round

/-! ## What a move does to its request -/

namespace Scheduler

/-- A prompt that fits is the request's own, or its end. -/
theorem fitPrompt_ok {s : Scheduler} {r cut : Request} (h : s.fitPrompt r = .ok cut) :
    (cut = r ∧ r.prompt.length ≤ s.cacheConfig.maxContext) ∨
      (s.cacheConfig.maxContext < r.prompt.length ∧ s.config.truncateLongPrompts = true ∧
        cut = r.truncatePrompt s.cacheConfig.maxContext) := by
  simp only [fitPrompt] at h
  split at h
  next hle => exact .inl ⟨(Except.ok.inj h).symm, hle⟩
  next hle =>
    split at h
    next ht => exact .inr ⟨Nat.lt_of_not_le hle, ht, (Except.ok.inj h).symm⟩
    next => cases h

theorem fitPrompt_kept {s : Scheduler} {r cut : Request} (h : s.fitPrompt r = .ok cut) :
    cut = { r with prompt := cut.prompt, truncated := cut.truncated } := by
  rcases fitPrompt_ok h with ⟨rfl, -⟩ | ⟨-, -, rfl⟩ <;> rfl

theorem fitPrompt_length {s : Scheduler} {r cut : Request} (h : s.fitPrompt r = .ok cut) :
    cut.prompt.length ≤ s.cacheConfig.maxContext := by
  rcases fitPrompt_ok h with ⟨rfl, hle⟩ | ⟨hlt, -, rfl⟩
  · exact hle
  · simp only [Request.truncatePrompt, List.length_drop]
    omega

theorem fitPrompt_of_le {s : Scheduler} {r : Request}
    (h : r.prompt.length ≤ s.cacheConfig.maxContext) : s.fitPrompt r = .ok r := by
  simp [fitPrompt, h]

theorem fitPrompt_error {s : Scheduler} {r : Request} {e : Error} (h : s.fitPrompt r = .error e) :
    s.cacheConfig.maxContext < r.prompt.length ∧ s.config.truncateLongPrompts = false ∧
      e = .promptTooLong r.prompt.length s.cacheConfig.maxContext := by
  simp only [fitPrompt] at h
  split at h
  · cases h
  next hle =>
    split at h
    · cases h
    next ht => exact ⟨Nat.lt_of_not_le hle, by simpa using ht, (Except.error.inj h).symm⟩

/-- A prompt that fits is no longer than it was, and not empty unless it was. -/
theorem fitPrompt_shape {s : Scheduler} {r cut : Request} (hfit : s.fitPrompt r = .ok cut)
    (hpos : 0 < s.cacheConfig.maxContext) : ∃ prompt truncated,
      cut = { r with prompt := prompt, truncated := truncated } ∧
        prompt.length ≤ r.prompt.length ∧ (0 < r.prompt.length → 0 < prompt.length) := by
  rcases fitPrompt_ok hfit with ⟨rfl, -⟩ | ⟨hlt, -, rfl⟩
  · exact ⟨_, _, rfl, Nat.le_refl _, id⟩
  · refine ⟨_, _, rfl, ?_, fun _ => ?_⟩ <;> rw [List.length_drop] <;> omega

/-- No more positions are reserved at admission than the request can come to need. -/
theorem positionsFor_le {s : Scheduler} {r : Request} (h : r.totalLen ≤ r.maxTotalLen) :
    s.positionsFor r ≤ min r.maxTotalLen s.cacheConfig.maxContext := by
  unfold Scheduler.positionsFor Request.pendingLen
  cases s.cacheConfig.pressurePolicy <;> simp only <;> omega

end Scheduler

namespace Round

/-- A request that a tick ends keeps what it has generated. -/
theorem Cause.endsAs {now : Nat} {round : Round} {r ended : Request}
    (h : round.Cause now r ended) (hlive : r.state.isTerminal = false) : r.EndsAs ended := by
  cases h with
  | due hdue hend =>
    obtain ⟨x, hx, hends⟩ := Request.apply_expiry hdue hlive
    cases hend.symm.trans hx
    exact hends
  | tooLong _ _ hend | tooLarge _ _ _ hend | overgrown _ _ _ hend | starved _ _ _ _ _ hend
  | evicted _ _ _ hend => exact Request.fail_endsAs hend

/-! ## The books -/

theorem Move.owned {now : Nat} {a b : Round} (hm : Move now a b) (h : a.scheduler.Owned) :
    b.scheduler.Owned := by
  cases hm with
  | fit hr hq hfit =>
    have hk := Scheduler.fitPrompt_kept hfit
    exact h.update hr (by rw [hk]) (by rw [hk]) (by rw [hk]) (by rw [hk])
  | retire hr hlive hcause =>
    have he := hcause.endsAs hlive
    exact h.retire hr he.id he.slot he.terminal
  | @enter r entry rest cache hr hq hwait hentry hlt hfit hpos hres =>
    have hopen := h.sound.opened r.id hpos
    have hslot := h.sound.slot?_opened r.id a.scheduler.cacheConfig.maxContext
      a.scheduler.cache.nextId
    rw [if_pos rfl] at hslot
    refine h.enter hr hwait hentry hlt (hopen.reserve_ok hslot hres) fun slot => ?_
    have hkept := Cache.holder_reserve
      (a.scheduler.cache.opened r.id a.scheduler.cacheConfig.maxContext)
      a.scheduler.cache.nextId (a.scheduler.positionsFor r) slot
    rw [hres] at hkept
    rw [hkept, h.sound.holder_opened]
  | @reserve r slot needed cache hr hrun hslot hneed hres =>
    obtain ⟨slot', st, hs, hst, -⟩ := h.slot_of_running hr hrun
    cases hs.symm.trans hslot
    refine h.withCache (h.sound.reserve_ok hst hres) fun other => ?_
    have hkept := Cache.holder_reserve a.scheduler.cache slot needed other
    rwa [hres] at hkept
  | preempt hr hrun hpolicy => exact h.preempt hr rfl rfl rfl

theorem Moves.owned {now : Nat} {a b : Round} (hm : Moves now a b) (h : a.scheduler.Owned) :
    b.scheduler.Owned := hm.keep h fun _ _ => Move.owned

/-! ## The settings -/

theorem Move.settings {now : Nat} {a b : Round} (hm : Move now a b) :
    Scheduler.SameSettings a.scheduler b.scheduler := by
  cases hm with
  | fit => exact ⟨rfl, rfl, .refl _⟩
  | retire => exact (Scheduler.retire_calls _ _).settings
  | @enter r entry rest cache hr hq hwait hentry hlt hfit hpos hres =>
    refine ⟨rfl, rfl, ?_⟩
    have hlim : Cache.SameLimits a.scheduler.cache
      (a.scheduler.cache.opened r.id a.scheduler.cacheConfig.maxContext) := ⟨rfl, rfl, rfl, rfl⟩
    have := Cache.reserve_limits
      (a.scheduler.cache.opened r.id a.scheduler.cacheConfig.maxContext)
      a.scheduler.cache.nextId (a.scheduler.positionsFor r)
    rw [hres] at this
    exact hlim.trans this
  | @reserve r slot needed cache hr hrun hslot hneed hres =>
    refine ⟨rfl, rfl, ?_⟩
    have := Cache.reserve_limits a.scheduler.cache slot needed
    rwa [hres] at this
  | @preempt r hr hrun hpolicy =>
    rw [unseat, Scheduler.release_eq]
    exact ⟨rfl, rfl, Scheduler.freed_limits a.scheduler.cache r.slot⟩

theorem Moves.settings {now : Nat} {a b : Round} (hm : Moves now a b) :
    Scheduler.SameSettings a.scheduler b.scheduler :=
  hm.keep (P := fun x => Scheduler.SameSettings a.scheduler x.scheduler) (.refl _)
    fun _ _ h hs => hs.trans h.settings

/-! ## The slots -/

theorem slot?_freed_some {c : Cache} {slot : Option SlotId} {other : SlotId} {st : Slot}
    (h : (Scheduler.freed c slot).slot? other = some st) :
    slot ≠ some other ∧ c.slot? other = some st := by
  cases slot with
  | none => exact ⟨nofun, h⟩
  | some slot =>
    rw [Scheduler.freed, Cache.exec_evict] at h
    rcases hs : c.slot? slot with _ | s <;> rw [hs] at h
    · exact ⟨fun he => by cases he; exact Option.some_ne_none st (h.symm.trans hs), h⟩
    · change (c.closed slot s).slot? other = some st at h
      rw [Cache.slot?_closed hs] at h
      split at h
      · cases h
      next hne => exact ⟨fun he => hne (Option.some.inj he).symm, h⟩

/-- After a move a live slot is as it was, but for what is charged to it, or it is new. -/
theorem Move.slots {now : Nat} {a b : Round} (hm : Move now a b) (h : a.scheduler.Owned)
    {slot : SlotId} {st : Slot} (hst : b.scheduler.cache.slot? slot = some st) :
    ∃ old charge, st = { old with allocated := charge } ∧
      (a.scheduler.cache.slot? slot = some old ∨ slot = a.scheduler.cache.nextId ∧ ∃ owner,
        old = a.scheduler.cache.freshSlot owner a.scheduler.cacheConfig.maxContext) := by
  cases hm with
  | fit => exact ⟨st, st.allocated, rfl, .inl hst⟩
  | @retire r ended =>
    rw [Round.retire, Scheduler.retire, Scheduler.release_eq] at hst
    exact ⟨st, st.allocated, rfl, .inl (slot?_freed_some hst).2⟩
  | @enter r entry rest cache hr hq hwait hentry hlt hfit hpos hres =>
    have hopen := h.sound.slot?_opened r.id a.scheduler.cacheConfig.maxContext
    obtain ⟨old, charge, hold, rfl⟩ :=
      Cache.slot?_reserve_some (by rw [hopen, if_pos rfl]) hres hst
    rw [hopen] at hold
    split at hold
    next he => exact ⟨old, charge, rfl, .inr ⟨he, r.id, (Option.some.inj hold).symm⟩⟩
    next => exact ⟨old, charge, rfl, .inl hold⟩
  | @reserve r slot' needed cache hr hrun hslot hneed hres =>
    obtain ⟨_, st', hs, hst', -⟩ := h.slot_of_running hr hrun
    cases hs.symm.trans hslot
    obtain ⟨old, charge, hold, rfl⟩ := Cache.slot?_reserve_some hst' hres hst
    exact ⟨old, charge, rfl, .inl hold⟩
  | @preempt r hr hrun hpolicy =>
    rw [unseat, Scheduler.release_eq] at hst
    exact ⟨st, st.allocated, rfl, .inl (slot?_freed_some hst).2⟩

/-! ## The first phase -/

inductive Due (now : Nat) : Round → Round → Prop
  | retire {round : Round} {r ended : Request} {event : RequestEvent}
      (hr : r ∈ round.scheduler.requests) (hlive : r.state.isTerminal = false)
      (hdue : r.expiry? now = some event) (hend : r.apply event = .ok ended) :
      Due now round (round.retire ended)

theorem Due.move {now : Nat} {a b : Round} (h : Due now a b) : Move now a b := by
  cases h with
  | retire hr hlive hdue hend => exact .retire hr hlive (.due hdue hend)

def Dues (now : Nat) : Round → Round → Prop := Relation.ReflTransGen (Due now)

theorem Dues.moves {now : Nat} {a b : Round} (h : Dues now a b) : Moves now a b :=
  Relation.ReflTransGen.mono (fun _ _ => Due.move) _ _ h

theorem expireOne_cases {round : Round} {r : Request} (h : round.scheduler.DistinctIds)
    (hr : r ∈ round.scheduler.requests) (hlive : r.state.isTerminal = false) (now : Nat) :
    (r.expiry? now = none ∧ expireOne now round r = round) ∨
      ∃ ended, r.EndsAs ended ∧ expireOne now round r = round.retire ended ∧
        Due now round (round.retire ended) := by
  unfold expireOne
  cases hdue : r.expiry? now with
  | none => exact .inl ⟨rfl, rfl⟩
  | some event =>
    obtain ⟨ended, hend, hends⟩ := Request.apply_expiry hdue hlive
    refine .inr ⟨ended, hends, ?_, .retire hr hlive hdue hend⟩
    simp [terminate, h.request? hr, hend, retire, hends.id]

/-- The first phase ends requests that are due. Those that it leaves live it has left alone, and
those of them that it came to are not due. -/
theorem expire_fold (now : Nat) (l : List Request) {round : Round}
    (h : round.scheduler.DistinctIds)
    (hl : ∀ r ∈ l, r ∈ round.scheduler.requests ∧ r.state.isTerminal = false)
    (hnd : (l.map Request.id).Nodup) :
    Dues now round (l.foldl (expireOne now) round) ∧
      ∀ x ∈ (l.foldl (expireOne now) round).scheduler.requests, x.state.isTerminal = false →
        x ∈ round.scheduler.requests ∧ (x ∈ l → x.expiry? now = none) := by
  induction l generalizing round with
  | nil => exact ⟨.refl, fun x hx _ => ⟨hx, nofun⟩⟩
  | cons r rest ih =>
    obtain ⟨hr, hlive⟩ := hl r (by simp)
    rw [List.map_cons, List.nodup_cons] at hnd
    rw [List.foldl_cons]
    rcases expireOne_cases h hr hlive now with ⟨hnone, he⟩ | ⟨ended, hends, he, hm⟩ <;> rw [he]
    · obtain ⟨hdues, hpost⟩ := ih h (fun y hy => hl y (List.mem_cons_of_mem _ hy)) hnd.2
      refine ⟨hdues, fun x hx hlx => ⟨(hpost x hx hlx).1, fun hmem => ?_⟩⟩
      rcases List.mem_cons.mp hmem with rfl | hmem
      · exact hnone
      · exact (hpost x hx hlx).2 hmem
    · -- the others are still stored as they were
      have hrest : ∀ y ∈ rest, y ∈ (round.retire ended).scheduler.requests ∧
          y.state.isTerminal = false := fun y hy => by
        obtain ⟨hy', hly⟩ := hl y (List.mem_cons_of_mem _ hy)
        refine ⟨Scheduler.mem_update.mpr (.inr ⟨hy', fun hid => hnd.1 ?_⟩), hly⟩
        exact List.mem_map.mpr ⟨y, hy, hid.trans hends.id⟩
      obtain ⟨hdues, hpost⟩ := ih (h.retire ended) hrest hnd.2
      refine ⟨.head hm hdues, fun x hx hlx => ?_⟩
      obtain ⟨hx', himp⟩ := hpost x hx hlx
      rcases Scheduler.mem_update.mp hx' with ⟨rfl, -⟩ | ⟨hx₀, hne⟩
      · have := hends.terminal
        simp only at hlx
        rw [this] at hlx
        cases hlx
      · refine ⟨hx₀, fun hmem => ?_⟩
        rcases List.mem_cons.mp hmem with rfl | hmem
        · exact absurd hends.id.symm hne
        · exact himp hmem

theorem dues_expire {round : Round} (h : round.scheduler.DistinctIds) (now : Nat) :
    Dues now round (round.expire now) := by
  refine (expire_fold now _ h (fun r hr => ?_) (h.sublist (List.filter_sublist.map _))).1
  simpa using hr

/-- After the first phase no live request is due. -/
theorem not_due_of_expire {round : Round} (h : round.scheduler.DistinctIds) {now : Nat} {r : Request}
    (hr : r ∈ (round.expire now).scheduler.requests) (hlive : r.state.isTerminal = false) :
    r.expiry? now = none := by
  obtain ⟨hm, himp⟩ := (expire_fold now _ h (fun r hr => by simpa using hr)
    (h.sublist (List.filter_sublist.map _))).2 r hr hlive
  exact himp (by simp [hm, hlive])

/-- Nobody is sent back in the first phase. -/
theorem preempted_expire (round : Round) (now : Nat) :
    (round.expire now).preempted = round.preempted := by
  have hone : ∀ (round : Round) (r : Request),
      (expireOne now round r).preempted = round.preempted := by
    intro round r
    unfold expireOne terminate
    split
    · split
      · rfl
      · split <;> rfl
    · rfl
  have hall : ∀ (rs : List Request) (round : Round),
      (rs.foldl (expireOne now) round).preempted = round.preempted := by
    intro rs
    induction rs with
    | nil => exact fun _ => rfl
    | cons r rs ih => exact fun round => (ih _).trans (hone round r)
  exact hall _ round

end Round

end CausalServe
