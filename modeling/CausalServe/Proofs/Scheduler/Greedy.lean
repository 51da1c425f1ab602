import CausalServe.Proofs.Scheduler.Operated

/-! The admission phase against a walk along the line. The walk knows no queue: it is given the
queued requests in the order in which their turns come, decides about one after another, and stops
for good at the first one that must wait. -/

namespace CausalServe

namespace Round

/-! ## The walk -/

/-- The walk is over; these requests still wait. -/
def leaving (round : Round) (left : List Request) : Round :=
  round.withQueue (left.map round.scheduler.entry)

def turnAway (round : Round) (r : Request) (e : Error) : Round :=
  { round with
    scheduler := round.scheduler.update (r.failedBy e)
    retired := round.retired ++ [r.id] }

/-- A request at the front of the line gets a slot with a number of positions, and runs behind the
others. -/
def letIn (round : Round) (r : Request) (positions : Nat) : Round :=
  let s := round.scheduler
  let cache := s.cache.opened r.id s.cacheConfig.maxContext
  { round with
    scheduler := { s.update (r.startIn s.cache.nextId) with
      cache := (Action.exec (Cache.reserve s.cache.nextId positions) cache).2
      running := s.running ++ [r.id] } }

/-- Walks along the line, after some of its requests were admitted. -/
def greedy (round : Round) (admitted : List Request) : List Request → Round
  | [] => round.leaving []
  | r :: rest =>
    let s := round.scheduler
    let context := s.cacheConfig.maxContext
    if s.config.maxSeqs ≤ s.running.length then round.leaving (r :: rest)
    else if context < r.prompt.length ∧ s.config.truncateLongPrompts = false then
      greedy (round.turnAway r (.promptTooLong r.prompt.length context)) admitted rest
    else
      let cut := r.truncatePrompt context
      let positions := s.positionsFor cut
      if admitted ≠ [] ∧
          s.config.maxPrefillTokens < total Request.pendingLen admitted + cut.pendingLen then
        Round.leaving { round with scheduler := s.update cut } (r :: rest)
      else if s.cache.canFit positions then
        -- a context without positions has no room for any request
        if context = 0 then
          greedy (round.turnAway cut (.invalidRequest .zeroCapacity)) admitted rest
        else greedy (round.letIn cut positions) (admitted ++ [cut]) rest
      else if s.cache.activeSlots = 0 then
        greedy (round.turnAway cut (.cacheOverflow
          (.beyondBudget r.id (s.cache.bytesFor positions) s.cache.budget))) admitted rest
      else Round.leaving { round with scheduler := s.update cut } (r :: rest)

end Round

/-! ## A turn -/

theorem Request.truncatePrompt_of_le {r : Request} {n : Nat} (h : r.prompt.length ≤ n) :
    r.truncatePrompt n = r := by
  simp [Request.truncatePrompt, Nat.sub_eq_zero_of_le h]

/-- The prompt tokens of the requests admitted so far, as the phase keeps count of them. -/
def spent : List Request → Option Nat
  | [] => none
  | admitted => some (total Request.pendingLen admitted)

theorem spent_any (admitted : List Request) (limit n : Nat) :
    ((spent admitted).any fun tokens => limit < tokens + n) = true ↔
      admitted ≠ [] ∧ limit < total Request.pendingLen admitted + n := by
  cases admitted <;> simp [spent]

theorem spent_append (admitted : List Request) (r : Request) :
    spent (admitted ++ [r]) = some ((spent admitted).getD 0 + r.pendingLen) := by
  have hsum : total Request.pendingLen (admitted ++ [r]) =
      (spent admitted).getD 0 + r.pendingLen := by
    rw [total_append]
    cases admitted <;> rfl
  rw [← hsum]
  cases admitted <;> rfl

namespace Scheduler

theorem fitPrompt_eq (s : Scheduler) (r : Request) : s.fitPrompt r =
    if s.cacheConfig.maxContext < r.prompt.length ∧ s.config.truncateLongPrompts = false then
      .error (.promptTooLong r.prompt.length s.cacheConfig.maxContext)
    else .ok (r.truncatePrompt s.cacheConfig.maxContext) := by
  unfold fitPrompt
  by_cases hle : r.prompt.length ≤ s.cacheConfig.maxContext
  · simp [hle, Nat.not_lt.mpr hle, Request.truncatePrompt_of_le hle]
  · cases ht : s.config.truncateLongPrompts <;> simp [hle, Nat.lt_of_not_le hle]

/-- Where the cache is sound, a place that is offered can be taken. -/
theorem place_eq {s : Scheduler} (hc : s.cache.Sound) {r : Request} {positions : Nat}
    (hfit : s.cache.canFit positions = true) : s.place r positions =
      if s.cacheConfig.maxContext = 0 then .refused r (.invalidRequest .zeroCapacity)
      else .admitted (r.startIn s.cache.nextId)
        (Action.exec (Cache.reserve s.cache.nextId positions)
          (s.cache.opened r.id s.cacheConfig.maxContext)).2 := by
  unfold place
  rw [Cache.exec_allocate]
  by_cases hz : s.cacheConfig.maxContext = 0
  · rw [if_pos hz, if_pos hz]
  · obtain ⟨cache, hres⟩ := hc.reserve_fresh hfit r.id s.cacheConfig.maxContext
    rw [if_neg hz, if_neg hz]
    simp only [hres]

/-- How the first request of the line fares. -/
theorem admission_eq {s : Scheduler} (hc : s.cache.Sound) (admitted : List Request) (r : Request) :
    s.admission (spent admitted) r =
      if s.cacheConfig.maxContext < r.prompt.length ∧ s.config.truncateLongPrompts = false then
        .refused r (.promptTooLong r.prompt.length s.cacheConfig.maxContext)
      else
        let cut := r.truncatePrompt s.cacheConfig.maxContext
        let positions := s.positionsFor cut
        if admitted ≠ [] ∧
            s.config.maxPrefillTokens < total Request.pendingLen admitted + cut.pendingLen then
          .postponed cut s.cache
        else if s.cache.canFit positions then
          if s.cacheConfig.maxContext = 0 then .refused cut (.invalidRequest .zeroCapacity)
          else .admitted (cut.startIn s.cache.nextId)
            (Action.exec (Cache.reserve s.cache.nextId positions)
              (s.cache.opened cut.id s.cacheConfig.maxContext)).2
        else if s.cache.activeSlots = 0 then
          .refused cut
            (.cacheOverflow (.beyondBudget r.id (s.cache.bytesFor positions) s.cache.budget))
        else .postponed cut s.cache := by
  unfold admission
  rw [fitPrompt_eq]
  by_cases hlong : s.cacheConfig.maxContext < r.prompt.length ∧ s.config.truncateLongPrompts = false
  · rw [if_pos hlong, if_pos hlong]
  · rw [if_neg hlong, if_neg hlong]
    simp only [spent_any]
    split
    · rfl
    · split
      next hfit => exact place_eq hc hfit
      next => rfl

end Scheduler

namespace Round

theorem refuse_eq_turnAway (round : Round) {r : Request} (hq : r.state = .queued) (e : Error) :
    round.refuse r e = round.turnAway r e := by
  unfold refuse
  rw [Request.fail_of_live (by rw [hq]; rfl)]
  rfl

/-! ## The phase is the walk -/

/-- What a turn leaves for the next ones to look at. -/
theorem mem_update_of_ne {s : Scheduler} {r x : Request} (hx : x ∈ s.requests) (hne : x.id ≠ r.id) :
    x ∈ (s.update r).requests := Scheduler.mem_update.mpr (.inr ⟨hx, hne⟩)

/-- The phase on the entries of a line does what the walk along it does. -/
theorem admitFrom_eq_greedy (line : List Request) {round : Round} {admitted : List Request}
    (hids : round.scheduler.DistinctIds) (hc : round.scheduler.cache.Sound)
    (hline : ∀ r ∈ line, r ∈ round.scheduler.requests ∧ r.state = .queued)
    (hnd : (line.map Request.id).Nodup) :
    round.admitFrom (spent admitted) (line.map round.scheduler.entry) =
      round.greedy admitted line := by
  induction line generalizing round admitted with
  | nil => rfl
  | cons r rest ih =>
    obtain ⟨hr, hq⟩ := hline r (by simp)
    rw [List.map_cons, List.nodup_cons] at hnd
    obtain ⟨hout, hnd⟩ := hnd
    have hfind := hids.find? hr (p := fun r => r.state == .queued) (by simp [hq])
    -- the turns of the others come with their requests as they are
    have hothers : ∀ changed : Request, changed.id = r.id → ∀ x ∈ rest,
        x ∈ (round.scheduler.update changed).requests ∧ x.state = .queued := by
      intro changed hid x hx
      obtain ⟨hxr, hxq⟩ := hline x (List.mem_cons_of_mem _ hx)
      exact ⟨mem_update_of_ne hxr fun he => hout (hid ▸ he ▸ List.mem_map_of_mem hx), hxq⟩
    have haway : ∀ (x : Request) (e : Error), x.id = r.id → x.state = .queued →
        (round.refuse x e).admitFrom (spent admitted) (rest.map round.scheduler.entry) =
          (round.turnAway x e).greedy admitted rest := fun x e hid hxq => by
      rw [refuse_eq_turnAway round hxq e]
      exact @ih (round.turnAway x e) admitted (hids.update _) hc (hothers _ hid) hnd
    rw [List.map_cons, admitFrom, greedy]
    simp only
    split
    · rfl
    · rw [show (round.scheduler.entry r).request = r.id from rfl, hfind]
      simp only
      rw [Scheduler.admission_eq hc]
      by_cases hlong : round.scheduler.cacheConfig.maxContext < r.prompt.length ∧
          round.scheduler.config.truncateLongPrompts = false
      · rw [if_pos hlong, if_pos hlong]
        exact haway r _ rfl hq
      · rw [if_neg hlong, if_neg hlong]
        have hid : (r.truncatePrompt round.scheduler.cacheConfig.maxContext).id = r.id := rfl
        have hcq : (r.truncatePrompt round.scheduler.cacheConfig.maxContext).state = .queued := hq
        generalize r.truncatePrompt round.scheduler.cacheConfig.maxContext = cut at hid hcq ⊢
        simp only
        by_cases hover : admitted ≠ [] ∧ round.scheduler.config.maxPrefillTokens <
            total Request.pendingLen admitted + cut.pendingLen
        · rw [if_pos hover, if_pos hover]
          rfl
        · rw [if_neg hover, if_neg hover]
          by_cases hfit : round.scheduler.cache.canFit (round.scheduler.positionsFor cut) = true
          · rw [if_pos hfit, if_pos hfit]
            by_cases hzero : round.scheduler.cacheConfig.maxContext = 0
            · rw [if_pos hzero, if_pos hzero]
              exact haway cut _ hid hcq
            · rw [if_neg hzero, if_neg hzero]
              have hsound := (hc.opened cut.id (Nat.pos_of_ne_zero hzero)).reserve
                round.scheduler.cache.nextId (round.scheduler.positionsFor cut)
              have hnext := @ih (round.letIn cut (round.scheduler.positionsFor cut))
                (admitted ++ [cut]) (hids.update _) hsound (hothers _ hid) hnd
              rw [spent_append] at hnext
              exact hnext
          · rw [if_neg hfit, if_neg hfit]
            by_cases hempty : round.scheduler.cache.activeSlots = 0
            · rw [if_pos hempty, if_pos hempty]
              exact haway cut _ hid hcq
            · rw [if_neg hempty, if_neg hempty]
              rfl

/-! ## What the walk leaves -/

/-- Requests that are not in the line stay as they are. -/
theorem greedy_keeps (line : List Request) {round : Round} {admitted : List Request} {x : Request}
    (hx : x ∈ round.scheduler.requests) (hout : x.id ∉ line.map Request.id) :
    x ∈ (round.greedy admitted line).scheduler.requests := by
  induction line generalizing round admitted with
  | nil => exact hx
  | cons r rest ih =>
    rw [List.map_cons, List.mem_cons, not_or] at hout
    have hstored : ∀ changed : Request, changed.id = r.id →
        x ∈ (round.scheduler.update changed).requests := fun changed hid =>
      mem_update_of_ne hx (hid ▸ hout.1)
    unfold greedy
    simp only
    split
    · exact hx
    split
    · exact @ih (round.turnAway r _) admitted (hstored _ rfl) hout.2
    split
    · exact hstored (r.truncatePrompt round.scheduler.cacheConfig.maxContext) rfl
    split
    · split
      · exact @ih (round.turnAway (r.truncatePrompt round.scheduler.cacheConfig.maxContext) _)
          admitted (hstored _ rfl) hout.2
      · exact @ih (round.letIn (r.truncatePrompt round.scheduler.cacheConfig.maxContext) _) _
          (hstored _ rfl) hout.2
    split
    · exact @ih (round.turnAway (r.truncatePrompt round.scheduler.cacheConfig.maxContext) _)
        admitted (hstored _ rfl) hout.2
    · exact hstored (r.truncatePrompt round.scheduler.cacheConfig.maxContext) rfl

/-- Requests whose prompt tokens are within the limit, or of which there is only one. -/
def Affordable (limit : Nat) (requests : List Request) : Prop :=
  total Request.pendingLen requests ≤ limit ∨ requests.length ≤ 1

/-- The end of a walk: of the line it has looked at the first ones and left the others, and those
that it admitted run behind the others, in the order of the line. -/
structure Walked (round : Round) (admitted line new : List Request) (result : Round) : Prop where
  split : ∃ looked left, line = looked ++ left ∧
    result.scheduler.waiting = left.map round.scheduler.entry ∧
    (new.map Request.id).Sublist (looked.map Request.id)
  running : result.scheduler.running = round.scheduler.running ++ new.map Request.id
  stored : ∀ x ∈ new, ∃ slot, x.startIn slot ∈ result.scheduler.requests
  affordable : Affordable round.scheduler.config.maxPrefillTokens admitted →
    Affordable round.scheduler.config.maxPrefillTokens (admitted ++ new)

theorem walked_leaving {round result : Round} {admitted line : List Request}
    (hwait : result.scheduler.waiting = line.map round.scheduler.entry)
    (hrunning : result.scheduler.running = round.scheduler.running) :
    Walked round admitted line [] result where
  split := ⟨[], line, rfl, hwait, .refl _⟩
  running := by rw [hrunning, List.map_nil, List.append_nil]
  stored := fun _ hx => absurd hx List.not_mem_nil
  affordable := fun h => by rwa [List.append_nil]

theorem Walked.turnAway {round result : Round} {admitted rest new : List Request} {x : Request}
    {e : Error} (h : Walked (round.turnAway x e) admitted rest new result) (r : Request) :
    Walked round admitted (r :: rest) new result where
  split := by
    obtain ⟨looked, left, rfl, hwait, hsub⟩ := h.split
    exact ⟨r :: looked, left, rfl, hwait, hsub.cons r.id⟩
  running := h.running
  stored := h.stored
  affordable := h.affordable

theorem Walked.letIn {round result : Round} {admitted rest new : List Request} {cut : Request}
    {positions : Nat} (h : Walked (round.letIn cut positions) (admitted ++ [cut]) rest new result)
    {r : Request} (hid : cut.id = r.id)
    (hover : ¬ (admitted ≠ [] ∧ round.scheduler.config.maxPrefillTokens <
      total Request.pendingLen admitted + cut.pendingLen))
    (hstored : ∃ slot, cut.startIn slot ∈ result.scheduler.requests) :
    Walked round admitted (r :: rest) (cut :: new) result where
  split := by
    obtain ⟨looked, left, rfl, hwait, hsub⟩ := h.split
    refine ⟨r :: looked, left, rfl, hwait, ?_⟩
    rw [List.map_cons, List.map_cons, hid]
    exact hsub.cons_cons r.id
  running := by
    rw [h.running, List.map_cons]
    exact List.append_assoc round.scheduler.running [cut.id] _
  stored := fun x hx => by
    rcases List.mem_cons.mp hx with rfl | hx
    · exact hstored
    · exact h.stored x hx
  affordable := fun hbefore => by
    rw [List.append_cons]
    refine h.affordable ?_
    rcases List.eq_nil_or_concat admitted with rfl | ⟨_, _, rfl⟩
    · exact .inr (Nat.le_refl 1)
    · refine .inl ?_
      rw [total_append]
      change _ + (cut.pendingLen + 0) ≤ round.scheduler.config.maxPrefillTokens
      have := not_and.mp hover (by simp)
      omega

theorem greedy_walked {round : Round} (admitted line : List Request)
    (hline : ∀ r ∈ line, r ∈ round.scheduler.requests) (hnd : (line.map Request.id).Nodup) :
    ∃ new, Walked round admitted line new (round.greedy admitted line) := by
  induction line generalizing round admitted with
  | nil => exact ⟨[], walked_leaving rfl rfl⟩
  | cons r rest ih =>
    have hr := hline r (by simp)
    rw [List.map_cons, List.nodup_cons] at hnd
    obtain ⟨hout, hnd⟩ := hnd
    have hothers : ∀ changed : Request, changed.id = r.id → ∀ x ∈ rest,
        x ∈ (round.scheduler.update changed).requests := fun changed hid x hx =>
      mem_update_of_ne (hline x (List.mem_cons_of_mem _ hx)) fun he =>
        hout (hid ▸ he ▸ List.mem_map_of_mem hx)
    have haway : ∀ (x : Request) (e : Error), x.id = r.id →
        ∃ new, Walked round admitted (r :: rest) new ((round.turnAway x e).greedy admitted rest) :=
      fun x e hid => by
        obtain ⟨new, hnew⟩ := @ih (round.turnAway x e) admitted (hothers _ hid) hnd
        exact ⟨new, hnew.turnAway r⟩
    unfold greedy
    simp only
    split
    · exact ⟨[], walked_leaving rfl rfl⟩
    split
    · exact haway r _ rfl
    have hid : (r.truncatePrompt round.scheduler.cacheConfig.maxContext).id = r.id := rfl
    generalize r.truncatePrompt round.scheduler.cacheConfig.maxContext = cut at hid ⊢
    split
    · exact ⟨[], walked_leaving rfl rfl⟩
    next hover =>
      split
      · split
        · exact haway cut _ hid
        · obtain ⟨new, hnew⟩ := @ih (round.letIn cut (round.scheduler.positionsFor cut))
            (admitted ++ [cut]) (hothers _ hid) hnd
          refine ⟨cut :: new, hnew.letIn hid hover ⟨round.scheduler.cache.nextId, ?_⟩⟩
          refine greedy_keeps rest (Scheduler.mem_update.mpr (.inl ⟨rfl, r, hr, hid.symm⟩)) ?_
          exact hid ▸ hout
      split
      · exact haway cut _ hid
      · exact ⟨[], walked_leaving rfl rfl⟩

/-! ## The end of the tick -/

/-- Who waits after the third phase has waited all along, or was sent back in it. -/
theorem Departures.waiting {a b : Round} (hd : Departures a b) {id : RequestId}
    (hid : id ∈ b.scheduler.waiting.map QueueEntry.request) :
    id ∈ a.scheduler.waiting.map QueueEntry.request ∨ id ∈ b.preempted := by
  refine hd.keep (P := fun y => ∀ id ∈ y.scheduler.waiting.map QueueEntry.request,
    id ∈ a.scheduler.waiting.map QueueEntry.request ∨ id ∈ y.preempted) (fun _ => .inl)
    (fun x y hm ih id hid => ?_) id hid
  cases hm with
  | cache => exact ih id hid
  | @fail r hr hlive hwhy e =>
    rw [Round.retire, Scheduler.retire, Scheduler.release_eq] at hid
    exact ih id ((List.filter_sublist.map _).subset hid)
  | @unseat r hr hrun hpolicy =>
    rw [Round.unseat, Scheduler.release_eq] at hid
    have hperm := ((x.scheduler.entry r.requeued).enqueue_perm
      (x.scheduler.waiting.filter fun e => e.request ≠ r.id)).map QueueEntry.request
    rcases List.mem_cons.mp (hperm.mem_iff.mp hid) with rfl | hid
    · exact .inr (List.mem_append_right _ (List.mem_singleton.mpr rfl))
    · exact (ih id ((List.filter_sublist.map _).subset hid)).imp_right (List.mem_append_left _)

end Round

namespace Scheduler

def admissions (s : Scheduler) (now : Nat) : List RequestId :=
  let start := ({ scheduler := s } : Round).expire now
  start.admitWaiting.scheduler.running.drop start.scheduler.running.length

variable {config : SchedulerConfig} {cacheConfig : CacheConfig} {layout : Layout} {s : Scheduler}

/-- A tick leaves every request its standing. -/
theorem Lined.tick_standing (h : s.Lined) (now : Nat) : ∀ x ∈ (s.tick now).scheduler.requests,
    ∃ r ∈ s.requests, x.standing = r.standing := by
  obtain ⟨hdues, -, hshifts, -, hdepart⟩ := h.phases now
  intro x hx
  have hlater : Round.Shifts _ (s.tick now) := hshifts.trans hdepart.shifts
  obtain ⟨y, hy, hyx⟩ := hlater.carries x hx
  obtain ⟨r, hr, rfl | ⟨-, -, rfl⟩⟩ := hdues.requests y hy
  · exact ⟨y, hr, hyx.standing⟩
  · exact ⟨r, hr, hyx.standing⟩

/-- A total over requests, looked up by their ids. -/
theorem total_lookup (f : Request → Nat) {l : List Request}
    (hl : ∀ x ∈ l, ∃ y, s.request? x.id = some y ∧ f y = f x) :
    total f ((l.map Request.id).filterMap s.request?) = total f l := by
  induction l with
  | nil => rfl
  | cons x rest ih =>
    obtain ⟨y, hy, he⟩ := hl x (by simp)
    rw [List.map_cons, List.filterMap_cons_some hy, total, total, he,
      ih fun z hz => hl z (List.mem_cons_of_mem _ hz)]

/-- Nobody is in line after the first phase who was not before. -/
theorem Lined.mem_of_expire (h : s.Lined) {now : Nat} {r : Request}
    (hr : r ∈ (({ scheduler := s } : Round).expire now).scheduler.line) : r ∈ s.requests := by
  obtain ⟨hdues, -⟩ := h.phases now
  obtain ⟨hm, hq⟩ := mem_line.mp hr
  obtain ⟨x, hx, rfl | ⟨-, -, rfl⟩⟩ := hdues.requests r hm
  · exact hx
  · cases hq

/-- The admission phase of a tick is the walk along the line of the queued requests. -/
theorem Operated.admitWaiting_eq (h : Operated config cacheConfig layout s) (now : Nat) :
    let start := ({ scheduler := s } : Round).expire now
    start.admitWaiting = start.greedy [] start.scheduler.line := by
  intro start
  obtain ⟨hdues, hlined, -⟩ := h.lined.phases now
  unfold Round.admitWaiting
  rw [hlined.waiting_eq]
  have hnone : spent [] = none := rfl
  rw [← hnone]
  exact Round.admitFrom_eq_greedy _ hlined.enrolled.ids (hdues.calls.called.sound h.sound)
    (fun r hr => mem_line.mp hr) hlined.enrolled.ids.line_ids

/-- What the walk of a tick comes to. -/
theorem Operated.walked (h : Operated config cacheConfig layout s) (now : Nat) :
    let start := ({ scheduler := s } : Round).expire now
    ∃ new, s.admissions now = new.map Request.id ∧
      Round.Walked start [] start.scheduler.line new start.admitWaiting := by
  intro start
  obtain ⟨-, hlined, -⟩ := h.lined.phases now
  obtain ⟨new, hnew⟩ := Round.greedy_walked [] start.scheduler.line
    (fun r hr => (mem_line.mp hr).1) hlined.enrolled.ids.line_ids
  rw [← h.admitWaiting_eq now] at hnew
  refine ⟨new, ?_, hnew⟩
  rw [admissions, hnew.running, List.drop_left]

end Scheduler

end CausalServe
