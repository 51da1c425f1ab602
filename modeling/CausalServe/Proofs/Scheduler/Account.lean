import CausalServe.Proofs.Scheduler.Greedy

/-! What a tick reports against what it does. Its lists are filled in four phases, of which the
later ones may undo what the earlier ones did. Each phase keeps one equation for each list: who has ended
is who was reported, who runs is who ran and was not taken out, and who was sent back waits. -/

namespace CausalServe

namespace Round

/-! ## Those that end -/

/-- A round that reports some ends more, of before. -/
def besides (round : Round) (gone : List RequestId) : Round :=
  { round with retired := gone ++ round.retired }

theorem besides_retire (round : Round) (gone : List RequestId) (ended : Request) :
    (round.retire ended).besides gone = (round.besides gone).retire ended := by
  simp only [besides, retire, List.append_assoc]

theorem Due.reported {now : Nat} {a b : Round} {gone : List RequestId} (hd : Due now a b)
    (h : (a.besides gone).Reported) : (b.besides gone).Reported := by
  cases hd with
  | retire hr hlive hdue hend =>
    obtain ⟨ended, hend', hends⟩ := Request.apply_expiry hdue hlive
    cases hend.symm.trans hend'
    rw [besides_retire]
    exact h.retire hr hends.id hlive hends.terminal

theorem Shift.reported {a b : Round} {gone : List RequestId} (hs : Shift a b)
    (h : (a.besides gone).Reported) : (b.besides gone).Reported := by
  cases hs with
  | cache => exact ⟨h.nodup, h.iff, h.stored⟩
  | @fit r cut hr hq hfit =>
    have hk := Scheduler.fitPrompt_kept hfit
    exact h.update hr (by rw [hk]) (by rw [hq]; rfl) (by rw [hk, hq]; rfl) rfl rfl
  | @fail r hr hlive e =>
    have hended : (r.failedBy e).id = r.id := rfl
    rw [besides_retire]
    exact h.retire hr hended hlive rfl
  | @enter r entry rest slot c hr hq =>
    have hseated : (r.startIn slot).id = r.id := rfl
    exact h.update hr hseated (by rw [hq]; rfl) rfl rfl rfl
  | @unseat r hr hrun =>
    have hqueued : r.requeued.id = r.id := rfl
    exact h.update hr hqueued (RequestState.isTerminal_of_isRunning hrun) rfl rfl rfl

/-! ## Those that run -/

/-- The batch of a round is what is left of that of another, in its order. -/
def Thins (a b : Round) : Prop :=
  ∃ p : RequestId → Bool, b.scheduler.running = a.scheduler.running.filter p

theorem Thins.refl (a : Round) : Thins a a := ⟨fun _ => true, by simp⟩

theorem Thins.trans {a b c : Round} (h : Thins a b) (h' : Thins b c) : Thins a c := by
  obtain ⟨p, hp⟩ := h
  obtain ⟨q, hq⟩ := h'
  exact ⟨fun id => p id && q id, by rw [hq, hp, List.filter_filter]; simp only [Bool.and_comm]⟩

theorem thins_retire (round : Round) (r : Request) : Thins round (round.retire r) := by
  rw [retire, Scheduler.retire, Scheduler.release_eq]
  exact ⟨_, rfl⟩

theorem Dues.thins {now : Nat} {a b : Round} (hd : Dues now a b) : Thins a b := by
  induction hd with
  | refl => exact .refl a
  | tail _ hm ih =>
    cases hm with
    | retire => exact ih.trans (thins_retire _ _)

theorem Departures.thins {a b : Round} (hd : Departures a b) : Thins a b :=
  hd.keep (P := fun y => Thins a y) (.refl a) fun x y hm ih => by
    cases hm with
    | cache => exact ih
    | fail => exact ih.trans (thins_retire _ _)
    | @unseat r =>
      refine ih.trans ?_
      rw [unseat, Scheduler.release_eq]
      exact ⟨_, rfl⟩

theorem Thins.mem {a b : Round} (h : Thins a b) {id : RequestId} (hid : id ∈ b.scheduler.running) :
    id ∈ a.scheduler.running := by
  obtain ⟨p, hp⟩ := h
  rw [hp] at hid
  exact (List.mem_filter.mp hid).1

/-- Who is left is who runs in the end. -/
theorem Thins.filter_eq {a b : Round} (h : Thins a b) : b.scheduler.running =
    a.scheduler.running.filter fun id => decide (id ∈ b.scheduler.running) := by
  obtain ⟨p, hp⟩ := h
  conv_lhs => rw [hp]
  refine List.filter_congr fun id hid => ?_
  rw [Bool.eq_iff_iff, hp]
  simp [hid]

/-! ## Those that are sent back -/

/-- Those that were sent back since a round ran in it, and wait. -/
structure Displaced (a b : Round) : Prop where
  lined : b.scheduler.Lined
  nodup : b.preempted.Nodup
  iff : ∀ id, id ∈ b.preempted ↔
    id ∈ a.scheduler.running ∧ id ∈ b.scheduler.waiting.map QueueEntry.request
  policy : b.scheduler.cacheConfig.pressurePolicy ≠ .preemptLeastRecent → b.preempted = []

/-- At first nobody was sent back: who runs does not wait. -/
theorem displaced_start {a : Round} (h : a.scheduler.Lined) (hnone : a.preempted = []) :
    Displaced a a where
  lined := h
  nodup := hnone ▸ List.nodup_nil
  iff := fun id => by
    rw [hnone]
    simp only [List.not_mem_nil, false_iff, not_and]
    intro hrun hwait
    obtain ⟨r, hr, rfl, hstate⟩ := (h.enrolled.running_iff id).mp hrun
    exact RequestState.ne_queued_of_isRunning hstate ((h.enrolled.mem_waiting hr).mp hwait)
  policy := fun _ => hnone

theorem Displaced.fail {a b : Round} (h : Displaced a b) {r : Request}
    (hr : r ∈ b.scheduler.requests) (hlive : r.state.isTerminal = false)
    (hwhy : r.state.isRunning = true ∨
      b.scheduler.cacheConfig.pressurePolicy ≠ .preemptLeastRecent) (e : Error) :
    Displaced a (b.retire (r.failedBy e)) := by
  have hstay : r.id ∉ b.preempted := fun hm => by
    rcases hwhy with hrun | hpolicy
    · exact RequestState.ne_queued_of_isRunning hrun
        ((h.lined.enrolled.mem_waiting hr).mp ((h.iff r.id).mp hm).2)
    · rw [h.policy hpolicy] at hm
      cases hm
  have hlined := (Shift.fail hr hlive e).lined h.lined
  rw [retire, Scheduler.retire, Scheduler.release_eq] at *
  refine ⟨hlined, h.nodup, fun id => ?_, h.policy⟩
  change id ∈ b.preempted ↔ _ ∧ id ∈ (b.scheduler.waiting.filter fun e => e.request ≠ r.id).map _
  rw [Scheduler.map_filter_request, List.mem_filter, ← and_assoc, ← h.iff]
  simp only [ne_eq, decide_not, Bool.not_eq_true', decide_eq_false_iff_not, iff_self_and]
  exact fun hm he => hstay (he ▸ hm)

theorem Displaced.unseat {a b : Round} (h : Displaced a b) {r : Request}
    (hr : r ∈ b.scheduler.requests) (hrun : r.state.isRunning = true)
    (hfrom : r.id ∈ a.scheduler.running)
    (hpolicy : b.scheduler.cacheConfig.pressurePolicy = .preemptLeastRecent) :
    Displaced a (b.unseat r) := by
  have hstay : r.id ∉ b.preempted := fun hm =>
    RequestState.ne_queued_of_isRunning hrun
      ((h.lined.enrolled.mem_waiting hr).mp ((h.iff r.id).mp hm).2)
  have hlined := (Shift.unseat hr hrun).lined h.lined
  rw [Round.unseat, Scheduler.release_eq] at *
  refine ⟨hlined, ?_, fun id => ?_, fun hp => absurd hpolicy hp⟩
  · exact List.nodup_append.mpr ⟨h.nodup, List.nodup_singleton _, fun x hx y hy => by
      rw [List.mem_singleton.mp hy]
      exact fun he => hstay (he ▸ hx)⟩
  · have hperm := ((b.scheduler.entry r.requeued).enqueue_perm
      (b.scheduler.waiting.filter fun e => e.request ≠ r.id)).map QueueEntry.request
    refine Iff.trans ?_ (and_congr_right fun _ => hperm.mem_iff.symm)
    change id ∈ b.preempted ++ [r.id] ↔ _ ∧ id ∈ r.id :: _
    rw [Scheduler.map_filter_request, List.mem_append, List.mem_singleton, List.mem_cons,
      List.mem_filter, h.iff]
    by_cases he : id = r.id
    · simp [he, hfrom]
    · simp [he]

theorem Departures.displaced {a b : Round} (hd : Departures a b) (h : a.scheduler.Lined)
    (hnone : a.preempted = []) : Displaced a b := by
  have hboth : Displaced a b ∧ Thins a b := by
    refine hd.keep (P := fun y => Displaced a y ∧ Thins a y)
      ⟨displaced_start h hnone, .refl a⟩ fun x y hm ih => ?_
    have hthins := ih.2.trans (Departures.thins (.single hm))
    refine ⟨?_, hthins⟩
    cases hm with
    | @cache c hcall => exact ⟨ih.1.lined.withCache c, ih.1.nodup, ih.1.iff, ih.1.policy⟩
    | fail hr hlive hwhy e => exact ih.1.fail hr hlive hwhy e
    | unseat hr hrun hpolicy =>
      refine ih.1.unseat hr hrun ?_ hpolicy
      exact ih.2.mem ((ih.1.lined.enrolled.mem_running hr).mpr hrun)
  exact hboth.1

end Round

namespace Scheduler

variable {config : SchedulerConfig} {cacheConfig : CacheConfig} {layout : Layout} {s : Scheduler}

/-! ## What became of the requests -/

theorem Lined.tick_ids (h : s.Lined) (now : Nat) :
    (s.tick now).scheduler.requests.map Request.id = s.requests.map Request.id := by
  obtain ⟨hdues, -, hshifts, -, hdepart⟩ := h.phases now
  exact (hdepart.shifts.ids.trans hshifts.ids).trans hdues.moves.ids

/-- A request was due, or it fared as the later phases had it. -/
theorem Lined.tick_requests (h : s.Lined) (now : Nat) :
    ∀ x ∈ (s.tick now).scheduler.requests, ∃ r ∈ s.requests, x.id = r.id ∧
      (r.Carries x ∧ r ∈ (({ scheduler := s } : Round).expire now).scheduler.requests ∨
        r.state.isTerminal = false ∧ (r.expiry? now).isSome = true ∧ x = r.expired) := by
  obtain ⟨hdues, -, hshifts, -, hdepart⟩ := h.phases now
  have hlater : Round.Shifts _ (s.tick now) := hshifts.trans hdepart.shifts
  intro x hx
  obtain ⟨y, hy, hyx⟩ := hlater.carries x hx
  obtain ⟨r, hr, rfl | ⟨hlive, hdue, rfl⟩⟩ := hdues.requests y hy
  · exact ⟨y, hr, hyx.id, .inl ⟨hyx, hy⟩⟩
  · obtain rfl := hyx.ended rfl
    exact ⟨r, hr, rfl, .inr ⟨hlive, hdue, rfl⟩⟩

theorem Lined.tick_tokens (h : s.Lined) (now : Nat) :
    ∀ x ∈ (s.tick now).scheduler.requests, ∃ r ∈ s.requests, x.tokens <:+ r.tokens := by
  obtain ⟨hdues, -, hshifts, -, hdepart⟩ := h.phases now
  have hlater : Round.Shifts _ (s.tick now) := hshifts.trans hdepart.shifts
  intro x hx
  obtain ⟨y, hy, hyx⟩ := hlater.tokens x hx
  obtain ⟨r, hr, rfl | ⟨-, -, rfl⟩⟩ := hdues.requests y hy
  · exact ⟨y, hr, hyx⟩
  · exact ⟨r, hr, hyx⟩

/-- Every request is still stored. -/
theorem Lined.tick_fate (h : s.Lined) (now : Nat) {r : Request} (hr : r ∈ s.requests) :
    ∃ x ∈ (s.tick now).scheduler.requests, x.id = r.id ∧
      (r.Carries x ∧ r ∈ (({ scheduler := s } : Round).expire now).scheduler.requests ∨
        r.state.isTerminal = false ∧ (r.expiry? now).isSome = true ∧ x = r.expired) := by
  have hid : r.id ∈ (s.tick now).scheduler.requests.map Request.id :=
    h.tick_ids now ▸ List.mem_map_of_mem hr
  obtain ⟨x, hx, hxid⟩ := List.mem_map.mp hid
  obtain ⟨r', hr', hrid, hfate⟩ := h.tick_requests now x hx
  obtain rfl := h.enrolled.ids.eq hr' hr (hrid.symm.trans hxid)
  exact ⟨x, hx, hxid, hfate⟩

def ended (s : Scheduler) : List RequestId :=
  (s.requests.filter fun r => r.state.isTerminal).map Request.id

theorem Enrolled.mem_ended (h : s.Enrolled) {r : Request} (hr : r ∈ s.requests) :
    r.id ∈ s.ended ↔ r.state.isTerminal = true := by
  simp only [ended, List.mem_map, List.mem_filter]
  constructor
  · rintro ⟨x, ⟨hx, hterm⟩, hid⟩
    rwa [← h.ids.eq hx hr hid]
  · exact fun hterm => ⟨r, ⟨hr, hterm⟩, rfl⟩

/-- With those that had ended before, the first phase reports all that have ended. -/
theorem Lined.expire_reported (h : s.Lined) (now : Nat) :
    ((({ scheduler := s } : Round).expire now).besides s.ended).Reported := by
  obtain ⟨hdues, -⟩ := h.phases now
  have hstart : (({ scheduler := s } : Round).besides s.ended).Reported := by
    have hretired : (({ scheduler := s } : Round).besides s.ended).retired = s.ended :=
      List.append_nil _
    refine ⟨?_, fun r hr => ?_, fun id hid => ?_⟩
    · rw [hretired]
      exact h.enrolled.ids.sublist (List.filter_sublist.map _)
    · rw [hretired]
      exact h.enrolled.mem_ended hr
    · rw [hretired, ended] at hid
      obtain ⟨r, hr, hrid⟩ := List.mem_map.mp hid
      exact ⟨r, (List.mem_filter.mp hr).1, hrid⟩
  exact Relation.ReflTransGen.head_induction_on (motive := fun a _ =>
    (a.besides s.ended).Reported → _) hdues id (fun hm _ ih ha => ih (hm.reported ha)) hstart

/-- And so does the tick. -/
theorem Lined.tick_reported (h : s.Lined) (now : Nat) :
    ((s.tick now).besides s.ended).Reported := by
  obtain ⟨-, -, hshifts, -, hdepart⟩ := h.phases now
  have hlater : Round.Shifts _ (s.tick now) := hshifts.trans hdepart.shifts
  exact hlater.keep (P := fun y => (y.besides s.ended).Reported) (h.expire_reported now)
    fun _ _ hm => hm.reported

/-- Who is admitted was queued before. -/
theorem Operated.queued_of_admissions (h : Operated config cacheConfig layout s) {now : Nat}
    {id : RequestId} (hid : id ∈ s.admissions now) :
    ∃ r ∈ s.requests, r.id = id ∧ r.state = .queued := by
  obtain ⟨new, hnew, hwalked⟩ := h.walked now
  obtain ⟨looked, left, hline, -, hsub⟩ := hwalked.split
  rw [hnew] at hid
  obtain ⟨r, hr, hrid⟩ := List.mem_map.mp (hsub.subset hid)
  have hmem := hline ▸ List.mem_append_left left hr
  exact ⟨r, h.lined.mem_of_expire hmem, hrid, (mem_line.mp hmem).2⟩

/-- The batch is what is left of the batch of before and of those that were admitted. -/
theorem Operated.running_tick (h : Operated config cacheConfig layout s) (now : Nat) :
    let ran := (s.tick now).scheduler.running
    ran = s.running.filter (fun id => decide (id ∈ ran)) ++
      (s.admissions now).filter (fun id => decide (id ∈ ran)) := by
  intro ran
  obtain ⟨hdues, -, -, -, hdepart⟩ := h.lined.phases now
  obtain ⟨new, hnew, hwalked⟩ := h.walked now
  have hran := hdepart.thins.filter_eq
  have hmid := hwalked.running
  rw [← hnew] at hmid
  rw [hmid, List.filter_append, hdues.thins.filter_eq, List.filter_filter] at hran
  refine hran.trans (congrArg (· ++ _) (List.filter_congr fun id hid => ?_))
  -- who ran before was not admitted now, so it had outlasted the first phase
  rw [Bool.eq_iff_iff]
  simp only [Bool.and_eq_true, decide_eq_true_eq]
  refine ⟨And.left, fun hlast => ⟨hlast, ?_⟩⟩
  have hin := hdepart.thins.mem hlast
  rw [hmid, List.mem_append] at hin
  refine hin.resolve_right fun hadmitted => ?_
  obtain ⟨r, hr, rfl, hq⟩ := h.queued_of_admissions hadmitted
  have hrun := (h.lined.enrolled.mem_running hr).mp hid
  exact RequestState.ne_queued_of_isRunning hrun hq

/-! ## The report -/

def stateOf? (s : Scheduler) (id : RequestId) : Option RequestState :=
  (s.request? id).map Request.state

theorem Enrolled.stateOf? (h : s.Enrolled) {r : Request} (hr : r ∈ s.requests) :
    s.stateOf? r.id = some r.state := by
  rw [Scheduler.stateOf?, h.ids.request? hr]
  rfl

/-- A group of the batch has the running requests in one state. -/
theorem Enrolled.members_eq {round : Round} (h : round.scheduler.Enrolled) (state : RequestState) :
    (round.members state).map Request.id =
      round.plan.batch.filter fun id => round.scheduler.stateOf? id = some state := by
  rw [h.batch_eq, Round.members, map_filter_lookup]
  refine List.filter_congr fun id _ => ?_
  rw [Bool.eq_iff_iff, Scheduler.stateOf?]
  cases round.scheduler.request? id <;> simp

/-- The pending tokens of a group, reckoned from the tokens. -/
theorem Enrolled.total_members {round : Round} (h : round.scheduler.Enrolled)
    (state : RequestState) : total Request.pendingLen (round.members state) =
      total (fun r => r.pending.length)
        (((round.members state).map Request.id).filterMap round.scheduler.request?) := by
  rw [total_lookup (fun r => r.pending.length) fun x hx => ?_]
  · exact total_congr fun x _ => x.length_pending.symm
  · obtain ⟨id, -, hid⟩ := List.mem_filterMap.mp (List.mem_filter.mp hx).1
    exact ⟨x, h.ids.request? (mem_of_request? hid).1, rfl⟩

/-- A round reports as ended who was live before and has ended. -/
theorem Enrolled.mem_retired (h : s.Enrolled) {round : Round}
    (hids : round.scheduler.requests.map Request.id = s.requests.map Request.id)
    (hreported : (round.besides s.ended).Reported) (id : RequestId) : id ∈ round.retired ↔
      (∃ r ∈ s.requests, r.id = id ∧ r.state.isTerminal = false) ∧
        ∃ x ∈ round.scheduler.requests, x.id = id ∧ x.state.isTerminal = true := by
  have hnodup : (s.ended ++ round.retired).Nodup := hreported.nodup
  constructor
  · intro hid
    have hall : id ∈ s.ended ++ round.retired := List.mem_append_right _ hid
    obtain ⟨x, hx, rfl⟩ := hreported.stored id hall
    have hold : x.id ∈ s.requests.map Request.id := hids ▸ List.mem_map_of_mem hx
    obtain ⟨r, hr, hrid⟩ := List.mem_map.mp hold
    refine ⟨⟨r, hr, hrid, ?_⟩, x, hx, rfl, (hreported.iff x hx).mp hall⟩
    rw [← Bool.not_eq_true]
    intro hterm
    have hgone := hrid ▸ (h.mem_ended hr).mpr hterm
    exact (List.nodup_append.mp hnodup).2.2 x.id hgone x.id hid rfl
  · rintro ⟨⟨r, hr, hrid, hlive⟩, x, hx, rfl, hterm⟩
    have hall : x.id ∈ s.ended ++ round.retired := (hreported.iff x hx).mpr hterm
    refine (List.mem_append.mp hall).resolve_left fun hgone => ?_
    rw [← hrid, h.mem_ended hr, hlive] at hgone
    cases hgone

theorem Lined.mem_retired (h : s.Lined) (now : Nat) (id : RequestId) :
    id ∈ (s.tick now).retired ↔
      (∃ r ∈ s.requests, r.id = id ∧ r.state.isTerminal = false) ∧
        ∃ x ∈ (s.tick now).scheduler.requests, x.id = id ∧ x.state.isTerminal = true :=
  h.enrolled.mem_retired (h.tick_ids now) (h.tick_reported now) id

/-- Nobody is sent back before the third phase. -/
theorem Lined.tick_displaced (h : s.Lined) (now : Nat) :
    Round.Displaced (({ scheduler := s } : Round).expire now).admitWaiting (s.tick now) := by
  obtain ⟨-, -, -, hlined, hdepart⟩ := h.phases now
  exact hdepart.displaced hlined ((Round.preempted_admitFrom _ _ none).trans
    (Round.preempted_expire { scheduler := s } now))

/-- A tick reports as sent back who ran, before or since its admissions, and waits. -/
theorem Operated.mem_preempted (h : Operated config cacheConfig layout s) (now : Nat)
    (id : RequestId) : id ∈ (s.tick now).preempted ↔
      (id ∈ s.running ∨ id ∈ s.admissions now) ∧
        ∃ x ∈ (s.tick now).scheduler.requests, x.id = id ∧ x.state = .queued := by
  obtain ⟨hdues, hstart, -⟩ := h.lined.phases now
  obtain ⟨new, hnew, hwalked⟩ := h.walked now
  have hmid := hwalked.running
  rw [← hnew] at hmid
  rw [(h.lined.tick_displaced now).iff, hmid, List.mem_append,
    (h.lined.tick now).enrolled.waiting_iff]
  refine and_congr_left fun ⟨x, hx, hxid, hq⟩ => or_congr_left ⟨hdues.thins.mem, fun hid => ?_⟩
  -- who waits now was not due, so who ran before outlasted the first phase
  obtain ⟨r, hr, hrid, ⟨-, hkept⟩ | ⟨-, -, hexpired⟩⟩ := h.lined.tick_requests now x hx
  · rw [← hxid, hrid] at hid ⊢
    exact (hstart.enrolled.mem_running hkept).mpr ((h.lined.enrolled.mem_running hr).mp hid)
  · rw [hexpired] at hq
    cases hq

/-- Three lists of requests that are told apart by their states have nobody in common. -/
theorem Enrolled.nodup_report (h : s.Enrolled) {batch retired preempted : List RequestId}
    (hb : batch.Nodup) (hr : retired.Nodup) (hp : preempted.Nodup)
    (hrun : ∀ id ∈ batch, ∃ x ∈ s.requests, x.id = id ∧ x.state.isRunning = true)
    (hend : ∀ id ∈ retired, ∃ x ∈ s.requests, x.id = id ∧ x.state.isTerminal = true)
    (hwait : ∀ id ∈ preempted, ∃ x ∈ s.requests, x.id = id ∧ x.state = .queued) :
    (batch ++ retired ++ preempted).Nodup := by
  refine List.nodup_append.mpr ⟨List.nodup_append.mpr ⟨hb, hr, ?_⟩, hp, ?_⟩
  · rintro id hbatch _ hretired rfl
    obtain ⟨x, hx, hxid, hxrun⟩ := hrun id hbatch
    obtain ⟨y, hy, hyid, hyend⟩ := hend id hretired
    obtain rfl := h.ids.eq hx hy (hxid.trans hyid.symm)
    rw [RequestState.isTerminal_of_isRunning hxrun] at hyend
    cases hyend
  · rintro id hother _ hpreempted rfl
    obtain ⟨y, hy, hyid, hq⟩ := hwait id hpreempted
    rcases List.mem_append.mp hother with hid | hid
    · obtain ⟨x, hx, hxid, hxrun⟩ := hrun id hid
      obtain rfl := h.ids.eq hx hy (hxid.trans hyid.symm)
      exact RequestState.ne_queued_of_isRunning hxrun hq
    · obtain ⟨x, hx, hxid, hxend⟩ := hend id hid
      obtain rfl := h.ids.eq hx hy (hxid.trans hyid.symm)
      exact RequestState.ne_queued_of_isTerminal hxend hq

/-- A tick accounts for every live request: it is batched, reported as ended or waits, and no list
of the report has a request too many, too few or twice. -/
theorem Operated.accounts_for_all (h : Operated config cacheConfig layout s) (now : Nat) :
    let plan := (s.schedule now).1
    let after := (s.schedule now).2
    plan.batch = after.running ∧
    plan.batch = s.running.filter (fun id => decide (id ∈ plan.batch)) ++
      (s.admissions now).filter (fun id => decide (id ∈ plan.batch)) ∧
    (∀ id ∈ s.admissions now, ∃ r ∈ s.requests, r.id = id ∧ r.state = .queued) ∧
    plan.prefill = plan.batch.filter (fun id => after.stateOf? id = some .prefilling) ∧
    plan.decode = plan.batch.filter (fun id => after.stateOf? id = some .decoding) ∧
    (∀ id ∈ plan.batch, after.stateOf? id = some .prefilling ∨ after.stateOf? id = some .decoding) ∧
    (∀ id, id ∈ plan.retired ↔
      (∃ r ∈ s.requests, r.id = id ∧ r.state.isTerminal = false) ∧
        ∃ x ∈ after.requests, x.id = id ∧ x.state.isTerminal = true) ∧
    (∀ id, id ∈ plan.preempted ↔ (id ∈ s.running ∨ id ∈ s.admissions now) ∧
      ∃ x ∈ after.requests, x.id = id ∧ x.state = .queued) ∧
    (plan.batch ++ plan.retired ++ plan.preempted).Nodup ∧
    (∀ r ∈ s.requests, r.state.isTerminal = false →
      r.id ∈ plan.batch ∨ r.id ∈ plan.retired ∨ after.stateOf? r.id = some .queued) ∧
    plan.prefillTokens =
      total (fun r => r.pending.length) (plan.prefill.filterMap after.request?) ∧
    plan.decodeTokens =
      total (fun r => r.pending.length) (plan.decode.filterMap after.request?) ∧
    (∀ r ∈ s.requests, r.state.isTerminal = true → r ∈ after.requests) := by
  intro plan after
  have hafter : after.Enrolled := (h.lined.tick now).enrolled
  have hround : (s.tick now).scheduler.Enrolled := hafter
  have hbatch : plan.batch = after.running := hround.batch_eq
  refine ⟨hbatch, ?_, fun id => h.queued_of_admissions, hround.members_eq _, hround.members_eq _,
    fun id hid => ?_, h.lined.mem_retired now, h.mem_preempted now, ?_, fun r hr hlive => ?_,
    hround.total_members _, hround.total_members _, fun r hr hterm => ?_⟩
  · rw [hbatch]
    exact h.running_tick now
  · rw [hbatch] at hid
    obtain ⟨r, hr, rfl, hrun⟩ := (hafter.running_iff id).mp hid
    rw [hafter.stateOf? hr]
    exact (RequestState.isRunning_iff.mp hrun).imp (congrArg some) (congrArg some)
  · have hretired : plan.retired.Nodup :=
      (List.nodup_append.mp (h.lined.tick_reported now).nodup).2.1
    refine hafter.nodup_report (hbatch ▸ hafter.running_nodup) hretired
      (h.lined.tick_displaced now).nodup (fun id hid => ?_)
      (fun id hid => ((h.lined.mem_retired now id).mp hid).2)
      fun id hid => ((h.mem_preempted now id).mp hid).2
    rw [hbatch] at hid
    exact (hafter.running_iff id).mp hid
  · obtain ⟨x, hx, hxid, -⟩ := h.lined.tick_fate now hr
    rw [← hxid, hbatch, hafter.stateOf? hx, hafter.mem_running hx]
    rcases hstate : x.state.isTerminal with _ | _
    · exact (RequestState.live_iff.mp hstate).symm.imp_right fun hq => .inr (congrArg some hq)
    · exact .inr (.inl ((h.lined.mem_retired now x.id).mpr
        ⟨⟨r, hr, hxid.symm, hlive⟩, x, hx, rfl, hstate⟩))
  · obtain ⟨x, hx, -, ⟨hcarries, -⟩ | ⟨hlive, -⟩⟩ := h.lined.tick_fate now hr
    · exact hcarries.ended hterm ▸ hx
    · rw [hlive] at hterm
      cases hterm

/-- Two requests of which one makes room for the other, while a third one waits. -/
theorem accounts_for_all_under_pressure : ∃ s : Scheduler,
    (s.schedule 0).1.batch = [1] ∧ (s.schedule 0).1.retired = [] ∧
    (s.schedule 0).1.preempted = [2] ∧
    ((s.schedule 0).1.batch ++ (s.schedule 0).1.retired ++ (s.schedule 0).1.preempted).Nodup ∧
    (∀ r ∈ s.requests, r.state.isTerminal = false →
      r.id ∈ (s.schedule 0).1.batch ∨ r.id ∈ (s.schedule 0).1.retired ∨
        (s.schedule 0).2.stateOf? r.id = some .queued) := by
  have hplanned : Operated {}
      { maxContext := 4, blockSize := 1, memoryBudget := some 16
        pressurePolicy := .preemptLeastRecent } ⟨1, 1, 1, 1⟩ _ :=
    .schedule (.addRequest (.addRequest .new (r := Request.new 1 [7] (.greedy 4)) rfl)
      (r := Request.new 2 [8] (.greedy 4)) rfl) 0
  have hfed := (hplanned.call (.append 0 0 [1] [2])).completeStep 1 5 none
  have hs := hfed.addRequest (r := Request.new 3 [6] (.greedy 4)) rfl
  obtain ⟨-, -, -, -, -, -, -, -, hnodup, hall, -⟩ := Operated.accounts_for_all hs 0
  exact ⟨_, by cbv, by cbv, by cbv, hnodup, hall⟩

end Scheduler

end CausalServe
