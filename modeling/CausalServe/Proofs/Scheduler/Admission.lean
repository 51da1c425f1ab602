import CausalServe.Proofs.Scheduler.Moves

/-! The second phase of a tick as a sequence of moves. The phase works on a queue of its own and
writes it back at the end, so its rounds are compared with the queue put in. -/

namespace CausalServe

namespace Scheduler

/-- How a queued request fares. A place that is offered is never taken back: what fits can be
charged. -/
theorem admission_cases {s : Scheduler} (hc : s.cache.Sound) (fed : Option Nat) (r : Request) :
    (∃ e, s.fitPrompt r = .error e ∧ s.admission fed r = .refused r e) ∨
    ∃ cut, s.fitPrompt r = .ok cut ∧
      ((s.admission fed r = .postponed cut s.cache ∧
          (fed.isSome = true ∨ s.cache.activeSlots ≠ 0)) ∨
        (∃ e, s.admission fed r = .refused cut e ∧
          (s.cacheConfig.maxContext = 0 ∨
            s.cache.canFit (s.positionsFor cut) = false ∧ s.cache.activeSlots = 0)) ∨
        ∃ cache, 0 < s.cacheConfig.maxContext ∧
          Action.exec (Cache.reserve s.cache.nextId (s.positionsFor cut))
            (s.cache.opened cut.id s.cacheConfig.maxContext) = (.ok (), cache) ∧
          s.admission fed r = .admitted (cut.startIn s.cache.nextId) cache) := by
  unfold admission
  cases hfit : s.fitPrompt r with
  | error e => exact .inl ⟨e, rfl, rfl⟩
  | ok cut =>
    refine .inr ⟨cut, rfl, ?_⟩
    simp only
    split
    next hfed =>
      refine .inl ⟨rfl, .inl ?_⟩
      cases fed <;> simp_all
    next =>
      split
      next hroom =>
        -- there is room, so only a context without positions is in the way
        unfold place
        rcases Nat.eq_zero_or_pos s.cacheConfig.maxContext with hz | hpos
        · rw [Cache.exec_allocate, if_pos hz]
          exact .inr (.inl ⟨_, rfl, .inl hz⟩)
        · obtain ⟨cache, hres⟩ := hc.reserve_fresh hroom cut.id s.cacheConfig.maxContext
          rw [Cache.exec_allocate, if_neg (Nat.ne_of_gt hpos)]
          simp only [hres]
          exact .inr (.inr ⟨cache, hpos, rfl, rfl⟩)
      next hroom =>
        split
        next hzero => exact .inr (.inl ⟨_, rfl, .inr ⟨by simpa using hroom, hzero⟩⟩)
        next hzero => exact .inl ⟨rfl, .inr hzero⟩

end Scheduler

namespace Round

def withQueue (round : Round) (queue : List QueueEntry) : Round :=
  { round with scheduler := { round.scheduler with waiting := queue } }

theorem refuse_withQueue (round : Round) (queue : List QueueEntry) (r : Request) (e : Error) :
    (round.withQueue queue).refuse r e = (round.refuse r e).withQueue queue := by
  unfold refuse
  cases r.fail e <;> rfl

/-- The phase reads no queue but the one that it is given. -/
theorem admitFrom_withQueue (round : Round) (queue queue' : List QueueEntry) (fed : Option Nat) :
    (round.withQueue queue').admitFrom fed queue = round.admitFrom fed queue := by
  induction queue generalizing round fed with
  | nil => rfl
  | cons entry rest ih =>
    unfold admitFrom
    have hadm : ∀ r, (round.withQueue queue').scheduler.admission fed r =
        round.scheduler.admission fed r := fun _ => rfl
    simp only [hadm]
    change (if round.scheduler.config.maxSeqs ≤ round.scheduler.running.length then _ else _) = _
    split
    · rfl
    · have hsame : (round.withQueue queue').scheduler.requests = round.scheduler.requests := rfl
      simp only [hsame]
      cases round.scheduler.requests.find? fun r => r.id = entry.request && r.state == .queued with
      | none => exact ih round fed
      | some r =>
        simp only
        cases round.scheduler.admission fed r with
        | refused r e =>
          simp only [refuse_withQueue]
          exact ih _ fed
        | postponed r cache => rfl
        | admitted r cache =>
          exact ih { round with
            scheduler := { round.scheduler.update r with
              cache := cache, running := round.scheduler.running ++ [r.id] } } _

/-- A request at the front of the queue that is refused ends like any other. -/
theorem refuse_eq_retire {round : Round} (h : round.scheduler.Enrolled) {r : Request}
    (hr : r ∈ round.scheduler.requests) (hq : r.state = .queued) {entry : QueueEntry}
    {rest : List QueueEntry} (hwait : round.scheduler.waiting = entry :: rest)
    (hentry : entry.request = r.id) (e : Error) : ∃ ended, r.fail e = .ok ended ∧
      (round.refuse r e).withQueue rest = round.retire ended := by
  have hlive : r.state.isTerminal = false := by rw [hq]; rfl
  have hfail := Request.fail_of_live hlive e
  refine ⟨_, hfail, ?_⟩
  have hslot := h.slot_none hr (by rw [hq]; rfl)
  have hrunning : round.scheduler.running.filter (fun other => other ≠ (r.failedBy e).id) =
      round.scheduler.running := List.filter_eq_self.mpr fun other ho => by
    have hne : other ≠ r.id := fun he => by
      have := (h.mem_running hr).mp (he ▸ ho)
      rw [hq] at this
      cases this
    exact decide_eq_true hne
  have hnd := h.waiting_nodup
  rw [hwait, List.map_cons, hentry, List.nodup_cons] at hnd
  have hwaiting : round.scheduler.waiting.filter (fun e' => e'.request ≠ (r.failedBy e).id) =
      rest := by
    rw [hwait, List.filter_cons, if_neg (by simp [hentry, Request.failedBy]),
      List.filter_eq_self.mpr]
    intro other ho
    have hne : other.request ≠ r.id := fun he => hnd.1 (he ▸ List.mem_map_of_mem ho)
    exact decide_eq_true hne
  have hfree : (r.failedBy e).slot = none := hslot
  unfold refuse retire withQueue
  rw [hfail, Scheduler.retire_of_no_slot _ hfree, Scheduler.release_eq]
  simp only [Scheduler.freed, Scheduler.update, hrunning, hwaiting]
  rfl

/-- The round after a turn of the phase, with the queue behind the entry that the turn looked at. -/
def afterTurn (round : Round) (rest : List QueueEntry) : Admission → Round
  | .refused r e => (round.refuse r e).withQueue rest
  | .postponed r cache =>
    { round with scheduler := { round.scheduler.update r with cache := cache } }
  | .admitted r cache => withQueue { round with
      scheduler := { round.scheduler.update r with
        cache := cache, running := round.scheduler.running ++ [r.id] } } rest

/-- Whether the cut prompt is stored before its request is refused does not show. -/
theorem refuse_update (round : Round) {cut : Request} (hlive : cut.state.isTerminal = false)
    (e : Error) : Round.refuse { round with scheduler := round.scheduler.update cut } cut e =
      round.refuse cut e := by
  have hu : (round.scheduler.update cut).update (cut.failedBy e) =
      round.scheduler.update (cut.failedBy e) := Scheduler.update_update _ rfl
  unfold refuse
  rw [Request.fail_of_live hlive]
  simp only [hu]

/-- Whether the cut prompt is stored before its request gets a slot does not show. -/
theorem afterTurn_admitted (round : Round) (rest : List QueueEntry) (cut : Request) (slot : SlotId)
    (cache : Cache) : round.afterTurn rest (.admitted (cut.startIn slot) cache) =
      Round.seat { round with scheduler := round.scheduler.update cut } (cut.startIn slot) cache
        rest := by
  have hu : (round.scheduler.update cut).update (cut.startIn slot) =
      round.scheduler.update (cut.startIn slot) := Scheduler.update_update _ rfl
  unfold afterTurn seat withQueue
  simp only [hu]
  rfl

/-- A turn cuts the prompt, and then ends the request, gives it a slot or leaves it where it is. -/
theorem moves_afterTurn (now : Nat) (fed : Option Nat) {round : Round} {entry : QueueEntry}
    {rest : List QueueEntry} {r : Request} (h : round.scheduler.Owned)
    (hwait : round.scheduler.waiting = entry :: rest)
    (hlt : round.scheduler.running.length < round.scheduler.config.maxSeqs)
    (hr : r ∈ round.scheduler.requests) (hid : r.id = entry.request) (hq : r.state = .queued) :
    Moves now round (round.afterTurn rest (round.scheduler.admission fed r)) := by
  rcases Scheduler.admission_cases h.sound fed r with ⟨e, hfit, hadm⟩ | ⟨cut, hfit, hcases⟩
  · rw [hadm]
    obtain ⟨ended, hend, he⟩ := refuse_eq_retire h.enrolled hr hq hwait hid.symm e
    have hm : Move now round (round.retire ended) :=
      .retire hr (by rw [hq]; rfl) (.tooLong hq hfit hend)
    show Moves now round ((round.refuse r e).withQueue rest)
    rw [he]
    exact .single hm
  · -- the cut prompt is stored first
    have hm₁ : Move now round { round with scheduler := round.scheduler.update cut } :=
      .fit hr hq hfit
    have hk := Scheduler.fitPrompt_kept hfit
    have hcid : cut.id = r.id := by rw [hk]
    have hcq : cut.state = .queued := by rw [hk]; exact hq
    have hcut : cut ∈ (round.scheduler.update cut).requests :=
      Scheduler.mem_update.mpr (.inl ⟨rfl, r, hr, hcid.symm⟩)
    have hfit' : (round.scheduler.update cut).fitPrompt cut = .ok cut :=
      Scheduler.fitPrompt_of_le (Scheduler.fitPrompt_length hfit)
    refine .head hm₁ ?_
    rcases hcases with ⟨hadm, -⟩ | ⟨e, hadm, hwhy⟩ | ⟨cache, hpos, hres, hadm⟩
    · rw [hadm]
      exact .refl
    · rw [hadm]
      obtain ⟨ended, hend, he⟩ :=
        refuse_eq_retire (hm₁.owned h).enrolled hcut hcq hwait (hid.symm.trans hcid.symm) e
      have hm₂ : Move now { round with scheduler := round.scheduler.update cut }
          (Round.retire { round with scheduler := round.scheduler.update cut } ended) :=
        .retire hcut (by rw [hcq]; rfl) (.tooLarge hcq hfit' hwhy hend)
      show Moves now _ ((round.refuse cut e).withQueue rest)
      rw [← refuse_update round (by rw [hcq]; rfl), he]
      exact .single hm₂
    · rw [hadm, afterTurn_admitted]
      exact .single (.enter hcut hcq hwait (hid.symm.trans hcid.symm) hlt hfit' hpos hres)

/-- The phase is its turns, one after another. What every turn is a run of, the phase is a run of,
where such runs keep what a turn asks for. -/
theorem admitFrom_run {R : Round → Round → Prop} {P : Round → Prop}
    (henrolled : ∀ {a}, P a → a.scheduler.Enrolled)
    (hkeep : ∀ {a b}, Relation.ReflTransGen R a b → P a → P b)
    (hturn : ∀ (fed : Option Nat) {a : Round} {entry : QueueEntry} {rest : List QueueEntry}
      {r : Request}, P a → a.scheduler.waiting = entry :: rest →
      a.scheduler.running.length < a.scheduler.config.maxSeqs → r ∈ a.scheduler.requests →
      r.id = entry.request → r.state = .queued →
      Relation.ReflTransGen R a (a.afterTurn rest (a.scheduler.admission fed r)))
    (queue : List QueueEntry) {round : Round} {fed : Option Nat} (h : P round)
    (hwait : round.scheduler.waiting = queue) :
    Relation.ReflTransGen R round (round.admitFrom fed queue) := by
  induction queue generalizing round fed with
  | nil =>
    have he : round.admitFrom fed [] = round := by
      change round.withQueue [] = round
      rw [← hwait]
      rfl
    rw [he]
  | cons entry rest ih =>
    unfold admitFrom
    simp only
    split
    next =>
      have he : round.withQueue (entry :: rest) = round := by rw [← hwait]; rfl
      rw [show Round.mk _ _ _ = _ from he]
    next hlt =>
      obtain ⟨r, hr, hid, hq⟩ := ((henrolled h).waiting_iff entry.request).mp (by simp [hwait])
      have hfind := (henrolled h).ids.find? hr (p := fun r => r.state == .queued) (by simp [hq])
      have hrun := hturn fed h hwait (Nat.lt_of_not_le hlt) hr hid hq
      rw [← hid, hfind]
      simp only
      cases hadm : round.scheduler.admission fed r with
      | refused r e =>
        rw [hadm] at hrun
        simp only
        rw [← admitFrom_withQueue _ rest rest]
        exact hrun.trans (ih (hkeep hrun h) rfl)
      | postponed r cache =>
        rw [hadm] at hrun
        rw [← hwait]
        exact hrun
      | admitted r cache =>
        rw [hadm] at hrun
        simp only
        rw [← admitFrom_withQueue _ rest rest]
        exact hrun.trans (ih (hkeep hrun h) rfl)

/-- The second phase is a sequence of moves. -/
theorem moves_admitFrom (now : Nat) (queue : List QueueEntry) {round : Round} {fed : Option Nat}
    (h : round.scheduler.Owned) (hwait : round.scheduler.waiting = queue) :
    Moves now round (round.admitFrom fed queue) :=
  admitFrom_run (P := fun a => a.scheduler.Owned) Scheduler.Owned.enrolled Moves.owned
    (moves_afterTurn now) queue h hwait

theorem moves_admitWaiting {round : Round} (h : round.scheduler.Owned) (now : Nat) :
    Moves now round round.admitWaiting := moves_admitFrom now _ h rfl

/-- Nobody is sent back in the second phase. -/
theorem preempted_admitFrom (queue : List QueueEntry) (round : Round) (fed : Option Nat) :
    (round.admitFrom fed queue).preempted = round.preempted := by
  induction queue generalizing round fed with
  | nil => rfl
  | cons entry rest ih =>
    unfold admitFrom
    simp only
    split
    · rfl
    · split
      · exact ih round fed
      · split
        · refine (ih _ fed).trans ?_
          unfold refuse
          split <;> rfl
        · rfl
        · exact ih _ _

/-! ## Something happens -/

/-- A request ended, or some request runs. -/
def Busy (round : Round) : Prop := round.retired ≠ [] ∨ round.scheduler.running ≠ []

theorem Busy.admitFrom {round : Round} (h : round.Busy) (fed : Option Nat)
    (queue : List QueueEntry) : (round.admitFrom fed queue).Busy := by
  induction queue generalizing round fed with
  | nil => exact h
  | cons entry rest ih =>
    unfold Round.admitFrom
    simp only
    split
    · exact h
    · split
      · exact ih h fed
      · split
        next r e _ =>
          refine ih ?_ fed
          unfold refuse
          split
          · exact h
          · exact .inl (by simp)
        next => exact h
        next => exact ih (.inr (by simp)) _

/-- Where nothing runs, the first request of the queue is admitted or ends. -/
theorem busy_of_admitWaiting {round : Round} (h : round.scheduler.Owned)
    (hseqs : 0 < round.scheduler.config.maxSeqs)
    (hpending : round.scheduler.waiting ≠ [] ∨ round.Busy) : round.admitWaiting.Busy := by
  by_cases hbusy : round.Busy
  · exact hbusy.admitFrom _ _
  · have hidle : round.scheduler.running = [] := by
      by_contra hne
      exact hbusy (.inr hne)
    obtain ⟨entry, rest, hwait⟩ := List.exists_cons_of_ne_nil (hpending.resolve_right hbusy)
    obtain ⟨r, hr, hid, hq⟩ := (h.waiting_iff entry.request).mp (by simp [hwait])
    have hfind := h.ids.find? hr (p := fun r => r.state == .queued) (by simp [hq])
    -- no request runs, so no slot is live
    have hactive : round.scheduler.cache.activeSlots = 0 := Cache.activeSlots_eq_zero.mpr fun slot => by
      cases hs : round.scheduler.cache.slot? slot with
      | none => rfl
      | some st =>
        obtain ⟨x, hx, -, hxs⟩ := (h.holder_iff slot st.owner).mp
          (Cache.holder_eq_some.mpr ⟨st, hs, rfl⟩)
        have := (h.mem_running hx).mpr (h.running_of_slot hx hxs)
        rw [hidle] at this
        cases this
    have hrefuse : ∀ (x : Request) (e : Error), x.state = .queued → (round.refuse x e).Busy :=
      fun x e hx => by
        unfold refuse
        rw [Request.fail_of_live (by rw [hx]; rfl)]
        exact .inl (by simp)
    unfold admitWaiting
    rw [hwait]
    unfold Round.admitFrom
    simp only
    rw [if_neg (by rw [hidle]; exact Nat.not_le.mpr hseqs), ← hid, hfind]
    simp only
    rcases Scheduler.admission_cases h.sound none r with ⟨e, hfit, hadm⟩ | ⟨cut, hfit, hcases⟩
    · rw [hadm]
      exact (hrefuse r e hq).admitFrom _ _
    · have hcq : cut.state = .queued := by rw [Scheduler.fitPrompt_kept hfit]; exact hq
      rcases hcases with ⟨-, hwhy⟩ | ⟨e, hadm, -⟩ | ⟨cache, -, -, hadm⟩
      · simp [hactive] at hwhy
      · rw [hadm]
        exact (hrefuse cut e hcq).admitFrom _ _
      · rw [hadm]
        exact Busy.admitFrom (.inr (by simp)) _ _

end Round

end CausalServe
