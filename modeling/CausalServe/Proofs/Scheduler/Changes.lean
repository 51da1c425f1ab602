import CausalServe.Proofs.Scheduler.Line
import CausalServe.Proofs.Scheduler.Tick

/-! A tick of a scheduler whose cache may hold anything: slots that no request knows of, or none for
a request that runs. Requests end that are due, and what the two later phases do to a request is a
`Shift`; the cache changes by calls alone. What is proved here needs no more than that the requests
stand in line. -/

namespace CausalServe

namespace Scheduler

theorem place_cases (s : Scheduler) (r : Request) (positions : Nat) :
    (∃ e, s.place r positions = .refused r e) ∨
    (∃ slot cache, Cache.Called s.cache cache ∧
      s.place r positions = .admitted (r.startIn slot) cache) ∨
    ∃ cache, Cache.Called s.cache cache ∧ s.place r positions = .postponed r cache := by
  unfold place
  have halloc := Cache.called_allocate s.cache r.id s.cacheConfig.maxContext
  rcases hexec : Action.exec (Cache.allocate r.id s.cacheConfig.maxContext) s.cache with
    ⟨e | slot, c⟩ <;> rw [hexec] at halloc
  · exact .inl ⟨e, rfl⟩
  · have hreserve := Cache.called_reserve c slot positions
    simp only
    rcases hexec' : Action.exec (Cache.reserve slot positions) c with ⟨e | _, c'⟩ <;>
      rw [hexec'] at hreserve
    · exact .inr (.inr ⟨_, (halloc.trans hreserve).trans (Cache.called_evict c' slot), rfl⟩)
    · exact .inr (.inl ⟨slot, c', halloc.trans hreserve, rfl⟩)

/-- How a queued request fares, whatever the cache holds. -/
theorem admission_fares (s : Scheduler) (fed : Option Nat) (r : Request) :
    (∃ e, s.fitPrompt r = .error e ∧ s.admission fed r = .refused r e) ∨
    ∃ cut, s.fitPrompt r = .ok cut ∧
      ((∃ e, s.admission fed r = .refused cut e) ∨
        (∃ slot cache, Cache.Called s.cache cache ∧
          s.admission fed r = .admitted (cut.startIn slot) cache) ∨
        ∃ cache, Cache.Called s.cache cache ∧ s.admission fed r = .postponed cut cache) := by
  unfold admission
  cases hfit : s.fitPrompt r with
  | error e => exact .inl ⟨e, rfl, rfl⟩
  | ok cut =>
    refine .inr ⟨cut, rfl, ?_⟩
    simp only
    split
    · exact .inr (.inr ⟨_, .refl, rfl⟩)
    · split
      · exact s.place_cases cut (s.positionsFor cut)
      · split
        · exact .inl ⟨_, rfl⟩
        · exact .inr (.inr ⟨_, .refl, rfl⟩)

end Scheduler

namespace Request

def expired (r : Request) : Request :=
  { r with
    state := .cancelled
    failure := some (.ofError
      (if r.cancelRequested then .cancelled else .timeout s!"{r.steps} steps"))
    slot := none }

theorem expired_eq {r ended : Request} {now : Nat} {event : RequestEvent}
    (hdue : r.expiry? now = some event) (hend : r.apply event = .ok ended)
    (hlive : r.state.isTerminal = false) : { ended with slot := none } = r.expired := by
  rcases expiry?_some hdue with ⟨rfl, hcancel⟩ | ⟨rfl, hcancel, -⟩
  · cases (apply_cancel hlive).symm.trans hend
    simp [expired, hcancel]
  · cases (apply_timeout hlive).symm.trans hend
    simp [expired, hcancel]

/-- A request later in a tick, once all that were due had ended. Who has ended since failed. -/
structure Carries (r later : Request) : Prop extends r.Follows later where
  standing : later.standing = r.standing
  steps : later.steps = r.steps
  maxSteps : later.maxSteps = r.maxSteps
  finishReason : later.finishReason = r.finishReason
  ended : r.state.isTerminal = true → later = r
  outcome : later.state.isTerminal = true →
    later = r ∨ r.state.isTerminal = false ∧ later.state = .failed

theorem Carries.of_live {r later : Request} (hlive : r.state.isTerminal = false)
    (standing : later.standing = r.standing) (output : later.output = r.output)
    (sampling : later.sampling = r.sampling) (steps : later.steps = r.steps)
    (maxSteps : later.maxSteps = r.maxSteps) (finishReason : later.finishReason = r.finishReason)
    (live : later.state.isTerminal = false →
      r.state.isTerminal = false ∧ ∀ now, later.expiry? now = r.expiry? now)
    (failed : later.state.isTerminal = true → later.state = .failed) : r.Carries later where
  id := congrArg Prod.fst standing
  output := output
  sampling := sampling
  live := live
  standing := standing
  steps := steps
  maxSteps := maxSteps
  finishReason := finishReason
  ended := fun h => by rw [hlive] at h; cases h
  outcome := fun h => .inr ⟨hlive, failed h⟩

theorem Carries.refl (r : Request) : r.Carries r :=
  ⟨.refl r, rfl, rfl, rfl, rfl, fun _ => rfl, fun _ => .inl rfl⟩

theorem Carries.trans {a b c : Request} (h : a.Carries b) (h' : b.Carries c) : a.Carries c where
  toFollows := h.toFollows.trans h'.toFollows
  standing := h'.standing.trans h.standing
  steps := h'.steps.trans h.steps
  maxSteps := h'.maxSteps.trans h.maxSteps
  finishReason := h'.finishReason.trans h.finishReason
  ended := fun ha => by
    have hb := h.ended ha
    subst hb
    exact h'.ended ha
  outcome := fun hc => by
    rcases h'.outcome hc with rfl | ⟨hb, hfailed⟩
    · exact h.outcome hc
    · exact .inr ⟨(h.live hb).1, hfailed⟩

end Request

namespace Round

/-! ## The first phase -/

/-- Every request of a round was in the round before, where it was due or is as it was. -/
theorem Dues.requests {now : Nat} {a b : Round} (hd : Dues now a b) :
    ∀ x ∈ b.scheduler.requests, ∃ r ∈ a.scheduler.requests, x = r ∨
      r.state.isTerminal = false ∧ (r.expiry? now).isSome = true ∧ x = r.expired := by
  induction hd with
  | refl => exact fun x hx => ⟨x, hx, .inl rfl⟩
  | tail _ hm ih =>
    intro x hx
    cases hm with
    | @retire y ended event hy hlive hdue hend =>
      rcases Scheduler.mem_update.mp hx with ⟨rfl, -⟩ | ⟨hx, -⟩
      · obtain ⟨r, hr, rfl | ⟨-, -, rfl⟩⟩ := ih y hy
        · exact ⟨y, hr, .inr ⟨hlive, by rw [hdue]; rfl, Request.expired_eq hdue hend hlive⟩⟩
        · cases hlive
      · exact ih x hx

/-! ## The later phases -/

/-- One change after the first phase. -/
inductive Shift : Round → Round → Prop
  | cache {round : Round} {c : Cache} (hcall : Cache.Called round.scheduler.cache c) :
      Shift round { round with scheduler := { round.scheduler with cache := c } }
  | fit {round : Round} {r cut : Request} (hr : r ∈ round.scheduler.requests)
      (hq : r.state = .queued) (hfit : round.scheduler.fitPrompt r = .ok cut) :
      Shift round { round with scheduler := round.scheduler.update cut }
  | fail {round : Round} {r : Request} (hr : r ∈ round.scheduler.requests)
      (hlive : r.state.isTerminal = false) (e : Error) : Shift round (round.retire (r.failedBy e))
  | enter {round : Round} {r : Request} {entry : QueueEntry} {rest : List QueueEntry}
      {slot : SlotId} {c : Cache} (hr : r ∈ round.scheduler.requests) (hq : r.state = .queued)
      (hwait : round.scheduler.waiting = entry :: rest) (hentry : entry.request = r.id)
      (hlt : round.scheduler.running.length < round.scheduler.config.maxSeqs)
      (hcall : Cache.Called round.scheduler.cache c) :
      Shift round (round.seat (r.startIn slot) c rest)
  | unseat {round : Round} {r : Request} (hr : r ∈ round.scheduler.requests)
      (hrun : r.state.isRunning = true) : Shift round (round.unseat r)

def Shifts : Round → Round → Prop := Relation.ReflTransGen Shift

/-- What every shift keeps, the later phases keep. -/
theorem Shifts.keep {P : Round → Prop} {a b : Round} (h : Shifts a b) (ha : P a)
    (hstep : ∀ x y, Shift x y → P x → P y) : P b := by
  induction h with
  | refl => exact ha
  | tail _ hm ih => exact hstep _ _ hm ih

/-- One change of the third phase, where requests only leave the batch. None is failed there that
waits, if it may have been sent back in the same phase. -/
inductive Departure : Round → Round → Prop
  | cache {round : Round} {c : Cache} (hcall : Cache.Called round.scheduler.cache c) :
      Departure round { round with scheduler := { round.scheduler with cache := c } }
  | fail {round : Round} {r : Request} (hr : r ∈ round.scheduler.requests)
      (hlive : r.state.isTerminal = false)
      (hwhy : r.state.isRunning = true ∨
        round.scheduler.cacheConfig.pressurePolicy ≠ .preemptLeastRecent) (e : Error) :
      Departure round (round.retire (r.failedBy e))
  | unseat {round : Round} {r : Request} (hr : r ∈ round.scheduler.requests)
      (hrun : r.state.isRunning = true)
      (hpolicy : round.scheduler.cacheConfig.pressurePolicy = .preemptLeastRecent) :
      Departure round (round.unseat r)

theorem Departure.shift {a b : Round} (h : Departure a b) : Shift a b := by
  cases h with
  | cache hcall => exact .cache hcall
  | fail hr hlive hwhy e => exact .fail hr hlive e
  | unseat hr hrun hpolicy => exact .unseat hr hrun

def Departures : Round → Round → Prop := Relation.ReflTransGen Departure

theorem Departures.shifts {a b : Round} (h : Departures a b) : Shifts a b :=
  Relation.ReflTransGen.mono (fun _ _ => Departure.shift) _ _ h

theorem Departures.keep {P : Round → Prop} {a b : Round} (h : Departures a b) (ha : P a)
    (hstep : ∀ x y, Departure x y → P x → P y) : P b := by
  induction h with
  | refl => exact ha
  | tail _ hm ih => exact hstep _ _ hm ih

/-! ## The line -/

theorem standing_of_fitPrompt {s : Scheduler} {r cut : Request} (h : s.fitPrompt r = .ok cut) :
    cut.standing = r.standing := by
  rw [Scheduler.fitPrompt_kept h]
  rfl

theorem Due.lined {now : Nat} {a b : Round} (hd : Due now a b) (h : a.scheduler.Lined) :
    b.scheduler.Lined := by
  cases hd with
  | retire hr hlive hdue hend =>
    obtain ⟨ended, hend', hends⟩ := Request.apply_expiry hdue hlive
    cases hend.symm.trans hend'
    exact h.retire hr (by rw [hends.kept]; rfl) hends.terminal

theorem Shift.lined {a b : Round} (hs : Shift a b) (h : a.scheduler.Lined) :
    b.scheduler.Lined := by
  cases hs with
  | @cache c hcall => exact h.withCache c
  | fit hr hq hfit =>
    have hk := Scheduler.fitPrompt_kept hfit
    exact h.update hr (standing_of_fitPrompt hfit) (by rw [hk]) (by rw [hk]) (by rw [hk])
  | @fail r hr hlive e =>
    have hended : (r.failedBy e).standing = r.standing := rfl
    exact h.retire hr hended rfl
  | enter hr hq hwait hentry hlt hcall => exact h.enter hr hwait hentry hlt _ _
  | @unseat r hr hrun =>
    have hqueued : r.requeued.standing = r.standing := rfl
    exact h.preempt hr hqueued rfl rfl

theorem Dues.lined {now : Nat} {a b : Round} (hd : Dues now a b) (h : a.scheduler.Lined) :
    b.scheduler.Lined := by
  induction hd with
  | refl => exact h
  | tail _ hm ih => exact hm.lined ih

theorem Shifts.lined {a b : Round} (hs : Shifts a b) (h : a.scheduler.Lined) :
    b.scheduler.Lined := hs.keep h fun _ _ => Shift.lined

/-! ## The requests -/

theorem Shift.ids {a b : Round} (hs : Shift a b) :
    b.scheduler.requests.map Request.id = a.scheduler.requests.map Request.id := by
  cases hs with
  | cache => rfl
  | fit | fail | enter | unseat => exact Scheduler.ids_update _ _

theorem Shifts.ids {a b : Round} (hs : Shifts a b) :
    b.scheduler.requests.map Request.id = a.scheduler.requests.map Request.id :=
  hs.keep (P := fun y => y.scheduler.requests.map Request.id = a.scheduler.requests.map Request.id)
    rfl fun _ _ h hp => h.ids.trans hp

/-- Every request of a round was in the round before. -/
theorem Shift.carries {a b : Round} (hs : Shift a b) :
    ∀ x ∈ b.scheduler.requests, ∃ r ∈ a.scheduler.requests, r.Carries x := by
  have key : ∀ {r x changed : Request}, r ∈ a.scheduler.requests → r.Carries changed →
      x ∈ (a.scheduler.update changed).requests → ∃ r ∈ a.scheduler.requests, r.Carries x := by
    intro r x changed hr hc hx
    rcases Scheduler.mem_update.mp hx with ⟨rfl, -⟩ | ⟨hx, -⟩
    · exact ⟨r, hr, hc⟩
    · exact ⟨x, hx, .refl x⟩
  intro x hx
  cases hs with
  | cache => exact ⟨x, hx, .refl x⟩
  | @fit r cut hr hq hfit =>
    refine key hr ?_ hx
    have hlive : r.state.isTerminal = false := by rw [hq]; rfl
    rw [Scheduler.fitPrompt_kept hfit]
    exact .of_live hlive rfl rfl rfl rfl rfl rfl (fun _ => ⟨hlive, fun _ => rfl⟩)
      fun h => by rw [hlive] at h; cases h
  | @fail r hr hlive e =>
    have hended : r.Carries { r.failedBy e with slot := none } :=
      .of_live hlive rfl rfl rfl rfl rfl rfl (fun h => by cases h) fun _ => rfl
    exact key hr hended hx
  | @enter r entry rest slot c hr hq =>
    have hlive : r.state.isTerminal = false := by rw [hq]; rfl
    have hseated : r.Carries (r.startIn slot) :=
      .of_live hlive rfl rfl rfl rfl rfl rfl (fun _ => ⟨hlive, fun _ => rfl⟩) fun h => by cases h
    exact key hr hseated hx
  | @unseat r hr hrun =>
    have hlive := RequestState.isTerminal_of_isRunning hrun
    have hqueued : r.Carries r.requeued :=
      .of_live hlive rfl rfl rfl rfl rfl rfl (fun _ => ⟨hlive, fun _ => rfl⟩) fun h => by cases h
    exact key hr hqueued hx

theorem Shifts.carries {a b : Round} (hs : Shifts a b) :
    ∀ x ∈ b.scheduler.requests, ∃ r ∈ a.scheduler.requests, r.Carries x :=
  hs.keep (P := fun y => ∀ x ∈ y.scheduler.requests, ∃ r ∈ a.scheduler.requests, r.Carries x)
    (fun x hx => ⟨x, hx, .refl x⟩) fun _ _ h hp x hx => by
      obtain ⟨y, hy, hyx⟩ := h.carries x hx
      obtain ⟨r, hr, hry⟩ := hp y hy
      exact ⟨r, hr, hry.trans hyx⟩

/-- A change takes tokens from nothing but the front of a prompt. -/
theorem Shift.tokens {a b : Round} (hs : Shift a b) :
    ∀ x ∈ b.scheduler.requests, ∃ r ∈ a.scheduler.requests, x.tokens <:+ r.tokens := by
  have key : ∀ {r x changed : Request}, r ∈ a.scheduler.requests → changed.tokens <:+ r.tokens →
      x ∈ (a.scheduler.update changed).requests →
      ∃ r ∈ a.scheduler.requests, x.tokens <:+ r.tokens := by
    intro r x changed hr htokens hx
    rcases Scheduler.mem_update.mp hx with ⟨rfl, -⟩ | ⟨hx, -⟩
    · exact ⟨r, hr, htokens⟩
    · exact ⟨x, hx, List.suffix_rfl⟩
  intro x hx
  cases hs with
  | cache => exact ⟨x, hx, List.suffix_rfl⟩
  | @fit r cut hr hq hfit =>
    refine key hr ?_ hx
    rcases Scheduler.fitPrompt_ok hfit with ⟨rfl, -⟩ | ⟨-, -, rfl⟩
    · exact List.suffix_rfl
    · let dropped := r.prompt.length - a.scheduler.cacheConfig.maxContext
      refine ⟨r.prompt.take dropped, ?_⟩
      change r.prompt.take dropped ++ (r.prompt.drop dropped ++ r.output.toList) = r.tokens
      rw [← List.append_assoc, List.take_append_drop]
      rfl
  | @fail r hr hlive e =>
    have hended : { r.failedBy e with slot := none }.tokens <:+ r.tokens := List.suffix_rfl
    exact key hr hended hx
  | @enter r entry rest slot c hr hq =>
    have hseated : (r.startIn slot).tokens <:+ r.tokens := List.suffix_rfl
    exact key hr hseated hx
  | @unseat r hr hrun =>
    have hqueued : r.requeued.tokens <:+ r.tokens := List.suffix_rfl
    exact key hr hqueued hx

theorem Shifts.tokens {a b : Round} (hs : Shifts a b) :
    ∀ x ∈ b.scheduler.requests, ∃ r ∈ a.scheduler.requests, x.tokens <:+ r.tokens :=
  hs.keep (P := fun y => ∀ x ∈ y.scheduler.requests, ∃ r ∈ a.scheduler.requests,
      x.tokens <:+ r.tokens)
    (fun x hx => ⟨x, hx, List.suffix_rfl⟩) fun _ _ h hp x hx => by
      obtain ⟨y, hy, hyx⟩ := h.tokens x hx
      obtain ⟨r, hr, hry⟩ := hp y hy
      exact ⟨r, hr, hyx.trans hry⟩

/-! ## The settings -/

theorem Due.calls {now : Nat} {a b : Round} (hd : Due now a b) :
    Scheduler.Calls a.scheduler b.scheduler := by
  cases hd with
  | retire => exact Scheduler.retire_calls _ _

theorem Shift.calls {a b : Round} (hs : Shift a b) : Scheduler.Calls a.scheduler b.scheduler := by
  cases hs with
  | cache hcall => exact ⟨rfl, rfl, hcall⟩
  | fit => exact ⟨rfl, rfl, .refl⟩
  | fail => exact Scheduler.retire_calls _ _
  | enter hr hq hwait hentry hlt hcall => exact ⟨rfl, rfl, hcall⟩
  | @unseat r hr hrun =>
    rw [Round.unseat, Scheduler.release_eq]
    exact ⟨rfl, rfl, Scheduler.called_freed _ _⟩

theorem Dues.calls {now : Nat} {a b : Round} (hd : Dues now a b) :
    Scheduler.Calls a.scheduler b.scheduler := by
  induction hd with
  | refl => exact .refl _
  | tail _ hm ih => exact ih.trans hm.calls

theorem Shifts.calls {a b : Round} (hs : Shifts a b) : Scheduler.Calls a.scheduler b.scheduler :=
  hs.keep (P := fun y => Scheduler.Calls a.scheduler y.scheduler) (.refl _)
    fun _ _ h ih => ih.trans h.calls

/-! ## The second phase -/

theorem shifts_afterTurn (fed : Option Nat) {round : Round} {entry : QueueEntry}
    {rest : List QueueEntry} {r : Request} (h : round.scheduler.Lined)
    (hwait : round.scheduler.waiting = entry :: rest)
    (hlt : round.scheduler.running.length < round.scheduler.config.maxSeqs)
    (hr : r ∈ round.scheduler.requests) (hid : r.id = entry.request) (hq : r.state = .queued) :
    Shifts round (round.afterTurn rest (round.scheduler.admission fed r)) := by
  rcases round.scheduler.admission_fares fed r with ⟨e, hfit, hadm⟩ | ⟨cut, hfit, hfares⟩
  · have hlive : r.state.isTerminal = false := by rw [hq]; rfl
    obtain ⟨ended, hend, he⟩ := refuse_eq_retire h.enrolled hr hq hwait hid.symm e
    obtain ⟨-, rfl⟩ := Request.fail_ok hend
    rw [hadm]
    show Shifts round ((round.refuse r e).withQueue rest)
    rw [he]
    exact .single (.fail hr hlive e)
  · have hm₁ : Shift round { round with scheduler := round.scheduler.update cut } :=
      .fit hr hq hfit
    have hk := Scheduler.fitPrompt_kept hfit
    have hcid : cut.id = r.id := by rw [hk]
    have hcq : cut.state = .queued := by rw [hk]; exact hq
    have hlive : cut.state.isTerminal = false := by rw [hcq]; rfl
    have hcut : cut ∈ (round.scheduler.update cut).requests :=
      Scheduler.mem_update.mpr (.inl ⟨rfl, r, hr, hcid.symm⟩)
    have hentry : entry.request = cut.id := hid.symm.trans hcid.symm
    refine .head hm₁ ?_
    rcases hfares with ⟨e, hadm⟩ | ⟨slot, c, hcall, hadm⟩ | ⟨c, hcall, hadm⟩ <;> rw [hadm]
    · obtain ⟨ended, hend, he⟩ :=
        refuse_eq_retire (hm₁.lined h).enrolled hcut hcq hwait hentry e
      obtain ⟨-, rfl⟩ := Request.fail_ok hend
      show Shifts _ ((round.refuse cut e).withQueue rest)
      rw [← refuse_update round hlive, he]
      exact .single (.fail hcut hlive e)
    · rw [afterTurn_admitted]
      exact .single (.enter hcut hcq hwait hentry hlt hcall)
    · exact .single (.cache hcall)

theorem shifts_admitWaiting {round : Round} (h : round.scheduler.Lined) :
    Shifts round round.admitWaiting :=
  admitFrom_run (P := fun a => a.scheduler.Lined) (fun h => h.enrolled) Shifts.lined
    shifts_afterTurn _ h rfl

/-! ## The third phase -/

theorem departures_fail {round : Round} (id : RequestId) (e : Error)
    (hwhy : ∀ r ∈ round.scheduler.requests, r.id = id → r.state.isRunning = true ∨
      round.scheduler.cacheConfig.pressurePolicy ≠ .preemptLeastRecent) :
    Departures round (round.fail id e) := by
  unfold fail
  rcases Scheduler.failRequest_cases round.scheduler id e with ⟨fault, he⟩ | ⟨r, hr, hlive, he⟩ <;>
    rw [he]
  · exact .refl
  · obtain ⟨hm, rfl⟩ := Scheduler.mem_of_request? hr
    exact .single (.fail hm hlive (hwhy r hm rfl) e)

theorem departures_preempt {round : Round} (id : RequestId)
    (hpolicy : round.scheduler.cacheConfig.pressurePolicy = .preemptLeastRecent) :
    Departures round (round.preempt id) := by
  unfold preempt
  cases hr : round.scheduler.request? id with
  | none => exact .refl
  | some r =>
    obtain ⟨hm, rfl⟩ := Scheduler.mem_of_request? hr
    cases hrun : r.state.isRunning with
    | true =>
      simp only [Request.apply_preempt hrun]
      exact .single (.unseat hm hrun hpolicy)
    | false =>
      obtain ⟨fault, hf⟩ := Request.apply_preempt_error hrun
      simp only [hf]
      exact .refl

theorem departures_giveWay (round : Round) (victim id : RequestId) :
    Departures round (round.giveWay victim id) := by
  unfold giveWay
  split
  next hpolicy => exact departures_preempt victim hpolicy
  next hpolicy => exact departures_fail victim _ fun _ _ _ => .inr hpolicy

theorem departures_fail_found {round : Round} (h : round.scheduler.Lined) {id : RequestId}
    {r : Request}
    (hfind : (round.scheduler.requests.find? fun r => r.id = id && r.state.isRunning) = some r)
    (e : Error) : Departures round (round.fail id e) := by
  have hr := List.mem_of_find?_eq_some hfind
  have hfound := List.find?_some hfind
  simp only [Bool.and_eq_true, decide_eq_true_eq] at hfound
  obtain ⟨hid, hrun⟩ := hfound
  refine departures_fail id e fun x hx hxid => ?_
  obtain rfl := h.enrolled.ids.eq hx hr (hxid.trans hid.symm)
  exact .inl hrun

theorem departures_growOne {round : Round} (h : round.scheduler.Lined) (id : RequestId) :
    Departures round (round.growOne id) := by
  fun_induction growOne round id with
  | case1 | case2 => exact .refl
  | case3 round r hfind _ _ e => exact departures_fail_found h hfind e
  | case4 round r hfind slot _ needed _ cache hreserve =>
    have hcall := Cache.called_reserve round.scheduler.cache slot needed
    rw [hreserve] at hcall
    exact .single (.cache hcall)
  | case5 round r hfind _ _ _ _ e => exact departures_fail_found h hfind e
  | case6 round _ _ _ _ _ _ _ _ _ victim _ _ hless ih =>
    have hway := departures_giveWay round victim id
    exact hway.trans (ih (hway.shifts.lined h))
  | case7 round _ _ _ _ _ _ _ _ _ victim => exact departures_giveWay round victim id

theorem departures_grow {round : Round} (h : round.scheduler.Lined) :
    Departures round round.grow := by
  have key : ∀ (ids : List RequestId) (a : Round), a.scheduler.Lined →
      Departures a (ids.foldl growOne a) := by
    intro ids
    induction ids with
    | nil => exact fun a _ => .refl
    | cons id rest ih =>
      intro a ha
      have hone := departures_growOne ha id
      exact hone.trans (ih _ (hone.shifts.lined ha))
  exact key _ round h

end Round

/-! ## The tick -/

/-- The phases of a tick: requests end that are due, others fare as the queue and the cache allow,
and then some leave the batch. -/
theorem Scheduler.Lined.phases {s : Scheduler} (h : s.Lined) (now : Nat) :
    let expired := ({ scheduler := s } : Round).expire now
    Round.Dues now { scheduler := s } expired ∧ expired.scheduler.Lined ∧
      Round.Shifts expired expired.admitWaiting ∧ expired.admitWaiting.scheduler.Lined ∧
      Round.Departures expired.admitWaiting (s.tick now) := by
  have hstart : ({ scheduler := s } : Round).scheduler.Lined := h
  have hdues := Round.dues_expire hstart.enrolled.ids now
  have hlined := hdues.lined hstart
  have hshifts := Round.shifts_admitWaiting hlined
  exact ⟨hdues, hlined, hshifts, hshifts.lined hlined, Round.departures_grow (hshifts.lined hlined)⟩

end CausalServe
