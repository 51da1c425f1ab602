import CausalServe.Proofs.Scheduler.Account

/-! The first phase of a tick, seen from its end. Whoever was due has ended, and nobody else was
cancelled; the slots of those that ended are free before the first request is admitted, and what was
charged to them can be charged again. -/

namespace CausalServe

/-! ## Who is due -/

namespace Request

/-- Cancelled by its owner, out of time or out of steps. -/
def Overdue (r : Request) (now : Nat) : Prop :=
  r.cancelRequested = true ∨ (∃ limit, r.timeout = some limit ∧ limit ≤ now - r.arrival) ∨
    ∃ limit, r.maxSteps = some limit ∧ limit ≤ r.steps

instance (r : Request) (now : Nat) : Decidable (r.Overdue now) :=
  inferInstanceAs (Decidable (_ ∨ _ ∨ _))

theorem expiry?_isSome {r : Request} {now : Nat} :
    (r.expiry? now).isSome = true ↔ r.Overdue now := by
  have htime : r.isTimedOut now = true ↔
      ∃ limit, r.timeout = some limit ∧ limit ≤ now - r.arrival := by
    unfold isTimedOut
    cases r.timeout <;> simp
  have hsteps : r.isStepBudgetExhausted = true ↔
      ∃ limit, r.maxSteps = some limit ∧ limit ≤ r.steps := by
    unfold isStepBudgetExhausted
    cases r.maxSteps <;> simp
  unfold expiry? Overdue
  rw [← htime, ← hsteps]
  cases r.cancelRequested <;> simp

theorem expired_kind (r : Request) : r.expired.failure.map Failure.kind =
    some (if r.cancelRequested then .cancelled else .timeout) := by
  cases hc : r.cancelRequested <;> simp [expired, hc, Failure.ofError, Error.kind]

end Request

/-! ## The memory -/

namespace Cache

/-- Bytes charged to the live slots but for some. -/
def usedBesides (c : Cache) (slots : List SlotId) : Nat :=
  total (fun p => p.2.allocated) (c.live.filter fun p => p.1 ∉ slots) * c.layout.bytesPerPosition

/-- The slots of a list that are live, numbered from its first place on. -/
def liveFrom (start : Nat) (slots : List (Option Slot)) : List (SlotId × Slot) :=
  (slots.zipIdx start).filterMap fun (s, id) => s.map fun s => (id, s)

theorem liveFrom_none (start : Nat) (rest : List (Option Slot)) :
    liveFrom start (none :: rest) = liveFrom (start + 1) rest := rfl

theorem liveFrom_some (start : Nat) (s : Slot) (rest : List (Option Slot)) :
    liveFrom start (some s :: rest) = (start, s) :: liveFrom (start + 1) rest := rfl

theorem le_of_mem_liveFrom {start : Nat} {slots : List (Option Slot)} {p : SlotId × Slot}
    (hp : p ∈ liveFrom start slots) : start ≤ p.1 := by
  obtain ⟨⟨s, i⟩, hmem, hs⟩ := List.mem_filterMap.mp hp
  obtain ⟨t, -, rfl⟩ := Option.map_eq_some_iff.mp hs
  exact (List.mem_zipIdx hmem).1

theorem charged_eq (c : Cache) : c.charged = total (fun p => p.2.allocated) c.live := by
  have key : ∀ (slots : List (Option Slot)) (start : Nat),
      total (fun o => (o.map Slot.allocated).getD 0) slots =
        total (fun p => p.2.allocated) (liveFrom start slots) := by
    intro slots
    induction slots with
    | nil => exact fun _ => rfl
    | cons o rest ih =>
      intro start
      rw [total, ih (start + 1)]
      cases o with
      | none => exact Nat.zero_add _
      | some s => rfl
  exact key c.slots 0

/-- Emptying one place takes its slot out of the live ones. -/
theorem liveFrom_set (slots : List (Option Slot)) (id start : Nat) :
    liveFrom start (slots.set id none) =
      (liveFrom start slots).filter fun p => p.1 ≠ start + id := by
  induction slots generalizing id start with
  | nil => rfl
  | cons o rest ih =>
    cases id with
    | zero =>
      have hrest : (liveFrom (start + 1) rest).filter (fun p => p.1 ≠ start + 0) =
          liveFrom (start + 1) rest := List.filter_eq_self.mpr fun p hp => by
        simpa using Nat.ne_of_gt (le_of_mem_liveFrom hp)
      rw [List.set_cons_zero, liveFrom_none]
      cases o with
      | none => rw [liveFrom_none, hrest]
      | some s => rw [liveFrom_some, List.filter_cons_of_neg (by simp), hrest]
    | succ id =>
      have hnext := ih id (start + 1)
      rw [Nat.add_right_comm, Nat.add_assoc] at hnext
      rw [List.set_cons_succ]
      cases o with
      | none => rw [liveFrom_none, liveFrom_none, hnext]
      | some s => rw [liveFrom_some, liveFrom_some, List.filter_cons_of_pos (by simp), hnext]

theorem slots_evict (c : Cache) (id : SlotId) :
    (Action.exec (evict id) c).2.slots = c.slots.set id none := by
  rw [exec_evict]
  cases hs : c.slot? id with
  | some s => rfl
  | none =>
    simp only
    rw [slot?, Option.join_eq_none_iff] at hs
    refine (List.ext_getElem? fun i => ?_).symm
    rw [List.getElem?_set]
    split
    next he =>
      subst he
      rcases hs with hs | hs <;> rw [hs]
      · rw [if_neg (by simpa using hs)]
      · rw [if_pos (List.getElem?_eq_some_iff.mp hs).1]
    next => rfl

theorem live_evict (c : Cache) (id : SlotId) :
    (Action.exec (evict id) c).2.live = c.live.filter fun p => p.1 ≠ id := by
  have hset := liveFrom_set c.slots id 0
  rw [Nat.zero_add, ← slots_evict] at hset
  exact hset

end Cache

namespace Scheduler

/-! ## The first phase -/

def slotsOf (s : Scheduler) (ids : List RequestId) : List SlotId :=
  (s.requests.filter fun r => r.id ∈ ids).filterMap Request.slot

theorem DistinctIds.mem_slotsOf {s : Scheduler} (h : s.DistinctIds) {r : Request}
    (hr : r ∈ s.requests) (ids : List RequestId) (slot : SlotId) :
    slot ∈ s.slotsOf (ids ++ [r.id]) ↔ slot ∈ s.slotsOf ids ∨ r.slot = some slot := by
  simp only [slotsOf, List.mem_filterMap, List.mem_filter, decide_eq_true_eq, List.mem_append,
    List.mem_singleton]
  constructor
  · rintro ⟨x, ⟨hx, hid | hid⟩, hslot⟩
    · exact .inl ⟨x, ⟨hx, hid⟩, hslot⟩
    · exact .inr (h.eq hx hr hid ▸ hslot)
  · rintro (⟨x, ⟨hx, hid⟩, hslot⟩ | hslot)
    · exact ⟨x, ⟨hx, .inl hid⟩, hslot⟩
    · exact ⟨r, ⟨hr, .inr rfl⟩, hslot⟩

end Scheduler

namespace Round

theorem live_freed (c : Cache) (slot : Option SlotId) :
    (Scheduler.freed c slot).live = c.live.filter fun p => slot ≠ some p.1 := by
  cases slot with
  | none => simp [Scheduler.freed]
  | some slot =>
    rw [Scheduler.freed, Cache.live_evict]
    exact List.filter_congr fun p _ => by simp [eq_comm]

/-- The slots of the requests that have ended are live no more; all others are as they were. -/
theorem Dues.live {now : Nat} {a b : Round} (hd : Dues now a b) (h : a.scheduler.Lined)
    (hnone : a.retired = []) : b.scheduler.cache.live =
      a.scheduler.cache.live.filter fun p => p.1 ∉ a.scheduler.slotsOf b.retired := by
  induction hd with
  | refl => simp [hnone, Scheduler.slotsOf]
  | @tail b c hab hm ih =>
    cases hm with
    | @retire r ended event hr hlive hdue hend =>
      obtain ⟨x, hx, hends⟩ := Request.apply_expiry hdue hlive
      cases hend.symm.trans hx
      -- a live request is as it was at first
      obtain ⟨r', hr', rfl | ⟨-, -, rfl⟩⟩ := Dues.requests hab r hr
      · rw [retire, Scheduler.retire, Scheduler.release_eq, hends.id, hends.slot]
        change (Scheduler.freed b.scheduler.cache r.slot).live = _
        rw [live_freed, ih, List.filter_filter]
        refine List.filter_congr fun p _ => ?_
        rw [Bool.eq_iff_iff]
        simp only [Bool.and_eq_true, decide_eq_true_eq, h.enrolled.ids.mem_slotsOf hr', not_or]
        exact and_comm
      · cases hlive

end Round

namespace Scheduler

variable {config : SchedulerConfig} {cacheConfig : CacheConfig} {layout : Layout} {s : Scheduler}

def overdue (s : Scheduler) (now : Nat) : List Request :=
  s.requests.filter fun r => !r.state.isTerminal && decide (r.Overdue now)

theorem mem_overdue {r : Request} {now : Nat} :
    r ∈ s.overdue now ↔ r ∈ s.requests ∧ r.state.isTerminal = false ∧ r.Overdue now := by
  simp [overdue]

/-- Nobody who is due outlasts the first phase. -/
theorem Lined.not_kept (h : s.Lined) {now : Nat} {r : Request} (hdue : r ∈ s.overdue now) :
    r ∉ (({ scheduler := s } : Round).expire now).scheduler.requests := fun hkept => by
  obtain ⟨-, hlive, hdue⟩ := mem_overdue.mp hdue
  rw [← Request.expiry?_isSome, Round.not_due_of_expire h.enrolled.ids hkept hlive] at hdue
  cases hdue

/-- The first phase reports those that were due. -/
theorem Lined.mem_expired (h : s.Lined) (now : Nat) (id : RequestId) :
    id ∈ (({ scheduler := s } : Round).expire now).retired ↔
      id ∈ (s.overdue now).map Request.id := by
  obtain ⟨hdues, -⟩ := h.phases now
  rw [h.enrolled.mem_retired hdues.moves.ids (h.expire_reported now), List.mem_map]
  constructor
  · rintro ⟨⟨r, hr, rfl, hlive⟩, x, hx, hxid, hterm⟩
    obtain ⟨y, hy, rfl | ⟨hlive', hdue, rfl⟩⟩ := hdues.requests x hx
    · obtain rfl := h.enrolled.ids.eq hy hr hxid
      rw [hlive] at hterm
      cases hterm
    · exact ⟨y, mem_overdue.mpr ⟨hy, hlive', Request.expiry?_isSome.mp hdue⟩, hxid⟩
  · rintro ⟨r, hdue, rfl⟩
    obtain ⟨hr, hlive, -⟩ := mem_overdue.mp hdue
    have hid : r.id ∈ (({ scheduler := s } : Round).expire now).scheduler.requests.map Request.id :=
      hdues.moves.ids ▸ List.mem_map_of_mem hr
    obtain ⟨x, hx, hxid⟩ := List.mem_map.mp hid
    refine ⟨⟨r, hr, rfl, hlive⟩, x, hx, hxid, ?_⟩
    rw [← Bool.not_eq_false]
    intro hxlive
    obtain ⟨y, hy, rfl | ⟨-, -, rfl⟩⟩ := hdues.requests x hx
    · obtain rfl := h.enrolled.ids.eq hy hr hxid
      exact h.not_kept hdue hx
    · cases hxlive

/-- Who was due is stored as it ended. -/
theorem Lined.expired_stored (h : s.Lined) {now : Nat} {r : Request}
    (hdue : r ∈ s.overdue now) : r.expired ∈ (s.tick now).scheduler.requests := by
  obtain ⟨x, hx, -, ⟨-, hkept⟩ | ⟨-, -, rfl⟩⟩ := h.tick_fate now (mem_overdue.mp hdue).1
  · exact absurd hkept (h.not_kept hdue)
  · exact hx

/-- Nobody is cancelled in a tick but who was due. -/
theorem Lined.cancelled_of_tick (h : s.Lined) {now : Nat} {x : Request}
    (hx : x ∈ (s.tick now).scheduler.requests) (hstate : x.state = .cancelled) :
    x ∈ s.requests ∨ ∃ r ∈ s.overdue now, x = r.expired := by
  obtain ⟨r, hr, -, ⟨hcarries, -⟩ | ⟨hlive, hdue, rfl⟩⟩ := h.tick_requests now x hx
  · have hterm : x.state.isTerminal = true := by rw [hstate]; rfl
    rcases hcarries.outcome hterm with rfl | ⟨-, hfailed⟩
    · exact .inl hr
    · rw [hstate] at hfailed
      cases hfailed
  · exact .inr ⟨r, mem_overdue.mpr ⟨hr, hlive, Request.expiry?_isSome.mp hdue⟩, rfl⟩

/-! ## The memory of those that end -/

/-- The first phase gives back the slots of those that were due. -/
theorem Operated.freed (h : Operated config cacheConfig layout s) (now : Nat) :
    let cache := (({ scheduler := s } : Round).expire now).scheduler.cache
    let slots := (s.overdue now).filterMap Request.slot
    cache.live = s.cache.live.filter (fun p => p.1 ∉ slots) ∧
      cache.used = s.cache.usedBesides slots := by
  intro cache slots
  obtain ⟨hdues, -⟩ := h.lined.phases now
  have hlive : cache.live = s.cache.live.filter (fun p => p.1 ∉ slots) := by
    refine (hdues.live h.lined rfl).trans (List.filter_congr fun p _ => ?_)
    have hslots : s.slotsOf (({ scheduler := s } : Round).expire now).retired = slots := by
      refine congrArg (List.filterMap Request.slot) (List.filter_congr fun r hr => ?_)
      rw [Bool.eq_iff_iff, decide_eq_true_iff, h.lined.mem_expired, List.mem_map]
      constructor
      · rintro ⟨x, hx, hid⟩
        obtain ⟨hx', hlive, hdue⟩ := mem_overdue.mp hx
        obtain rfl := h.lined.enrolled.ids.eq hx' hr hid
        simp [hlive, hdue]
      · exact fun hdue => ⟨r, List.mem_filter.mpr ⟨hr, hdue⟩, rfl⟩
    rw [hslots]
  refine ⟨hlive, ?_⟩
  have hsound : cache.Sound := hdues.calls.called.sound h.sound
  have hlimits : cache.layout = s.cache.layout := hdues.calls.called.limits.layout
  rw [hsound.used, Cache.charged_eq, hlive, hlimits]
  rfl

/-- The first in line is admitted if it fits. -/
theorem Operated.admits_first (h : Operated config cacheConfig layout s) {now : Nat} {r : Request}
    {rest : List Request} :
    let start := ({ scheduler := s } : Round).expire now
    let cut := r.truncatePrompt s.cacheConfig.maxContext
    start.scheduler.line = r :: rest → start.scheduler.running.length < s.config.maxSeqs →
    0 < s.cacheConfig.maxContext →
    (r.prompt.length ≤ s.cacheConfig.maxContext ∨ s.config.truncateLongPrompts = true) →
    start.scheduler.cache.canFit (start.scheduler.positionsFor cut) = true →
    r.id ∈ s.admissions now := by
  intro start cut hline hseats hcontext hlong hfit
  obtain ⟨hdues, hlined, -⟩ := h.lined.phases now
  have hconfig : start.scheduler.config = s.config := hdues.calls.config
  have hcache : start.scheduler.cacheConfig = s.cacheConfig := hdues.calls.cacheConfig
  -- the walk begins with this request, and goes on with the others behind it
  have hturn : start.greedy [] (r :: rest) =
      (start.letIn cut (start.scheduler.positionsFor cut)).greedy [cut] rest := by
    rw [Round.greedy]
    simp only [hconfig, hcache]
    rw [if_neg (Nat.not_le.mpr hseats), if_neg, if_neg (fun h => h.1 rfl), if_pos hfit,
      if_neg (Nat.ne_of_gt hcontext), List.nil_append]
    rintro ⟨hlt, hcut⟩
    rcases hlong with hle | htrue
    · exact Nat.not_lt_of_le hle hlt
    · rw [hcut] at htrue
      cases htrue
  have hids := hlined.enrolled.ids.line_ids
  rw [hline, List.map_cons, List.nodup_cons] at hids
  have hid : cut.id = r.id := rfl
  have hstored : ∀ x ∈ rest,
      x ∈ (start.letIn cut (start.scheduler.positionsFor cut)).scheduler.requests := fun x hx => by
    refine Round.mem_update_of_ne (mem_line.mp (hline ▸ List.mem_cons_of_mem r hx)).1 fun he => ?_
    exact hids.1 (hid ▸ he ▸ List.mem_map_of_mem hx)
  obtain ⟨new, hnew⟩ := Round.greedy_walked [cut] rest hstored hids.2
  have hwalk := h.admitWaiting_eq now
  change start.admitWaiting = start.greedy [] start.scheduler.line at hwalk
  have hran : start.admitWaiting.scheduler.running =
      start.scheduler.running ++ (r.id :: new.map Request.id) := by
    rw [hwalk, hline, hturn, hnew.running, ← hid]
    exact List.append_assoc start.scheduler.running [cut.id] _
  change r.id ∈ start.admitWaiting.scheduler.running.drop start.scheduler.running.length
  rw [hran, List.drop_left]
  exact List.mem_cons_self

/-! ## The tick -/

/-- What a tick does about the requests that are due. -/
structure ExpiresExactly (s : Scheduler) (now : Nat) : Prop where
  /-- They end as cancelled, with what they have generated. -/
  ends : ∀ r ∈ s.overdue now, ∃ x ∈ (s.schedule now).2.requests, x.id = r.id ∧
    x.state = .cancelled ∧ x.slot = none ∧ x.output = r.output ∧ x.steps = r.steps ∧
    x.failure.map Failure.kind = some (if r.cancelRequested then .cancelled else .timeout)
  /-- They are reported, and neither run nor wait. -/
  leave : ∀ r ∈ s.overdue now, r.id ∈ (s.schedule now).1.retired ∧
    r.id ∉ (s.schedule now).1.batch ∧ r.id ∉ (s.schedule now).2.running ∧
    r.id ∉ (s.schedule now).2.waiting.map QueueEntry.request
  /-- Nobody else is cancelled. -/
  only : ∀ x ∈ (s.schedule now).2.requests, x.state = .cancelled →
    x ∈ s.requests ∨ ∃ r ∈ s.overdue now, x.id = r.id
  /-- Before the first request is admitted, their slots are gone, with what is charged for them. -/
  freed : (({ scheduler := s } : Round).expire now).scheduler.cache.live =
      s.cache.live.filter (fun p => p.1 ∉ (s.overdue now).filterMap Request.slot) ∧
    (({ scheduler := s } : Round).expire now).scheduler.cache.used =
      s.cache.usedBesides ((s.overdue now).filterMap Request.slot)
  /-- So the first in line is admitted if it fits beside those that are left. -/
  reused : ∀ r rest, (({ scheduler := s } : Round).expire now).scheduler.line = r :: rest →
    (({ scheduler := s } : Round).expire now).scheduler.running.length < s.config.maxSeqs →
    0 < s.cacheConfig.maxContext →
    (r.prompt.length ≤ s.cacheConfig.maxContext ∨ s.config.truncateLongPrompts = true) →
    (∀ limit, s.cacheConfig.memoryBudget = some limit →
      s.cache.usedBesides ((s.overdue now).filterMap Request.slot) +
        s.cache.bytesFor (s.positionsFor (r.truncatePrompt s.cacheConfig.maxContext)) ≤ limit) →
    r.id ∈ s.admissions now

/-- A tick ends those that are due, and nobody else, before it admits the first request. -/
theorem Operated.expiresExactly (h : Operated config cacheConfig layout s) (now : Nat) :
    s.ExpiresExactly now where
  ends := fun r hr =>
    ⟨r.expired, h.lined.expired_stored hr, rfl, rfl, rfl, rfl, rfl, r.expired_kind⟩
  leave := fun r hr => by
    have hstored := h.lined.expired_stored hr
    obtain ⟨hm, hlive, -⟩ := mem_overdue.mp hr
    have hafter : (s.schedule now).2.Enrolled := (h.lined.tick now).enrolled
    have hrunning : r.id ∉ (s.schedule now).2.running := fun hid => by
      cases (hafter.mem_running hstored).mp hid
    refine ⟨(h.lined.mem_retired now r.id).mpr ⟨⟨r, hm, rfl, hlive⟩, _, hstored, rfl, rfl⟩,
      fun hid => hrunning ?_, hrunning, fun hid => ?_⟩
    · have hround : (s.tick now).scheduler.Enrolled := hafter
      exact hround.batch_eq ▸ hid
    · cases (hafter.mem_waiting hstored).mp hid
  only := fun x hx hstate => (h.lined.cancelled_of_tick hx hstate).imp_right
    fun ⟨r, hr, hxr⟩ => ⟨r, hr, by rw [hxr]; rfl⟩
  freed := h.freed now
  reused := fun r rest hline hseats hcontext hlong hroom => by
    obtain ⟨hdues, -⟩ := h.lined.phases now
    refine h.admits_first hline hseats hcontext hlong ?_
    have hpositions : ∀ x, (({ scheduler := s } : Round).expire now).scheduler.positionsFor x =
        s.positionsFor x := fun x => by
      unfold positionsFor
      rw [hdues.calls.cacheConfig]
    have hbytes : ∀ n, (({ scheduler := s } : Round).expire now).scheduler.cache.bytesFor n =
        s.cache.bytesFor n := fun n => by
      unfold Cache.bytesFor
      rw [hdues.calls.called.limits.layout, hdues.calls.called.limits.blockSize]
    have hbudget : (({ scheduler := s } : Round).expire now).scheduler.cache.budget =
        s.cacheConfig.memoryBudget := by
      rw [hdues.calls.called.limits.budget, h.calls.called.limits.budget, h.calls.cacheConfig]
      rfl
    rw [Cache.canFit, Cache.affords, hbudget, hpositions, hbytes, (h.freed now).2,
      Option.all_eq_true]
    exact fun limit hlimit => decide_eq_true (hroom limit hlimit)

end Scheduler

end CausalServe
