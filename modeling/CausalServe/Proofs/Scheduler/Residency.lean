import CausalServe.Proofs.Cache.Appending
import CausalServe.Proofs.Scheduler.Tick

/-! What a slot holds of the request that it was given to: the first tokens of the request, and none
of them twice. While a tick is planned requests are seated and sent back, but nothing is written, so
a slot that was given out before the tick holds what it held, and one that was given out since is
empty. -/

namespace CausalServe

/-- What the slots of a cache were fed since they were given out, where no row was written since a
time on its clock: a slot that is newer than that was given out since, and was fed nothing. -/
def Cache.fedSince (c : Cache) (clock : Nat) (fed : SlotId → List Token) (slot : SlotId) :
    List Token :=
  if (c.slot? slot).any fun st => clock < st.lastExtended then [] else fed slot

namespace Cache

variable {c c' : Cache} {clock : Nat} {fed : SlotId → List Token} {slot : SlotId} {st : Slot}

theorem fedSince_congr (h : c'.slot? slot = c.slot? slot) :
    c'.fedSince clock fed slot = c.fedSince clock fed slot := by
  simp only [fedSince, h]

theorem fedSince_charged (hst : c.slot? slot = some st) {charge : Nat}
    (h : c'.slot? slot = some { st with allocated := charge }) :
    c'.fedSince clock fed slot = c.fedSince clock fed slot := by
  simp only [fedSince, h, hst, Option.any_some]

theorem fedSince_new (hst : c.slot? slot = some st) (hnew : clock < st.lastExtended) :
    c.fedSince clock fed slot = [] := by
  simp only [fedSince, hst, Option.any_some, decide_eq_true hnew, if_true]

/-- Nothing is newer than the clock. -/
theorem Sound.fedSince_clock (hc : c.Sound) : c.fedSince c.clock fed = fed := by
  funext slot
  cases hst : c.slot? slot with
  | none => simp only [fedSince, hst, Option.any_none, Bool.false_eq_true, if_false]
  | some st =>
    have hstamp := (hc.slots slot st hst).stamp
    simp only [fedSince, hst, Option.any_some, decide_eq_true_eq]
    exact if_neg (Nat.not_lt_of_le hstamp)

theorem clock_of_reserve {n : Nat} (hst : c.slot? slot = some st)
    (h : Action.exec (reserve slot n) c = (.ok (), c')) : c'.clock = c.clock := by
  rcases reserve_ok hst h with ⟨-, rfl⟩ | ⟨-, -, rfl⟩
  · rfl
  · rfl

end Cache

theorem Scheduler.clock_freed (c : Cache) (slot : Option SlotId) :
    (freed c slot).clock = c.clock := by
  cases slot with
  | none => rfl
  | some slot =>
    rw [freed, Cache.exec_evict]
    cases c.slot? slot with
    | none => rfl
    | some st => rfl

namespace Request

/-- A slot that was fed a number of its request's tokens, from the first on. -/
structure Occupies (limit : Nat) (fed : SlotId → List Token) (n : Nat) (r : Request)
    (slot : SlotId) (st : Slot) : Prop where
  capacity : st.capacity = limit
  given : st.Given n
  tokens : fed slot = r.tokens.take n

/-- A live request, whose slot was fed a number of its tokens if it runs. Between two ticks that is
all but the last one. -/
structure Resides (limit : Nat) (c : Cache) (fed : SlotId → List Token) (n : Nat) (r : Request) :
    Prop where
  unfed : r.state ≠ .decoding → r.cached = 0
  decoding : r.state = .decoding → r.cached + 1 = r.totalLen
  seated : r.state.isRunning = true → ∃ slot st, r.slot = some slot ∧ c.slot? slot = some st ∧
    r.Occupies limit fed n slot st

variable {limit n : Nat} {c c' : Cache} {fed fed' : SlotId → List Token} {r : Request}

/-- A request resides in its own slot. -/
theorem Resides.of_same (h : r.Resides limit c fed n) (hsame : ∀ slot, r.slot = some slot →
    c'.slot? slot = c.slot? slot ∧ fed' slot = fed slot) : r.Resides limit c' fed' n where
  unfed := h.unfed
  decoding := h.decoding
  seated := by
    intro hrun
    obtain ⟨slot, st, hslot, hst, hocc⟩ := h.seated hrun
    obtain ⟨hslots, hfed⟩ := hsame slot hslot
    exact ⟨slot, st, hslot, hslots.trans hst, { hocc with tokens := hfed.trans hocc.tokens }⟩

/-- A request in the queue has no slot to look at. -/
theorem resides_of_queued (hq : r.state = .queued) (hunfed : r.cached = 0) :
    r.Resides limit c fed n where
  unfed := fun _ => hunfed
  decoding := by
    intro hd
    rw [hq] at hd
    cases hd
  seated := by
    intro hrun
    rw [hq] at hrun
    cases hrun

end Request

/-- The live requests of a scheduler, each with the number of its tokens that its slot was fed. -/
def Scheduler.Lodges (limit : Nat) (count : Request → Nat) (s : Scheduler)
    (fed : SlotId → List Token) : Prop :=
  ∀ r ∈ s.requests, r.state.isTerminal = false → r.Resides limit s.cache fed (count r)

variable {limit : Nat} {count count' : Request → Nat} {fed fed' : SlotId → List Token}

/-- When a request takes the place of another, the others reside where they did, as long as their
slots are left alone. -/
theorem Scheduler.Lodges.replace {s s' : Scheduler} (h : s.Lodges limit count fed) {r : Request}
    (hreq : s'.requests = (s.update r).requests)
    (hothers : ∀ x ∈ s.requests, x.id ≠ r.id → count' x = count x ∧ ∀ slot, x.slot = some slot →
      s'.cache.slot? slot = s.cache.slot? slot ∧ fed' slot = fed slot)
    (hself : r.state.isTerminal = false → r.Resides limit s'.cache fed' (count' r)) :
    s'.Lodges limit count' fed' := by
  intro x hx hlive
  rw [hreq] at hx
  rcases Scheduler.mem_update.mp hx with ⟨rfl, -⟩ | ⟨hx, hne⟩
  · exact hself hlive
  · obtain ⟨hcount, hsame⟩ := hothers x hx hne
    rw [hcount]
    exact (h x hx hlive).of_same hsame

namespace Round

variable {now clock : Nat} {a b : Round}

/-- A round of a tick that began at a time on the clock of the cache. Since then no row was written,
and the cached tokens of each request are in its slot. -/
structure Lodged (limit clock : Nat) (fed : SlotId → List Token) (round : Round) : Prop where
  owned : round.scheduler.Owned
  context : round.scheduler.cacheConfig.maxContext = limit
  later : clock ≤ round.scheduler.cache.clock
  lodges : round.scheduler.Lodges limit Request.cached
    (round.scheduler.cache.fedSince clock fed)

/-- A request that gives its slot back leaves the slots of the others as they are. -/
theorem Lodged.released (h : a.Lodged limit clock fed) {r x : Request}
    (hr : r ∈ a.scheduler.requests) (hid : x.id = r.id) {s' : Scheduler}
    (hreq : s'.requests = (a.scheduler.update x).requests)
    (hcache : s'.cache = Scheduler.freed a.scheduler.cache r.slot)
    (hself : x.state.isTerminal = false → x.state = .queued ∧ x.cached = 0) :
    s'.Lodges limit Request.cached (s'.cache.fedSince clock fed) := by
  refine h.lodges.replace hreq ?_ ?_
  · intro y hy hne
    refine ⟨rfl, fun slot hslot => ?_⟩
    have hsame := slots_freed h.owned hr hy (fun he => hne (he.trans hid.symm)) hslot
    rw [hcache]
    exact ⟨hsame, Cache.fedSince_congr hsame⟩
  · intro hlive
    obtain ⟨hq, hunfed⟩ := hself hlive
    exact Request.resides_of_queued hq hunfed

/-- A queued request takes its seat in an empty slot, and the slots of the others are left alone. -/
theorem Lodged.seat (h : a.Lodged limit clock fed) {r : Request} (hr : r ∈ a.scheduler.requests)
    (hq : r.state = .queued) {n : Nat} {cache : Cache}
    (hres : Action.exec (Cache.reserve a.scheduler.cache.nextId n)
      (a.scheduler.cache.opened r.id limit) = (.ok (), cache)) (rest : List QueueEntry) :
    clock ≤ cache.clock ∧
      (a.seat (r.startIn a.scheduler.cache.nextId) cache rest).scheduler.Lodges limit Request.cached
        (cache.fedSince clock fed) := by
  have hsound := h.owned.sound
  have hunfed := (h.lodges r hr (by rw [hq]; rfl)).unfed (by rw [hq]; nofun)
  have hnew := hsound.slot?_opened r.id limit a.scheduler.cache.nextId
  rw [if_pos rfl] at hnew
  have htick : cache.clock = a.scheduler.cache.clock + 1 := Cache.clock_of_reserve hnew hres
  have hlater := h.later
  refine ⟨by omega, h.lodges.replace (r := r.startIn a.scheduler.cache.nextId) rfl ?_ ?_⟩
  · intro x hx hne
    refine ⟨rfl, fun slot hslot => ?_⟩
    have hsame := slots_seated h.owned hx hslot hres
    exact ⟨hsame, Cache.fedSince_congr hsame⟩
  · intro _
    obtain ⟨charge, hst⟩ := Cache.slot?_of_reserve_ok hnew hres
    exact {
      unfed := fun _ => hunfed
      decoding := nofun
      seated := fun _ => ⟨a.scheduler.cache.nextId, _, rfl, hst, {
        capacity := rfl
        given := by
          show Slot.Given _ r.cached
          rw [hunfed]
          exact a.scheduler.cache.given_freshSlot r.id limit
        tokens := by
          show cache.fedSince clock fed a.scheduler.cache.nextId = r.tokens.take r.cached
          rw [hunfed, List.take_zero]
          exact Cache.fedSince_new hst (Nat.lt_succ_of_le hlater) }⟩ }

/-- A slot that grows holds what it held. -/
theorem Lodged.reserve (h : a.Lodged limit clock fed) {r : Request}
    (hr : r ∈ a.scheduler.requests) (hrun : r.state.isRunning = true) {slot : SlotId}
    (hslot : r.slot = some slot) {n : Nat} {cache : Cache}
    (hres : Action.exec (Cache.reserve slot n) a.scheduler.cache = (.ok (), cache)) :
    clock ≤ cache.clock ∧ ({ a.scheduler with cache := cache } : Scheduler).Lodges limit
      Request.cached (cache.fedSince clock fed) := by
  have hself := h.lodges r hr (RequestState.isTerminal_of_isRunning hrun)
  obtain ⟨slot', st, hslot', hst, hocc⟩ := hself.seated hrun
  cases hslot.symm.trans hslot'
  obtain ⟨charge, hcharge⟩ := Cache.slot?_of_reserve_ok hst hres
  have htick := Cache.clock_of_reserve hst hres
  have hlater := h.later
  have hreq : a.scheduler.requests = (a.scheduler.update r).requests :=
    congrArg Scheduler.requests (h.owned.ids.update_self hr).symm
  refine ⟨by omega, h.lodges.replace hreq ?_ ?_⟩
  · intro x hx hne
    refine ⟨rfl, fun other hother => ?_⟩
    have hdiff : other ≠ slot := fun he =>
      hne (by rw [h.owned.slot_inj hx hr (he ▸ hother) hslot])
    have hsame := Cache.slot?_reserve_ne hst hres hdiff
    exact ⟨hsame, Cache.fedSince_congr hsame⟩
  · intro _
    exact { hself with
      seated := fun _ => ⟨slot, _, hslot, hcharge, {
        capacity := hocc.capacity
        given := hocc.given
        tokens := (Cache.fedSince_charged hst hcharge).trans hocc.tokens }⟩ }

/-- Whatever a plan does to a request, the cached tokens of all requests stay in their slots. -/
theorem Move.lodged (hm : Move now a b) (h : a.Lodged limit clock fed) :
    b.Lodged limit clock fed := by
  have howned := hm.owned h.owned
  have hcontext : b.scheduler.cacheConfig.maxContext = limit := by
    rw [hm.settings.cacheConfig]
    exact h.context
  cases hm with
  | @fit r cut hr hq hfit =>
    have hkept := Scheduler.fitPrompt_kept hfit
    have hunfed := (h.lodges r hr (by rw [hq]; rfl)).unfed (by rw [hq]; decide)
    refine ⟨howned, hcontext, h.later,
      h.lodges.replace rfl (fun _ _ _ => ⟨rfl, fun _ _ => ⟨rfl, rfl⟩⟩) ?_⟩
    intro _
    exact Request.resides_of_queued (by rw [hkept, hq]) (by rw [hkept]; exact hunfed)
  | @retire r ended hr hlive hcause =>
    have hends := hcause.endsAs hlive
    have hcache : (a.retire ended).scheduler.cache = Scheduler.freed a.scheduler.cache r.slot := by
      rw [Round.retire, Scheduler.retire, Scheduler.release_eq, hends.slot]
      rfl
    refine ⟨howned, hcontext, ?_, ?_⟩
    · rw [hcache, Scheduler.clock_freed]
      exact h.later
    · refine h.released (x := { ended with slot := none }) hr hends.id rfl hcache ?_
      intro hlive'
      cases hends.terminal.symm.trans hlive'
  | @enter r entry rest cache hr hq hwait hentry hlt hfit hpos hres =>
    rw [h.context] at hres
    obtain ⟨hlater, hlodges⟩ := h.seat hr hq hres rest
    exact ⟨howned, hcontext, hlater, hlodges⟩
  | @reserve r slot needed cache hr hrun hslot hneed hres =>
    obtain ⟨hlater, hlodges⟩ := h.reserve hr hrun hslot hres
    exact ⟨howned, hcontext, hlater, hlodges⟩
  | @preempt r hr hrun hpolicy =>
    have hcache : (a.unseat r).scheduler.cache = Scheduler.freed a.scheduler.cache r.slot := by
      rw [unseat, Scheduler.release_eq]
      rfl
    refine ⟨howned, hcontext, ?_, ?_⟩
    · rw [hcache, Scheduler.clock_freed]
      exact h.later
    · exact h.released (x := r.requeued) hr rfl rfl hcache fun _ => ⟨rfl, rfl⟩

theorem Moves.lodged (hm : Moves now a b) (h : a.Lodged limit clock fed) :
    b.Lodged limit clock fed := hm.keep h fun _ _ => Move.lodged

end Round

/-- After a tick was planned, the slots hold what they held, and new ones hold nothing. -/
theorem Scheduler.Lodges.tick {s : Scheduler} (h : s.Lodges limit Request.cached fed)
    (howned : s.Owned) (hcontext : s.cacheConfig.maxContext = limit) (now : Nat) :
    (s.tick now).scheduler.Lodges limit Request.cached
      ((s.tick now).scheduler.cache.fedSince s.cache.clock fed) := by
  have hstart : Round.Lodged limit s.cache.clock fed { scheduler := s } := by
    refine ⟨howned, hcontext, Nat.le_refl _, ?_⟩
    show s.Lodges limit Request.cached (s.cache.fedSince s.cache.clock fed)
    rw [howned.sound.fedSince_clock]
    exact h
  exact ((howned.moves_tick now).lodged hstart).lodges

end CausalServe
