import CausalServe.Proofs.Cache.Budget
import CausalServe.Proofs.Scheduler.Reachable

/-! What admission makes of a budget. A request is refused or kept waiting by an estimate of what a
fresh slot takes, and the estimate counts whole blocks. It agrees with the charge itself, unless the
last block of a request reaches beyond the context: then the slot would be charged with less. -/

namespace CausalServe

/-- The second phase of a tick looks at a queued request. -/
structure Look where
  scheduler : Scheduler
  /-- The prompt tokens that were admitted before, if any were. -/
  fed : Option Nat
  request : Request

namespace Look

def outcome (look : Look) : Admission := look.scheduler.admission look.fed look.request

def ended? (look : Look) : Option RequestId :=
  match look.outcome with
  | .refused r _ => some r.id
  | _ => none

def postponed? (look : Look) : Option RequestId :=
  match look.outcome with
  | .postponed r _ => some r.id
  | _ => none

end Look

namespace Round

/-- The looks that the second phase takes over a queue. -/
def looks (round : Round) (fed : Option Nat) : List QueueEntry → List Look
  | [] => []
  | entry :: rest =>
    let s := round.scheduler
    if s.config.maxSeqs ≤ s.running.length then []
    else match s.requests.find? fun r => r.id = entry.request && r.state == .queued with
      | none => looks round fed rest
      | some r => ⟨s, fed, r⟩ :: match s.admission fed r with
        | .refused r e => looks (round.refuse r e) fed rest
        | .postponed _ _ => []
        | .admitted r cache =>
          let s := { s.update r with cache := cache, running := s.running ++ [r.id] }
          looks { round with scheduler := s } (some (fed.getD 0 + r.pendingLen)) rest

end Round

namespace Scheduler

variable {s : Scheduler}

/-- What an admission gives a slot in keeps the books and the limits. -/
theorem sound_of_admitted (hc : s.cache.Sound) {fed : Option Nat} {r seated : Request}
    {cache : Cache} (h : s.admission fed r = .admitted seated cache) :
    cache.Sound ∧ Cache.SameLimits s.cache cache := by
  rcases admission_cases hc fed r with ⟨e, -, hadm⟩ |
    ⟨cut, -, ⟨hadm, -⟩ | ⟨e, hadm, -⟩ | ⟨cache', hpos, hres, hadm⟩⟩
  · cases hadm.symm.trans h
  · cases hadm.symm.trans h
  · cases hadm.symm.trans h
  · cases hadm.symm.trans h
    have hslot := hc.slot?_opened cut.id s.cacheConfig.maxContext s.cache.nextId
    rw [if_pos rfl] at hslot
    refine ⟨(hc.opened cut.id hpos).reserve_ok hslot hres, ?_⟩
    have hlim := Cache.reserve_limits (s.cache.opened cut.id s.cacheConfig.maxContext)
      s.cache.nextId (s.positionsFor cut)
    rw [hres] at hlim
    have hopen : Cache.SameLimits s.cache (s.cache.opened cut.id s.cacheConfig.maxContext) :=
      ⟨rfl, rfl, rfl, rfl⟩
    exact hopen.trans hlim

/-- A queued request that is looked at is still queued if it is refused or left where it is. -/
theorem queued_of_admission {fed : Option Nat} {r kept : Request} (hq : r.state = .queued)
    (hc : s.cache.Sound) (h : (∃ e, s.admission fed r = .refused kept e) ∨
      ∃ cache, s.admission fed r = .postponed kept cache) :
    kept.id = r.id ∧ kept.state = .queued := by
  rcases admission_cases hc fed r with ⟨e, -, hadm⟩ | ⟨cut, hfit, hcases⟩
  · obtain ⟨e', h⟩ | ⟨cache, h⟩ := h <;> cases hadm.symm.trans h
    exact ⟨rfl, hq⟩
  · have hk := fitPrompt_kept hfit
    have hcut : cut.id = r.id ∧ cut.state = .queued := ⟨by rw [hk], by rw [hk]; exact hq⟩
    rcases hcases with ⟨hadm, -⟩ | ⟨e, hadm, -⟩ | ⟨cache, -, -, hadm⟩ <;>
      obtain ⟨e', h⟩ | ⟨cache, h⟩ := h <;> cases hadm.symm.trans h <;> exact hcut

/-- A request is told to need more than the whole budget where it does not fit, while no slot is
live. -/
theorem canFit_of_beyondBudget {fed : Option Nat} {r cut : Request} {id bytes : Nat}
    {budget : Option Nat} (hc : s.cache.Sound) (h : s.admission fed r =
      .refused cut (.cacheOverflow (.beyondBudget id bytes budget))) :
    s.cacheConfig.maxContext = 0 ∨
      s.cache.canFit (s.positionsFor cut) = false ∧ s.cache.activeSlots = 0 := by
  rcases admission_cases hc fed r with ⟨e, hfit, hadm⟩ |
    ⟨cut', -, ⟨hadm, -⟩ | ⟨e, hadm, hwhy⟩ | ⟨cache, -, -, hadm⟩⟩
  · cases hadm.symm.trans h
    obtain ⟨-, -, he⟩ := fitPrompt_error hfit
    cases he
  · cases hadm.symm.trans h
  · cases hadm.symm.trans h
    exact hwhy
  · cases hadm.symm.trans h

/-- A request is left where it is for the tokens of its prompt, or where it does not fit. -/
theorem canFit_of_postponed {fed : Option Nat} {r cut : Request} {cache : Cache}
    (hc : s.cache.Sound) (h : s.admission fed r = .postponed cut cache) :
    (∃ tokens, fed = some tokens ∧ s.config.maxPrefillTokens < tokens + cut.pendingLen) ∨
      s.cache.canFit (s.positionsFor cut) = false := by
  unfold admission at h
  cases hfit : s.fitPrompt r with
  | error e => simp [hfit] at h
  | ok made =>
    simp only [hfit] at h
    split at h
    next hfed =>
      cases h
      cases fed with
      | none => cases hfed
      | some tokens => exact .inl ⟨tokens, rfl, by simpa using hfed⟩
    next =>
      split at h
      next hroom =>
        -- what fits is never taken back
        unfold place at h
        rw [Cache.exec_allocate] at h
        split at h
        next c₁ e hz => cases h
        next c₁ slot hz =>
          split at hz <;> cases hz
          obtain ⟨c₂, hres⟩ := hc.reserve_fresh hroom made.id s.cacheConfig.maxContext
          simp only [hres] at h
          cases h
      next hroom =>
        split at h
        · cases h
        · cases h
          exact .inr (by simpa using hroom)

end Scheduler

namespace Round

theorem refuse_of_queued (round : Round) {r : Request} (hq : r.state = .queued) (e : Error) :
    ∃ failed, round.refuse r e = { round with
      scheduler := round.scheduler.update failed, retired := round.retired ++ [r.id] } := by
  unfold refuse
  rw [Request.fail_of_live (by rw [hq]; rfl)]
  exact ⟨_, rfl⟩

/-- What the phase finds at its looks: the books are in order and the settings are the same, and the
request that it looks at waits. -/
theorem found_of_mem_looks (queue : List QueueEntry) (round : Round) (fed : Option Nat)
    (hc : round.scheduler.cache.Sound) {look : Look} (h : look ∈ round.looks fed queue) :
    look.scheduler.cache.Sound ∧ Scheduler.SameSettings round.scheduler look.scheduler ∧
      look.request.state = .queued := by
  induction queue generalizing round fed with
  | nil => exact absurd h List.not_mem_nil
  | cons entry rest ih =>
    unfold looks at h
    simp only at h
    split at h
    · exact absurd h List.not_mem_nil
    cases hfind : round.scheduler.requests.find?
        fun r => r.id = entry.request && r.state == .queued with
    | none =>
      rw [hfind] at h
      exact ih round fed hc h
    | some r =>
      have hq : r.state = .queued := by
        have := List.find?_some hfind
        simp only [Bool.and_eq_true, beq_iff_eq] at this
        exact this.2
      rw [hfind] at h
      rcases List.mem_cons.mp h with rfl | h
      · exact ⟨hc, .refl _, hq⟩
      · cases hadm : round.scheduler.admission fed r with
        | refused kept e =>
          obtain ⟨-, hkept⟩ := Scheduler.queued_of_admission hq hc (.inl ⟨e, hadm⟩)
          obtain ⟨failed, hrefuse⟩ := round.refuse_of_queued hkept e
          rw [hadm] at h
          simp only [hrefuse] at h
          obtain ⟨hsound, hset, hq'⟩ := ih { round with
            scheduler := round.scheduler.update failed
            retired := round.retired ++ [kept.id] } fed hc h
          exact ⟨hsound, ⟨hset.config, hset.cacheConfig, hset.limits⟩, hq'⟩
        | postponed kept cache =>
          rw [hadm] at h
          exact absurd h List.not_mem_nil
        | admitted seated cache =>
          obtain ⟨hsound, hlim⟩ := Scheduler.sound_of_admitted hc hadm
          rw [hadm] at h
          obtain ⟨hsound', hset, hq'⟩ := ih _ _ hsound h
          have hseat : Scheduler.SameSettings round.scheduler
              { round.scheduler.update seated with
                cache := cache, running := round.scheduler.running ++ [seated.id] } :=
            ⟨rfl, rfl, hlim⟩
          exact ⟨hsound', hseat.trans hset, hq'⟩

/-- A look that is taken before does not change what the last one left. -/
theorem postponed_behind {looks : List Look} {full : Prop} {id : RequestId} (first : Look)
    (h : full ∨ ∃ look, looks.getLast? = some look ∧ look.postponed? = some id) :
    full ∨ ∃ look, (first :: looks).getLast? = some look ∧ look.postponed? = some id := by
  rcases h with hfull | ⟨look, hlast, hpost⟩
  · exact .inl hfull
  · refine .inr ⟨look, ?_, hpost⟩
    rw [List.getLast?_cons, hlast]
    rfl

/-- The phase ends the requests that its looks refuse. Where it leaves requests waiting, the batch is
full, or its last look left the first of them where it was. -/
theorem admitFrom_looks (queue : List QueueEntry) (round : Round) (fed : Option Nat)
    (hc : round.scheduler.cache.Sound) :
    (round.admitFrom fed queue).retired =
        round.retired ++ (round.looks fed queue).filterMap Look.ended? ∧
      ∀ entry ∈ (round.admitFrom fed queue).scheduler.waiting.head?,
        round.scheduler.config.maxSeqs ≤ (round.admitFrom fed queue).scheduler.running.length ∨
        ∃ look, (round.looks fed queue).getLast? = some look ∧
          look.postponed? = some entry.request := by
  induction queue generalizing round fed with
  | nil => exact ⟨(List.append_nil _).symm, nofun⟩
  | cons entry rest ih =>
    unfold looks admitFrom
    simp only
    by_cases hfull : round.scheduler.config.maxSeqs ≤ round.scheduler.running.length
    · rw [if_pos hfull, if_pos hfull]
      exact ⟨(List.append_nil _).symm, fun _ _ => .inl hfull⟩
    rw [if_neg hfull, if_neg hfull]
    cases hfind : round.scheduler.requests.find?
        fun r => r.id = entry.request && r.state == .queued with
    | none => exact ih round fed hc
    | some r =>
      have hfound : r.id = entry.request ∧ r.state = .queued := by simpa using List.find?_some hfind
      simp only
      cases hadm : round.scheduler.admission fed r with
      | refused kept e =>
        obtain ⟨-, hkept⟩ := Scheduler.queued_of_admission hfound.2 hc (.inl ⟨e, hadm⟩)
        obtain ⟨failed, hrefuse⟩ := round.refuse_of_queued hkept e
        obtain ⟨hretired, hwaits⟩ := ih (round.refuse kept e) fed (by rw [hrefuse]; exact hc)
        have hended : (⟨round.scheduler, fed, r⟩ : Look).ended? = some kept.id := by
          simp only [Look.ended?, Look.outcome, hadm]
        refine ⟨?_, fun entry' hentry => ?_⟩
        · simp only
          rw [hretired, List.filterMap_cons_some hended, hrefuse, List.append_assoc]
          rfl
        · have hconfig : (round.refuse kept e).scheduler.config = round.scheduler.config := by
            rw [hrefuse]
            rfl
          rw [hconfig] at hwaits
          exact postponed_behind _ (hwaits entry' hentry)
      | postponed kept cache =>
        obtain ⟨hid, -⟩ := Scheduler.queued_of_admission hfound.2 hc (.inr ⟨cache, hadm⟩)
        have hnone : (⟨round.scheduler, fed, r⟩ : Look).ended? = none := by
          simp only [Look.ended?, Look.outcome, hadm]
        have hpost : (⟨round.scheduler, fed, r⟩ : Look).postponed? = some entry.request := by
          simp only [Look.postponed?, Look.outcome, hadm, hid, hfound.1]
        refine ⟨?_, fun entry' hentry => .inr ⟨⟨round.scheduler, fed, r⟩, rfl, ?_⟩⟩
        · simp only
          rw [List.filterMap_cons_none hnone]
          exact (List.append_nil _).symm
        · cases hentry
          exact hpost
      | admitted seated cache =>
        obtain ⟨hsound, -⟩ := Scheduler.sound_of_admitted hc hadm
        have hnone : (⟨round.scheduler, fed, r⟩ : Look).ended? = none := by
          simp only [Look.ended?, Look.outcome, hadm]
        obtain ⟨hretired, hwaits⟩ := ih { round with
            scheduler := { round.scheduler.update seated with
              cache := cache, running := round.scheduler.running ++ [seated.id] } }
          (some (fed.getD 0 + seated.pendingLen)) hsound
        refine ⟨?_, fun entry' hentry => ?_⟩
        · simp only
          rw [List.filterMap_cons_none hnone]
          exact hretired
        · exact postponed_behind _ (hwaits entry' hentry)

end Round

namespace Scheduler

variable {config : SchedulerConfig} {cacheConfig : CacheConfig} {layout : Layout} {s : Scheduler}

theorem positionsFor_le_context (s : Scheduler) (r : Request) :
    s.positionsFor r ≤ s.cacheConfig.maxContext := Nat.min_le_right _ _

/-- What does not fit by the estimate is refused by the cache, but for a last block that is cut. -/
theorem cutFits_of_takesFresh {c : Cache} (hc : c.Sound) {owner : RequestId}
    {capacity positions : Nat} (hle : positions ≤ capacity) (hfit : c.canFit positions = false)
    (htakes : c.TakesFresh owner capacity positions) : c.CutFits capacity positions := by
  have hpos : 0 < capacity := by
    obtain ⟨id, c₁, c₂, halloc, -⟩ := htakes
    rw [Cache.exec_allocate] at halloc
    split at halloc
    · cases halloc
    next hne => exact Nat.pos_of_ne_zero hne
  rcases (hc.takesFresh_iff owner hpos hle).mp htakes with hroom | hcut
  · rw [hfit] at hroom
    cases hroom
  · exact hcut

/-- The estimate of admission is what a fresh slot takes, but for a last block that the capacity
cuts. So a request is told to need more than the whole budget only where an empty cache would refuse
it, and is kept waiting, if not for its prompt, only where the cache would refuse it now; or else
the last block of it reaches beyond the context. -/
theorem estimates_up_to_cut_blocks (config : SchedulerConfig) (cacheConfig : CacheConfig)
    (layout : Layout) :
    (∀ c log, Cache.Logged layout cacheConfig c log →
      ∀ owner positions capacity, 1 ≤ positions → positions ≤ capacity →
        (c.TakesFresh owner capacity positions ↔
          c.canFit positions = true ∨ c.CutFits capacity positions) ∧
        (max cacheConfig.blockSize 1 ∣ capacity → ¬ c.CutFits capacity positions)) ∧
    (∀ s, Reachable config cacheConfig layout s → ∀ now,
      let expired := ({ scheduler := s } : Round).expire now
      let looks := expired.looks none expired.scheduler.waiting
      let context := cacheConfig.maxContext
      let empty := Cache.new layout cacheConfig
      expired.admitWaiting.retired = expired.retired ++ looks.filterMap Look.ended? ∧
      (∀ entry ∈ expired.admitWaiting.scheduler.waiting.head?,
        config.maxSeqs ≤ expired.admitWaiting.scheduler.running.length ∨
        ∃ look, looks.getLast? = some look ∧ look.postponed? = some entry.request) ∧
      ∀ look ∈ looks, ∀ r,
        let positions := look.scheduler.positionsFor r
        (∀ id bytes budget,
          look.outcome = .refused r (.cacheOverflow (.beyondBudget id bytes budget)) →
            empty.TakesFresh r.id context positions → empty.CutFits context positions) ∧
        (∀ cache, look.outcome = .postponed r cache →
          (∃ tokens, look.fed = some tokens ∧ config.maxPrefillTokens < tokens + r.pendingLen) ∨
          (look.scheduler.cache.TakesFresh r.id context positions →
            look.scheduler.cache.CutFits context positions))) := by
  refine ⟨fun c log hlog owner positions capacity hpos hle => ?_, fun s hs now => ?_⟩
  · have hblock : c.blockSize = max cacheConfig.blockSize 1 := hlog.limits.blockSize
    exact ⟨hlog.sound.takesFresh_iff owner (Nat.lt_of_lt_of_le hpos hle) hle,
      fun hdvd => hlog.sound.not_cutFits hle (hblock ▸ hdvd)⟩
  · intro expired looks context empty
    obtain ⟨hexpire, howned, -⟩ := hs.owned.phases now
    have hset := hs.settings.trans hexpire.moves.settings
    obtain ⟨hretired, hwaits⟩ :=
      Round.admitFrom_looks expired.scheduler.waiting expired none howned.sound
    refine ⟨hretired, fun entry hentry => ?_, fun look hlook r => ?_⟩
    · have hconfig : expired.scheduler.config = config := hset.config
      rw [← hconfig]
      exact hwaits entry hentry
    obtain ⟨hsound, hsame, -⟩ := Round.found_of_mem_looks _ expired none howned.sound hlook
    have hset' := hset.trans hsame
    have hcontext : look.scheduler.cacheConfig.maxContext = context :=
      congrArg CacheConfig.maxContext hset'.cacheConfig
    have hle : look.scheduler.positionsFor r ≤ context :=
      hcontext ▸ positionsFor_le_context look.scheduler r
    refine ⟨fun id bytes budget hout htakes => ?_, fun cache hout => ?_⟩
    · refine cutFits_of_takesFresh (.new layout cacheConfig) hle ?_ htakes
      rcases canFit_of_beyondBudget hsound hout with hzero | ⟨hfit, hidle⟩
      · -- without a context no slot is opened at all
        obtain ⟨id, c₁, c₂, halloc, -⟩ := htakes
        rw [Cache.exec_allocate, if_pos (hcontext.symm.trans hzero)] at halloc
        cases halloc
      · rwa [← hsound.canFit_of_idle hset'.limits hidle]
    · have hconfig : look.scheduler.config = config := hset'.config
      rw [← hconfig]
      exact (canFit_of_postponed hsound hout).imp id fun hfit =>
        cutFits_of_takesFresh hsound hle hfit

/-- A request for three positions, which take a block, where the budget covers half of one: it is
refused, and an empty cache would refuse it as well. -/
theorem three_positions_in_half_a_block : ∃ s r,
    Reachable {} { maxContext := 16, memoryBudget := some 64 } ⟨1, 1, 1, 1⟩ s ∧ r ∈ s.requests ∧
    s.admission none r = .refused r (.cacheOverflow (.beyondBudget r.id 128 (some 64))) ∧
    ¬ (Cache.new ⟨1, 1, 1, 1⟩ { maxContext := 16, memoryBudget := some 64 }).TakesFresh r.id 16 3 := by
  have hs : Reachable {} { maxContext := 16, memoryBudget := some 64 } ⟨1, 1, 1, 1⟩ _ :=
    .addRequest .new (Request.Fresh.mk (r := Request.new 1 [7, 8] (.greedy 1)) rfl rfl)
  obtain ⟨hcaches, hticks⟩ := estimates_up_to_cut_blocks {}
    { maxContext := 16, memoryBudget := some 64 } ⟨1, 1, 1, 1⟩
  obtain ⟨-, -, hlooks⟩ := hticks _ hs 0
  have hadm := (hlooks ⟨_, none, _⟩ List.mem_cons_self _).1 1 128 (some 64) (by cbv)
  obtain ⟨-, hwhole⟩ := hcaches _ _ .new 1 3 16 (by decide) (by decide)
  exact ⟨_, _, hs, List.mem_cons_self, by cbv, fun htakes => hwhole (by decide) (hadm htakes)⟩

/-- A request for the whole of a context of one block and a quarter, where the budget covers just
the context: it is told that it needs more than the whole budget, though an empty cache takes it. -/
theorem whole_context_told_too_large : ∃ s r,
    Reachable {} { maxContext := 20, memoryBudget := some 160 } ⟨1, 1, 1, 1⟩ s ∧ r ∈ s.requests ∧
    s.cache.activeSlots = 0 ∧ s.positionsFor r = 20 ∧
    s.cache.canFit 20 = false ∧ s.cache.TakesFresh r.id 20 20 ∧
    s.admission none r = .refused r (.cacheOverflow (.beyondBudget r.id 256 (some 160))) := by
  have hs : Reachable {} { maxContext := 20, memoryBudget := some 160 } ⟨1, 1, 1, 1⟩ _ :=
    .addRequest .new (Request.Fresh.mk (r := Request.new 1 [7, 8, 9] (.greedy 17)) rfl rfl)
  exact ⟨_, _, hs, List.mem_cons_self, by cbv, by cbv, by cbv, ⟨0, _, _, by cbv, by cbv⟩, by cbv⟩

end Scheduler

end CausalServe
