import CausalServe.Engine.Checked
import CausalServe.Proofs.Cache.Appending
import CausalServe.Proofs.Engine.Session
import CausalServe.Proofs.Scheduler.Sizes

/-! The engine on words. A valid configuration does not keep the sizes of a tick below 64 bits, and
neither does a valid request. Within limits on both, every tick is carried out on words and comes to
what it comes to on natural numbers. -/

namespace CausalServe

variable {most : Nat}

namespace Action

variable {σ α : Type}

theorem exec_checked (sizes : σ → List Nat) (step : Action σ α) (s : σ) :
    exec (checked sizes step) s = if (sizes s).all fun n => n < wordSize then exec step s
      else (.error (.contract "a size beyond the words"), s) := by
  unfold checked
  rw [exec_bind, exec_get]
  simp only [exec_ite, exec_throw]

theorem exec_checked_of_words (sizes : σ → List Nat) (step : Action σ α) {s : σ}
    (h : ∀ n ∈ sizes s, n < wordSize) : exec (checked sizes step) s = exec step s := by
  rw [exec_checked, if_pos]
  simpa using h

theorem exec_checked_beyond (sizes : σ → List Nat) (step : Action σ α) {s : σ} {n : Nat}
    (hn : n ∈ sizes s) (hlarge : wordSize ≤ n) :
    exec (checked sizes step) s = (.error (.contract "a size beyond the words"), s) := by
  rw [exec_checked, if_neg]
  simpa using ⟨n, hn, hlarge⟩

theorem exec_lift (step : StateM σ α) (s : σ) :
    exec (ExceptT.lift step) s = (.ok (step.run s).1, (step.run s).2) := rfl

end Action

/-! ## What a batch keeps -/

theorem Request.maxTotalLen_settled (r : Request) (eos : Option Token)
    (sampled : Except Error Token) : (r.settled eos sampled).maxTotalLen = r.maxTotalLen :=
  settled_keeps maxTotalLen (fun _ => rfl) (fun _ => rfl) (fun _ _ => rfl) eos sampled

namespace Cache

variable {c c' : Cache}

theorem Appended.holder (h : Appended c c') (id : SlotId) : c'.holder id = c.holder id := by
  induction h with
  | refl => rfl
  | append _ slot layer key value ih => exact (holder_append _ slot layer key value id).trans ih

/-- Appending rows makes no slot, and leaves each of them its length. -/
theorem Appended.capacity (h : Appended c c') (hc : c.Sound) {id : SlotId} {s' : Slot}
    (hs' : c'.slot? id = some s') : ∃ s, c.slot? id = some s ∧ s'.capacity = s.capacity := by
  have hholder : c.holder id = some s'.owner :=
    (h.holder id).symm.trans (holder_eq_some.mpr ⟨s', hs', rfl⟩)
  obtain ⟨s, hs, -⟩ := holder_eq_some.mp hholder
  obtain ⟨n, hgrew⟩ := h.grewBy hc
  obtain ⟨t, ht, hslot⟩ := hgrew.live id s hs
  cases ht.symm.trans hs'
  exact ⟨s, hs, hslot.capacity⟩

end Cache

namespace Engine

/-- An engine whose requests ask for a number of positions at most, with the submissions that are
still to be taken up and the requests that have ended and are still stored. -/
structure Bounded (most : Nat) (todo : List Submission) (ended : List RequestId) (e : Engine) :
    Prop where
  coherent : Coherent (fun _ _ => True) e todo ended
  awaited : ∀ s ∈ todo, s.request.prompt.length + s.request.sampling.maxTokens ≤ most
  asks : ∀ r ∈ e.scheduler.requests, r.maxTotalLen ≤ most
  capacity : ∀ slot st, e.scheduler.cache.slot? slot = some st →
    st.capacity = e.config.cache.maxContext

variable {e : Engine} {todo : List Submission} {ended : List RequestId}

theorem Bounded.scheduler (h : Bounded most todo ended e) :
    e.scheduler.Bounded e.config.scheduler e.config.cache (.ofModel e.model.config) most where
  owned := h.coherent.owned
  settings := h.coherent.settings
  sized := fun r hr => Nat.add_le_add_left (h.coherent.sized r hr).1 _
  asks := h.asks
  capacity := h.capacity

/-! ## Between two ticks -/

theorem Bounded.new {model : LanguageModel} {config : EngineConfig}
    {entropy : RequestId → Stream}
    (h : Engine.new model config entropy = .ok e) : Bounded most e.submissions [] e := by
  obtain ⟨-, -, hsub, hsched, hcoherent⟩ := Coherent.new h
  rw [hsub]
  refine ⟨hcoherent, nofun, ?_, ?_⟩
  · intro r hr
    rw [hsched] at hr
    cases hr
  · intro slot st hst
    rw [hsched] at hst
    cases hst

theorem Bounded.accepted (h : Bounded most e.submissions [] e) {g : GenerationRequest}
    (hvalid : g.validate = .ok ()) (hasks : g.prompt.length + g.sampling.maxTokens ≤ most)
    (now : Nat) : Bounded most (e.accepted g now).submissions [] (e.accepted g now) where
  coherent := h.coherent.accepted (asks_of_validate hvalid) trivial now
  awaited := by
    intro s hs
    rcases List.mem_append.mp hs with hs | hs
    · exact h.awaited s hs
    · rw [List.mem_singleton.mp hs]
      exact hasks
  asks := h.asks
  capacity := h.capacity

theorem Bounded.cancelled (h : Bounded most e.submissions [] e) (id : RequestId) :
    Bounded most (e.cancel id).submissions [] (e.cancel id) where
  coherent := h.coherent.cancelled id
  awaited := by
    intro s hs
    obtain ⟨old, hold, he⟩ := mem_submissions_cancel hs
    rw [he]
    exact h.awaited old hold
  asks := by
    intro r hr
    obtain ⟨old, hold, he⟩ := mem_requests_cancel hr
    rw [he]
    exact h.asks old hold
  capacity := by
    rw [cache_cancel]
    exact h.capacity

theorem Bounded.withFeeds (h : Bounded most todo ended e) (feeds : Table Feed) :
    Bounded most todo ended { e with feeds := feeds } :=
  { h with coherent := h.coherent.withFeeds feeds }

/-! ## The tick -/

theorem Bounded.stored {s : Submission} {rest : List Submission}
    (h : Bounded most (s :: rest) [] e) : Bounded most rest [] { e with
      scheduler := e.scheduler.arrived s.toRequest
      samplers := e.samplers.insert s.id (.new s.request.sampling (e.entropy s.id))
      published := e.published ++ [s.id] } where
  coherent := h.coherent.arrived
  awaited := fun x hx => h.awaited x (List.mem_cons_of_mem _ hx)
  asks := by
    intro r hr
    rcases Scheduler.mem_arrived.mp hr with hr | rfl
    · exact h.asks r hr
    · exact h.awaited s (List.mem_cons_self ..)
  capacity := h.capacity

theorem Bounded.drained (h : Bounded most e.submissions [] e) (now : Nat) :
    Bounded most [] [] (e.drained now).2 := by
  have hstart : Bounded most e.submissions []
      { e with submissions := [], stepCount := e.stepCount + 1 } :=
    { h with coherent := { h.coherent with } }
  refine mapM_keep (fun rest _ x => Bounded most rest [] x) (Engine.takeUp now) ?_ e.submissions
    hstart
  intro s rest done x hx
  rcases takeUp_cases x now hx.coherent.unknown with ⟨fault, -, hrun⟩ | ⟨-, hrun⟩
  · rw [hrun]
    exact { hx with
      coherent := hx.coherent.skip.withFeeds _
      awaited := fun x' hx' => hx.awaited x' (List.mem_cons_of_mem _ hx') }
  · rw [hrun]
    exact hx.stored

theorem Bounded.planned (h : Bounded most [] [] e) (now : Nat) :
    Bounded most [] (e.scheduler.schedule now).1.retired (e.planned now) :=
  have hplanned := (h.coherent.owned.moves_tick now).bounded h.scheduler
  ⟨h.coherent.planned now, nofun, hplanned.asks, hplanned.capacity⟩

/-- A batch of all that run. -/
theorem Bounded.ran (h : Bounded most [] ended e) (hmodel : e.model.AppendsOnly) :
    Bounded most [] (ended ++ (e.ran e.scheduler.running).1.ended)
      (e.ran e.scheduler.running).2 := by
  have hforward := hmodel ((e.entries e.scheduler.running).map Prod.snd) e.scheduler.cache
  have hran := (h.coherent.ran hforward).1
  have hpassed : ∀ slot st, e.passed.slot? slot = some st →
      st.capacity = e.config.cache.maxContext := by
    intro slot st hst
    unfold passed at hst
    split at hst
    · exact h.capacity slot st hst
    · obtain ⟨old, hold, hcapacity⟩ := hforward.capacity h.coherent.owned.sound hst
      exact hcapacity.trans (h.capacity slot old hold)
  have hkept := h.coherent.ran_keep hforward
    (fun _ _ x => (∀ r ∈ x.scheduler.requests, r.maxTotalLen ≤ most) ∧
      ∀ slot st, x.scheduler.cache.slot? slot = some st →
        st.capacity = e.config.cache.maxContext) ⟨h.asks, hpassed⟩ ?_
  · refine ⟨hran.coherent, nofun, hkept.1, ?_⟩
    rw [hran.still.config]
    exact hkept.2
  · rintro r rest result x sampled result' x' - ht - ⟨hasks, hcapacity⟩
    obtain ⟨samplers, -, rfl⟩ := ht.engine
    constructor
    · intro y hy
      rw [Scheduler.settle_requests] at hy
      rcases Scheduler.mem_update.mp hy with ⟨rfl, -⟩ | ⟨hy, -⟩
      · obtain ⟨slot, hform⟩ :=
          Scheduler.settledForm_eq (r.settled x.model.config.eosToken sampled)
        rw [hform]
        exact (r.maxTotalLen_settled _ sampled).trans_le (hasks r ht.stored)
      · exact hasks y hy
    · intro slot st hst
      rw [Scheduler.cache_settle] at hst
      split at hst
      · exact hcapacity slot st (Round.slot?_freed_some hst).2
      · exact hcapacity slot st hst

theorem Bounded.finish {id : RequestId} {rest : List RequestId}
    (h : Bounded most [] (id :: rest) e) (now : Nat) :
    Bounded most [] rest ((Engine.finish now id).run e).2 := by
  obtain ⟨r, hr, hend, -, hnext⟩ := h.coherent.finish now
  have hcache := h.coherent.owned.cache_removeRequest hr hend
  rw [run_finish hr] at hnext ⊢
  refine ⟨hnext, nofun, ?_, ?_⟩
  · intro x hx
    exact h.asks x (Scheduler.mem_removeRequest.mp hx).1
  · intro slot st hst
    exact h.capacity slot st (hcache ▸ hst)

theorem Bounded.step (h : Bounded most e.submissions [] e) (hmodel : e.model.AppendsOnly)
    (now : Nat) : Bounded most ((Engine.step now).run e).2.submissions []
      ((Engine.step now).run e).2 := by
  have hdrained := h.drained now
  obtain ⟨-, hstill, -⟩ := h.coherent.drained now
  have hsame : (e.drained now).2.model = e.model := hstill.model
  have hran := (hdrained.planned now).ran (hsame ▸ hmodel)
  obtain ⟨hstep, hnone⟩ := h.coherent.step_keep (.of_appendsOnly h.coherent hmodel now)
    (fun rest x => Bounded most [] rest x) hran.withFeeds fun _ _ _ hx => hx.finish now
  rw [hnone]
  exact hstep

/-! ## Ticks on words -/

theorem Bounded.sizes_lt (h : Bounded most e.submissions [] e)
    (hroomy : Roomy e.config.scheduler e.config.cache (.ofModel e.model.config) most) (now : Nat) :
    ∀ n ∈ e.sizes now, n < wordSize := by
  obtain ⟨-, hstill, -⟩ := h.coherent.drained now
  have hbounded := (h.drained now).scheduler
  rw [hstill.config, hstill.model] at hbounded
  exact hbounded.sizes_lt hroomy now

theorem Bounded.exec_stepChecked (h : Bounded most e.submissions [] e)
    (hroomy : Roomy e.config.scheduler e.config.cache (.ofModel e.model.config) most) (now : Nat) :
    Action.exec (stepChecked now) e =
      (.ok ((Engine.step now).run e).1, ((Engine.step now).run e).2) := by
  unfold stepChecked
  rw [Action.exec_checked_of_words (fun e : Engine => e.sizes now) _ (h.sizes_lt hroomy now),
    Action.exec_lift]

theorem Bounded.exec_runForChecked (h : Bounded most e.submissions [] e)
    (hmodel : e.model.AppendsOnly)
    (hroomy : Roomy e.config.scheduler e.config.cache (.ofModel e.model.config) most)
    (clock : Nat → Nat) (turns : Nat) : Action.exec (runForChecked clock turns) e =
      (.ok ((runFor clock turns).run e).1, ((runFor clock turns).run e).2) := by
  induction turns generalizing e with
  | zero => rfl
  | succ turns ih =>
    unfold runForChecked
    rw [Action.exec_bind, Action.exec_get]
    cases hpending : e.hasPending with
    | false =>
      rw [run_runFor_idle clock _ hpending]
      simp only [hpending, Bool.false_eq_true, if_false, Action.exec_pure]
    | true =>
      have hstep := h.exec_stepChecked hroomy (clock e.stepCount)
      obtain ⟨-, hstill, -⟩ := h.coherent.step
        (.of_appendsOnly h.coherent hmodel (clock e.stepCount))
      have hrest := ih (h.step hmodel (clock e.stepCount)) (hstill.model.symm ▸ hmodel)
        (by rw [hstill.config, hstill.model]; exact hroomy)
      rw [run_runFor_pending clock turns hpending]
      simp only [hpending, if_true]
      rw [Action.exec_bind_ok hstep, Action.exec_bind_ok hrest, Action.exec_pure]

end Engine

/-! ## Sessions -/

def Event.asks : Event → Nat
  | .submit g _ => g.prompt.length + g.sampling.maxTokens
  | .enqueue g _ => g.prompt.length + g.sampling.maxTokens
  | .cancel _ => 0
  | .step _ => 0
  | .poll _ => 0

namespace Session

variable {model : LanguageModel} {config : EngineConfig} {entropy : RequestId → Stream}
  {s : Session}

structure Bounded (model : LanguageModel) (config : EngineConfig) (most : Nat) (s : Session) :
    Prop where
  engine : s.engine.Bounded most s.engine.submissions []
  model_eq : s.engine.model = model
  config_eq : s.engine.config = config

theorem Bounded.after (h : s.Bounded model config most) (hmodel : model.AppendsOnly) {event : Event}
    (hasks : event.asks ≤ most) : (s.after event).Bounded model config most := by
  have hcalled : ∀ {g : GenerationRequest} {now : Nat}
      {outcome : Except Error RequestHandle × Engine},
      g.prompt.length + g.sampling.maxTokens ≤ most →
      ((∃ fault, outcome = (.error fault, s.engine)) ∨ (g.validate = .ok () ∧
        outcome = (.ok { id := s.engine.nextId }, s.engine.accepted g now))) →
      (s.called outcome).Bounded model config most := by
    intro g now outcome hg houtcome
    rcases s.called_cases houtcome with he | ⟨hvalid, he⟩
    · rw [he]
      exact h
    · rw [he]
      exact ⟨h.engine.accepted hvalid hg now, h.model_eq, h.config_eq⟩
  cases event with
  | submit g now => exact hcalled hasks (Engine.submit_cases s.engine g now)
  | enqueue g now => exact hcalled hasks (Engine.enqueue_cases s.engine g now)
  | cancel id => exact ⟨h.engine.cancelled id, h.model_eq, h.config_eq⟩
  | step now =>
    have hown : s.engine.model.AppendsOnly := h.model_eq ▸ hmodel
    have hcoherent := h.engine.coherent
    have hstill := (hcoherent.step (.of_appendsOnly hcoherent hown now)).2.1
    refine ⟨?_, ?_, ?_⟩
    · rw [engine_step]
      exact h.engine.step hown now
    · rw [engine_step, hstill.model]
      exact h.model_eq
    · rw [engine_step, hstill.config]
      exact h.config_eq
  | poll place => exact ⟨h.engine, h.model_eq, h.config_eq⟩

theorem Bounded.run (h : s.Bounded model config most) (hmodel : model.AppendsOnly)
    {events : List Event} (hasks : ∀ event ∈ events, event.asks ≤ most) :
    (s.run events).Bounded model config most := by
  induction events generalizing s with
  | nil => exact h
  | cons event rest ih =>
    exact ih (h.after hmodel (hasks event (List.mem_cons_self ..)))
      fun other hother => hasks other (List.mem_cons_of_mem _ hother)

/-- However an engine is used, as long as its configuration and its requests keep to the limits, the
next tick computes words only. On words it comes to what it comes to on natural numbers, and so does
a run until nothing is left to do. -/
theorem ticks_in_words {e : Engine} (hnew : Engine.new model config entropy = .ok e)
    (hmodel : model.AppendsOnly)
    (hroomy : Roomy config.scheduler config.cache (.ofModel model.config) most)
    (events : List Event) (hasks : ∀ event ∈ events, event.asks ≤ most) :
    let s := Session.run { engine := e } events
    (∀ now, (∀ n ∈ s.engine.sizes now, n < wordSize) ∧
      Action.exec (Engine.stepChecked now) s.engine =
        (.ok ((Engine.step now).run s.engine).1, ((Engine.step now).run s.engine).2)) ∧
    ∀ clock, Action.exec (Engine.runUntilIdleChecked clock) s.engine =
      (.ok ((Engine.runUntilIdle clock).run s.engine).1,
        ((Engine.runUntilIdle clock).run s.engine).2) := by
  intro s
  have hstart : Session.Bounded model config most { engine := e } := by
    refine ⟨.new hnew, ?_, ?_⟩ <;> rw [Engine.new_eq hnew]
  have h : s.Bounded model config most := hstart.run hmodel hasks
  have hlimits : Roomy s.engine.config.scheduler s.engine.config.cache
      (.ofModel s.engine.model.config) most := by
    rw [h.config_eq, h.model_eq]
    exact hroomy
  refine ⟨fun now => ⟨h.engine.sizes_lt hlimits now, h.engine.exec_stepChecked hlimits now⟩, ?_⟩
  intro clock
  have hruns := h.engine.exec_runForChecked (h.model_eq.symm ▸ hmodel) hlimits clock
    s.engine.remaining
  unfold Engine.runUntilIdleChecked
  rw [Action.exec_bind, Action.exec_get]
  exact hruns

/-- With the default limits a request may ask for a quarter of all words. -/
theorem ticks_in_words_by_default :
    let events : List Event :=
      [.submit { prompt := [1, 2], sampling := .greedy 0x3FFFFFFFFFFFFFFE } 0]
    ∃ e, Engine.new .counting {} Stream.ofSeed = .ok e ∧
      let s := Session.run { engine := e } events
      0x4000000000000000 ∈ s.engine.sizes 0 ∧ (∀ n ∈ s.engine.sizes 0, n < wordSize) ∧
        (Action.exec (Engine.stepChecked 0) s.engine).2.scheduler.running = [1] := by
  intro events
  have hnew : ∃ e, Engine.new .counting {} Stream.ofSeed = .ok e := ⟨_, rfl⟩
  obtain ⟨e, he⟩ := hnew
  have hroomy : Roomy {} {} (.ofModel LanguageModel.counting.config) 0x4000000000000000 := by
    constructor <;> decide
  obtain ⟨hticks, -⟩ :=
    ticks_in_words he LanguageModel.counting_appendsOnly hroomy events (by decide)
  obtain ⟨hwords, hstep⟩ := hticks 0
  refine ⟨e, he, ?_, hwords, ?_⟩
  · cases he
    decide +kernel
  · rw [hstep]
    cases he
    decide +kernel

/-- The configuration is valid, and so are both requests. Yet the tick that looks at the second one
is broken off, since the bytes of its positions are one more than the largest word. On natural
numbers they are beyond the budget: the request is left to wait, and the first one is answered. -/
theorem broken_off_by_one :
    let config : EngineConfig := {
      cache := { maxContext := 0x1000000000000000, memoryBudget := some 4096 } }
    let events : List Event := [.submit { prompt := [1, 2], sampling := .greedy 1 } 0,
      .submit { prompt := [1, 2], sampling := .greedy 0x1000000000000000 } 0]
    ∃ e, Engine.new .counting config Stream.ofSeed = .ok e ∧
      let s := Session.run { engine := e } events
      s.accepted = [1, 2] ∧ wordSize ∈ s.engine.sizes 0 ∧
        Action.exec (Engine.stepChecked 0) s.engine =
          (.error (.contract "a size beyond the words"), s.engine) ∧
        ((Engine.step 0).run s.engine).1.finished.map (fun o => (o.requestId, o.state)) =
          [(1, .completed)] ∧
        ((Engine.step 0).run s.engine).2.scheduler.waiting.map QueueEntry.request = [2] := by
  intro config events
  have hnew : ∃ e, Engine.new .counting config Stream.ofSeed = .ok e := ⟨_, rfl⟩
  obtain ⟨e, he⟩ := hnew
  have hlarge : wordSize ∈ (Session.run { engine := e } events).engine.sizes 0 := by
    cases he
    decide +kernel
  refine ⟨e, he, ?_, hlarge, ?_, ?_, ?_⟩
  · cases he
    decide +kernel
  · exact Action.exec_checked_beyond (fun e : Engine => e.sizes 0) _ hlarge (Nat.le_refl _)
  · cases he
    decide +kernel
  · cases he
    decide +kernel

end Session

end CausalServe
