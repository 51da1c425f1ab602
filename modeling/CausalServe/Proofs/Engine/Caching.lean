import CausalServe.Proofs.Engine.Residency
import CausalServe.Proofs.Engine.Serving

/-! The cache and the requests keep the same count. However an engine is used, every token of a
running request but the last one was fed to its slot once and in order, and nothing else was. -/

namespace CausalServe

/-- The counting model writes a row for each token. -/
theorem LanguageModel.counting_appendsEach : counting.AppendsEach where
  layered := Nat.one_pos
  only := counting_appendsOnly
  each := by
    intro c entries rows hc hlayout _ hok slot layer l l' hl hl'
    have hforward : counting.forward entries = Cache.writeAll (countingRows entries) >>= fun _ =>
        pure (entries.map fun entry => countingLogits entry.tokens) := rfl
    rw [hforward, Action.exec_bind] at hok hl'
    rcases hexec : Action.exec (Cache.writeAll (countingRows entries)) c with ⟨outcome, c'⟩
    rw [hexec] at hok hl'
    cases outcome with
    | error => cases hok
    | ok =>
      have hlayer := hc.lt_of_layer hl
      rw [hlayout] at hlayer
      obtain rfl : layer = 0 := Nat.lt_one_iff.mp hlayer
      rw [← count_countingRows]
      exact (hc.writeAll_grewBy hexec).appended hl hl'

namespace Session

variable {model : LanguageModel} {config : EngineConfig} {entropy : RequestId → Stream}
  {s : Session}

/-- A session whose engine keeps all tokens of its running requests but the last in their slots. -/
structure Cached (model : LanguageModel) (config : EngineConfig) (s : Session) : Prop where
  housed : Engine.Housed s.fed s.engine.submissions [] s.engine
  model_eq : s.engine.model = model
  config_eq : s.engine.config = config

theorem Cached.after (h : s.Cached model config) (hmodel : model.AppendsEach) (event : Event) :
    (s.after event).Cached model config := by
  rcases s.after_cases event with he | ⟨g, now, hvalid, he⟩ | ⟨id, he⟩ | ⟨now, rfl⟩ | ⟨place, rfl⟩
  · rw [he]
    exact h
  · rw [he]
    exact ⟨h.housed.accepted hvalid now, h.model_eq, h.config_eq⟩
  · rw [he]
    exact ⟨h.housed.cancelled id, h.model_eq, h.config_eq⟩
  · have hown : s.engine.model.AppendsEach := h.model_eq ▸ hmodel
    have hcoherent := h.housed.coherent
    have hstill := (hcoherent.step (.of_appendsOnly hcoherent hown.only now)).2.1
    refine ⟨?_, ?_, ?_⟩
    · rw [fed_step, engine_step]
      exact h.housed.step hown now
    · rw [engine_step, hstill.model]
      exact h.model_eq
    · rw [engine_step, hstill.config]
      exact h.config_eq
  · exact ⟨h.housed, h.model_eq, h.config_eq⟩

theorem Cached.run {e : Engine} (hnew : Engine.new model config entropy = .ok e)
    (hmodel : model.AppendsEach) (events : List Event) :
    (Session.run { engine := e } events).Cached model config := by
  refine run_keep (Cached model config) (fun _ event h => h.after hmodel event)
    ⟨.new hnew, ?_, ?_⟩ events <;> rw [Engine.new_eq hnew]

/-- However an engine is used, between two ticks a request that waits has nothing cached, and a
running one decodes and has cached all of its tokens but the last: as many as its slot counts
positions, and as every layer of the slot holds until the window is full, and just these were fed to
the slot since it was given out. And whenever the engine is ticked next, every request of the batch
is fed once: one token if it decodes, and all of its tokens if it prefills. -/
theorem caches {e : Engine} (hnew : Engine.new model config entropy = .ok e)
    (hmodel : model.AppendsEach) (events : List Event) :
    let s := Session.run { engine := e } events
    (∀ r ∈ s.engine.scheduler.requests, r.state = .queued → r.cached = 0) ∧
    (∀ r ∈ s.engine.scheduler.requests, r.state.isRunning = true →
      r.state = .decoding ∧ r.cached + 1 = r.totalLen ∧ ∃ slot, r.slot = some slot ∧
        s.engine.scheduler.cache.nextPosition slot = .ok r.cached ∧
        (∀ layer < model.config.numLayers, s.engine.scheduler.cache.cursor slot layer =
          .ok (min r.cached config.cache.maxContext)) ∧
        s.fed slot = (r.prompt ++ r.output.toList).take r.cached) ∧
    ∀ now, let start := (s.engine.drained now).2
      let plan := (start.scheduler.schedule now).1
      let batch := (start.planned now).entries plan.batch
      batch.map Prod.fst = plan.batch ∧ plan.batch.Nodup ∧
      (∀ id ∈ plan.decode, ∃ slot token, (id, ⟨slot, [token]⟩) ∈ batch) ∧
      ∀ id ∈ plan.prefill, ∃ r slot, (start.planned now).scheduler.request? id = some r ∧
        (id, ⟨slot, r.prompt ++ r.output.toList⟩) ∈ batch := by
  intro s
  have h : s.Cached model config := .run hnew hmodel events
  have hlive := h.housed.coherent.live
  have hsound := h.housed.coherent.owned.sound
  have hlayout : s.engine.scheduler.cache.layout = .ofModel model.config := by
    rw [← h.model_eq]
    exact h.housed.coherent.settings.limits.layout
  have hlayers : s.engine.scheduler.cache.layout.numLayers = model.config.numLayers := by
    rw [hlayout]
    rfl
  refine ⟨?_, ?_, fun now => (h.housed.drained now).entries now⟩
  · intro r hr hq
    exact (h.housed.lodges r hr (hlive r hr)).unfed (by rw [hq]; nofun)
  · intro r hr hrun
    have hresides := h.housed.lodges r hr (hlive r hr)
    have hdecoding : r.state = .decoding := by
      rcases RequestState.isRunning_iff.mp hrun with hp | hd
      · exact absurd hp (h.housed.prefilled r hr (hlive r hr))
      · exact hd
    obtain ⟨slot, st, hslot, hst, hocc⟩ := hresides.seated hrun
    have hcapacity := hocc.capacity
    rw [h.config_eq] at hcapacity
    refine ⟨hdecoding, hresides.decoding hdecoding, slot, hslot, ?_, ?_, hocc.tokens⟩
    · exact hsound.nextPosition_of_given hst hocc.given (hlayers ▸ hmodel.layered)
    · intro layer hlayer
      rw [← hcapacity]
      exact hsound.cursor_of_given hst hocc.given (hlayers ▸ hlayer)

/-- A request whose prompt was cut to two tokens, and which gave way to another one after its first
tick. It was then fed its prompt and its first token anew, of which the window shows the last two. -/
theorem caches_after_giving_way :
    let config : EngineConfig := {
      scheduler := { truncateLongPrompts := true }
      cache := { maxContext := 2, blockSize := 1, memoryBudget := some 48,
                 overflowPolicy := .slidingWindow, pressurePolicy := .preemptLeastRecent } }
    let events : List Event := [.submit { prompt := [1, 2, 3], sampling := .greedy 6 } 0,
      .submit { prompt := [4], sampling := .greedy 3 } 0, .step 0, .step 0, .step 0, .step 0]
    ∃ e, Engine.new .counting config Stream.ofSeed = .ok e ∧
      let s := Session.run { engine := e } events
      ∃ r ∈ s.engine.scheduler.requests, r.preemptions = 1 ∧ r.truncated = 1 ∧
        r.state = .decoding ∧ r.cached + 1 = r.totalLen ∧ ∃ slot, r.slot = some slot ∧
        s.engine.scheduler.cache.nextPosition slot = .ok 3 ∧
        s.engine.scheduler.cache.cursor slot 0 = .ok 2 ∧ s.fed slot = [2, 3, 4] := by
  intro config events
  have hnew : ∃ e, Engine.new .counting config Stream.ofSeed = .ok e := ⟨_, rfl⟩
  obtain ⟨e, he⟩ := hnew
  have hfacts : (Session.run { engine := e } events).engine.scheduler.requests.map (fun r =>
      (r.state, r.preemptions, r.truncated, r.cached, r.prompt ++ r.output.toList)) =
        [(.decoding, 1, 1, 3, [2, 3, 4, 5])] := by
    cases he
    decide +kernel
  obtain ⟨r, hr, hshown⟩ : ∃ r ∈ (Session.run { engine := e } events).engine.scheduler.requests,
      (r.state, r.preemptions, r.truncated, r.cached, r.prompt ++ r.output.toList) =
        (.decoding, 1, 1, 3, [2, 3, 4, 5]) := by
    refine List.mem_map.mp ?_
    rw [hfacts]
    exact List.mem_singleton.mpr rfl
  simp only [Prod.mk.injEq] at hshown
  obtain ⟨hstate, hpreempted, hcut, hcached, htokens⟩ := hshown
  obtain ⟨-, hrunning, -⟩ := caches he LanguageModel.counting_appendsEach events
  obtain ⟨hd, hlen, slot, hslot, hnext, hcursor, hfed⟩ := hrunning r hr (by rw [hstate]; rfl)
  rw [hcached] at hnext
  have hwindow := hcursor 0 Nat.one_pos
  rw [hcached] at hwindow
  rw [hcached, htokens] at hfed
  exact ⟨e, he, r, hr, hpreempted, hcut, hd, hlen, slot, hslot, hnext, hwindow, hfed⟩

end Session

end CausalServe
