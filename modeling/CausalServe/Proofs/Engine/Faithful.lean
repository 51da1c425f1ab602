import CausalServe.Proofs.Engine.Progress
import CausalServe.Proofs.Engine.Tracked

/-! The phases of a tick leave what becomes of every request to its loop. A submission starts the
loop, the batch takes it one step on, and whoever has ended is answered with what the loop came to. -/

namespace CausalServe

variable {model : LanguageModel} {config : EngineConfig} {logits : List Token → List Float32}
  {want : RequestId → Outcome → Prop}

/-! ## The batch -/

/-- The tokens that the slot of a request holds while a batch is run: all of them until its turn
comes. -/
def Request.during (turns : List RequestId) (r : Request) : Nat :=
  if r.id ∈ turns then r.totalLen else r.cached

theorem Request.during_mem {turns : List RequestId} {r : Request} (h : r.id ∈ turns) :
    r.during turns = r.totalLen := if_pos h

theorem Request.during_not_mem {turns : List RequestId} {r : Request} (h : r.id ∉ turns) :
    r.during turns = r.cached := if_neg h

/-- The pass feeds all tokens that are not cached, and a turn counts all tokens as cached. -/
theorem Request.cached_stepped (r : Request) (token : Token) :
    (r.stepped token).cached = r.totalLen := by
  simp only [stepped, pendingLen]
  omega

theorem Request.tokens_stepped (r : Request) (token : Token) :
    (r.stepped token).tokens = r.tokens ++ [token] := by
  simp [stepped, tokens]

/-- A request after its turn, of which all tokens but the new one are in its slot. -/
theorem Request.Tracked.stepped {cacheConfig : CacheConfig} {layout : Layout} {c : Cache}
    {fed : SlotId → List Token} {r : Request}
    (h : r.Tracked cacheConfig layout c fed r.totalLen) (hrun : r.state.isRunning = true)
    {token : Token} (hsized : (r.stepped token).output.size < r.sampling.maxTokens) :
    (r.stepped token).Tracked cacheConfig layout c fed (r.stepped token).cached := by
  have hcached := r.cached_stepped token
  have htokens := r.tokens_stepped token
  have hlen : (r.stepped token).totalLen = r.totalLen + 1 := by
    rw [← Request.length_tokens, htokens, List.length_append, Request.length_tokens]
    rfl
  rw [hcached]
  exact {
    timeless := h.timeless
    uncancelled := h.uncancelled
    plain := h.plain
    sized := hsized
    short := by rw [hcached, hlen]; exact Nat.lt_succ_self _
    affordable := h.affordable
    unfed := fun hq => by cases hq
    seated := fun _ => by
      obtain ⟨slot, st, hslot, hst, hs⟩ := h.seated hrun
      exact ⟨slot, st, hslot, hst, { hs with
        tokens := by
          rw [hs.tokens, htokens, List.take_append_of_le_length]
          rw [Request.length_tokens] }⟩ }

/-- A slot after its request was fed what was pending. -/
theorem Request.Seated.fed {cacheConfig : CacheConfig} {c c' : Cache}
    {before : SlotId → List Token} {entries : List BatchEntry} {n : SlotId → Nat → Nat} {r : Request}
    {slot : SlotId} {st : Slot} (h : r.Seated cacheConfig before r.cached slot st)
    (hkept : c.Kept model cacheConfig) (hlayers : 0 < model.config.numLayers)
    (hst : c.slot? slot = some st) (hfed : c.FedTo n c')
    (hn : ∀ slot, ∀ layer < model.config.numLayers,
      n slot layer = (BatchEntry.tokensOf entries slot).length)
    (htokens : BatchEntry.tokensOf entries slot = r.pending) (hshort : r.cached < r.totalLen)
    (hroom : cacheConfig.overflowPolicy = .reject → st.len + r.pendingLen ≤ st.capacity) :
    ∃ st', c'.slot? slot = some st' ∧ r.Seated cacheConfig
      (fun slot => before slot ++ BatchEntry.tokensOf entries slot) r.totalLen slot st' := by
  obtain ⟨st', hst', hslots, hlens⟩ := hfed.len hkept (hn slot) hst
  rw [htokens, Request.length_pending] at hlens
  have hlenst := h.len (hkept.layers_ne hlayers hst)
  exact ⟨st', hst', {
    capacity := hslots.capacity.trans h.capacity
    prompt_le := h.prompt_le
    lens := fun l hl => by
      rw [hlens l hl, hlenst, hslots.capacity, Request.pendingLen]
      omega
    tokens := by
      show before slot ++ BatchEntry.tokensOf entries slot = r.tokens.take r.totalLen
      rw [htokens, h.tokens, Request.pending_eq, List.take_append_drop, List.take_of_length_le]
      rw [Request.length_tokens]
    rejects := fun hpolicy => by
      have hfull := hroom hpolicy
      have hfits := h.rejects hpolicy
      rw [hlenst, h.capacity, Request.pendingLen] at hfull
      omega
    covers := fun hpolicy => by
      have hcov := h.covers hpolicy
      unfold Slot.Covers at hcov ⊢
      rw [hslots.capacity, hslots.allocated]
      exact hcov }⟩

/-- The turn of a request takes its loop one step on, and leaves the others alone. -/
theorem Scheduler.Tracks.settle {s : Scheduler} {samplers : Table Sampler} {rest : List RequestId}
    {fed : SlotId → List Token} {r : Request} (h : s.Tracks model config logits want samplers
      (Request.during (r.id :: rest)) fed) (howned : s.Owned) (hr : r ∈ s.requests)
    (hrun : r.state.isRunning = true) (hrest : r.id ∉ rest) {sampler next : Sampler}
    (hsampler : samplers.get? r.id = some sampler) (hsteps : r.isStepBudgetExhausted = false)
    {sampled : Except Error Token}
    (hsample : Action.exec (Sampler.sample (logits r.tokens)) sampler = (sampled, next)) :
    (s.settle (r.settled model.config.eosToken sampled)).Tracks model config logits want
      (samplers.modify r.id fun _ => next) (Request.during rest) fed := by
  have hlive := RequestState.isTerminal_of_isRunning hrun
  have htracked := h.tracked r hr hlive
  rw [Request.during_mem (by simp)] at htracked
  obtain ⟨slot, st, hslot, hst, hs⟩ := htracked.seated hrun
  have hid := Request.settled_id r model.config.eosToken sampled
  obtain ⟨stored, hform⟩ := settledForm_eq (r.settled model.config.eosToken sampled)
  have hfid : (settledForm (r.settled model.config.eosToken sampled)).id = r.id := by
    rw [hform]
    exact hid
  have hcache : (s.settle (r.settled model.config.eosToken sampled)).cache = s.cache ∨
      (s.settle (r.settled model.config.eosToken sampled)).cache = freed s.cache r.slot := by
    rw [cache_settle, Request.settled_slot]
    split
    · exact .inr rfl
    · exact .inl rfl
  refine h.replace (settle_requests _ _) ?_ ?_ ?_ ?_ ?_
  · rcases hcache with hc | hc <;> rw [hc]
    · exact h.history
    · exact Round.history_freed h.history r.slot
  · intro x hx hne
    rw [hfid] at hne
    refine ⟨?_, fun other hother => ⟨?_, rfl⟩⟩
    · unfold Request.during
      simp [hne]
    · rcases hcache with hc | hc <;> rw [hc]
      exact slot?_freed fun he => hne (by rw [howned.slot_inj hx hr hother he])
  · intro other hne
    rw [Table.get?_modify, if_neg]
    rwa [hfid] at hne
  · intro hgoes
    rw [hform] at hgoes
    obtain ⟨token, he⟩ := Request.settled_live hgoes
    have hsized := (Request.settled_size htracked.sized model.config.eosToken sampled).2 hgoes
    rw [he] at hsized
    have hstays : settledForm (r.stepped token) = r.stepped token := rfl
    have hkept : (s.settle (r.stepped token)).cache = s.cache := rfl
    have hdone : Request.during rest (r.stepped token) = (r.stepped token).cached :=
      Request.during_not_mem hrest
    rw [he, hstays, hkept, hdone]
    exact htracked.stepped hrun hsized
  · intro sampler' hget
    rw [hfid, Table.get?_modify, if_pos rfl, hsampler] at hget
    cases hget
    rw [hfid, hform]
    have hsame := Request.prospect_settled (m := config.solo model logits) hlive htracked.plain hsteps
      hs.prompt_le hs.rejects hsample
    change want r.id ((r.settled (config.solo model logits).eos sampled).prospect _ next)
    rw [hsame]
    exact h.wanted r hr sampler hsampler

namespace Engine

def row (e : Engine) (logits : List Token → List Float32) (id : RequestId) : List Float32 :=
  logits ((e.scheduler.request? id).elim [] Request.tokens)

section Batches

variable {e : Engine} {fed : SlotId → List Token}

/-- An entry of the batch is what a running request feeds. -/
theorem request_of_entry (howned : e.scheduler.Owned) {m : RequestId × BatchEntry}
    (hm : m ∈ e.entries e.scheduler.running) : ∃ r ∈ e.scheduler.requests, r.id = m.1 ∧
      r.state.isRunning = true ∧ r.slot = some m.2.slot ∧ m.2.tokens = r.pending := by
  obtain ⟨hid, r, hr, hslot, htokens⟩ := mem_entries.mp hm
  obtain ⟨hmem, hrid⟩ := Scheduler.mem_of_request? hr
  exact ⟨r, hmem, hrid, (howned.mem_running hmem).mp (hrid ▸ hid), hslot, htokens⟩

/-- No slot has two entries: the ids of the members are distinct, and no two requests share a slot. -/
theorem slots_of_entries (howned : e.scheduler.Owned) :
    (((e.entries e.scheduler.running).map Prod.snd).map BatchEntry.slot).Nodup := by
  have hids : ((e.entries e.scheduler.running).map Prod.fst).Nodup := by
    rw [entries_ids howned.enrolled]
    exact howned.running_nodup
  rw [List.map_map]
  refine List.Nodup.map_on (fun x hx y hy hxy => ?_) hids.of_map
  obtain ⟨r, hr, hrid, -, hrs, hrt⟩ := request_of_entry howned hx
  obtain ⟨r', hr', hrid', -, hrs', hrt'⟩ := request_of_entry howned hy
  obtain rfl := howned.slot_inj hr hr' (hrs.trans (congrArg some hxy)) hrs'
  obtain ⟨id, slot, tokens⟩ := x
  obtain ⟨id', slot', tokens'⟩ := y
  simp only at hrid hrid' hrt hrt' hxy
  subst hrid hrid' hrt hrt'
  simp only [Function.comp_apply] at hxy
  rw [hxy]

theorem batchable_entries (h : e.scheduler.Tracks model config logits want e.samplers
      Request.cached fed) (howned : e.scheduler.Owned) (hready : ∀ r ∈ e.scheduler.requests,
      r.state.isRunning = true → e.scheduler.cache.ReadyFor r) :
    e.scheduler.cache.Batchable ((e.entries e.scheduler.running).map Prod.snd) := by
  refine ⟨slots_of_entries howned, fun entry hentry => ?_, fun entry hentry => ?_⟩
  · obtain ⟨m, hm, rfl⟩ := List.mem_map.mp hentry
    obtain ⟨r, hr, -, hrun, -, htokens⟩ := request_of_entry howned hm
    have hshort := (h.tracked r hr (RequestState.isTerminal_of_isRunning hrun)).short
    rw [htokens]
    refine List.ne_nil_of_length_pos ?_
    rw [Request.length_pending, Request.pendingLen]
    omega
  · obtain ⟨m, hm, rfl⟩ := List.mem_map.mp hentry
    obtain ⟨r, hr, -, hrun, hslot, htokens⟩ := request_of_entry howned hm
    obtain ⟨slot, st, hslot', hst, hcov, hrej⟩ := hready r hr hrun
    cases hslot.symm.trans hslot'
    rw [htokens, Request.length_pending]
    exact ⟨st, hst, hcov, hrej⟩

/-- The entry of a running request. -/
theorem entry_mem (howned : e.scheduler.Owned) {r : Request} (hr : r ∈ e.scheduler.requests)
    (hrun : r.state.isRunning = true) {slot : SlotId} (hslot : r.slot = some slot) :
    (⟨slot, r.pending⟩ : BatchEntry) ∈ (e.entries e.scheduler.running).map Prod.snd :=
  List.mem_map.mpr ⟨(r.id, ⟨slot, r.pending⟩), mem_entries.mpr ⟨(howned.mem_running hr).mpr hrun,
    r, howned.ids.request? hr, hslot, rfl⟩, rfl⟩

/-- The model answers every running request for all of its tokens, and its slot then holds them. -/
theorem served (h : e.scheduler.Tracks model config logits want e.samplers Request.cached fed)
    (hserves : model.Serves config.cache logits) (howned : e.scheduler.Owned)
    (hready : ∀ r ∈ e.scheduler.requests, r.state.isRunning = true →
      e.scheduler.cache.ReadyFor r) :
    ∃ c' fed', Action.exec (forward model ((e.entries e.scheduler.running).map Prod.snd))
        e.scheduler.cache = (.ok (e.scheduler.running.map (e.row logits)), c') ∧
      Cache.Appended e.scheduler.cache c' ∧
      ({ e.scheduler with cache := c' } : Scheduler).Tracks model config logits want e.samplers
        (Request.during e.scheduler.running) fed' := by
  have hkept := h.history.kept hserves
  have hbatch := batchable_entries h howned hready
  obtain ⟨c', n, hexec, happended, hsound, hfed, hn⟩ := hserves.fedTo h.history hkept hbatch
  have hseat : ∀ r ∈ e.scheduler.requests, r.state.isRunning = true → ∃ slot st,
      r.slot = some slot ∧ e.scheduler.cache.slot? slot = some st ∧
        r.Seated config.cache fed r.cached slot st := fun r hr hrun =>
    (h.tracked r hr (RequestState.isTerminal_of_isRunning hrun)).seated hrun
  have hrows : ((e.entries e.scheduler.running).map Prod.snd).map
      (fun entry => logits (fed entry.slot ++ entry.tokens)) =
        e.scheduler.running.map (e.row logits) := by
    conv_rhs => rw [← entries_ids howned.enrolled]
    rw [List.map_map, List.map_map]
    refine List.map_congr_left fun m hm => ?_
    obtain ⟨hid, r, hr, hslot, htokens⟩ := mem_entries.mp hm
    obtain ⟨hmem, hrid⟩ := Scheduler.mem_of_request? hr
    obtain ⟨slot, st, hslot', -, hs⟩ := hseat r hmem ((howned.mem_running hmem).mp (hrid ▸ hid))
    cases hslot.symm.trans hslot'
    simp only [Function.comp_apply, row, hr, Option.elim_some]
    rw [hs.tokens, htokens, Request.pending_eq, List.take_append_drop]
  have hhistory := h.history.forward hbatch
  rw [hexec] at hhistory
  rw [hrows] at hexec
  have hlen : (e.scheduler.running.map (e.row logits)).length =
      ((e.entries e.scheduler.running).map Prod.snd).length := by
    rw [← hrows, List.length_map]
  refine ⟨c', _, exec_forward_ok hexec hlen, happended, hhistory, fun r hr hlive => ?_, h.wanted⟩
  have htracked := h.tracked r hr hlive
  by_cases hrun : r.state.isRunning = true
  · obtain ⟨slot, st, hslot, hst, hs⟩ := hseat r hr hrun
    have htokens : BatchEntry.tokensOf ((e.entries e.scheduler.running).map Prod.snd) slot =
        r.pending := BatchEntry.tokensOf_mem hbatch.distinct (entry_mem howned hr hrun hslot)
    obtain ⟨slot', st₁, hslot', hst₁, -, hrej⟩ := hready r hr hrun
    cases hslot.symm.trans hslot'
    cases hst.symm.trans hst₁
    obtain ⟨st', hst', hseated⟩ := hs.fed hkept hserves.layered hst hfed hn htokens htracked.short
      fun hpolicy => hrej (hkept.limits.overflowPolicy.trans hpolicy)
    rw [Request.during_mem ((howned.mem_running hr).mpr hrun)]
    exact { htracked with seated := fun _ => ⟨slot, st', hslot, hst', hseated⟩ }
  · rw [Request.during_not_mem fun hm => hrun ((howned.mem_running hr).mp hm)]
    refine htracked.of_same fun slot hslot => absurd (howned.running_of_slot hr hslot) hrun

end Batches

/-! ## The phases -/

end Engine

/-- A submission that nobody cancels, which may take its time, and which the budget covers. -/
structure Submission.Pends (model : LanguageModel) (config : EngineConfig)
    (logits : List Token → List Float32) (want : RequestId → Outcome → Prop)
    (entropy : RequestId → Stream) (s : Submission) : Prop where
  uncancelled : s.cancelled = false
  timeless : s.request.timeout = none
  nonempty : s.request.prompt ≠ []
  affordable : config.cache.Affords (.ofModel model.config)
    (s.request.prompt.length + s.request.sampling.maxTokens)
  wanted : want s.id ((config.solo model logits).answer s.request (entropy s.id))

namespace Engine

/-- An engine in the middle of a tick, with the outputs so far. Every request that was accepted is
either answered as wanted, or waits to be taken up, or is tracked, and it is only one of these. -/
structure Faithful (model : LanguageModel) (config : EngineConfig)
    (logits : List Token → List Float32) (want : RequestId → Outcome → Prop)
    (ids : List RequestId) (outs : List GenerationOutput) (todo : List Submission)
    (ended : List RequestId) (e : Engine) : Prop where
  coherent : Coherent (fun _ _ => True) e todo ended
  model_eq : e.model = model
  config_eq : e.config = config
  pending : ∀ s ∈ todo, s.Pends model config logits want e.entropy
  tracks : ∃ fed, e.scheduler.Tracks model config logits want e.samplers Request.cached fed
  answered : ∀ o ∈ outs, want o.requestId o.outcome
  tally : (outs.map GenerationOutput.requestId ++
    (todo.map Submission.id ++ e.scheduler.requests.map Request.id)).Perm ids

variable {ids : List RequestId} {outs : List GenerationOutput} {todo : List Submission}
  {ended : List RequestId} {e : Engine}

theorem Faithful.settings (h : Faithful model config logits want ids outs todo ended e) :
    Scheduler.SameSettings (.new config.scheduler config.cache (.ofModel model.config))
      e.scheduler := by
  have hset := h.coherent.settings
  rwa [h.config_eq, h.model_eq] at hset

theorem Faithful.positive (h : Faithful model config logits want ids outs todo ended e) :
    0 < config.cache.maxContext := by
  have hvalid := h.coherent.valid
  rw [h.config_eq] at hvalid
  exact (positive_of_valid hvalid).2

theorem not_all_of_checkVocabulary {prompt : List Token} {size : Nat} {fault : Error}
    (h : checkVocabulary prompt size = .error fault) :
    (prompt.all fun t => t < size) = false ∧ fault.kind = .invalidRequest := by
  unfold checkVocabulary at h
  split at h
  next t ht =>
    cases h
    refine ⟨?_, rfl⟩
    rw [List.all_eq_false]
    exact ⟨t, List.mem_of_find?_eq_some ht, by simpa using List.find?_some ht⟩
  · cases h

/-- A submission with tokens that the model does not know is answered for them. -/
theorem Faithful.refused {s : Submission} {rest : List Submission} {fault : Error}
    (h : Faithful model config logits want ids outs (s :: rest) [] e)
    (hcheck : checkVocabulary s.request.prompt (config.solo model logits).vocabSize = .error fault)
    (now : Nat) (feeds : Table Feed) :
    Faithful model config logits want ids (outs ++ [.ofRequest (s.toRequest.failedBy fault) now])
      rest [] { e with feeds := feeds } := by
  have hs := h.pending s (by simp)
  obtain ⟨hall, hkind⟩ := not_all_of_checkVocabulary hcheck
  have hanswer : (config.solo model logits).answer s.request (e.entropy s.id) =
      (GenerationOutput.ofRequest (s.toRequest.failedBy fault) now).outcome := by
    unfold Solo.answer
    rw [if_neg (by rw [hall]; exact nofun)]
    show _ = Outcome.failed fault.kind s.request.prompt []
    rw [hkind]
  exact {
    coherent := h.coherent.skip.withFeeds feeds
    model_eq := h.model_eq
    config_eq := h.config_eq
    pending := fun x hx => h.pending x (List.mem_cons_of_mem _ hx)
    tracks := h.tracks
    answered := fun o ho => by
      rcases List.mem_append.mp ho with ho | ho
      · exact h.answered o ho
      · rw [List.mem_singleton.mp ho, ← hanswer]
        exact hs.wanted
    tally := by
      refine .trans ?_ h.tally
      rw [List.map_append, List.append_assoc]
      exact .refl _ }

/-- The loop of a submission starts when the scheduler gets it. -/
theorem Faithful.started {s : Submission} {rest : List Submission}
    (h : Faithful model config logits want ids outs (s :: rest) [] e)
    (hcheck : checkVocabulary s.request.prompt (config.solo model logits).vocabSize = .ok ()) :
    Faithful model config logits want ids outs rest [] { e with
      scheduler := e.scheduler.arrived s.toRequest
      samplers := e.samplers.insert s.id (.new s.request.sampling (e.entropy s.id))
      published := e.published ++ [s.id] } := by
  have hs := h.pending s (by simp)
  obtain ⟨fed, htracks⟩ := h.tracks
  have hknown : ∀ r ∈ e.scheduler.requests, r.id ≠ s.id :=
    Scheduler.request?_eq_none.mp h.coherent.unknown
  have hnone : e.samplers.get? s.id = none := by
    rw [← Option.not_isSome_iff_eq_none, Table.get?_isSome, h.coherent.keys]
    intro hm
    obtain ⟨r, hr, hid⟩ := List.mem_map.mp hm
    exact hknown r hr hid
  exact {
    coherent := h.coherent.arrived
    model_eq := h.model_eq
    config_eq := h.config_eq
    pending := fun x hx => h.pending x (List.mem_cons_of_mem _ hx)
    tracks := ⟨fed, {
      history := htracks.history
      tracked := fun r hr hlive => by
        rcases Scheduler.mem_arrived.mp hr with hr | rfl
        · exact htracks.tracked r hr hlive
        · exact {
            timeless := hs.timeless
            uncancelled := hs.uncancelled
            plain := ⟨rfl, rfl⟩
            sized := h.coherent.asked s (by simp)
            short := List.length_pos_iff.mpr hs.nonempty
            affordable := hs.affordable
            unfed := fun _ => rfl
            seated := fun hrun => by cases hrun }
      wanted := fun r hr sampler hget => by
        rw [Table.get?_insert] at hget
        rcases Scheduler.mem_arrived.mp hr with hr | rfl
        · rw [if_neg (hknown r hr), Option.or_none] at hget
          exact htracks.wanted r hr sampler hget
        · have hid : ({ s.toRequest with arrivalSeq := e.scheduler.arrivals } : Request).id =
            s.id := rfl
          rw [hid, hnone, if_pos rfl] at hget
          cases hget
          have hanswer := hs.wanted
          unfold Solo.answer at hanswer
          rw [if_pos (by simpa using checkVocabulary_eq_ok.mp hcheck)] at hanswer
          rw [Request.prospect_live rfl]
          exact hanswer }⟩
    answered := h.answered
    tally := .trans ((pending_arrived e.scheduler s rest).append_left _) h.tally }

theorem Faithful.takeUp {s : Submission} {rest : List Submission}
    (h : Faithful model config logits want ids outs (s :: rest) [] e) (now : Nat) :
    Faithful model config logits want ids (outs ++ ((Engine.takeUp now s).run e).1.toList) rest []
      ((Engine.takeUp now s).run e).2 := by
  have hvocab : e.vocabSize = (config.solo model logits).vocabSize := by
    rw [vocabSize, h.model_eq]
    rfl
  rcases takeUp_cases e now h.coherent.unknown with ⟨fault, hcheck, hrun⟩ | ⟨hcheck, hrun⟩ <;>
    rw [hvocab] at hcheck <;> rw [hrun]
  · exact h.refused hcheck now _
  · rw [Option.toList_none, List.append_nil]
    exact h.started hcheck

/-- A tick begins with its submissions. -/
theorem Faithful.drained (h : Faithful model config logits want ids outs e.submissions [] e)
    (now : Nat) : Faithful model config logits want ids
      (outs ++ (e.drained now).1.filterMap id) [] [] (e.drained now).2 := by
  have hstart : Faithful model config logits want ids outs e.submissions []
      { e with submissions := [], stepCount := e.stepCount + 1 } :=
    { h with coherent := { h.coherent with } }
  exact mapM_keep_outputs (fun outs rest x => Faithful model config logits want ids outs rest [] x)
    (Engine.takeUp now) (fun _ _ _ _ hx => hx.takeUp now) e.submissions hstart

/-- The plan of a tick keeps the ids, and ends requests as their loops do. -/
theorem Faithful.planned (h : Faithful model config logits want ids outs [] [] e)
    (hserves : model.Serves config.cache logits) (now : Nat) :
    Faithful model config logits want ids outs [] (e.scheduler.schedule now).1.retired
      (e.planned now) := by
  obtain ⟨fed, htracks⟩ := h.tracks
  have hsame : (e.planned now).scheduler.requests.map Request.id =
      e.scheduler.requests.map Request.id := (h.coherent.owned.moves_tick now).ids
  exact {
    coherent := h.coherent.planned now
    model_eq := h.model_eq
    config_eq := h.config_eq
    pending := nofun
    tracks := htracks.tick hserves h.positive h.coherent.owned h.settings now
    answered := h.answered
    tally := by rw [hsame]; exact h.tally }

theorem Faithful.withFeeds (h : Faithful model config logits want ids outs todo ended e)
    (feeds : Table Feed) :
    Faithful model config logits want ids outs todo ended { e with feeds := feeds } :=
  { h with coherent := h.coherent.withFeeds feeds }

/-- An engine in the middle of its batch. Whose turn is still to come has steps left, and a row for
all of its tokens. -/
structure Owing (model : LanguageModel) (config : EngineConfig)
    (logits : List Token → List Float32) (want : RequestId → Outcome → Prop) (start : Engine)
    (ended : List RequestId) (turns : List (RequestId × List Float32)) (result : BatchResult)
    (e : Engine) : Prop where
  running : Running (fun _ _ => True) start ended (turns.map Prod.fst) result e
  tracks : ∃ fed, e.scheduler.Tracks model config logits want e.samplers
    (Request.during (turns.map Prod.fst)) fed
  owed : ∀ turn ∈ turns, ∀ r ∈ e.scheduler.requests, r.id = turn.1 →
    turn.2 = logits r.tokens ∧ r.isStepBudgetExhausted = false
  ids : e.scheduler.requests.map Request.id = start.scheduler.requests.map Request.id

theorem Owing.sampleOne {start : Engine} {turn : RequestId × List Float32}
    {rest : List (RequestId × List Float32)} {result : BatchResult} (hmodel : start.model = model)
    (h : Owing model config logits want start ended (turn :: rest) result e) :
    Owing model config logits want start ended rest
      ((Engine.sampleOne result turn.1 turn.2).run e).1
      ((Engine.sampleOne result turn.1 turn.2).run e).2 := by
  obtain ⟨id, row⟩ := turn
  obtain ⟨fed, htracks⟩ := h.tracks
  have hc := h.running.coherent
  obtain ⟨r, hm, rfl, hrun⟩ := (hc.owned.running_iff id).mp (h.running.running id (by simp))
  obtain ⟨hrow, hsteps⟩ := h.owed (r.id, row) (by simp) r hm rfl
  simp only at hrow
  obtain ⟨sampler, hs⟩ := hc.sampler hm
  rcases hsample : Action.exec (Sampler.sample row) sampler with ⟨sampled, next⟩
  obtain ⟨result', hexec, hended, hgenerated, -⟩ :=
    run_sampleOne (hc.request?_of_mem hm) hrun hs hsample result
  have hkeys := Table.keys_modify e.samplers r.id fun _ => next
  have hrunning := (h.running.settle hm hrun sampled hkeys hended hgenerated).1
  have heos : e.model = model := h.running.still.model.trans hmodel
  have hrest : r.id ∉ rest.map Prod.fst := (List.nodup_cons.mp h.running.nodup).1
  simp only [hexec] at hrunning ⊢
  rw [heos] at hrunning ⊢
  rw [hrow] at hsample
  refine ⟨hrunning, ⟨fed, htracks.settle hc.owned hm hrun hrest hs hsteps hsample⟩, ?_,
    (Scheduler.ids_settle _ _).trans h.ids⟩
  intro turn hturn x hx hid
  rw [Scheduler.settle_requests] at hx
  rcases Scheduler.mem_update.mp hx with ⟨rfl, -⟩ | ⟨hx, -⟩
  · -- whoever had its turn has no other
    obtain ⟨slot, hform⟩ := Scheduler.settledForm_eq (r.settled model.config.eosToken sampled)
    rw [hform] at hid
    have hsame := Request.settled_id r model.config.eosToken sampled
    exact absurd (List.mem_map.mpr ⟨turn, hturn, hid.symm.trans hsame⟩) hrest
  · exact h.owed turn (List.mem_cons_of_mem _ hturn) x hx hid

/-- The batch takes every running request one step on. -/
theorem Faithful.ran (h : Faithful model config logits want ids outs [] ended e)
    (hserves : model.Serves config.cache logits)
    (hready : ∀ r ∈ e.scheduler.requests, r.state.isRunning = true →
      e.scheduler.cache.ReadyFor r)
    (hsteps : ∀ r ∈ e.scheduler.requests, r.state.isTerminal = false →
      r.isStepBudgetExhausted = false) :
    Faithful model config logits want ids outs [] (ended ++ (e.ran e.scheduler.running).1.ended)
      (e.ran e.scheduler.running).2 := by
  have howned := h.coherent.owned
  obtain ⟨fed, htracks⟩ := h.tracks
  unfold Engine.ran
  by_cases hempty : e.scheduler.running = []
  · rw [if_pos hempty]
    show Faithful model config logits want ids outs [] (ended ++ []) e
    rwa [List.append_nil]
  obtain ⟨c', fed', hexec, happended, htracks'⟩ := served htracks hserves howned hready
  rw [← h.model_eq] at hexec
  rw [if_neg hempty, run_runBatch, hexec, entries_ids howned.enrolled]
  have hturns : e.scheduler.running.zip (e.scheduler.running.map (e.row logits)) =
      e.scheduler.running.map fun id => (id, e.row logits id) := by
    have hzip := List.zip_map' (f := id) (g := e.row logits) (l := e.scheduler.running)
    rwa [List.map_id] at hzip
  have hfst : (e.scheduler.running.zip (e.scheduler.running.map (e.row logits))).map Prod.fst =
      e.scheduler.running := by
    rw [hturns, List.map_map]
    exact List.map_id _
  have hstart : Owing model config logits want e ended
      (e.scheduler.running.zip (e.scheduler.running.map (e.row logits))) {}
      { e with scheduler := { e.scheduler with cache := c' } } := {
    running := by
      rw [hfst]
      exact ⟨by rw [List.append_nil]; exact h.coherent.appended happended, ⟨rfl, rfl, rfl, rfl, rfl, rfl⟩,
        fun _ hid => hid, howned.running_nodup, Nat.le_refl _⟩
    tracks := by rw [hfst]; exact ⟨fed', htracks'⟩
    owed := fun turn hturn r hr hid => by
      rw [hturns] at hturn
      obtain ⟨other, hother, rfl⟩ := List.mem_map.mp hturn
      simp only at hid
      subst hid
      have hlive := RequestState.isTerminal_of_isRunning ((howned.mem_running hr).mp hother)
      refine ⟨?_, hsteps r hr hlive⟩
      rw [row, howned.ids.request? hr]
      rfl
    ids := rfl }
  have hlast := foldlM_keep (Owing model config logits want e ended)
    (fun result (turn : RequestId × List Float32) => Engine.sampleOne result turn.1 turn.2)
    (fun _ _ _ _ hp => hp.sampleOne h.model_eq) _ hstart
  obtain ⟨fed'', htracks''⟩ := hlast.tracks
  have hsame := hlast.ids
  exact {
    coherent := hlast.running.coherent
    model_eq := hlast.running.still.model.trans h.model_eq
    config_eq := hlast.running.still.config.trans h.config_eq
    pending := nofun
    tracks := ⟨fed'', htracks''⟩
    answered := h.answered
    tally := by rw [hsame]; exact h.tally }

/-- Whoever has ended is answered with what its loop came to. -/
theorem Faithful.finish {id : RequestId} {rest : List RequestId}
    (h : Faithful model config logits want ids outs [] (id :: rest) e) (now : Nat) :
    Faithful model config logits want ids (outs ++ ((Engine.finish now id).run e).1.toList) [] rest
      ((Engine.finish now id).run e).2 := by
  obtain ⟨r, hr, hend, -, hnext⟩ := h.coherent.finish now
  obtain ⟨hmem, rfl⟩ := Scheduler.mem_of_request? hr
  obtain ⟨fed, htracks⟩ := h.tracks
  obtain ⟨sampler, hsampler⟩ := h.coherent.sampler hmem
  have hcache := h.coherent.owned.cache_removeRequest hr hend
  have hwant := htracks.wanted r hmem sampler hsampler
  rw [Request.prospect_ended hend] at hwant
  rw [run_finish hr] at hnext ⊢
  exact {
    coherent := hnext
    model_eq := h.model_eq
    config_eq := h.config_eq
    pending := nofun
    tracks := ⟨fed, {
      history := by rw [hcache]; exact htracks.history
      tracked := fun x hx hlive => by
        rw [hcache]
        exact htracks.tracked x (Scheduler.mem_removeRequest.mp hx).1 hlive
      wanted := fun x hx next hget => by
        obtain ⟨hx, hne⟩ := Scheduler.mem_removeRequest.mp hx
        rw [Table.get?_erase, if_neg hne] at hget
        exact htracks.wanted x hx next hget }⟩
    answered := fun o ho => by
      rcases List.mem_append.mp ho with ho | ho
      · exact h.answered o ho
      · rw [List.mem_singleton.mp ho]
        exact hwant
    tally := by
      refine .trans ?_ h.tally
      rw [List.map_append, List.append_assoc]
      exact (Scheduler.ids_removeRequest_perm h.coherent.owned.ids hr).append_left _ }

theorem Faithful.closed {ended : List RequestId}
    (h : Faithful model config logits want ids outs [] ended e) (now : Nat) :
    Faithful model config logits want ids (outs ++ (e.closed now ended).1.filterMap id) [] []
      (e.closed now ended).2 :=
  mapM_keep_outputs (fun outs rest x => Faithful model config logits want ids outs [] rest x)
    (Engine.finish now) (fun _ _ _ _ hx => hx.finish now) ended h

/-! ## The tick -/

/-- The batch of a tick finds everyone ready, with steps left. -/
theorem Faithful.ran_tick (h : Faithful model config logits want ids outs [] [] e)
    (hserves : model.Serves config.cache logits) (now : Nat) :
    Faithful model config logits want ids outs []
      ((e.scheduler.schedule now).1.retired ++
        ((e.planned now).ran (e.planned now).scheduler.running).1.ended)
      ((e.planned now).ran (e.planned now).scheduler.running).2 :=
  (h.planned hserves now).ran hserves
    (fun _ hr hrun => h.coherent.owned.ready_of_tick hr hrun)
    fun _ hr hlive => Request.expiry?_none (h.coherent.owned.not_due_of_tick hr hlive)

/-- What a model that serves does in a tick is to append rows. -/
theorem Faithful.appendsAt (h : Faithful model config logits want ids outs e.submissions [] e)
    (hserves : model.Serves config.cache logits) (now : Nat) : e.AppendsAt now := by
  have hplanned := (h.drained now).planned hserves now
  have howned := (h.drained now).coherent.owned
  obtain ⟨fed, htracks⟩ := hplanned.tracks
  obtain ⟨c', -, hexec, happended, -⟩ := served htracks hserves hplanned.coherent.owned
    fun r hr hrun => howned.ready_of_tick hr hrun
  unfold AppendsAt
  intro start
  rw [show start.model = model from hplanned.model_eq, ← (exec_forward model _ _).1, hexec]
  exact happended

/-- A tick answers whom it answers as wanted, and keeps track of the others. -/
theorem Faithful.step (h : Faithful model config logits want ids outs e.submissions [] e)
    (hserves : model.Serves config.cache logits) (now : Nat) :
    Faithful model config logits want ids (outs ++ ((Engine.step now).run e).1.finished)
      ((Engine.step now).run e).2.submissions [] ((Engine.step now).run e).2 := by
  have hdrained := h.drained now
  have hstill := (h.coherent.step (h.appendsAt hserves now)).2.1
  rw [hstill.submissions]
  obtain ⟨metrics, feeds, hrun, -⟩ := hdrained.coherent.run_step
  have hclosed := ((hdrained.ran_tick hserves now).withFeeds feeds).closed now
  rw [hrun, ← List.append_assoc]
  exact hclosed

end Engine

end CausalServe
