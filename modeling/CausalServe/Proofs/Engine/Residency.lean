import CausalServe.Proofs.Engine.Faithful
import CausalServe.Proofs.Engine.Session

/-! Slots through a tick. The forward pass feeds each request that runs all tokens that were not
cached yet, its turn counts them as cached and adds the next one, and so between two ticks a slot
holds all tokens of its request but the last. -/

namespace CausalServe

variable {limit : Nat} {fed : SlotId → List Token}

namespace Request

variable {c : Cache} {n : Nat} {r : Request}

theorem Resides.cached_le (h : r.Resides limit c fed n) : r.cached ≤ r.totalLen := by
  by_cases hd : r.state = .decoding
  · have := h.decoding hd
    omega
  · rw [h.unfed hd]
    exact Nat.zero_le _

/-- A mark that a request is to be cancelled does not move it. -/
theorem Resides.marked (h : r.Resides limit c fed n) (mark : Bool) :
    ({ r with cancelRequested := mark } : Request).Resides limit c fed n where
  unfed := h.unfed
  decoding := h.decoding
  seated := by
    intro hrun
    obtain ⟨slot, st, hslot, hst, hocc⟩ := h.seated hrun
    exact ⟨slot, st, hslot, hst, hocc.capacity, hocc.given, hocc.tokens⟩

/-- After its turn, a request whose slot holds all of its tokens has one more token. -/
theorem Resides.stepped (h : r.Resides limit c fed r.totalLen) (hrun : r.state.isRunning = true)
    (token : Token) : (r.stepped token).Resides limit c fed (r.stepped token).cached := by
  have htokens := r.tokens_stepped token
  rw [cached_stepped]
  exact {
    unfed := fun hne => absurd rfl hne
    decoding := by
      intro _
      rw [cached_stepped, ← length_tokens, ← length_tokens, htokens, List.length_append]
      rfl
    seated := by
      intro _
      obtain ⟨slot, st, hslot, hst, hocc⟩ := h.seated hrun
      refine ⟨slot, st, hslot, hst, hocc.capacity, hocc.given, ?_⟩
      rw [hocc.tokens, htokens, List.take_append_of_le_length (Nat.le_of_eq r.length_tokens.symm)] }

end Request

namespace Engine

variable {e start : Engine} {todo : List Submission} {ended : List RequestId}

/-! ## The batch -/

/-- Whether the forward pass over all that run succeeds. -/
def Answered (e : Engine) : Prop :=
  ∃ rows, (Action.exec (e.model.forward ((e.entries e.scheduler.running).map Prod.snd))
    e.scheduler.cache).1 = .ok rows

def fedBatch (e : Engine) (fed : SlotId → List Token) (slot : SlotId) : List Token :=
  fed slot ++ BatchEntry.tokensOf ((e.entries e.scheduler.running).map Prod.snd) slot

/-- Right after the pass the slot of a request that runs holds all of its tokens, unless the pass
failed. -/
theorem resides_passed (hmodel : e.model.AppendsEach) (howned : e.scheduler.Owned)
    (hlayout : e.scheduler.cache.layout = .ofModel e.model.config)
    (h : e.scheduler.Lodges limit Request.cached fed) {r : Request}
    (hr : r ∈ e.scheduler.requests) (hlive : r.state.isTerminal = false)
    (hanswered : r.id ∈ e.scheduler.running → e.Answered) :
    r.Resides limit e.passed (e.fedBatch fed) (r.during e.scheduler.running) := by
  have hbefore := h r hr hlive
  rcases RequestState.live_iff.mp hlive with hq | hrun
  · exact Request.resides_of_queued hq (hbefore.unfed (by rw [hq]; nofun))
  have hmem := (howned.mem_running hr).mpr hrun
  obtain ⟨rows, hok⟩ := hanswered hmem
  have hdistinct := slots_of_entries howned
  obtain ⟨slot, st, hslot, hst, hocc⟩ := hbefore.seated hrun
  obtain ⟨st', hst', hcapacity, hgiven⟩ :=
    hmodel.given howned.sound hlayout hdistinct hok hst hocc.given
  have hfeeds : BatchEntry.tokensOf ((e.entries e.scheduler.running).map Prod.snd) slot =
      r.pending := BatchEntry.tokensOf_mem hdistinct (entry_mem howned hr hrun hslot)
  have hle := hbefore.cached_le
  rw [Request.during_mem hmem, passed, if_neg (List.ne_nil_of_mem hmem)]
  exact { hbefore with
    seated := fun _ => ⟨slot, st', hslot, hst', {
      capacity := hcapacity.trans hocc.capacity
      given := by
        rw [hfeeds, Request.length_pending, Request.pendingLen] at hgiven
        rwa [Nat.add_sub_cancel' hle] at hgiven
      tokens := by
        show fed slot ++ BatchEntry.tokensOf _ slot = r.tokens.take r.totalLen
        rw [hfeeds, hocc.tokens, Request.pending_eq, List.take_append_drop, ← r.length_tokens,
          List.take_length] }⟩ }

/-- An engine whose batch is being run. The slot of a request holds all of its tokens until its turn
comes, if the pass succeeded at all. -/
structure Feeding (limit : Nat) (fed : SlotId → List Token) (answered : Prop)
    (turns : List RequestId) (e : Engine) : Prop where
  resides : ∀ r ∈ e.scheduler.requests, r.state.isTerminal = false →
    (r.id ∈ turns → answered) → r.Resides limit e.scheduler.cache fed (r.during turns)
  prefilled : ∀ r ∈ e.scheduler.requests, r.state.isTerminal = false → r.id ∉ turns →
    r.state ≠ .prefilling

theorem Feeding.turn {r : Request} {rest : List RequestId} {result result' : BatchResult}
    {sampled : Except Error Token} {x : Engine}
    (h : Feeding limit fed start.Answered (r.id :: rest) e)
    (hrunning : Running (fun _ _ => True) start ended (r.id :: rest) result e)
    (ht : Turn start e result r sampled result' x) :
    Feeding limit fed start.Answered rest x := by
  have hrest := (List.nodup_cons.mp hrunning.nodup).1
  have howned := hrunning.coherent.owned
  have hlive := RequestState.isTerminal_of_isRunning ht.running
  obtain ⟨samplers, -, rfl⟩ := ht.engine
  obtain ⟨slot, hform⟩ :=
    Scheduler.settledForm_eq (r.settled e.model.config.eosToken sampled)
  have hid : (Scheduler.settledForm (r.settled e.model.config.eosToken sampled)).id = r.id := by
    rw [hform]
    exact Request.settled_id r _ sampled
  -- whoever goes on after its turn was sampled from an answer of the model
  have hgoes : ∀ y, y = Scheduler.settledForm (r.settled e.model.config.eosToken sampled) →
      y.state.isTerminal = false → ∃ token, start.Answered ∧ y = r.stepped token ∧
        r.settled e.model.config.eosToken sampled = r.stepped token := by
    rintro y rfl hgoes
    have hsettled : (r.settled e.model.config.eosToken sampled).state.isTerminal = false := by
      rw [hform] at hgoes
      exact hgoes
    obtain ⟨token, he⟩ := Request.settled_live hsettled
    refine ⟨token, ht.answered ?_, by rw [he]; rfl, he⟩
    cases sampled with
    | error fault => cases hsettled
    | ok token => rfl
  constructor
  · intro y hy hlive' hanswered
    rw [Scheduler.settle_requests] at hy
    rcases Scheduler.mem_update.mp hy with ⟨hsame, -⟩ | ⟨hy, hne⟩
    · obtain ⟨token, hok, rfl, he⟩ := hgoes y hsame hlive'
      have hbefore := h.resides r ht.stored hlive fun _ => hok
      rw [Request.during_mem (by simp)] at hbefore
      have hkept : (e.scheduler.settle (r.stepped token)).cache = e.scheduler.cache := rfl
      have hdone : (r.stepped token).during rest = (r.stepped token).cached :=
        Request.during_not_mem hrest
      rw [he, hkept, hdone]
      exact hbefore.stepped ht.running token
    · rw [hid] at hne
      have hbefore := h.resides y hy hlive' fun hmem =>
        hanswered ((List.mem_cons.mp hmem).resolve_left hne)
      have hduring : y.during (r.id :: rest) = y.during rest := by
        unfold Request.during
        simp [hne]
      rw [hduring] at hbefore
      refine hbefore.of_same fun other hother => ⟨?_, rfl⟩
      rw [Scheduler.cache_settle, Request.settled_slot]
      split
      · exact Scheduler.slot?_freed fun he => hne (by rw [howned.slot_inj hy ht.stored hother he])
      · rfl
  · intro y hy hlive' hturn
    rw [Scheduler.settle_requests] at hy
    rcases Scheduler.mem_update.mp hy with ⟨hsame, -⟩ | ⟨hy, hne⟩
    · obtain ⟨token, -, rfl, -⟩ := hgoes y hsame hlive'
      exact nofun
    · rw [hid] at hne
      exact h.prefilled y hy hlive' (List.not_mem_cons_of_ne_of_not_mem hne hturn)

/-! ## Between two ticks -/

/-- An engine whose slots hold all tokens of their requests but the last one. -/
structure Housed (fed : SlotId → List Token) (todo : List Submission) (ended : List RequestId)
    (e : Engine) : Prop where
  coherent : Coherent (fun _ _ => True) e todo ended
  lodges : e.scheduler.Lodges e.config.cache.maxContext Request.cached fed
  prefilled : ∀ r ∈ e.scheduler.requests, r.state.isTerminal = false → r.state ≠ .prefilling

theorem Housed.new {model : LanguageModel} {config : EngineConfig} {entropy : RequestId → Stream}
    (h : Engine.new model config entropy = .ok e) : Housed fed e.submissions [] e := by
  obtain ⟨-, -, hsub, hsched, hcoherent⟩ := Coherent.new h
  have hnone : e.scheduler.requests = [] := by rw [hsched]; rfl
  rw [hsub]
  refine ⟨hcoherent, ?_, ?_⟩
  · intro r hr
    rw [hnone] at hr
    cases hr
  · intro r hr
    rw [hnone] at hr
    cases hr

theorem Housed.accepted (h : Housed fed e.submissions [] e) {g : GenerationRequest}
    (hvalid : g.validate = .ok ()) (now : Nat) :
    Housed fed (e.accepted g now).submissions [] (e.accepted g now) where
  coherent := h.coherent.accepted (asks_of_validate hvalid) trivial now
  lodges := h.lodges
  prefilled := h.prefilled

theorem Housed.cancelled (h : Housed fed e.submissions [] e) (id : RequestId) :
    Housed fed (e.cancel id).submissions [] (e.cancel id) where
  coherent := h.coherent.cancelled id
  lodges := by
    intro r hr hlive
    obtain ⟨old, hold, he⟩ := mem_requests_cancel hr
    rw [he] at hlive ⊢
    rw [cache_cancel]
    exact (h.lodges old hold hlive).marked r.cancelRequested
  prefilled := by
    intro r hr hlive
    obtain ⟨old, hold, he⟩ := mem_requests_cancel hr
    rw [he] at hlive ⊢
    exact h.prefilled old hold hlive

theorem Housed.withFeeds (h : Housed fed todo ended e) (feeds : Table Feed) :
    Housed fed todo ended { e with feeds := feeds } :=
  { h with coherent := h.coherent.withFeeds feeds }

/-! ## The tick -/

/-- A submission waits in the queue, and has no slot yet. -/
theorem Housed.stored {s : Submission} {rest : List Submission}
    (h : Housed fed (s :: rest) [] e) : Housed fed rest [] { e with
      scheduler := e.scheduler.arrived s.toRequest
      samplers := e.samplers.insert s.id (.new s.request.sampling (e.entropy s.id))
      published := e.published ++ [s.id] } where
  coherent := h.coherent.arrived
  lodges := by
    intro r hr hlive
    rcases Scheduler.mem_arrived.mp hr with hr | rfl
    · exact h.lodges r hr hlive
    · exact Request.resides_of_queued rfl rfl
  prefilled := by
    intro r hr hlive
    rcases Scheduler.mem_arrived.mp hr with hr | rfl
    · exact h.prefilled r hr hlive
    · exact nofun

theorem Housed.drained (h : Housed fed e.submissions [] e) (now : Nat) :
    Housed fed [] [] (e.drained now).2 := by
  have hstart : Housed fed e.submissions []
      { e with submissions := [], stepCount := e.stepCount + 1 } :=
    { h with coherent := { h.coherent with } }
  refine mapM_keep (fun rest _ x => Housed fed rest [] x) (Engine.takeUp now) ?_ e.submissions hstart
  intro s rest done x hx
  rcases takeUp_cases x now hx.coherent.unknown with ⟨fault, -, hrun⟩ | ⟨-, hrun⟩
  · rw [hrun]
    exact { hx with coherent := hx.coherent.skip.withFeeds _ }
  · rw [hrun]
    exact hx.stored

theorem Housed.planned (h : Housed fed [] [] e) (now : Nat) :
    (e.planned now).scheduler.Lodges e.config.cache.maxContext Request.cached
      ((e.planned now).scheduler.cache.fedSince e.scheduler.cache.clock fed) :=
  h.lodges.tick h.coherent.owned
    (congrArg CacheConfig.maxContext h.coherent.settings.cacheConfig) now

/-- A tick feeds a request that decodes one token, and a request that prefills all of its tokens. -/
theorem Housed.entries (h : Housed fed [] [] e) (now : Nat) :
    let plan := (e.scheduler.schedule now).1
    let batch := (e.planned now).entries plan.batch
    batch.map Prod.fst = plan.batch ∧ plan.batch.Nodup ∧
      (∀ id ∈ plan.decode, ∃ slot token, (id, ⟨slot, [token]⟩) ∈ batch) ∧
      ∀ id ∈ plan.prefill, ∃ r slot, (e.planned now).scheduler.request? id = some r ∧
        (id, ⟨slot, r.tokens⟩) ∈ batch := by
  intro plan batch
  have howned : (e.planned now).scheduler.Owned := h.coherent.owned.schedule now
  have hbatch : plan.batch = (e.planned now).scheduler.running := (h.coherent.owned.tick now).batch_eq
  -- a running request is lodged, and its entry is what is pending
  have hentry : ∀ state, RequestState.isRunning state = true →
      ∀ id ∈ ((e.scheduler.tick now).members state).map Request.id, ∃ r slot,
        (e.planned now).scheduler.request? id = some r ∧ r.state = state ∧
        r.Resides e.config.cache.maxContext (e.planned now).scheduler.cache
          ((e.planned now).scheduler.cache.fedSince e.scheduler.cache.clock fed) r.cached ∧
        (id, ⟨slot, r.pending⟩) ∈ batch := by
    intro state hstate id hid
    obtain ⟨r, hr, rfl⟩ := List.mem_map.mp hid
    obtain ⟨hr, hrs⟩ := List.mem_filter.mp hr
    obtain ⟨other, hother, hfound⟩ := List.mem_filterMap.mp hr
    obtain ⟨hmem, rfl⟩ := Scheduler.mem_of_request? hfound
    have hrs : r.state = state := by simpa using hrs
    have hrun : r.state.isRunning = true := hrs.symm ▸ hstate
    have hresides := h.planned now r hmem (RequestState.isTerminal_of_isRunning hrun)
    obtain ⟨slot, st, hslot, -⟩ := hresides.seated hrun
    refine ⟨r, slot, hfound, hrs, hresides, mem_entries.mpr ⟨?_, r, hfound, hslot, rfl⟩⟩
    rw [hbatch]
    exact hother
  refine ⟨?_, ?_, ?_, ?_⟩
  · show ((e.planned now).entries plan.batch).map Prod.fst = plan.batch
    rw [hbatch, entries_ids howned.enrolled]
  · rw [hbatch]
    exact howned.running_nodup
  · intro id hid
    obtain ⟨r, slot, -, hd, hresides, hfed⟩ := hentry .decoding rfl id hid
    have hlast := hresides.decoding hd
    have hone : r.pending.length = 1 := by
      rw [Request.length_pending, Request.pendingLen]
      omega
    obtain ⟨token, htoken⟩ := List.length_eq_one_iff.mp hone
    exact ⟨slot, token, htoken ▸ hfed⟩
  · intro id hid
    obtain ⟨r, slot, hfound, hp, hresides, hfed⟩ := hentry .prefilling rfl id hid
    have hall : r.pending = r.tokens := by
      rw [Request.pending_eq, hresides.unfed (by rw [hp]; decide)]
      rfl
    exact ⟨r, slot, hfound, hall ▸ hfed⟩

/-- What the slots were fed is told by the plan and the pass. -/
theorem feeding_eq {now : Nat} (h : (e.drained now).2.scheduler.Owned) :
    e.feeding now fed = ((e.drained now).2.planned now).fedBatch
      (((e.drained now).2.planned now).scheduler.cache.fedSince
        (e.drained now).2.scheduler.cache.clock fed) := by
  have hbatch : ((e.drained now).2.scheduler.schedule now).1.batch =
      ((e.drained now).2.planned now).scheduler.running := (h.tick now).batch_eq
  funext slot
  unfold Engine.feeding
  simp only [hbatch]
  rfl

/-- A batch of all that run. -/
theorem Coherent.housed_ran (h : Coherent (fun _ _ => True) e [] ended)
    (hmodel : e.model.AppendsEach)
    (hlodges : e.scheduler.Lodges e.config.cache.maxContext Request.cached fed) :
    Housed (e.fedBatch fed) [] (ended ++ (e.ran e.scheduler.running).1.ended)
      (e.ran e.scheduler.running).2 := by
  have hforward := hmodel.only ((e.entries e.scheduler.running).map Prod.snd) e.scheduler.cache
  have hlayout : e.scheduler.cache.layout = .ofModel e.model.config := h.settings.limits.layout
  have hran := (h.ran hforward).1
  have hfeeding := h.ran_keep hforward
    (fun turns _ x => Feeding e.config.cache.maxContext (e.fedBatch fed) e.Answered turns x)
    { resides := fun r hr hlive hanswered =>
        resides_passed hmodel h.owned hlayout hlodges hr hlive hanswered
      prefilled := by
        intro r hr hlive hturn hpre
        exact hturn ((h.owned.mem_running hr).mpr (by rw [hpre]; rfl)) }
    (fun r rest result x sampled result' x' hbefore ht _ hx => hx.turn hbefore ht)
  refine ⟨hran.coherent, ?_, fun r hr hlive => hfeeding.prefilled r hr hlive List.not_mem_nil⟩
  intro r hr hlive
  have hresides := hfeeding.resides r hr hlive fun hmem => absurd hmem List.not_mem_nil
  rw [hran.still.config]
  exact hresides

/-- Whoever has ended gave its slot back before. -/
theorem Housed.finish {id : RequestId} {rest : List RequestId} (h : Housed fed [] (id :: rest) e)
    (now : Nat) : Housed fed [] rest ((Engine.finish now id).run e).2 := by
  obtain ⟨r, hr, hend, -, hnext⟩ := h.coherent.finish now
  have hcache := h.coherent.owned.cache_removeRequest hr hend
  rw [run_finish hr] at hnext ⊢
  refine ⟨hnext, ?_, ?_⟩
  · intro x hx hlive
    rw [hcache]
    exact h.lodges x (Scheduler.mem_removeRequest.mp hx).1 hlive
  · intro x hx hlive
    exact h.prefilled x (Scheduler.mem_removeRequest.mp hx).1 hlive

/-- After a tick the slots hold all tokens of their requests but the last, if they did before. -/
theorem Housed.step (h : Housed fed e.submissions [] e) (hmodel : e.model.AppendsEach)
    (now : Nat) : Housed (e.feeding now fed) ((Engine.step now).run e).2.submissions []
      ((Engine.step now).run e).2 := by
  have hdrained := h.drained now
  obtain ⟨-, hstill, -⟩ := h.coherent.drained now
  have hsame : (e.drained now).2.model = e.model := hstill.model
  have howned := hdrained.coherent.owned
  have hran := (hdrained.coherent.planned now).housed_ran (hsame ▸ hmodel)
    (hdrained.planned now)
  obtain ⟨hstep, hnone⟩ := h.coherent.step_keep (.of_appendsOnly h.coherent hmodel.only now)
    (fun rest x => Housed _ [] rest x) hran.withFeeds fun _ _ _ hx => hx.finish now
  rw [hnone, feeding_eq howned]
  exact hstep

end Engine

end CausalServe
