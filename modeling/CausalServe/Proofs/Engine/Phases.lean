import CausalServe.Engine.Run
import CausalServe.Proofs.Scheduler.Tick
import CausalServe.Proofs.Table

/-! The phases of an engine's tick: what each step of a phase does to the engine that it finds. A
phase goes over a list, so what its steps keep is carried along that list. -/

namespace CausalServe

section Loops

variable {α β σ : Type}

theorem run_get_bind (f : σ → StateM σ α) (s : σ) : (get >>= f).run s = (f s).run s := rfl

theorem run_set_bind (t : σ) (f : PUnit → StateM σ α) (s : σ) :
    (set t >>= f).run s = (f ⟨⟩).run t := rfl

theorem run_bind (a : StateM σ α) (f : α → StateM σ β) (s : σ) :
    (a >>= f).run s = (f (a.run s).1).run (a.run s).2 := rfl

theorem run_pure (a : α) (s : σ) : (pure a : StateM σ α).run s = (a, s) := rfl

/-- What the steps of a loop keep, as its list gets shorter. -/
theorem foldlM_keep (P : List α → β → σ → Prop) (f : β → α → StateM σ β)
    (hstep : ∀ a rest b s, P (a :: rest) b s → P rest ((f b a).run s).1 ((f b a).run s).2)
    (l : List α) {b : β} {s : σ} (h : P l b s) :
    P [] ((l.foldlM f b).run s).1 ((l.foldlM f b).run s).2 := by
  induction l generalizing b s with
  | nil => exact h
  | cons a rest ih =>
    rw [List.foldlM_cons]
    exact ih (hstep a rest b s h)

/-- What the steps of a loop keep that collects their answers. -/
theorem mapM_keep (P : List α → List β → σ → Prop) (f : α → StateM σ β)
    (hstep : ∀ a rest done s, P (a :: rest) done s →
      P rest (done ++ [((f a).run s).1]) ((f a).run s).2)
    (l : List α) {s : σ} (h : P l [] s) :
    P [] ((l.mapM f).run s).1 ((l.mapM f).run s).2 := by
  have key : ∀ (l : List α) (done : List β) (s : σ), P l done s →
      P [] (done ++ ((l.mapM f).run s).1) ((l.mapM f).run s).2 := by
    intro l
    induction l with
    | nil =>
      intro done s h
      rw [List.mapM_nil]
      change P [] (done ++ []) s
      rwa [List.append_nil]
    | cons a rest ih =>
      intro done s h
      have := ih _ _ (hstep a rest done s h)
      rw [List.append_assoc] at this
      rw [List.mapM_cons]
      exact this
  exact key l [] s h

theorem filterMap_id_append (done : List (Option α)) (o : Option α) :
    (done ++ [o]).filterMap id = done.filterMap id ++ o.toList := by
  rw [List.filterMap_append]
  cases o <;> rfl

/-- What the steps of a loop keep together with all that was put out so far. -/
theorem mapM_keep_outputs (P : List β → List α → σ → Prop) (f : α → StateM σ (Option β))
    (hstep : ∀ a rest outs s, P outs (a :: rest) s →
      P (outs ++ ((f a).run s).1.toList) rest ((f a).run s).2)
    (l : List α) {outs : List β} {s : σ} (h : P outs l s) :
    P (outs ++ ((l.mapM f).run s).1.filterMap id) [] ((l.mapM f).run s).2 := by
  refine mapM_keep (fun rest done t => P (outs ++ done.filterMap id) rest t) f ?_ l ?_
  · intro a rest done t hp
    have hnext := hstep a rest _ t hp
    rwa [List.append_assoc, ← filterMap_id_append] at hnext
  · rwa [List.filterMap_nil, List.append_nil]

end Loops

namespace Request

def settled (r : Request) (eos : Option Token) : Except Error Token → Request
  | .error fault => r.failedBy fault
  | .ok token => match (r.stepped token).checkStop eos with
    | none => r.stepped token
    | some reason => (r.stepped token).completed reason

theorem settled_goesOn {r : Request} {eos : Option Token} {token : Token}
    (h : (r.stepped token).checkStop eos = none) : r.settled eos (.ok token) = r.stepped token := by
  simp only [settled, h]

theorem settled_completes {r : Request} {eos : Option Token} {token : Token}
    {reason : FinishReason} (h : (r.stepped token).checkStop eos = some reason) :
    r.settled eos (.ok token) = (r.stepped token).completed reason := by
  simp only [settled, h]

/-- What a failure, a step and a completion leave alone. -/
theorem settled_keeps {α : Type*} (f : Request → α) {r : Request}
    (hfailed : ∀ fault, f (r.failedBy fault) = f r) (hstepped : ∀ token, f (r.stepped token) = f r)
    (hcompleted : ∀ token reason, f ((r.stepped token).completed reason) = f r)
    (eos : Option Token) (sampled : Except Error Token) : f (r.settled eos sampled) = f r := by
  cases sampled with
  | error fault => exact hfailed fault
  | ok token =>
    cases hstop : (r.stepped token).checkStop eos with
    | none => rw [settled_goesOn hstop, hstepped]
    | some reason => rw [settled_completes hstop, hcompleted]

theorem settled_id (r : Request) (eos : Option Token) (sampled : Except Error Token) :
    (r.settled eos sampled).id = r.id :=
  settled_keeps Request.id (fun _ => rfl) (fun _ => rfl) (fun _ _ => rfl) eos sampled

theorem settled_slot (r : Request) (eos : Option Token) (sampled : Except Error Token) :
    (r.settled eos sampled).slot = r.slot :=
  settled_keeps Request.slot (fun _ => rfl) (fun _ => rfl) (fun _ _ => rfl) eos sampled

/-- A turn adds the token that was sampled, if there is one. -/
theorem settled_output (r : Request) (eos : Option Token) (sampled : Except Error Token) :
    (r.settled eos sampled).output.toList = r.output.toList ++ sampled.toOption.toList := by
  cases sampled with
  | error fault => exact (List.append_nil _).symm
  | ok token =>
    have hpush : (r.output.push token).toList = r.output.toList ++ [token] := Array.toList_push
    cases hstop : (r.stepped token).checkStop eos with
    | none => rw [settled_goesOn hstop]; exact hpush
    | some reason => rw [settled_completes hstop]; exact hpush

/-- A request goes on with one token more. -/
theorem settled_live {r : Request} {eos : Option Token} {sampled : Except Error Token}
    (h : (r.settled eos sampled).state.isTerminal = false) :
    ∃ token, r.settled eos sampled = r.stepped token := by
  cases sampled with
  | error => cases h
  | ok token =>
    cases hstop : (r.stepped token).checkStop eos with
    | none => exact ⟨token, settled_goesOn hstop⟩
    | some reason =>
      rw [settled_completes hstop] at h
      cases h

theorem settled_running {r : Request} {eos : Option Token} {sampled : Except Error Token}
    (h : (r.settled eos sampled).state.isTerminal = false) :
    (r.settled eos sampled).state.isRunning = true := by
  obtain ⟨token, he⟩ := settled_live h
  rw [he]
  rfl

end Request

namespace Scheduler

/-- Stores a request after its step; one that has ended gives back what it holds. -/
def settle (s : Scheduler) (r : Request) : Scheduler :=
  if r.state.isTerminal then s.retire r else s.update r

theorem Owned.settle {s : Scheduler} (h : s.Owned) {r later : Request} (hr : r ∈ s.requests)
    (hrun : r.state.isRunning = true) (hid : later.id = r.id) (hslot : later.slot = r.slot)
    (hlater : later.state.isTerminal = false → later.state.isRunning = true) :
    (s.settle later).Owned := by
  unfold Scheduler.settle
  split
  next hend => exact h.retire hr hid hslot hend
  next hend =>
    have hrun' := hlater (by simpa using hend)
    exact h.update hr hid (RequestState.queued_iff_of_isRunning hrun' hrun)
      (hrun'.trans hrun.symm) hslot

/-- The others run on. -/
theorem running_settle {s : Scheduler} {r : Request} {id : RequestId} (hid : id ∈ s.running)
    (hne : id ≠ r.id) : id ∈ (s.settle r).running := by
  unfold settle
  split
  · rw [Scheduler.retire, release_eq]
    exact List.mem_filter.mpr ⟨hid, by simpa using hne⟩
  · exact hid

theorem settle_settings (s : Scheduler) (r : Request) : SameSettings s (s.settle r) := by
  unfold settle
  split
  · exact (retire_calls s r).settings
  · exact ⟨rfl, rfl, .refl _⟩

end Scheduler

namespace Engine

/-! ## Submissions -/

def accepted (e : Engine) (g : GenerationRequest) (now : Nat) : Engine :=
  { e with
    submissions := e.submissions ++ [{ id := e.nextId, request := g, submittedAt := now }]
    feeds := e.feeds.insert e.nextId {}
    nextId := e.nextId + 1 }

/-- A request is refused without a trace, or queued under the next id. -/
theorem enqueue_cases (e : Engine) (g : GenerationRequest) (now : Nat) :
    (∃ fault, Action.exec (enqueue g now) e = (.error fault, e)) ∨
      (g.validate = .ok () ∧
        Action.exec (enqueue g now) e = (.ok { id := e.nextId }, e.accepted g now)) := by
  unfold enqueue
  cases hv : g.validate with
  | error fault => exact .inl ⟨fault, by simp [Action.exec_bind]⟩
  | ok => exact .inr ⟨rfl, by simp [Action.exec_bind, Action.exec_map, accepted]⟩

theorem submit_cases (e : Engine) (g : GenerationRequest) (now : Nat) :
    (∃ fault, Action.exec (submit g now) e = (.error fault, e)) ∨
      (g.validate = .ok () ∧
        Action.exec (submit g now) e = (.ok { id := e.nextId }, e.accepted g now)) := by
  unfold submit
  cases hv : checkVocabulary g.prompt e.vocabSize with
  | error fault => exact .inl ⟨fault, by simp [Action.exec_bind, hv]⟩
  | ok =>
    have hexec : Action.exec (do
        let e ← get
        Action.ofExcept (checkVocabulary g.prompt e.vocabSize)
        enqueue g now) e = Action.exec (enqueue g now) e := by
      simp [Action.exec_bind, hv]
    rw [hexec]
    exact enqueue_cases e g now

theorem checkVocabulary_eq_ok {prompt : List Token} {size : Nat} :
    checkVocabulary prompt size = .ok () ↔ ∀ t ∈ prompt, t < size := by
  unfold checkVocabulary
  split
  next t ht =>
    refine ⟨nofun, fun hall => ?_⟩
    have hle : size ≤ t := by simpa using List.find?_some ht
    exact absurd (hall t (List.mem_of_find?_eq_some ht)) (Nat.not_lt.mpr hle)
  next hnone =>
    refine ⟨fun _ t ht => ?_, fun _ => rfl⟩
    simpa using List.find?_eq_none.mp hnone t ht

/-- A submission is refused for its prompt, or handed to the scheduler. -/
theorem takeUp_cases (e : Engine) (now : Nat) {s : Submission}
    (hnew : e.scheduler.request? s.id = none) :
    (∃ fault, checkVocabulary s.request.prompt e.vocabSize = .error fault ∧
      (takeUp now s).run e = (some (.ofRequest (s.toRequest.failedBy fault) now),
        { e with feeds := e.feeds.modify s.id (·.write (s.toRequest.failedBy fault)) })) ∨
    (checkVocabulary s.request.prompt e.vocabSize = .ok () ∧
      (takeUp now s).run e = (none, { e with
        scheduler := e.scheduler.arrived s.toRequest
        samplers := e.samplers.insert s.id (.new s.request.sampling (e.entropy s.id))
        published := e.published ++ [s.id] })) := by
  have hprompt : s.toRequest.prompt = s.request.prompt := rfl
  unfold takeUp
  cases hv : checkVocabulary s.request.prompt e.vocabSize with
  | error fault =>
    have hfail := Request.fail_of_live (r := s.toRequest) rfl fault
    refine .inl ⟨fault, rfl, ?_⟩
    simp [hprompt, hv, hfail]
    rfl
  | ok =>
    have hadd := Scheduler.exec_addRequest (r := s.toRequest) hnew rfl
    refine .inr ⟨rfl, ?_⟩
    simp [hprompt, hv, hadd]
    rfl

/-! ## The batch -/

theorem run_failOne {e : Engine} {id : RequestId} {r : Request}
    (h : e.scheduler.request? id = some r) (hlive : r.state.isTerminal = false) (fault : Error)
    (result : BatchResult) : (failOne fault result id).run e =
      ({ result with ended := result.ended ++ [id] },
        { e with scheduler := e.scheduler.settle (r.failedBy fault) }) := by
  have hfail := Scheduler.exec_failRequest h hlive fault
  have hsettle : e.scheduler.settle (r.failedBy fault) = e.scheduler.retire (r.failedBy fault) := rfl
  unfold failOne
  simp [hfail, hsettle]
  rfl

/-- A request of the batch is sampled: its sampler moves on, and it is settled. -/
theorem run_sampleOne {e : Engine} {id : RequestId} {r : Request}
    (h : e.scheduler.request? id = some r) (hrun : r.state.isRunning = true) {sampler : Sampler}
    (hs : e.samplers.get? id = some sampler) {logits : List Float32}
    {sampled : Except Error Token} {next : Sampler}
    (hsample : Action.exec (Sampler.sample logits) sampler = (sampled, next))
    (result : BatchResult) : ∃ result', (sampleOne result id logits).run e = (result', { e with
        samplers := e.samplers.modify id fun _ => next
        scheduler := e.scheduler.settle (r.settled e.model.config.eosToken sampled) }) ∧
      result'.ended = (if (r.settled e.model.config.eosToken sampled).state.isTerminal then
        result.ended ++ [id] else result.ended) ∧
      result'.generated = result.generated + sampled.isOk.toNat ∧
      result'.firstTokens = (if sampled.isOk && r.output.isEmpty then
        result.firstTokens ++ [id] else result.firstTokens) := by
  have hfirst : (e.scheduler.request? id).any (fun r => !r.hasFirstToken) = r.output.isEmpty := by
    rw [h, Option.any_some, Request.hasFirstToken, Bool.not_not]
  unfold sampleOne
  rw [run_get_bind]
  simp only [hs, hsample]
  rw [run_set_bind]
  cases sampled with
  | error fault =>
    have hlive := RequestState.isTerminal_of_isRunning hrun
    exact ⟨_, run_failOne (e := { e with samplers := e.samplers.modify id fun _ => next }) h hlive
      fault result, rfl, rfl, rfl⟩
  | ok token =>
    have hstep := Scheduler.exec_completeStep h hrun token e.model.config.eosToken
    cases hstop : (r.stepped token).checkStop e.model.config.eosToken with
    | none =>
      rw [hstop] at hstep
      rw [Request.settled_goesOn hstop]
      simp only [hstep, hfirst]
      exact ⟨_, rfl, rfl, rfl, rfl⟩
    | some reason =>
      rw [hstop] at hstep
      rw [Request.settled_completes hstop]
      simp only [hstep, hfirst]
      exact ⟨_, rfl, rfl, rfl, rfl⟩

/-- A batch that is run: the model comes first, and then every request in turn. -/
theorem run_runBatch (e : Engine) (batch : List RequestId) : (runBatch batch).run e =
    match Action.exec (forward e.model ((e.entries batch).map Prod.snd)) e.scheduler.cache with
    | (.error fault, cache) => (((e.entries batch).map Prod.fst).foldlM (failOne fault) {}).run
        { e with scheduler := { e.scheduler with cache := cache } }
    | (.ok rows, cache) => ((((e.entries batch).map Prod.fst).zip rows).foldlM
        (fun result (id, logits) => sampleOne result id logits) {}).run
        { e with scheduler := { e.scheduler with cache := cache } } := by
  unfold runBatch
  rw [run_get_bind]
  rcases hf : Action.exec (forward e.model ((e.entries batch).map Prod.snd)) e.scheduler.cache with
    ⟨fault | rows, cache⟩ <;> simp only [hf] <;> rw [run_set_bind]

theorem mem_entries {e : Engine} {batch : List RequestId} {id : RequestId} {entry : BatchEntry} :
    (id, entry) ∈ e.entries batch ↔ id ∈ batch ∧ ∃ r, e.scheduler.request? id = some r ∧
      r.slot = some entry.slot ∧ entry.tokens = r.pending := by
  obtain ⟨slot, tokens⟩ := entry
  simp only [entries, List.mem_filterMap, Option.bind_eq_bind, Option.bind_eq_some_iff,
    Option.pure_def, Option.some.injEq, Prod.mk.injEq, BatchEntry.mk.injEq]
  constructor
  · rintro ⟨x, hx, r, hr, sl, hs, rfl, rfl, rfl⟩
    exact ⟨hx, r, hr, hs, rfl⟩
  · rintro ⟨hid, r, hr, hs, rfl⟩
    exact ⟨id, hid, r, hr, slot, hs, rfl, rfl, rfl⟩

/-- Every running request has an entry. -/
theorem entries_ids {e : Engine} (h : e.scheduler.Enrolled) :
    (e.entries e.scheduler.running).map Prod.fst = e.scheduler.running := by
  have key : ∀ ids : List RequestId, (∀ id ∈ ids, id ∈ e.scheduler.running) →
      (e.entries ids).map Prod.fst = ids := by
    intro ids
    induction ids with
    | nil => exact fun _ => rfl
    | cons id rest ih =>
      intro hids
      obtain ⟨r, hr, rfl, hrun⟩ := (h.running_iff id).mp (hids id (by simp))
      obtain ⟨slot, hslot⟩ := Option.isSome_iff_exists.mp ((h.slot_iff r hr).trans hrun)
      have hrest := ih fun other ho => hids other (List.mem_cons_of_mem _ ho)
      have hcons : e.entries (r.id :: rest) = (r.id, ⟨slot, r.pending⟩) :: e.entries rest := by
        simp [entries, h.ids.request? hr, hslot]
      rw [hcons, List.map_cons, hrest]
  exact key _ fun _ hid => hid

/-- There is a row for every entry, or the pass fails. -/
theorem exec_forward (model : LanguageModel) (entries : List BatchEntry) (c : Cache) :
    (Action.exec (forward model entries) c).2 = (Action.exec (model.forward entries) c).2 ∧
      ∀ rows, (Action.exec (forward model entries) c).1 = .ok rows →
        (Action.exec (model.forward entries) c).1 = .ok rows ∧ rows.length = entries.length := by
  unfold forward
  rw [Action.exec_bind]
  rcases Action.exec (model.forward entries) c with ⟨fault | rows, cache⟩
  · exact ⟨rfl, nofun⟩
  · simp only
    by_cases hlen : rows.length = entries.length
    · simp [hlen]
    · simp [hlen]

theorem exec_forward_ok {model : LanguageModel} {entries : List BatchEntry} {c c' : Cache}
    {rows : List (List Float32)} (h : Action.exec (model.forward entries) c = (.ok rows, c'))
    (hlen : rows.length = entries.length) :
    Action.exec (forward model entries) c = (.ok rows, c') := by
  unfold forward
  rw [Action.exec_bind_ok h]
  simp [hlen]

def passed (e : Engine) : Cache :=
  if e.scheduler.running = [] then e.scheduler.cache
  else (Action.exec (e.model.forward ((e.entries e.scheduler.running).map Prod.snd))
    e.scheduler.cache).2

def ran (e : Engine) (batch : List RequestId) : BatchResult × Engine :=
  (if batch = [] then pure {} else runBatch batch : StateM Engine BatchResult).run e

/-- The turn of a request, in a batch that was started from an engine: it is settled with what was
sampled for it, from a row of the pass. Nothing is sampled after a pass that failed. -/
structure Turn (start e : Engine) (result : BatchResult) (r : Request)
    (sampled : Except Error Token) (result' : BatchResult) (e' : Engine) : Prop where
  stored : r ∈ e.scheduler.requests
  running : r.state.isRunning = true
  engine : ∃ samplers : Table Sampler, samplers.keys = e.samplers.keys ∧ e' = { e with
    samplers := samplers
    scheduler := e.scheduler.settle (r.settled e.model.config.eosToken sampled) }
  ended : result'.ended = if (r.settled e.model.config.eosToken sampled).state.isTerminal then
    result.ended ++ [r.id] else result.ended
  generated : result'.generated = result.generated + sampled.isOk.toNat
  firstTokens : result'.firstTokens = if sampled.isOk && r.output.isEmpty then
    result.firstTokens ++ [r.id] else result.firstTokens
  drawn : ∀ token, sampled = .ok token → ∃ rows,
    (Action.exec (start.model.forward ((start.entries start.scheduler.running).map Prod.snd))
      start.scheduler.cache).1 = .ok rows ∧
    ∃ logits ∈ rows, ∃ sampler, (Action.exec (Sampler.sample logits) sampler).1 = .ok token

theorem Turn.answered {start e e' : Engine} {result result' : BatchResult} {r : Request}
    {sampled : Except Error Token} (h : Turn start e result r sampled result' e')
    (hok : sampled.isOk = true) : ∃ rows,
    (Action.exec (start.model.forward ((start.entries start.scheduler.running).map Prod.snd))
      start.scheduler.cache).1 = .ok rows := by
  cases sampled with
  | error => cases hok
  | ok token =>
    obtain ⟨rows, hrows, -⟩ := h.drawn token rfl
    exact ⟨rows, hrows⟩

theorem turn_failOne {start e : Engine} {r : Request} (hids : e.scheduler.DistinctIds)
    (hr : r ∈ e.scheduler.requests) (hrun : r.state.isRunning = true) (fault : Error)
    (result : BatchResult) :
    Turn start e result r (.error fault) ((failOne fault result r.id).run e).1
      ((failOne fault result r.id).run e).2 := by
  have hlive := RequestState.isTerminal_of_isRunning hrun
  rw [run_failOne (hids.request? hr) hlive]
  exact ⟨hr, hrun, ⟨e.samplers, rfl, rfl⟩, rfl, rfl, rfl, nofun⟩

theorem turn_sampleOne {start e : Engine} {r : Request} (hids : e.scheduler.DistinctIds)
    (hkeys : e.samplers.keys = e.scheduler.requests.map Request.id) (hr : r ∈ e.scheduler.requests)
    (hrun : r.state.isRunning = true) {rows : List (List Float32)} (hrows : (Action.exec
      (start.model.forward ((start.entries start.scheduler.running).map Prod.snd))
      start.scheduler.cache).1 = .ok rows) {logits : List Float32} (hlogits : logits ∈ rows)
    (result : BatchResult) : ∃ sampled, Turn start e result r sampled
      ((sampleOne result r.id logits).run e).1 ((sampleOne result r.id logits).run e).2 := by
  obtain ⟨sampler, hs⟩ : ∃ sampler, e.samplers.get? r.id = some sampler := by
    rw [← Option.isSome_iff_exists, Table.get?_isSome, hkeys]
    exact List.mem_map_of_mem hr
  rcases hsample : Action.exec (Sampler.sample logits) sampler with ⟨sampled, next⟩
  obtain ⟨result', hexec, hended, hgenerated, hfirst⟩ :=
    run_sampleOne (hids.request? hr) hrun hs hsample result
  rw [hexec]
  exact ⟨sampled, hr, hrun, ⟨_, Table.keys_modify _ _ _, rfl⟩, hended, hgenerated, hfirst,
    fun token htoken => ⟨rows, hrows, logits, hlogits, sampler, by rw [hsample, htoken]⟩⟩

/-- Whether the pass fails or not, every request of the batch has its turn. What holds after the
pass and is kept by every turn holds after the batch. -/
theorem ran_turns {e : Engine} (h : e.scheduler.Enrolled)
    (P : List RequestId → BatchResult → Engine → Prop)
    (hnext : ∀ id rest result x, P (id :: rest) result x → x.scheduler.DistinctIds ∧
      x.samplers.keys = x.scheduler.requests.map Request.id ∧
      ∃ r ∈ x.scheduler.requests, r.id = id ∧ r.state.isRunning = true)
    (hstart : P e.scheduler.running {}
      { e with scheduler := { e.scheduler with cache := e.passed } })
    (hturn : ∀ r rest result x sampled result' x', Turn e x result r sampled result' x' →
      P (r.id :: rest) result x → P rest result' x') :
    P [] (e.ran e.scheduler.running).1 (e.ran e.scheduler.running).2 := by
  unfold ran
  by_cases hempty : e.scheduler.running = []
  · rw [passed, if_pos hempty] at hstart
    rw [if_pos hempty]
    rw [hempty] at hstart
    exact hstart
  rw [passed, if_neg hempty] at hstart
  rw [if_neg hempty, run_runBatch, entries_ids h]
  obtain ⟨hcache, hrows⟩ := exec_forward e.model
    ((e.entries e.scheduler.running).map Prod.snd) e.scheduler.cache
  rw [← hcache] at hstart
  rcases hexec : Action.exec (forward e.model ((e.entries e.scheduler.running).map Prod.snd))
      e.scheduler.cache with ⟨outcome, cache⟩
  rw [hexec] at hrows hstart
  cases outcome with
  | error fault =>
    refine foldlM_keep P (failOne fault) (fun id rest result x hp => ?_) e.scheduler.running hstart
    obtain ⟨hids, -, r, hr, rfl, hrun⟩ := hnext id rest result x hp
    exact hturn r rest result x _ _ _ (turn_failOne hids hr hrun fault result) hp
  | ok rows =>
    obtain ⟨hok, hlen⟩ := hrows rows rfl
    have hfst : (e.scheduler.running.zip rows).map Prod.fst = e.scheduler.running :=
      List.map_fst_zip (by
        rw [hlen, List.length_map, ← List.length_map (f := Prod.fst), entries_ids h])
    have hkeep := foldlM_keep (fun (turns : List (RequestId × List Float32)) result x =>
        (∀ turn ∈ turns, turn.2 ∈ rows) ∧ P (turns.map Prod.fst) result x)
      (fun result (turn : RequestId × List Float32) => sampleOne result turn.1 turn.2)
      (fun turn rest result x ⟨hturns, hp⟩ => ?_) (e.scheduler.running.zip rows)
      ⟨fun turn hmem => (List.of_mem_zip hmem).2, by rw [hfst]; exact hstart⟩
    · exact hkeep.2
    obtain ⟨id, logits⟩ := turn
    obtain ⟨hids, hkeys, r, hr, rfl, hrun⟩ := hnext id (rest.map Prod.fst) result x hp
    have hlogits : logits ∈ rows := hturns _ (List.mem_cons_self ..)
    obtain ⟨sampled, ht⟩ := turn_sampleOne hids hkeys hr hrun hok hlogits result
    exact ⟨fun other ho => hturns other (List.mem_cons_of_mem _ ho),
      hturn r _ result x sampled _ _ ht hp⟩

/-! ## The end of a tick -/

/-- Publishing writes feeds, and nothing else. -/
theorem foldl_publish (ids : List RequestId) (e : Engine) :
    ∃ feeds, ids.foldl publish e = { e with feeds := feeds } := by
  induction ids generalizing e with
  | nil => exact ⟨e.feeds, rfl⟩
  | cons id rest ih =>
    have hone : ∃ feeds, publish e id = { e with feeds := feeds } := by
      unfold publish
      split
      · split
        · exact ⟨_, rfl⟩
        · exact ⟨e.feeds, rfl⟩
      · exact ⟨e.feeds, rfl⟩
    obtain ⟨feeds, he⟩ := hone
    rw [List.foldl_cons, he]
    exact ih _

theorem run_finish {e : Engine} {id : RequestId} {r : Request}
    (h : e.scheduler.request? id = some r) (now : Nat) : (finish now id).run e =
      (some (.ofRequest { r with slot := none } now), { e with
        scheduler := (e.scheduler.removeRequest id).2
        samplers := e.samplers.erase id
        published := e.published.filter fun other => other ≠ id }) := by
  unfold finish
  rw [run_get_bind, Scheduler.removeRequest_of_some h]
  rfl

/-! ## The tick -/

def drained (e : Engine) (now : Nat) : List (Option GenerationOutput) × Engine :=
  (e.submissions.mapM (takeUp now)).run
    { e with stepCount := e.stepCount + 1, submissions := [] }

def planned (e : Engine) (now : Nat) : Engine :=
  { e with scheduler := (e.scheduler.schedule now).2 }

def closed (e : Engine) (now : Nat) (ids : List RequestId) :
    List (Option GenerationOutput) × Engine := (ids.mapM (finish now)).run e

/-- What the figures of a tick are taken from: what came of its batch, its outputs, and the engine
that it leaves. -/
structure Measured (metrics : StepMetrics) (result : BatchResult)
    (finished : List GenerationOutput) (e : Engine) : Prop where
  generated : metrics.generated = result.generated
  firstTokens : metrics.firstTokens = result.firstTokens
  numFinished : metrics.numFinished = finished.length
  queueDepth : metrics.queueDepth = e.scheduler.numWaiting + e.submissions.length
  numRunning : metrics.numRunning = e.scheduler.numRunning

/-- A tick is one phase after another. -/
theorem run_step (e : Engine) (now : Nat) :
    let start := (e.drained now).2
    let plan := (start.scheduler.schedule now).1
    let result := (start.planned now).ran plan.batch
    let last := ((plan.batch ++ plan.retired ++ plan.preempted).foldl publish result.2).closed now
      (plan.retired ++ result.1.ended)
    ∃ metrics, (step now).run e =
        (⟨(e.drained now).1.filterMap id ++ last.1.filterMap id, metrics⟩, last.2) ∧
      Measured metrics result.1 ((e.drained now).1.filterMap id ++ last.1.filterMap id)
        last.2 := by
  have hdrain : (drain now).run { e with stepCount := e.stepCount + 1 } =
      ((e.drained now).1.filterMap id, (e.drained now).2) := rfl
  unfold step
  simp only [modify, StateT.run_bind]
  rw [StateT.run_modifyGet]
  simp only [pure_bind, hdrain]
  unfold planned ran closed
  generalize e.drained now = d
  by_cases hbatch : (d.2.scheduler.schedule now).1.batch = []
  · rw [if_pos hbatch]
    apply Exists.intro
    apply And.intro
    · change StateT.run (if (d.2.scheduler.schedule now).1.batch = [] then _ else _) _ = _
      rw [if_pos hbatch]
      rfl
    · exact ⟨rfl, rfl, rfl, rfl, rfl⟩
  · rw [if_neg hbatch]
    apply Exists.intro
    apply And.intro
    · change StateT.run (if (d.2.scheduler.schedule now).1.batch = [] then _ else _) _ = _
      rw [if_neg hbatch]
      rfl
    · exact ⟨rfl, rfl, rfl, rfl, rfl⟩

/-- Where the lists agree, the batch of a tick is all that run. What is published does not
matter. -/
theorem run_tick {e : Engine} {now : Nat}
    (h : ((e.drained now).2.scheduler.tick now).scheduler.Enrolled) :
    let start := (e.drained now).2.planned now
    let result := start.ran start.scheduler.running
    ∃ metrics feeds,
      let last := ({ result.2 with feeds := feeds } : Engine).closed now
        (((e.drained now).2.scheduler.schedule now).1.retired ++ result.1.ended)
      (Engine.step now).run e =
        (⟨(e.drained now).1.filterMap id ++ last.1.filterMap id, metrics⟩, last.2) ∧
      Measured metrics result.1 ((e.drained now).1.filterMap id ++ last.1.filterMap id)
        last.2 := by
  intro start result
  have hbatch : ((e.drained now).2.scheduler.schedule now).1.batch = start.scheduler.running :=
    h.batch_eq
  obtain ⟨metrics, hrun, hmeasured⟩ := Engine.run_step e now
  simp only [hbatch] at hrun hmeasured
  obtain ⟨feeds, hfeeds⟩ := foldl_publish (start.scheduler.running ++
    ((e.drained now).2.scheduler.schedule now).1.retired ++
      ((e.drained now).2.scheduler.schedule now).1.preempted) result.2
  rw [hfeeds] at hrun hmeasured
  exact ⟨metrics, feeds, hrun, hmeasured⟩

end Engine

end CausalServe
