import CausalServe.Proofs.Engine.Session

/-! Every accepted request is in one place: it waits to be taken up, or it is stored, or it was
answered. Three tables of an engine list the stored requests, and they agree. Whoever is answered has
ended, and the answer tells why. All of this is kept by every phase of a tick, and by what happens
between two ticks. -/

namespace CausalServe

/-! ## What a request shows of itself -/

def Request.shown (r : Request) : Feed :=
  { tokens := r.output, state := r.state, finishReason := r.finishReason, failure := r.failure }

def GenerationOutput.shown (o : GenerationOutput) : Feed :=
  { tokens := o.output.toArray, state := o.state, finishReason := o.finishReason
    failure := o.failure }

/-- A completed request has a reason and no failure, one that ended otherwise has a failure and no
reason, and a live one has neither. -/
def Feed.Consistent (f : Feed) : Prop :=
  match f.state with
  | .completed => f.finishReason.isSome = true ∧ f.failure = none
  | .cancelled | .failed => f.finishReason = none ∧ f.failure.isSome = true
  | .queued | .prefilling | .decoding => f.finishReason = none ∧ f.failure = none

namespace Request

theorem consistent_of_live {r : Request} (h : r.state.isTerminal = false) :
    r.shown.Consistent ↔ r.finishReason = none ∧ r.failure = none := by
  unfold Feed.Consistent shown
  cases hs : r.state <;> simp_all [RequestState.isTerminal]

theorem consistent_failedBy {r : Request} (h : r.finishReason = none) (e : Error) :
    (r.failedBy e).shown.Consistent := ⟨h, rfl⟩

/-- A turn leaves a request consistent. -/
theorem consistent_settled {r : Request} (hrun : r.state.isRunning = true)
    (h : r.shown.Consistent) (eos : Option Token) (sampled : Except Error Token) :
    (r.settled eos sampled).shown.Consistent := by
  obtain ⟨hreason, hfailure⟩ :=
    (consistent_of_live (RequestState.isTerminal_of_isRunning hrun)).mp h
  cases sampled with
  | error fault => exact consistent_failedBy hreason fault
  | ok token =>
    cases hstop : (r.stepped token).checkStop eos with
    | none =>
      rw [settled_goesOn hstop]
      exact (consistent_of_live rfl).mpr ⟨hreason, hfailure⟩
    | some reason =>
      rw [settled_completes hstop]
      exact ⟨rfl, hfailure⟩

end Request

namespace Round

/-- Whatever ends a request while a tick is planned, the request tells why. -/
theorem Cause.consistent {now : Nat} {round : Round} {r ended : Request}
    (hcause : round.Cause now r ended) (hlive : r.state.isTerminal = false)
    (h : r.shown.Consistent) : ended.shown.Consistent := by
  obtain ⟨hreason, -⟩ := (Request.consistent_of_live hlive).mp h
  cases hcause with
  | due hdue hend =>
    rcases Request.expiry?_some hdue with ⟨rfl, -⟩ | ⟨rfl, -⟩
    · rw [Request.apply_cancel hlive] at hend
      cases hend
      exact ⟨hreason, rfl⟩
    · rw [Request.apply_timeout hlive] at hend
      cases hend
      exact ⟨hreason, rfl⟩
  | tooLong _ _ hend | tooLarge _ _ _ hend | overgrown _ _ _ hend | starved _ _ _ _ _ hend
  | evicted _ _ _ hend =>
    obtain ⟨-, rfl⟩ := Request.fail_ok hend
    exact Request.consistent_failedBy hreason _

theorem Move.consistent {now : Nat} {a b : Round} (hm : Move now a b)
    (h : ∀ r ∈ a.scheduler.requests, r.shown.Consistent) :
    ∀ r ∈ b.scheduler.requests, r.shown.Consistent := by
  have key : ∀ changed : Request, changed.shown.Consistent →
      ∀ x ∈ (a.scheduler.update changed).requests, x.shown.Consistent := by
    intro changed hc x hx
    rcases Scheduler.mem_update.mp hx with ⟨rfl, -⟩ | ⟨hx, -⟩
    · exact hc
    · exact h x hx
  cases hm with
  | @fit r cut hr hq hfit =>
    refine key cut ?_
    rw [Scheduler.fitPrompt_kept hfit]
    exact h r hr
  | @retire r ended hr hlive hcause =>
    have hended : ({ ended with slot := none } : Request).shown.Consistent :=
      hcause.consistent hlive (h r hr)
    exact key _ hended
  | @enter r entry rest cache hr hq =>
    have hplain := (Request.consistent_of_live (by rw [hq]; rfl)).mp (h r hr)
    exact key (r.startIn a.scheduler.cache.nextId) ((Request.consistent_of_live rfl).mpr hplain)
  | reserve => exact h
  | @preempt r hr hrun =>
    have hplain := (Request.consistent_of_live
      (RequestState.isTerminal_of_isRunning hrun)).mp (h r hr)
    exact key r.requeued ((Request.consistent_of_live rfl).mpr hplain)

theorem Moves.consistent {now : Nat} {a b : Round} (hm : Moves now a b)
    (h : ∀ r ∈ a.scheduler.requests, r.shown.Consistent) :
    ∀ r ∈ b.scheduler.requests, r.shown.Consistent :=
  hm.keep (P := fun x => ∀ r ∈ x.scheduler.requests, r.shown.Consistent) h
    fun _ _ hmove hp => hmove.consistent hp

end Round

namespace Engine

/-- The books of an engine between any two steps, with the ids that it ever gave out, the outputs so
far, the submissions still to be taken up, and the requests that have ended and are still stored. -/
structure Audit (ids : List RequestId) (outs : List GenerationOutput) (todo : List Submission)
    (ended : List RequestId) (e : Engine) : Prop where
  coherent : Coherent (fun _ _ => True) e todo ended
  fresh : ∀ id ∈ ids, id < e.nextId
  nodup : ids.Nodup
  tally : (outs.map GenerationOutput.requestId ++
    (todo.map Submission.id ++ e.scheduler.requests.map Request.id)).Perm ids
  published : e.published = e.scheduler.requests.map Request.id
  consistent : ∀ r ∈ e.scheduler.requests, r.shown.Consistent
  answered : ∀ o ∈ outs, o.state.isTerminal = true ∧ o.shown.Consistent

variable {ids : List RequestId} {outs : List GenerationOutput} {todo : List Submission}
  {ended : List RequestId} {e : Engine}

/-- An id has one place. -/
theorem Audit.apart (h : Audit ids outs todo ended e) : (outs.map GenerationOutput.requestId ++
    (todo.map Submission.id ++ e.scheduler.requests.map Request.id)).Nodup :=
  h.tally.nodup_iff.mpr h.nodup

/-- Who is stored was not answered. -/
theorem Audit.unanswered (h : Audit ids outs todo ended e) {r : Request}
    (hr : r ∈ e.scheduler.requests) : ∀ o ∈ outs, o.requestId ≠ r.id := by
  intro o ho heq
  have hstored : r.id ∈ todo.map Submission.id ++ e.scheduler.requests.map Request.id :=
    List.mem_append_right _ (List.mem_map_of_mem hr)
  exact (List.nodup_append.mp h.apart).2.2 _ (List.mem_map_of_mem ho) _ hstored heq

/-- Who waits to be taken up was not answered either. -/
theorem Audit.unseen (h : Audit ids outs todo ended e) {s : Submission} (hs : s ∈ todo) :
    ∀ o ∈ outs, o.requestId ≠ s.id := by
  intro o ho heq
  have hwaits : s.id ∈ todo.map Submission.id ++ e.scheduler.requests.map Request.id :=
    List.mem_append_left _ (List.mem_map_of_mem hs)
  exact (List.nodup_append.mp h.apart).2.2 _ (List.mem_map_of_mem ho) _ hwaits heq

theorem Audit.withFeeds (h : Audit ids outs todo ended e) (feeds : Table Feed) :
    Audit ids outs todo ended { e with feeds := feeds } :=
  { h with coherent := h.coherent.withFeeds feeds }

/-! ## Between two ticks -/

/-- A new engine knows no request. -/
theorem Audit.new {model : LanguageModel} {config : EngineConfig} {entropy : RequestId → Stream}
    (h : Engine.new model config entropy = .ok e) : Audit [] [] e.submissions [] e := by
  obtain ⟨-, -, hsub, -, hcoherent⟩ := Coherent.new h
  rw [hsub]
  rw [new_eq h] at hcoherent ⊢
  exact {
    coherent := hcoherent
    fresh := fun id hid => (List.not_mem_nil hid).elim
    nodup := List.nodup_nil
    tally := .refl _
    published := rfl
    consistent := fun r hr => (List.not_mem_nil hr).elim
    answered := fun o ho => (List.not_mem_nil ho).elim }

/-- A request is accepted under an id of its own. -/
theorem Audit.accepted (h : Audit ids outs e.submissions [] e) {g : GenerationRequest}
    (hvalid : g.validate = .ok ()) (now : Nat) :
    Audit (ids ++ [e.nextId]) outs (e.accepted g now).submissions [] (e.accepted g now) where
  coherent := h.coherent.accepted (asks_of_validate hvalid) trivial now
  fresh := by
    intro id hid
    show id < e.nextId + 1
    rcases List.mem_append.mp hid with hid | hid
    · exact Nat.lt_succ_of_lt (h.fresh id hid)
    · rw [List.mem_singleton.mp hid]
      exact Nat.lt_succ_self _
  nodup := by
    refine h.nodup.append (List.nodup_singleton _) fun id hid hnew => ?_
    rw [List.mem_singleton.mp hnew] at hid
    exact Nat.lt_irrefl _ (h.fresh _ hid)
  tally := by
    have hsub : (e.accepted g now).submissions.map Submission.id =
        e.submissions.map Submission.id ++ [e.nextId] := List.map_append
    have hlast : ∀ xs ys zs : List RequestId,
        (xs ++ ((ys ++ [e.nextId]) ++ zs)).Perm ((xs ++ (ys ++ zs)) ++ [e.nextId]) := by
      intro xs ys zs
      simp only [List.append_assoc]
      exact ((List.perm_append_comm).append_left ys).append_left xs
    rw [hsub]
    exact (hlast _ _ _).trans (h.tally.append_right _)
  published := h.published
  consistent := h.consistent
  answered := h.answered

theorem Audit.cancelled (h : Audit ids outs e.submissions [] e) (id : RequestId) :
    Audit ids outs (e.cancel id).submissions [] (e.cancel id) := by
  obtain ⟨hsub, hreq⟩ := ids_cancel e id
  exact {
    coherent := h.coherent.cancelled id
    fresh := h.fresh
    nodup := h.nodup
    tally := by rw [hsub, hreq]; exact h.tally
    published := h.published.trans hreq.symm
    consistent := by
      intro r hr
      obtain ⟨old, hold, he⟩ := mem_requests_cancel hr
      rw [he]
      exact h.consistent old hold
    answered := h.answered }

/-! ## Taking up submissions -/

/-- A submission whose prompt is refused is answered at once. -/
theorem Audit.refused {s : Submission} {rest : List Submission}
    (h : Audit ids outs (s :: rest) [] e) (fault : Error) (now : Nat) (feeds : Table Feed) :
    Audit ids (outs ++ [.ofRequest (s.toRequest.failedBy fault) now]) rest []
      { e with feeds := feeds } where
  coherent := h.coherent.skip.withFeeds feeds
  fresh := h.fresh
  nodup := h.nodup
  tally := by
    refine .trans ?_ h.tally
    rw [List.map_append, List.append_assoc]
    exact .refl _
  published := h.published
  consistent := h.consistent
  answered := by
    intro o ho
    rcases List.mem_append.mp ho with ho | ho
    · exact h.answered o ho
    · rw [List.mem_singleton.mp ho]
      exact ⟨rfl, Request.consistent_failedBy rfl fault⟩

/-- Any other submission is stored. -/
theorem Audit.stored {s : Submission} {rest : List Submission}
    (h : Audit ids outs (s :: rest) [] e) : Audit ids outs rest [] { e with
      scheduler := e.scheduler.arrived s.toRequest
      samplers := e.samplers.insert s.id (.new s.request.sampling (e.entropy s.id))
      published := e.published ++ [s.id] } where
  coherent := h.coherent.arrived
  fresh := h.fresh
  nodup := h.nodup
  tally := ((pending_arrived e.scheduler s rest).append_left _).trans h.tally
  published := by
    show e.published ++ [s.id] = _
    rw [h.published, Scheduler.arrived, Scheduler.enqueue, List.map_append]
    rfl
  consistent := by
    intro r hr
    rcases Scheduler.mem_arrived.mp hr with hr | rfl
    · exact h.consistent r hr
    · exact ⟨rfl, rfl⟩
  answered := h.answered

theorem Audit.takeUp {s : Submission} {rest : List Submission}
    (h : Audit ids outs (s :: rest) [] e) (now : Nat) :
    Audit ids (outs ++ ((Engine.takeUp now s).run e).1.toList) rest []
      ((Engine.takeUp now s).run e).2 := by
  rcases takeUp_cases e now h.coherent.unknown with ⟨fault, -, hrun⟩ | ⟨-, hrun⟩ <;> rw [hrun]
  · exact h.refused fault now _
  · rw [Option.toList_none, List.append_nil]
    exact h.stored

theorem Audit.drained (h : Audit ids outs e.submissions [] e) (now : Nat) :
    Audit ids (outs ++ (e.drained now).1.filterMap id) [] [] (e.drained now).2 := by
  have hstart : Audit ids outs e.submissions []
      { e with submissions := [], stepCount := e.stepCount + 1 } :=
    { h with coherent := { h.coherent with } }
  exact mapM_keep_outputs (fun outs rest x => Audit ids outs rest [] x) (Engine.takeUp now)
    (fun _ _ _ _ hx => hx.takeUp now) e.submissions hstart

/-! ## The plan and the batch -/

theorem Audit.planned (h : Audit ids outs [] [] e) (now : Nat) :
    Audit ids outs [] (e.scheduler.schedule now).1.retired (e.planned now) := by
  have hmoves := h.coherent.owned.moves_tick now
  have hids : (e.planned now).scheduler.requests.map Request.id =
      e.scheduler.requests.map Request.id := hmoves.ids
  exact {
    coherent := h.coherent.planned now
    fresh := h.fresh
    nodup := h.nodup
    tally := by rw [hids]; exact h.tally
    published := h.published.trans hids.symm
    consistent := hmoves.consistent h.consistent
    answered := h.answered }

/-- A turn moves nobody. -/
theorem Audit.turn {start : Engine} {r : Request} {rest : List RequestId}
    {result result' : BatchResult} {sampled : Except Error Token} {x : Engine}
    (h : Audit ids outs [] (ended ++ result.ended) e)
    (hrunning : Running (fun _ _ => True) start ended rest result' x)
    (ht : Turn start e result r sampled result' x) :
    Audit ids outs [] (ended ++ result'.ended) x := by
  have hcoherent := hrunning.coherent
  obtain ⟨samplers, -, rfl⟩ := ht.engine
  have hids := Scheduler.ids_settle e.scheduler (r.settled e.model.config.eosToken sampled)
  obtain ⟨slot, hform⟩ := Scheduler.settledForm_eq (r.settled e.model.config.eosToken sampled)
  exact {
    coherent := hcoherent
    fresh := h.fresh
    nodup := h.nodup
    tally := by simp only [hids]; exact h.tally
    published := h.published.trans hids.symm
    consistent := by
      intro x hx
      rw [Scheduler.settle_requests, hform] at hx
      rcases Scheduler.mem_update.mp hx with ⟨rfl, -⟩ | ⟨hx, -⟩
      · exact Request.consistent_settled ht.running (h.consistent r ht.stored) _ _
      · exact h.consistent x hx
    answered := h.answered }

/-- The forward pass does not touch the books. -/
theorem Audit.passed (h : Audit ids outs [] ended e) (hforward : Cache.Appended e.scheduler.cache
      (Action.exec (e.model.forward ((e.entries e.scheduler.running).map Prod.snd))
        e.scheduler.cache).2) :
    Audit ids outs [] ended { e with scheduler := { e.scheduler with cache := e.passed } } := by
  have hpassed : Cache.Appended e.scheduler.cache e.passed := by
    unfold Engine.passed
    split
    · exact .refl
    · exact hforward
  exact { h with coherent := h.coherent.appended hpassed }

theorem Audit.ran (h : Audit ids outs [] ended e) (hforward : Cache.Appended e.scheduler.cache
      (Action.exec (e.model.forward ((e.entries e.scheduler.running).map Prod.snd))
        e.scheduler.cache).2) :
    Audit ids outs [] (ended ++ (e.ran e.scheduler.running).1.ended)
      (e.ran e.scheduler.running).2 := by
  refine h.coherent.ran_keep hforward
    (fun _ result x => Audit ids outs [] (ended ++ result.ended) x) ?_ ?_
  · rw [List.append_nil]
    exact h.passed hforward
  · intro r rest result x sampled result' x' _ ht hnext hx
    exact hx.turn hnext ht

/-! ## The end of a tick -/

/-- Whoever has ended is answered, and forgotten in all tables. -/
theorem Audit.finish {id : RequestId} {rest : List RequestId}
    (h : Audit ids outs [] (id :: rest) e) (now : Nat) :
    Audit ids (outs ++ ((Engine.finish now id).run e).1.toList) [] rest
      ((Engine.finish now id).run e).2 := by
  obtain ⟨r, hr, hend, -, hnext⟩ := h.coherent.finish now
  obtain ⟨hmem, rfl⟩ := Scheduler.mem_of_request? hr
  rw [run_finish hr] at hnext ⊢
  exact {
    coherent := hnext
    fresh := h.fresh
    nodup := h.nodup
    tally := by
      refine .trans ?_ h.tally
      rw [List.map_append, List.append_assoc]
      exact (Scheduler.ids_removeRequest_perm h.coherent.owned.ids hr).append_left _
    published := by
      show e.published.filter _ = _
      rw [Scheduler.ids_removeRequest hr, h.published]
    consistent := by
      intro x hx
      exact h.consistent x (Scheduler.mem_removeRequest.mp hx).1
    answered := by
      intro o ho
      rcases List.mem_append.mp ho with ho | ho
      · exact h.answered o ho
      · rw [List.mem_singleton.mp ho]
        exact ⟨hend, h.consistent r hmem⟩ }

theorem Audit.closed (h : Audit ids outs [] ended e) (now : Nat) :
    Audit ids (outs ++ (e.closed now ended).1.filterMap id) [] [] (e.closed now ended).2 :=
  mapM_keep_outputs (fun outs rest x => Audit ids outs [] rest x) (Engine.finish now)
    (fun _ _ _ _ hx => hx.finish now) ended h

/-- The books are in order after a tick if they were before. -/
theorem Audit.step (h : Audit ids outs e.submissions [] e) {now : Nat} (ha : e.AppendsAt now) :
    Audit ids (outs ++ ((Engine.step now).run e).1.finished)
      ((Engine.step now).run e).2.submissions [] ((Engine.step now).run e).2 := by
  have hdrained := h.drained now
  have hstill := (h.coherent.step ha).2.1
  rw [hstill.submissions]
  obtain ⟨metrics, feeds, hrun, -⟩ := hdrained.coherent.run_step
  have hclosed := (((hdrained.planned now).ran ha).withFeeds feeds).closed now
  rw [hrun, ← List.append_assoc]
  exact hclosed

/-- When nothing is pending, every id was answered. -/
theorem Audit.settled (h : Audit ids outs e.submissions [] e) (hidle : e.hasPending = false) :
    (outs.map GenerationOutput.requestId).Perm ids := by
  rw [hasPending, Bool.or_eq_false_iff, Bool.not_eq_false', List.isEmpty_iff] at hidle
  obtain ⟨hsched, hsub⟩ := hidle
  have hnone : e.scheduler.requests = [] := by
    refine List.eq_nil_iff_forall_not_mem.mpr fun r hr => ?_
    rw [h.coherent.owned.hasPending_iff.mpr ⟨r, hr, h.coherent.live r hr⟩] at hsched
    cases hsched
  have htally := h.tally
  simp only [hsub, hnone, List.map_nil, List.append_nil] at htally
  exact htally

/-- Who is stored was accepted, is no longer waiting to be taken up, and was not answered. -/
theorem Audit.mem_stored (h : Audit ids outs todo ended e) (id : RequestId) :
    id ∈ e.scheduler.requests.map Request.id ↔
      id ∈ ids ∧ id ∉ todo.map Submission.id ∧ id ∉ outs.map GenerationOutput.requestId := by
  have hmem := h.tally.mem_iff (a := id)
  have hdisjoint := List.nodup_append.mp h.apart
  have hdisjoint' := List.nodup_append.mp hdisjoint.2.1
  simp only [List.mem_append] at hmem
  constructor
  · intro hid
    exact ⟨hmem.mp (.inr (.inr hid)), fun hsub => hdisjoint'.2.2 _ hsub _ hid rfl,
      fun hout => hdisjoint.2.2 _ hout _ (List.mem_append_right _ hid) rfl⟩
  · rintro ⟨hid, hsub, hout⟩
    exact ((hmem.mpr hid).resolve_left hout).resolve_left hsub

end Engine

end CausalServe
