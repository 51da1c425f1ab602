import CausalServe.Proofs.Engine.Coherent
import CausalServe.Proofs.Scheduler.Loops

/-! Every tick of an engine that has something to do generates a token or ends a request, and uses
up as much of the work that is left. So an engine that gets no more submissions comes to rest, and
the work bounds its ticks. A request that is sent back keeps what it has generated, so preemption
gives no work back. -/

namespace CausalServe

/-- The ticks that a request can still take; none if it has ended. -/
def Request.share (r : Request) : Nat := if r.state.isTerminal then 0 else r.remaining

theorem Request.share_ended {r : Request} (h : r.state.isTerminal = true) : r.share = 0 :=
  if_pos h

theorem Request.share_live {r : Request} (h : r.state.isTerminal = false) :
    r.share = 1 + (r.sampling.maxTokens - r.output.size) := by
  rw [share, h]
  rfl

namespace Request

theorem settled_sampling (r : Request) (eos : Option Token) (sampled : Except Error Token) :
    (r.settled eos sampled).sampling = r.sampling :=
  settled_keeps Request.sampling (fun _ => rfl) (fun _ => rfl) (fun _ _ => rfl) eos sampled

/-- A request never generates more than it asked for, and goes on only while it has less. -/
theorem settled_size {r : Request} (h : r.output.size < r.sampling.maxTokens) (eos : Option Token)
    (sampled : Except Error Token) :
    (r.settled eos sampled).output.size ≤ r.sampling.maxTokens ∧
      ((r.settled eos sampled).state.isTerminal = false →
        (r.settled eos sampled).output.size < r.sampling.maxTokens) := by
  cases sampled with
  | error => exact ⟨Nat.le_of_lt h, nofun⟩
  | ok token =>
    have hsize : (r.stepped token).output.size = r.output.size + 1 := Array.size_push ..
    cases hstop : (r.stepped token).checkStop eos with
    | none =>
      rw [settled_goesOn hstop]
      have hlt := checkStop_none (by omega) hstop
      exact ⟨Nat.le_of_lt hlt, fun _ => hlt⟩
    | some reason =>
      rw [settled_completes hstop]
      exact ⟨hsize ▸ h, nofun⟩

/-- A step takes from what is left the token that it generates and the end of the request, and it
brings one of the two. -/
theorem settled_share {r : Request} (hlive : r.state.isTerminal = false)
    (h : r.output.size < r.sampling.maxTokens) (eos : Option Token) (sampled : Except Error Token) :
    (r.settled eos sampled).share + sampled.isOk.toNat +
        (r.settled eos sampled).state.isTerminal.toNat ≤ r.share ∧
      0 < sampled.isOk.toNat + (r.settled eos sampled).state.isTerminal.toNat := by
  rw [share_live hlive]
  cases sampled with
  | error =>
    refine ⟨?_, Nat.one_pos⟩
    change 0 + 0 + 1 ≤ _
    omega
  | ok token =>
    have hsize : (r.stepped token).output.size = r.output.size + 1 := Array.size_push ..
    cases hstop : (r.stepped token).checkStop eos with
    | none =>
      have hlt := checkStop_none (by omega) hstop
      rw [settled_goesOn hstop, share_live rfl]
      refine ⟨?_, Nat.one_pos⟩
      change 1 + (r.sampling.maxTokens - (r.stepped token).output.size) + 1 + 0 ≤ _
      change (r.stepped token).output.size < r.sampling.maxTokens at hlt
      omega
    | some reason =>
      rw [settled_completes hstop]
      refine ⟨?_, Nat.succ_pos _⟩
      change 0 + 1 + 1 ≤ _
      omega

end Request

namespace Round

/-- What a move reports is taken from the work that is left. -/
theorem Move.work {now : Nat} {a b : Round} (hm : Move now a b) (h : a.scheduler.DistinctIds) :
    total Request.share b.scheduler.requests + b.retired.length ≤
      total Request.share a.scheduler.requests + a.retired.length := by
  cases hm with
  | @fit r cut hr hq hfit =>
    have hk := Scheduler.fitPrompt_kept hfit
    have htotal := h.total_update Request.share hr (r := cut) (by rw [hk])
    have hshare : cut.share = r.share := by rw [hk]; rfl
    change total Request.share (a.scheduler.update cut).requests + a.retired.length ≤ _
    omega
  | @retire r ended hr hlive hcause =>
    have he := hcause.endsAs hlive
    have htotal := h.total_update Request.share hr (r := { ended with slot := none }) he.id
    rw [Request.share_ended (r := { ended with slot := none }) he.terminal,
      Request.share_live hlive] at htotal
    change total Request.share (a.scheduler.update { ended with slot := none }).requests +
      (a.retired ++ [ended.id]).length ≤ _
    rw [List.length_append, List.length_singleton]
    omega
  | @enter r entry rest cache hr hq =>
    have htotal := h.total_update Request.share hr (r := r.startIn a.scheduler.cache.nextId) rfl
    have hshare : (r.startIn a.scheduler.cache.nextId).share = r.share := by
      rw [Request.share_live rfl, Request.share_live (by rw [hq]; rfl)]
      rfl
    change total Request.share (a.scheduler.update (r.startIn a.scheduler.cache.nextId)).requests +
      a.retired.length ≤ _
    omega
  | reserve => exact Nat.le_refl _
  | @preempt r hr hrun =>
    have htotal := h.total_update Request.share hr (r := r.requeued) rfl
    have hshare : r.requeued.share = r.share := by
      rw [Request.share_live rfl, Request.share_live (RequestState.isTerminal_of_isRunning hrun)]
      rfl
    change total Request.share (a.scheduler.update r.requeued).requests + a.retired.length ≤ _
    omega

theorem Moves.work {now : Nat} {a b : Round} (hm : Moves now a b) (h : a.scheduler.Owned) :
    total Request.share b.scheduler.requests + b.retired.length ≤
      total Request.share a.scheduler.requests + a.retired.length :=
  (hm.keep (P := fun x => x.scheduler.Owned ∧ total Request.share x.scheduler.requests +
      x.retired.length ≤ total Request.share a.scheduler.requests + a.retired.length)
    ⟨h, Nat.le_refl _⟩ fun _ _ hmove hp =>
      ⟨hmove.owned hp.1, Nat.le_trans (hmove.work hp.1.ids) hp.2⟩).2

end Round

namespace Engine

/-- The ticks that the stored requests can still take, and the submissions still to be taken up. -/
def work (e : Engine) (todo : List Submission) : Nat :=
  total (fun s => 1 + s.request.sampling.maxTokens) todo +
    total Request.share e.scheduler.requests

theorem remaining_eq (e : Engine) : e.remaining = e.work e.submissions := by
  unfold remaining work
  rw [total_filter]
  congr 1
  refine total_congr fun r _ => ?_
  unfold Request.share
  cases r.state.isTerminal <;> rfl

/-- The parts of an engine that the phases of a tick do not touch. -/
structure Still (e e' : Engine) : Prop where
  model : e'.model = e.model
  config : e'.config = e.config
  entropy : e'.entropy = e.entropy
  submissions : e'.submissions = e.submissions
  nextId : e'.nextId = e.nextId
  stepCount : e'.stepCount = e.stepCount

theorem Still.refl (e : Engine) : Still e e := ⟨rfl, rfl, rfl, rfl, rfl, rfl⟩

theorem Still.feeds (e : Engine) (feeds : Table Feed) : Still e { e with feeds := feeds } :=
  ⟨rfl, rfl, rfl, rfl, rfl, rfl⟩

theorem Still.trans {a b c : Engine} (h : Still a b) (h' : Still b c) : Still a c :=
  ⟨h'.model.trans h.model, h'.config.trans h.config, h'.entropy.trans h.entropy,
    h'.submissions.trans h.submissions, h'.nextId.trans h.nextId, h'.stepCount.trans h.stepCount⟩

variable {limit : RequestId → Nat → Prop} {e : Engine} {todo : List Submission}
  {ended : List RequestId}

def Within (limit : RequestId → Nat → Prop) (o : GenerationOutput) : Prop :=
  ∃ n, limit o.requestId n ∧ o.output.length ≤ n

/-! ## Taking up submissions -/

theorem Coherent.drained (h : Coherent limit e e.submissions []) (now : Nat) :
    Coherent limit (e.drained now).2 [] [] ∧
    Still { e with submissions := [], stepCount := e.stepCount + 1 } (e.drained now).2 ∧
    (e.drained now).2.work [] + ((e.drained now).1.filterMap id).length ≤ e.remaining ∧
    (∀ o ∈ (e.drained now).1.filterMap id, Within limit o) ∧
    (e.hasPending = true → (e.drained now).1.filterMap id ≠ [] ∨
      (e.drained now).2.scheduler.requests ≠ []) := by
  have hkeep := mapM_keep (fun rest done e' => Coherent limit e' rest [] ∧
      Still { e with submissions := [], stepCount := e.stepCount + 1 } e' ∧
      e'.work rest + (done.filterMap id).length ≤ e.remaining ∧
      (∀ o ∈ done.filterMap id, Within limit o) ∧
      (e.hasPending = true → rest ≠ [] ∨ done.filterMap id ≠ [] ∨ e'.scheduler.requests ≠ []))
    (takeUp now) ?_ e.submissions (s := { e with submissions := [], stepCount := e.stepCount + 1 })
    ⟨{ h with }, .refl _, by rw [remaining_eq]; exact Nat.le_refl _,
      fun o ho => (List.not_mem_nil ho).elim, ?_⟩
  · obtain ⟨hc, hs, hw, ho, hp⟩ := hkeep
    exact ⟨hc, hs, hw, ho, fun hpending => (hp hpending).resolve_left fun hne => hne rfl⟩
  · rintro s rest done e' ⟨hc, hs, hw, ho, hp⟩
    rcases takeUp_cases e' now hc.unknown with ⟨fault, -, hrun⟩ | ⟨-, hrun⟩
    · rw [hrun]
      refine ⟨hc.skip.withFeeds _, hs.trans ⟨rfl, rfl, rfl, rfl, rfl, rfl⟩, ?_, ?_, fun _ => ?_⟩
      · simp only [List.filterMap_append, List.length_append]
        change e'.work rest + ((done.filterMap id).length + 1) ≤ _
        simp only [work, total] at hw ⊢
        omega
      · intro o hmem
        rw [List.filterMap_append] at hmem
        rcases List.mem_append.mp hmem with hmem | hmem
        · exact ho o hmem
        · rw [List.mem_singleton.mp hmem]
          exact ⟨_, hc.limited.1 s (by simp), Nat.zero_le _⟩
      · exact .inr (.inl (by simp))
    · have hdone : (done ++ [none]).filterMap id = done.filterMap id := by simp
      rw [hrun]
      refine ⟨hc.arrived, hs.trans ⟨rfl, rfl, rfl, rfl, rfl, rfl⟩, ?_, ?_, fun _ => ?_⟩
      · have hreq : (e'.scheduler.arrived s.toRequest).requests =
            e'.scheduler.requests ++ [{ s.toRequest with arrivalSeq := e'.scheduler.arrivals }] := rfl
        have hshare : ({ s.toRequest with arrivalSeq := e'.scheduler.arrivals } : Request).share =
            1 + s.request.sampling.maxTokens := rfl
        simp only [hdone, work, hreq, total_append, total, hshare] at hw ⊢
        omega
      · simp only [hdone]
        exact ho
      · exact .inr (.inr (by simp [Scheduler.arrived, Scheduler.enqueue]))
  · intro hpending
    by_cases hsub : e.submissions = []
    · right; right
      simp only [hasPending, hsub, List.isEmpty_nil, Bool.not_true, Bool.or_false] at hpending
      obtain ⟨r, hr, -⟩ := h.owned.exists_of_hasPending hpending
      exact List.ne_nil_of_mem hr
    · exact .inl hsub

/-! ## Running the batch -/

/-- An engine whose batch is being run, with the requests whose turn is still to come and a bound on
the work. -/
structure Running (limit : RequestId → Nat → Prop) (start : Engine) (ended : List RequestId)
    (turns : List RequestId) (result : BatchResult) (e : Engine) : Prop where
  coherent : Coherent limit e [] (ended ++ result.ended)
  still : Still start e
  running : ∀ id ∈ turns, id ∈ e.scheduler.running
  nodup : turns.Nodup
  work : e.work [] + result.generated + result.ended.length ≤ start.work []

/-- Whoever is to have a turn runs. -/
theorem Running.next {start : Engine} {id : RequestId} {rest : List RequestId}
    {result : BatchResult} (h : Running limit start ended (id :: rest) result e) :
    e.scheduler.DistinctIds ∧ e.samplers.keys = e.scheduler.requests.map Request.id ∧
      ∃ r ∈ e.scheduler.requests, r.id = id ∧ r.state.isRunning = true :=
  ⟨h.coherent.owned.ids, h.coherent.keys,
    (h.coherent.owned.running_iff id).mp (h.running id (by simp))⟩

/-- A turn takes from the work what it reports, and it reports something. -/
theorem Running.settle {start : Engine} {r : Request} {rest : List RequestId}
    {result result' : BatchResult} (h : Running limit start ended (r.id :: rest) result e)
    (hr : r ∈ e.scheduler.requests) (hrun : r.state.isRunning = true)
    (sampled : Except Error Token) {samplers : Table Sampler}
    (hkeys : samplers.keys = e.samplers.keys)
    (hended : result'.ended = if (r.settled e.model.config.eosToken sampled).state.isTerminal then
      result.ended ++ [r.id] else result.ended)
    (hgenerated : result'.generated = result.generated + sampled.isOk.toNat) :
    Running limit start ended rest result' { e with
        samplers := samplers
        scheduler := e.scheduler.settle (r.settled e.model.config.eosToken sampled) } ∧
      0 < result'.generated + result'.ended.length := by
  have hlive := RequestState.isTerminal_of_isRunning hrun
  have hbelow := (h.coherent.sized r hr).2 hlive
  have hid := Request.settled_id r e.model.config.eosToken sampled
  have hrunning := @Request.settled_running r e.model.config.eosToken sampled
  have hc := h.coherent.settle hr hrun hid (Request.settled_slot _ _ _)
    (Request.settled_sampling _ _ _) hrunning (Request.settled_size hbelow _ _) hkeys
  obtain ⟨hshare, hpos⟩ := Request.settled_share hlive hbelow e.model.config.eosToken sampled
  generalize r.settled e.model.config.eosToken sampled = later at *
  have hlen : result'.ended.length = result.ended.length + later.state.isTerminal.toNat := by
    rw [hended]
    cases later.state.isTerminal <;> simp
  have hnd := List.nodup_cons.mp h.nodup
  obtain ⟨slot, hform⟩ := Scheduler.settledForm_eq later
  have hsame : ({ later with slot := slot } : Request).share = later.share := rfl
  have htotal := h.coherent.owned.ids.total_update Request.share hr
    (r := { later with slot := slot }) hid
  rw [hsame, ← hform, ← Scheduler.settle_requests] at htotal
  refine ⟨?_, by omega⟩
  exact {
    coherent := by
      rw [hended]
      cases hend : later.state.isTerminal with
      | true => simpa [hend] using hc
      | false => simpa [hend] using hc
    still := h.still.trans ⟨rfl, rfl, rfl, rfl, rfl, rfl⟩
    running := fun other ho => Scheduler.running_settle
      (h.running other (List.mem_cons_of_mem _ ho)) fun he => hnd.1 (by rw [← hid, ← he]; exact ho)
    nodup := hnd.2
    work := by
      have hw := h.work
      simp only [Engine.work, total] at hw ⊢
      omega }

theorem Running.turn {start : Engine} {r : Request} {rest : List RequestId}
    {result result' : BatchResult} {sampled : Except Error Token} {e' : Engine}
    (h : Running limit start ended (r.id :: rest) result e)
    (ht : Turn start e result r sampled result' e') :
    Running limit start ended rest result' e' ∧ 0 < result'.generated + result'.ended.length := by
  obtain ⟨samplers, hkeys, rfl⟩ := ht.engine
  exact h.settle ht.stored ht.running sampled hkeys ht.ended ht.generated

/-- After a forward pass that appends rows the turns begin. -/
theorem Coherent.running (h : Coherent limit e [] ended)
    (hforward : Cache.Appended e.scheduler.cache
      (Action.exec (e.model.forward ((e.entries e.scheduler.running).map Prod.snd))
        e.scheduler.cache).2) :
    Running limit e ended e.scheduler.running {}
      { e with scheduler := { e.scheduler with cache := e.passed } } := by
  have hpassed : Cache.Appended e.scheduler.cache e.passed := by
    unfold passed
    split
    · exact .refl
    · exact hforward
  exact ⟨by rw [List.append_nil]; exact h.appended hpassed, ⟨rfl, rfl, rfl, rfl, rfl, rfl⟩, fun _ => id,
    h.owned.running_nodup, Nat.le_refl _⟩

/-- A batch of all that run, whose forward pass appends rows. -/
theorem Coherent.ran (h : Coherent limit e [] ended) (hforward : Cache.Appended e.scheduler.cache
      (Action.exec (e.model.forward ((e.entries e.scheduler.running).map Prod.snd))
        e.scheduler.cache).2) :
    Running limit e ended [] (e.ran e.scheduler.running).1 (e.ran e.scheduler.running).2 ∧
      (e.scheduler.running ≠ [] → 0 < (e.ran e.scheduler.running).1.generated +
        (e.ran e.scheduler.running).1.ended.length) := by
  have hkeep := ran_turns h.owned.enrolled
    (fun turns result x => Running limit e ended turns result x ∧
      (e.scheduler.running ≠ [] → turns ≠ [] ∨ 0 < result.generated + result.ended.length))
    (fun _ _ _ _ hp => hp.1.next) ⟨h.running hforward, .inl⟩
    fun _ _ _ _ _ _ _ ht hp => ⟨(hp.1.turn ht).1, fun _ => .inr (hp.1.turn ht).2⟩
  exact ⟨hkeep.1, fun hne => (hkeep.2 hne).resolve_left fun hnil => hnil rfl⟩

/-- What the forward pass brings about and every turn keeps holds after the batch. -/
theorem Coherent.ran_keep (h : Coherent limit e [] ended)
    (hforward : Cache.Appended e.scheduler.cache (Action.exec
      (e.model.forward ((e.entries e.scheduler.running).map Prod.snd)) e.scheduler.cache).2)
    (P : List RequestId → BatchResult → Engine → Prop)
    (hstart : P e.scheduler.running {}
      { e with scheduler := { e.scheduler with cache := e.passed } })
    (hturn : ∀ r rest result x sampled result' x',
      Running limit e ended (r.id :: rest) result x → Turn e x result r sampled result' x' →
        Running limit e ended rest result' x' → P (r.id :: rest) result x → P rest result' x') :
    P [] (e.ran e.scheduler.running).1 (e.ran e.scheduler.running).2 := by
  have hkeep := ran_turns h.owned.enrolled
    (fun turns result x => Running limit e ended turns result x ∧ P turns result x)
    (fun _ _ _ _ hp => hp.1.next) ⟨h.running hforward, hstart⟩
    fun r rest result x sampled result' x' ht hp => by
      have hlast := (hp.1.turn ht).1
      exact ⟨hlast, hturn r rest result x sampled result' x' hp.1 ht hlast hp.2⟩
  exact hkeep.2

/-! ## The end of a tick -/

/-- Every request that has ended is forgotten with one output, and nothing else changes. -/
theorem Coherent.closed {ids : List RequestId} (h : Coherent limit e [] ids) (now : Nat) :
    Coherent limit (e.closed now ids).2 [] [] ∧ Still e (e.closed now ids).2 ∧
      (e.closed now ids).2.work [] ≤ e.work [] ∧
      ((e.closed now ids).1.filterMap id).length = ids.length ∧
      ∀ o ∈ (e.closed now ids).1.filterMap id, Within limit o := by
  have hkeep := mapM_keep (fun rest done e' => Coherent limit e' [] rest ∧ Still e e' ∧
      e'.work [] ≤ e.work [] ∧ (done.filterMap id).length + rest.length = ids.length ∧
      ∀ o ∈ done.filterMap id, Within limit o) (Engine.finish now) ?_ ids
    ⟨h, .refl e, Nat.le_refl _, by simp, fun o ho => (List.not_mem_nil ho).elim⟩
  · exact hkeep
  · rintro id rest done e' ⟨hc, hs, hw, hlen, ho⟩
    obtain ⟨r, hr, hend, hout, hnext⟩ := hc.finish now
    have hmem := (Scheduler.mem_of_request? hr).1
    refine ⟨hnext, hs.trans ?_, ?_, ?_, ?_⟩
    · rw [run_finish hr]
      exact ⟨rfl, rfl, rfl, rfl, rfl, rfl⟩
    · rw [run_finish hr]
      have hle := total_filter_le Request.share (fun old => old.id ≠ id) e'.scheduler.requests
      rw [Scheduler.removeRequest_of_some hr, Scheduler.release_eq]
      simp only [work, total] at hw ⊢
      omega
    · rw [hout]
      simp only [List.filterMap_append, List.length_append, List.length_cons] at hlen ⊢
      change _ + 1 + _ = _
      omega
    · intro o hmem'
      rw [hout, List.filterMap_append] at hmem'
      rcases List.mem_append.mp hmem' with hmem' | hmem'
      · exact ho o hmem'
      · rw [List.mem_singleton.mp hmem']
        refine ⟨_, hc.limited.2 r hmem, ?_⟩
        change r.output.toList.length ≤ _
        rw [Array.length_toList]
        exact (hc.sized r hmem).1

/-! ## The tick -/

/-- The forward pass of a tick, on the batch that the tick comes to. -/
def AppendsAt (e : Engine) (now : Nat) : Prop :=
  let start := (e.drained now).2.planned now
  Cache.Appended start.scheduler.cache (Action.exec
    (start.model.forward ((start.entries start.scheduler.running).map Prod.snd))
    start.scheduler.cache).2

/-- A tick plans, runs all who run, and forgets all who have ended. -/
theorem Coherent.run_step {now : Nat} (h : Coherent limit (e.drained now).2 [] []) :
    let start := (e.drained now).2.planned now
    let result := start.ran start.scheduler.running
    ∃ metrics feeds,
      let last := ({ result.2 with feeds := feeds } : Engine).closed now
        (((e.drained now).2.scheduler.schedule now).1.retired ++ result.1.ended)
      (Engine.step now).run e =
        (⟨(e.drained now).1.filterMap id ++ last.1.filterMap id, metrics⟩, last.2) ∧
      Measured metrics result.1 ((e.drained now).1.filterMap id ++ last.1.filterMap id)
        last.2 := run_tick (h.owned.tick now).enrolled

/-- A tick generates tokens and ends requests, takes all of it from the work that is left, and does
something where something is pending. -/
theorem Coherent.step (h : Coherent limit e e.submissions []) {now : Nat} (ha : e.AppendsAt now) :
    Coherent limit ((Engine.step now).run e).2 [] [] ∧
      Still { e with submissions := [], stepCount := e.stepCount + 1 }
        ((Engine.step now).run e).2 ∧
      ((Engine.step now).run e).2.remaining + ((Engine.step now).run e).1.metrics.generated +
        ((Engine.step now).run e).1.finished.length ≤ e.remaining ∧
      (∀ o ∈ ((Engine.step now).run e).1.finished, Within limit o) ∧
      (e.hasPending = true → 0 < ((Engine.step now).run e).1.metrics.generated +
        ((Engine.step now).run e).1.finished.length) := by
  obtain ⟨hdrained, hstill, hwork, houts, hpending⟩ := h.drained now
  have hplanned := hdrained.planned now
  have hmoves := (hdrained.owned.moves_tick now).work hdrained.owned
  obtain ⟨hran, hpos⟩ := hplanned.ran ha
  obtain ⟨metrics, feeds, hrun, hmeasured⟩ := hdrained.run_step
  have hgenerated := hmeasured.generated
  obtain ⟨hclosed, hlast, hshrunk, hcount, hwithin⟩ :=
    (hran.coherent.withFeeds feeds).closed now
  rw [hrun]
  have hplan : Still (e.drained now).2 ((e.drained now).2.planned now) := ⟨rfl, rfl, rfl, rfl, rfl, rfl⟩
  have hsame := (((hstill.trans hplan).trans hran.still).trans (.feeds _ feeds)).trans hlast
  have hwork' := hran.work
  rw [List.length_append] at hcount
  simp only [Engine.work, total, Nat.zero_add] at hwork hwork' hshrunk
  refine ⟨hclosed, hsame, ?_, ?_, fun hp => ?_⟩
  · rw [remaining_eq, hsame.submissions, hgenerated, List.length_append, hcount]
    simp only [Engine.work, total, Nat.zero_add]
    change total Request.share ((e.drained now).2.planned now).scheduler.requests + _ ≤
      total Request.share (e.drained now).2.scheduler.requests + 0 at hmoves
    change _ + ((e.drained now).2.scheduler.schedule now).1.retired.length ≤ _ at hmoves
    omega
  · intro o ho
    rcases List.mem_append.mp ho with ho | ho
    · exact houts o ho
    · exact hwithin o ho
  · rw [hgenerated, List.length_append, hcount]
    rcases hpending hp with hrejected | hstored
    · have := List.length_pos_iff.mpr hrejected
      omega
    -- whatever is stored now is live, so the plan ends a request or batches one
    obtain ⟨r, hr⟩ := List.exists_mem_of_ne_nil _ hstored
    have hbusy := hdrained.owned.tick_busy hdrained.live
      (by rw [hdrained.settings.config]; exact (positive_of_valid hdrained.valid).1)
      (hdrained.owned.hasPending_iff.mpr ⟨r, hr, hdrained.live r hr⟩) now
    rcases hbusy with hretired | hrunning
    · have := List.length_pos_iff.mpr hretired
      change 0 < ((e.drained now).2.scheduler.schedule now).1.retired.length at this
      omega
    · have := hpos hrunning
      omega

/-- What holds after the batch of a tick holds after the tick, if it stays so while requests that
have ended are forgotten. -/
theorem Coherent.step_keep (h : Coherent limit e e.submissions []) {now : Nat}
    (ha : e.AppendsAt now) (P : List RequestId → Engine → Prop)
    (hran : let start := (e.drained now).2.planned now
      let result := start.ran start.scheduler.running
      ∀ feeds, P (((e.drained now).2.scheduler.schedule now).1.retired ++ result.1.ended)
        { result.2 with feeds := feeds })
    (hfinish : ∀ id rest x, P (id :: rest) x → P rest ((Engine.finish now id).run x).2) :
    P [] ((Engine.step now).run e).2 ∧ ((Engine.step now).run e).2.submissions = [] := by
  obtain ⟨metrics, feeds, hrun, -⟩ := (h.drained now).1.run_step
  have hclosed := mapM_keep (fun rest _ x => P rest x) (Engine.finish now)
    (fun id rest _ x hx => hfinish id rest x hx) _ (hran feeds)
  refine ⟨?_, (h.step ha).2.1.submissions⟩
  rw [hrun]
  exact hclosed

/-! ## Coming to rest -/

theorem run_runFor_idle (clock : Nat → Nat) (turns : Nat) (h : e.hasPending = false) :
    (runFor clock turns).run e = ([], e) := by
  cases turns with
  | zero => rfl
  | succ turns =>
    unfold runFor
    rw [run_get_bind, h]
    rfl

theorem run_runFor_pending (clock : Nat → Nat) (turns : Nat) (h : e.hasPending = true) :
    (runFor clock (turns + 1)).run e =
      (((step (clock e.stepCount)).run e).1.finished ++
        ((runFor clock turns).run ((step (clock e.stepCount)).run e).2).1,
        ((runFor clock turns).run ((step (clock e.stepCount)).run e).2).2) := by
  rw [runFor, run_get_bind, if_pos h, run_bind, run_bind, run_pure]

/-- An engine whose ticks keep a property comes to rest, within as many ticks as there is work left,
and it does not matter how many more it is given. The property may speak of the outputs so far. -/
theorem exists_rest (P : List GenerationOutput → Engine → Prop)
    (hcoherent : ∀ outs e, P outs e →
      Coherent limit e e.submissions [] ∧ ∀ now, e.AppendsAt now)
    (hstep : ∀ outs e now, P outs e →
      P (outs ++ ((step now).run e).1.finished) ((step now).run e).2)
    (clock : Nat → Nat) {outs : List GenerationOutput} {e : Engine} (h : P outs e) :
    ∃ last, P (outs ++ last.1) last.2 ∧ last.2.hasPending = false ∧
      last.2.stepCount ≤ e.stepCount + e.remaining ∧
      ∀ turns, e.remaining ≤ turns → (runFor clock turns).run e = last := by
  induction hn : e.remaining using Nat.strong_induction_on generalizing outs e with
  | _ n ih =>
    subst hn
    cases hpending : e.hasPending with
    | false =>
      refine ⟨([], e), by rwa [List.append_nil], hpending, Nat.le_add_right _ _, fun turns _ => ?_⟩
      exact run_runFor_idle clock turns hpending
    | true =>
      obtain ⟨hc, ha⟩ := hcoherent outs e h
      obtain ⟨-, hstill, hwork, -, hpos⟩ := hc.step (ha (clock e.stepCount))
      have hgain := hpos hpending
      have hcount : ((step (clock e.stepCount)).run e).2.stepCount = e.stepCount + 1 :=
        hstill.stepCount
      obtain ⟨last, hlast, hidle, hle, hruns⟩ :=
        ih _ (by omega) (hstep outs e (clock e.stepCount) h) rfl
      refine ⟨(((step (clock e.stepCount)).run e).1.finished ++ last.1, last.2), ?_, hidle, ?_, ?_⟩
      · rwa [← List.append_assoc]
      · simp only
        omega
      · intro turns hturns
        obtain ⟨turns, rfl⟩ := Nat.exists_eq_add_of_lt (show 0 < turns by omega)
        rw [Nat.zero_add, run_runFor_pending clock turns hpending, hruns turns (by omega)]

end Engine

end CausalServe
