import CausalServe.Proofs.Engine.Session
import CausalServe.Proofs.Scheduler.Expiring

/-! The lists of an engine with any model. What the forward pass does to the cache may be anything:
the ids, the queue, the samplers and the reports do not depend on it. A request moves through a tick
in four stages, and each stage has a lemma that carries a property along it. -/

namespace CausalServe

theorem Request.settled_standing (r : Request) (eos : Option Token)
    (sampled : Except Error Token) : (r.settled eos sampled).standing = r.standing :=
  settled_keeps standing (fun _ => rfl) (fun _ => rfl) (fun _ _ => rfl) eos sampled

namespace Scheduler

theorem Lined.settle {s : Scheduler} (h : s.Lined) {r later : Request} (hr : r ∈ s.requests)
    (hrun : r.state.isRunning = true) (hstanding : later.standing = r.standing)
    (hslot : later.slot = r.slot)
    (hlater : later.state.isTerminal = false → later.state.isRunning = true) :
    (s.settle later).Lined := by
  unfold Scheduler.settle
  split
  next hend => exact h.retire hr hstanding hend
  next hend =>
    have hrun' := hlater (by simpa using hend)
    exact h.update hr hstanding (RequestState.queued_iff_of_isRunning hrun' hrun)
      (hrun'.trans hrun.symm) hslot

/-- Whoever is live after a tick was not due. -/
theorem Lined.not_due_of_tick {s : Scheduler} (h : s.Lined) {now : Nat} {x : Request}
    (hx : x ∈ (s.tick now).scheduler.requests) (hlive : x.state.isTerminal = false) :
    x.expiry? now = none := by
  obtain ⟨r, -, -, ⟨hcarries, hr⟩ | ⟨-, -, rfl⟩⟩ := h.tick_requests now x hx
  · obtain ⟨hbefore, hsame⟩ := hcarries.live hlive
    rw [hsame]
    exact Round.not_due_of_expire h.enrolled.ids hr hbefore
  · cases hlive

end Scheduler

namespace Engine

/-- The lists of an engine agree, with the submissions that are still to be taken up and the
requests that have ended and are still stored. -/
structure Enlisted (todo : List Submission) (ended : List RequestId) (e : Engine) : Prop where
  lined : e.scheduler.Lined
  keys : e.samplers.keys = e.scheduler.requests.map Request.id
  reported : Round.Reported { scheduler := e.scheduler, retired := ended }
  below : ∀ id ∈ todo.map Submission.id ++ e.scheduler.requests.map Request.id, id < e.nextId
  distinct : (todo.map Submission.id ++ e.scheduler.requests.map Request.id).Nodup

namespace Enlisted

variable {e : Engine} {todo : List Submission} {ended : List RequestId}

theorem ids (h : Enlisted todo ended e) : e.scheduler.DistinctIds := h.lined.enrolled.ids

theorem live (h : Enlisted todo [] e) : ∀ r ∈ e.scheduler.requests, r.state.isTerminal = false :=
  fun r hr => by
    have := h.reported.iff r hr
    simpa using this

theorem withFeeds (h : Enlisted todo ended e) (feeds : Table Feed) :
    Enlisted todo ended { e with feeds := feeds } := { h with }

/-! ## Between two ticks -/

theorem new {model : LanguageModel} {config : EngineConfig} {entropy : RequestId → Stream}
    (h : Engine.new model config entropy = .ok e) :
    Enlisted e.submissions [] e := by
  rw [new_eq h]
  exact ⟨.new _ _ _, rfl, .start (by simp [Scheduler.new]), by simp [Scheduler.new], List.nodup_nil⟩

theorem accepted (h : Enlisted e.submissions [] e) (g : GenerationRequest) (now : Nat) :
    Enlisted (e.accepted g now).submissions [] (e.accepted g now) := by
  have hperm := ids_accepted e g now
  exact {
    h with
    below := fun id hid => by
      rcases List.mem_cons.mp (hperm.mem_iff.mp hid) with rfl | hid
      · exact Nat.lt_succ_self _
      · exact Nat.lt_succ_of_lt (h.below id hid)
    distinct := hperm.nodup_iff.mpr (List.nodup_cons.mpr
      ⟨fun hid => Nat.lt_irrefl _ (h.below _ hid), h.distinct⟩) }

theorem cancelled (h : Enlisted e.submissions [] e) (id : RequestId) :
    Enlisted (e.cancel id).submissions [] (e.cancel id) := by
  obtain ⟨hids, hrids⟩ := ids_cancel e id
  exact {
    lined := h.lined.cancel id
    keys := h.keys.trans hrids.symm
    reported := .start fun x hx => by
      obtain ⟨old, hold, he⟩ := mem_requests_cancel hx
      rw [he]
      exact h.live old hold
    below := by rw [hids, hrids]; exact h.below
    distinct := by rw [hids, hrids]; exact h.distinct }

/-! ## Taking up submissions -/

theorem unknown {s : Submission} {rest : List Submission} (h : Enlisted (s :: rest) ended e) :
    e.scheduler.request? s.id = none := by
  refine Scheduler.request?_eq_none.mpr fun r hr he => ?_
  have hd := h.distinct
  rw [List.map_cons, List.cons_append, List.nodup_cons] at hd
  exact hd.1 (List.mem_append_right _ (he ▸ List.mem_map_of_mem hr))

theorem skip {s : Submission} {rest : List Submission} (h : Enlisted (s :: rest) ended e) :
    Enlisted rest ended e :=
  { h with
    below := fun id hid => h.below id (List.mem_cons_of_mem _ hid)
    distinct := (List.nodup_cons.mp h.distinct).2 }

theorem arrived {s : Submission} {rest : List Submission} (h : Enlisted (s :: rest) [] e) :
    Enlisted rest [] { e with
      scheduler := e.scheduler.arrived s.toRequest
      samplers := e.samplers.insert s.id (.new s.request.sampling (e.entropy s.id))
      published := e.published ++ [s.id] } := by
  have hperm := pending_arrived e.scheduler s rest
  exact {
    lined := h.lined.add (r := { s.toRequest with arrivalSeq := e.scheduler.arrivals }) h.unknown
      rfl rfl rfl
    keys := keys_arrived h.keys s _
    reported := .start fun r hr => (Scheduler.mem_arrived.mp hr).elim (h.live r) fun he => by
      rw [he]; rfl
    below := fun id hid => h.below id (hperm.mem_iff.mp hid)
    distinct := hperm.nodup_iff.mpr h.distinct }

theorem takeUp {s : Submission} {rest : List Submission} (h : Enlisted (s :: rest) [] e)
    (now : Nat) : Enlisted rest [] ((Engine.takeUp now s).run e).2 ∧
      Still e ((Engine.takeUp now s).run e).2 := by
  rcases takeUp_cases e now h.unknown with ⟨fault, -, hrun⟩ | ⟨-, hrun⟩ <;> rw [hrun]
  · exact ⟨h.skip.withFeeds _, .feeds _ _⟩
  · exact ⟨h.arrived, ⟨rfl, rfl, rfl, rfl, rfl, rfl⟩⟩

/-- What holds at first and is kept when a submission is taken up holds once all were. -/
theorem drained_keep (h : Enlisted e.submissions [] e) (now : Nat)
    (P : List GenerationOutput → List Submission → Engine → Prop)
    (hstart : P [] e.submissions { e with submissions := [], stepCount := e.stepCount + 1 })
    (hstep : ∀ s rest outs x, s ∈ e.submissions → x.model = e.model → Enlisted (s :: rest) [] x →
      P outs (s :: rest) x → P (outs ++ ((Engine.takeUp now s).run x).1.toList) rest
        ((Engine.takeUp now s).run x).2) :
    Enlisted [] [] (e.drained now).2 ∧
      Still { e with submissions := [], stepCount := e.stepCount + 1 } (e.drained now).2 ∧
      P ((e.drained now).1.filterMap id) [] (e.drained now).2 := by
  have hkeep := mapM_keep_outputs (fun outs rest x => (∀ s ∈ rest, s ∈ e.submissions) ∧
      Enlisted rest [] x ∧
      Still { e with submissions := [], stepCount := e.stepCount + 1 } x ∧ P outs rest x)
    (Engine.takeUp now) (fun s rest outs x ⟨hsub, hx, hstill, hp⟩ => ?_) e.submissions
    (s := { e with submissions := [], stepCount := e.stepCount + 1 })
    ⟨fun _ => id, { h with }, .refl _, hstart⟩
  · exact hkeep.2
  · obtain ⟨hnext, hstill'⟩ := hx.takeUp now
    exact ⟨fun x hx => hsub x (List.mem_cons_of_mem _ hx), hnext, hstill.trans hstill',
      hstep s rest outs x (hsub s (by simp)) hstill.model hx hp⟩

theorem drained (h : Enlisted e.submissions [] e) (now : Nat) :
    Enlisted [] [] (e.drained now).2 ∧
      Still { e with submissions := [], stepCount := e.stepCount + 1 } (e.drained now).2 := by
  obtain ⟨hlisted, hstill, -⟩ := h.drained_keep now (fun _ _ _ => True) trivial
    fun _ _ _ _ _ _ _ _ => trivial
  exact ⟨hlisted, hstill⟩

/-- A stored request stays. -/
theorem drained_stored (h : Enlisted e.submissions [] e) (now : Nat) {r : Request}
    (hr : r ∈ e.scheduler.requests) : r ∈ (e.drained now).2.scheduler.requests := by
  obtain ⟨-, -, hkept⟩ := h.drained_keep now (fun _ _ x => r ∈ x.scheduler.requests) hr
    fun s rest outs x _ _ hx hp => by
      rcases takeUp_cases x now hx.unknown with ⟨fault, -, hrun⟩ | ⟨-, hrun⟩ <;> rw [hrun]
      · exact hp
      · exact Scheduler.mem_arrived.mpr (.inl hp)
  exact hkept

/-- A submission becomes a stored request, if its prompt is in the vocabulary. -/
theorem drained_taken (h : Enlisted e.submissions [] e) (now : Nat) {s : Submission}
    (hs : s ∈ e.submissions) (hv : checkVocabulary s.request.prompt e.vocabSize = .ok ()) :
    ∃ n, { s.toRequest with arrivalSeq := n } ∈ (e.drained now).2.scheduler.requests := by
  obtain ⟨-, -, hkept⟩ := h.drained_keep now (fun _ rest x => s ∈ rest ∨
      ∃ n, { s.toRequest with arrivalSeq := n } ∈ x.scheduler.requests) (.inl hs)
    fun next rest outs x _ hmodel hx hp => by
      have hsize : x.vocabSize = e.vocabSize := by rw [vocabSize, hmodel]; rfl
      rcases takeUp_cases x now hx.unknown with ⟨fault, hbad, hrun⟩ | ⟨-, hrun⟩ <;> rw [hrun]
      · rcases hp with hp | hp
        · rcases List.mem_cons.mp hp with rfl | hp
          · rw [hsize, hv] at hbad
            cases hbad
          · exact .inl hp
        · exact .inr hp
      · rcases hp with hp | ⟨n, hp⟩
        · rcases List.mem_cons.mp hp with rfl | hp
          · exact .inr ⟨_, Scheduler.mem_arrived.mpr (.inr rfl)⟩
          · exact .inl hp
        · exact .inr ⟨n, Scheduler.mem_arrived.mpr (.inl hp)⟩
  exact hkept.resolve_left List.not_mem_nil

/-! ## The plan -/

theorem planned (h : Enlisted [] [] e) (now : Nat) :
    Enlisted [] (e.scheduler.schedule now).1.retired (e.planned now) := by
  have hids : (e.planned now).scheduler.requests.map Request.id =
      e.scheduler.requests.map Request.id := h.lined.tick_ids now
  have hnone : e.scheduler.ended = [] := by
    rw [Scheduler.ended, List.filter_eq_nil_iff.mpr fun r hr => by simp [h.live r hr]]
    rfl
  have hreported := h.lined.tick_reported now
  rw [hnone] at hreported
  exact {
    lined := h.lined.tick now
    keys := h.keys.trans hids.symm
    reported := ⟨hreported.nodup, hreported.iff, hreported.stored⟩
    below := by rw [hids]; exact h.below
    distinct := by rw [hids]; exact h.distinct }

/-! ## The batch -/

theorem withCache (h : Enlisted todo ended e) (c : Cache) :
    Enlisted todo ended { e with scheduler := { e.scheduler with cache := c } } :=
  { h with
    lined := h.lined.withCache c
    reported := ⟨h.reported.nodup, h.reported.iff, h.reported.stored⟩ }

theorem settle (h : Enlisted [] ended e) {r later : Request} (hr : r ∈ e.scheduler.requests)
    (hrun : r.state.isRunning = true) (hstanding : later.standing = r.standing)
    (hslot : later.slot = r.slot)
    (hlater : later.state.isTerminal = false → later.state.isRunning = true)
    {samplers : Table Sampler} (hkeys : samplers.keys = e.samplers.keys) :
    Enlisted [] (if later.state.isTerminal then ended ++ [r.id] else ended)
      { e with samplers := samplers, scheduler := e.scheduler.settle later } := by
  have hids := Scheduler.ids_settle e.scheduler later
  have hid : later.id = r.id := congrArg Prod.fst hstanding
  exact {
    lined := h.lined.settle hr hrun hstanding hslot hlater
    keys := hkeys.trans (h.keys.trans hids.symm)
    reported := h.reported.settle hr (RequestState.isTerminal_of_isRunning hrun) hid
    below := by rw [hids]; exact h.below
    distinct := by rw [hids]; exact h.distinct }

end Enlisted

/-- An engine whose batch is being run, with the requests whose turn is still to come. They are as
they were when the batch was started. -/
structure Turning (start : Engine) (ended turns : List RequestId) (result : BatchResult)
    (e : Engine) : Prop where
  enlisted : Enlisted [] (ended ++ result.ended) e
  still : Still start e
  running : ∀ id ∈ turns, id ∈ e.scheduler.running
  nodup : turns.Nodup
  untouched : ∀ r ∈ e.scheduler.requests, r.id ∈ turns → r ∈ start.scheduler.requests

namespace Turning

variable {start e e' : Engine} {ended rest : List RequestId} {result result' : BatchResult}

theorem next {id : RequestId} (h : Turning start ended (id :: rest) result e) :
    e.scheduler.DistinctIds ∧ e.samplers.keys = e.scheduler.requests.map Request.id ∧
      ∃ r ∈ e.scheduler.requests, r.id = id ∧ r.state.isRunning = true :=
  ⟨h.enlisted.ids, h.enlisted.keys,
    (h.enlisted.lined.enrolled.running_iff id).mp (h.running id (by simp))⟩

theorem turn {r : Request} {sampled : Except Error Token}
    (h : Turning start ended (r.id :: rest) result e)
    (ht : Turn start e result r sampled result' e') : Turning start ended rest result' e' := by
  obtain ⟨samplers, hkeys, rfl⟩ := ht.engine
  have hnd := List.nodup_cons.mp h.nodup
  have hid := Request.settled_id r e.model.config.eosToken sampled
  have hnext := h.enlisted.settle ht.stored ht.running
    (Request.settled_standing r e.model.config.eosToken sampled) (Request.settled_slot _ _ _)
    Request.settled_running hkeys
  have hended := ht.ended
  generalize r.settled e.model.config.eosToken sampled = later at *
  exact {
    enlisted := by
      rw [hended]
      cases hend : later.state.isTerminal with
      | true => simpa [hend] using hnext
      | false => simpa [hend] using hnext
    still := h.still.trans ⟨rfl, rfl, rfl, rfl, rfl, rfl⟩
    running := fun other ho => Scheduler.running_settle
      (h.running other (List.mem_cons_of_mem _ ho)) fun he => hnd.1 (by rw [← hid, ← he]; exact ho)
    nodup := hnd.2
    untouched := fun x hx hturn => by
      obtain ⟨slot, hform⟩ := Scheduler.settledForm_eq later
      rw [Scheduler.settle_requests, hform] at hx
      rcases Scheduler.mem_update.mp hx with ⟨rfl, -⟩ | ⟨hx, -⟩
      · exact absurd (hid ▸ hturn) hnd.1
      · exact h.untouched x hx (List.mem_cons_of_mem _ hturn) }

end Turning

namespace Enlisted

variable {e : Engine} {ended : List RequestId}

/-- What holds after the forward pass and is kept by every turn holds after the batch. -/
theorem ran_keep (h : Enlisted [] ended e) (P : BatchResult → Engine → Prop)
    (hstart : P {} { e with scheduler := { e.scheduler with cache := e.passed } })
    (hturn : ∀ r rest result x sampled result' x', r ∈ e.scheduler.requests →
      Turning e ended (r.id :: rest) result x → Turn e x result r sampled result' x' →
      P result x → P result' x') :
    let result := e.ran e.scheduler.running
    Enlisted [] (ended ++ result.1.ended) result.2 ∧ Still e result.2 ∧ P result.1 result.2 := by
  intro result
  have hpassed := h.withCache e.passed
  have hkeep := ran_turns h.lined.enrolled
    (fun turns result x => Turning e ended turns result x ∧ P result x)
    (fun _ _ _ _ hp => hp.1.next)
    ⟨⟨by rw [List.append_nil]; exact hpassed, ⟨rfl, rfl, rfl, rfl, rfl, rfl⟩, fun _ => id,
      h.lined.enrolled.running_nodup, fun _ hr _ => hr⟩, hstart⟩
    fun r rest result x sampled result' x' ht hp =>
      ⟨hp.1.turn ht, hturn r rest result x sampled result' x'
        (hp.1.untouched r ht.stored (by simp)) hp.1 ht hp.2⟩
  exact ⟨hkeep.1.enlisted, hkeep.1.still, hkeep.2⟩

/-- A batch leaves the others alone. -/
theorem ran_others (h : Enlisted [] ended e) {x : Request} (hx : x ∈ e.scheduler.requests)
    (hrun : x.state.isRunning = false) :
    x ∈ (e.ran e.scheduler.running).2.scheduler.requests := by
  obtain ⟨-, -, hkept⟩ := h.ran_keep (fun _ y => x ∈ y.scheduler.requests) hx
    fun r rest result y sampled result' y' _ hturning ht hp => by
      obtain ⟨samplers, -, rfl⟩ := ht.engine
      have hid := Request.settled_id r y.model.config.eosToken sampled
      obtain ⟨slot, hform⟩ := Scheduler.settledForm_eq (r.settled y.model.config.eosToken sampled)
      rw [Scheduler.settle_requests, hform]
      refine Scheduler.mem_update.mpr (.inr ⟨hp, fun he => ?_⟩)
      rw [hturning.enlisted.ids.eq hp ht.stored (he.trans hid), ht.running] at hrun
      cases hrun
  exact hkept

/-! ## The end of a tick -/

theorem finish {id : RequestId} {rest : List RequestId} (h : Enlisted [] (id :: rest) e)
    (now : Nat) : ∃ r ∈ e.scheduler.requests, r.id = id ∧ r.state.isTerminal = true ∧
      ((Engine.finish now id).run e).1 = some (.ofRequest { r with slot := none } now) ∧
      (∀ x, x ∈ ((Engine.finish now id).run e).2.scheduler.requests ↔
        x ∈ e.scheduler.requests ∧ x.id ≠ id) ∧
      Enlisted [] rest ((Engine.finish now id).run e).2 ∧
      Still e ((Engine.finish now id).run e).2 := by
  obtain ⟨r, hr, rfl⟩ := h.reported.stored id (by simp)
  have hfound := h.ids.request? hr
  have hids := Scheduler.ids_removeRequest hfound
  rw [run_finish hfound]
  refine ⟨r, hr, rfl, (h.reported.iff r hr).mp (by simp), rfl,
    fun x => Scheduler.mem_removeRequest, ?_, ⟨rfl, rfl, rfl, rfl, rfl, rfl⟩⟩
  exact {
    lined := h.lined.removeRequest r.id
    keys := by rw [hids, ← h.keys]; exact Table.keys_erase _ _
    reported := h.reported.forget
    below := fun id hid => h.below id (by rw [hids] at hid; exact List.mem_of_mem_filter hid)
    distinct := by rw [hids]; exact h.distinct.filter _ }

/-- What is kept while requests that have ended are forgotten holds in the end. -/
theorem closed_keep (h : Enlisted [] ended e) (now : Nat)
    (P : List GenerationOutput → List RequestId → Engine → Prop) (outs : List GenerationOutput)
    (hstart : P outs ended e)
    (hfinish : ∀ id rest outs x, Enlisted [] (id :: rest) x → P outs (id :: rest) x →
      P (outs ++ ((Engine.finish now id).run x).1.toList) rest ((Engine.finish now id).run x).2) :
    Enlisted [] [] (e.closed now ended).2 ∧ Still e (e.closed now ended).2 ∧
      P (outs ++ (e.closed now ended).1.filterMap id) [] (e.closed now ended).2 :=
  mapM_keep_outputs (fun outs rest x => Enlisted [] rest x ∧ Still e x ∧ P outs rest x)
    (Engine.finish now) (fun id rest outs x ⟨hx, hstill, hp⟩ => by
      obtain ⟨-, -, -, -, -, -, hnext, hstill'⟩ := hx.finish now
      exact ⟨hnext, hstill.trans hstill', hfinish id rest outs x hx hp⟩)
    ended ⟨h, .refl e, hstart⟩

/-- Whoever has ended is reported, and is stored no more. -/
theorem closed_reports (h : Enlisted [] ended e) (now : Nat) {r : Request}
    (hr : r ∈ e.scheduler.requests) (hid : r.id ∈ ended) :
    .ofRequest { r with slot := none } now ∈ (e.closed now ended).1.filterMap id ∧
      ∀ x ∈ (e.closed now ended).2.scheduler.requests, x.id ≠ r.id := by
  obtain ⟨-, -, hkept⟩ := h.closed_keep now (fun outs rest x =>
      r ∈ x.scheduler.requests ∧ r.id ∈ rest ∨ .ofRequest { r with slot := none } now ∈ outs ∧
        ∀ y ∈ x.scheduler.requests, y.id ≠ r.id) [] (.inl ⟨hr, hid⟩)
    fun next rest outs x hx hp => by
      obtain ⟨y, hy, rfl, -, hout, hothers, -⟩ := hx.finish now
      rw [hout]
      rcases hp with ⟨hr, hid⟩ | ⟨hdone, hgone⟩
      · by_cases he : r.id = y.id
        · obtain rfl := hx.ids.eq hr hy he
          exact .inr ⟨by simp, fun z hz => ((hothers z).mp hz).2⟩
        · exact .inl ⟨(hothers r).mpr ⟨hr, he⟩, (List.mem_cons.mp hid).resolve_left he⟩
      · exact .inr ⟨List.mem_append_left _ hdone, fun z hz => hgone z ((hothers z).mp hz).1⟩
  exact hkept.resolve_left fun h => List.not_mem_nil h.2

/-- The stages of a tick. -/
theorem stages (h : Enlisted e.submissions [] e) (now : Nat) :
    let drained := (e.drained now).2
    let start := drained.planned now
    let result := start.ran start.scheduler.running
    let ended := (drained.scheduler.schedule now).1.retired ++ result.1.ended
    Enlisted [] [] drained ∧ Enlisted [] (drained.scheduler.schedule now).1.retired start ∧
      Enlisted [] ended result.2 ∧ ∃ feeds,
        let last := ({ result.2 with feeds := feeds } : Engine).closed now ended
        Enlisted [] [] last.2 ∧
        Still { e with submissions := [], stepCount := e.stepCount + 1 } last.2 ∧
        ((Engine.step now).run e).1.finished =
          (e.drained now).1.filterMap id ++ last.1.filterMap id ∧
        ((Engine.step now).run e).2 = last.2 ∧
        Measured ((Engine.step now).run e).1.metrics result.1
          ((Engine.step now).run e).1.finished ((Engine.step now).run e).2 := by
  intro drained start result ended
  obtain ⟨hdrained, hstill⟩ := h.drained now
  have hplanned := hdrained.planned now
  have hsame : Still drained start := ⟨rfl, rfl, rfl, rfl, rfl, rfl⟩
  obtain ⟨hran, hstill', -⟩ := hplanned.ran_keep (fun _ _ => True) trivial
    fun _ _ _ _ _ _ _ _ _ _ _ => trivial
  obtain ⟨metrics, feeds, hrun, hmeasured⟩ := run_tick (hdrained.lined.tick now).enrolled
  obtain ⟨hclosed, hstill'', -⟩ := (hran.withFeeds feeds).closed_keep now (fun _ _ _ => True) []
    trivial fun _ _ _ _ _ _ => trivial
  refine ⟨hdrained, hplanned, hran, feeds, hclosed, ?_, by rw [hrun], by rw [hrun], ?_⟩
  · exact (hstill.trans hsame).trans ((hstill'.trans (.feeds _ feeds)).trans hstill'')
  · rw [hrun]
    exact hmeasured

/-- A tick keeps the lists, and leaves nothing to be taken up. -/
theorem step (h : Enlisted e.submissions [] e) (now : Nat) :
    Enlisted ((Engine.step now).run e).2.submissions [] ((Engine.step now).run e).2 ∧
      ((Engine.step now).run e).2.submissions = [] ∧
      ((Engine.step now).run e).2.model = e.model := by
  obtain ⟨-, -, -, feeds, hlast, hstill, -, he, -⟩ := h.stages now
  rw [he]
  have hnone := hstill.submissions
  refine ⟨?_, hnone, hstill.model⟩
  rw [hnone]
  exact hlast

end Enlisted

end Engine

namespace Session

/-- Every event keeps the lists. -/
theorem enlisted_after {s : Session} (h : Engine.Enlisted s.engine.submissions [] s.engine)
    (event : Event) :
    Engine.Enlisted (s.after event).engine.submissions [] (s.after event).engine ∧
      (s.after event).engine.model = s.engine.model := by
  rcases s.after_cases event with he | ⟨g, now, -, he⟩ | ⟨id, he⟩ | ⟨now, rfl⟩ | ⟨place, rfl⟩
  · rw [he]
    exact ⟨h, rfl⟩
  · rw [he]
    exact ⟨h.accepted g now, rfl⟩
  · rw [he]
    exact ⟨h.cancelled id, rfl⟩
  · rw [engine_step]
    exact ⟨(h.step now).1, (h.step now).2.2⟩
  · exact ⟨h, rfl⟩

theorem enlisted_run {model : LanguageModel} {config : EngineConfig} {entropy : RequestId → Stream}
    {e : Engine} (hnew : Engine.new model config entropy = .ok e) (events : List Event) :
    Engine.Enlisted (Session.run { engine := e } events).engine.submissions []
        (Session.run { engine := e } events).engine ∧
      (Session.run { engine := e } events).engine.model = model := by
  refine run_keep (fun s => Engine.Enlisted s.engine.submissions [] s.engine ∧
    s.engine.model = model) (fun s event hs => ?_) ⟨.new hnew, ?_⟩ events
  · obtain ⟨hnext, hmodel⟩ := enlisted_after hs.1 event
    exact ⟨hnext, hmodel.trans hs.2⟩
  · rw [Engine.new_eq hnew]

end Session

end CausalServe
