import CausalServe.Proofs.Engine.Enlistment

/-! A request that was cancelled ends with the next tick. The mark waits on the stored request, or
on the submission that becomes one; nothing but a tick takes it off, and the tick looks for it
before it does anything else. -/

namespace CausalServe

namespace Engine

/-! ## Marks -/

/-- A request that was cancelled and that no tick has looked at since, with its output so far. -/
inductive Marked (e : Engine) (id : RequestId) (output : List Token) : Prop
  | stored (r : Request) (hr : r ∈ e.scheduler.requests) (hid : r.id = id)
      (hmark : r.cancelRequested = true) (hout : r.output.toList = output)
  | submitted (s : Submission) (hs : s ∈ e.submissions) (hid : s.id = id)
      (hmark : s.cancelled = true) (hvocab : ∀ t ∈ s.request.prompt, t < e.vocabSize)
      (hout : output = [])

variable {e : Engine} {todo : List Submission} {ended : List RequestId} {id : RequestId}
  {output : List Token}

/-- To cancel a request is to mark it, where it is stored. -/
theorem requests_cancel (h : e.scheduler.DistinctIds) (id : RequestId) :
    (e.cancel id).scheduler.requests = e.scheduler.requests.map fun r =>
      if r.id = id then { r with cancelRequested := true } else r := by
  change (Action.exec (Scheduler.cancel id) e.scheduler).2.requests = _
  rw [Scheduler.exec_cancel]
  cases hr : e.scheduler.request? id with
  | some r =>
    obtain ⟨hm, rfl⟩ := Scheduler.mem_of_request? hr
    refine List.map_congr_left fun x hx => ?_
    by_cases he : x.id = r.id
    · simp [h.eq hx hm he]
    · simp [he]
  | none =>
    refine ((List.map_id _).symm.trans (List.map_congr_left fun x hx => ?_))
    rw [if_neg (Scheduler.request?_eq_none.mp hr x hx)]
    rfl

theorem stored_cancel (h : e.scheduler.DistinctIds) (id : RequestId) {r : Request}
    (hr : r ∈ e.scheduler.requests) :
    (if r.id = id then { r with cancelRequested := true } else r) ∈
      (e.cancel id).scheduler.requests := by
  rw [requests_cancel h]
  exact List.mem_map.mpr ⟨r, hr, rfl⟩

theorem submitted_cancel (id : RequestId) {s : Submission} (hs : s ∈ e.submissions) :
    (if s.id = id then { s with cancelled := true } else s) ∈ (e.cancel id).submissions :=
  List.mem_map.mpr ⟨s, hs, rfl⟩

/-- A cancelled request stays marked when another one is cancelled. -/
theorem Marked.cancel (h : e.Marked id output) (hids : e.scheduler.DistinctIds)
    (other : RequestId) : (e.cancel other).Marked id output := by
  cases h with
  | stored r hr hid hmark hout =>
    have hmem := stored_cancel hids other hr
    split at hmem
    · exact .stored _ hmem hid rfl hout
    · exact .stored _ hmem hid hmark hout
  | submitted s hs hid hmark hvocab hout =>
    have hmem := submitted_cancel other hs
    split at hmem
    · exact .submitted _ hmem hid rfl hvocab hout
    · exact .submitted _ hmem hid hmark hvocab hout

/-- The one that is cancelled is marked. -/
theorem Enlisted.marked (h : Enlisted e.submissions [] e) (id : RequestId) :
    (∀ r ∈ e.scheduler.requests, r.id = id → (e.cancel id).Marked id r.output.toList) ∧
      ∀ s ∈ e.submissions, s.id = id → (∀ t ∈ s.request.prompt, t < e.vocabSize) →
        (e.cancel id).Marked id [] := by
  refine ⟨fun r hr hid => ?_, fun s hs hid hvocab => ?_⟩
  · have hmem := stored_cancel h.ids id hr
    rw [if_pos hid] at hmem
    exact .stored _ hmem hid rfl rfl
  · have hmem := submitted_cancel id hs
    rw [if_pos hid] at hmem
    exact .submitted _ hmem hid rfl hvocab rfl

theorem Marked.accepted (h : e.Marked id output) (g : GenerationRequest) (now : Nat) :
    (e.accepted g now).Marked id output := by
  cases h with
  | stored r hr hid hmark hout => exact .stored r hr hid hmark hout
  | submitted s hs hid hmark hvocab hout =>
    exact .submitted s (mem_accepted.mpr (.inl hs)) hid hmark hvocab hout

/-! ## The tick -/

/-- Whoever is due once the submissions are taken up is reported, with the output that it has, and
is stored no more. -/
theorem Enlisted.reports_overdue (h : Enlisted e.submissions [] e) {now : Nat} {r : Request}
    (hr : r ∈ (e.drained now).2.scheduler.overdue now) :
    .ofRequest r.expired now ∈ ((Engine.step now).run e).1.finished ∧
      ∀ x ∈ ((Engine.step now).run e).2.scheduler.requests, x.id ≠ r.id := by
  obtain ⟨hdrained, hplanned, hran, feeds, -, -, hfinished, he, -⟩ := h.stages now
  have hexpired : r.expired ∈ ((e.drained now).2.planned now).scheduler.requests :=
    hdrained.lined.expired_stored hr
  obtain ⟨hstored, hlive, -⟩ := Scheduler.mem_overdue.mp hr
  have hretired : r.expired.id ∈ ((e.drained now).2.scheduler.schedule now).1.retired :=
    (hplanned.reported.iff _ hexpired).mpr rfl
  have hlast := hplanned.ran_others hexpired rfl
  obtain ⟨hreport, hgone⟩ := (hran.withFeeds feeds).closed_reports now hlast
    (List.mem_append_left _ hretired)
  rw [hfinished, he]
  exact ⟨List.mem_append_right _ hreport, hgone⟩

/-- A marked request ends with the next tick. -/
theorem Marked.reported (h : e.Marked id output) (hlisted : Enlisted e.submissions [] e)
    (now : Nat) :
    (∃ o ∈ ((Engine.step now).run e).1.finished, o.requestId = id ∧ o.state = .cancelled ∧
      o.failure.map Failure.kind = some .cancelled ∧ o.output = output) ∧
      ∀ x ∈ ((Engine.step now).run e).2.scheduler.requests, x.id ≠ id := by
  have hdrained := (hlisted.drained now).1
  obtain ⟨r, hr, rfl, hmark, rfl⟩ : ∃ r ∈ (e.drained now).2.scheduler.requests, r.id = id ∧
      r.cancelRequested = true ∧ r.output.toList = output := by
    cases h with
    | stored r hr hid hmark hout => exact ⟨r, hlisted.drained_stored now hr, hid, hmark, hout⟩
    | submitted s hs hid hmark hvocab hout =>
      obtain ⟨n, hn⟩ := hlisted.drained_taken now hs (checkVocabulary_eq_ok.mpr hvocab)
      exact ⟨_, hn, hid, hmark, hout.symm⟩
  have hdue : r ∈ (e.drained now).2.scheduler.overdue now :=
    Scheduler.mem_overdue.mpr ⟨hr, hdrained.live r hr, .inl hmark⟩
  obtain ⟨hreport, hgone⟩ := hlisted.reports_overdue hdue
  refine ⟨⟨_, hreport, rfl, rfl, ?_, rfl⟩, hgone⟩
  have hkind := r.expired_kind
  rwa [if_pos hmark] at hkind

end Engine

namespace Session

/-- Nothing but a tick takes a mark off. -/
theorem marked_after {s : Session} {id : RequestId} {output : List Token}
    (h : s.engine.Marked id output) (hids : s.engine.scheduler.DistinctIds) {event : Event}
    (hevent : ∀ now, event ≠ .step now) : (s.after event).engine.Marked id output := by
  rcases s.after_cases event with he | ⟨g, now, -, he⟩ | ⟨other, he⟩ | ⟨now, rfl⟩ | ⟨place, rfl⟩
  · rwa [he]
  · rw [he]
    exact h.accepted g now
  · rw [he]
    exact h.cancel hids other
  · exact absurd rfl (hevent now)
  · exact h

theorem marked_run {s : Session} {id : RequestId} {output : List Token}
    (h : s.engine.Marked id output) (hlisted : Engine.Enlisted s.engine.submissions [] s.engine)
    {events : List Event} (hevents : ∀ event ∈ events, ∀ now, event ≠ .step now) :
    (s.run events).engine.Marked id output ∧
      Engine.Enlisted (s.run events).engine.submissions [] (s.run events).engine := by
  induction events generalizing s with
  | nil => exact ⟨h, hlisted⟩
  | cons event rest ih =>
    exact ih (marked_after h hlisted.ids (hevents event (by simp)))
      (enlisted_after hlisted event).1 fun x hx => hevents x (List.mem_cons_of_mem _ hx)

/-- Expiry is complete and exact. A tick of a scheduler ends the requests that are due, whatever
they are busy with, and cancels nobody else; their memory is free before the first request is
admitted. So a request of an engine that is cancelled ends with the next tick, whether a tick has
taken it up before or not, and with no token more than it had. -/
theorem expires_exactly :
    (∀ {config : SchedulerConfig} {cacheConfig : CacheConfig} {layout : Layout} {s : Scheduler},
      Scheduler.Operated config cacheConfig layout s → ∀ now, s.ExpiresExactly now) ∧
    ∀ {model : LanguageModel} {config : EngineConfig} {entropy : RequestId → Stream} {e : Engine},
      Engine.new model config entropy = .ok e →
      ∀ (before between : List Event) (id : RequestId) (now : Nat),
      (∀ event ∈ between, ∀ now, event ≠ .step now) →
      let s := Session.run { engine := e } before
      let asked := (s.after (.cancel id)).run between
      let ticked := (Engine.step now).run asked.engine
      let endsWith (output : List Token) : Prop :=
        (∃ o ∈ ticked.1.finished, o.requestId = id ∧ o.state = .cancelled ∧
          o.failure.map Failure.kind = some .cancelled ∧ o.output = output) ∧
        ∀ r ∈ ticked.2.scheduler.requests, r.id ≠ id
      (∀ r ∈ s.engine.scheduler.requests, r.id = id → endsWith r.output.toList) ∧
      ∀ sub ∈ s.engine.submissions, sub.id = id →
        (∀ t ∈ sub.request.prompt, t < model.config.vocabSize) → endsWith [] := by
  refine ⟨fun h now => h.expiresExactly now, fun hnew before between id now hbetween => ?_⟩
  intro s asked ticked endsWith
  obtain ⟨hlisted, hmodel⟩ := enlisted_run hnew before
  have hcancelled := (enlisted_after hlisted (.cancel id)).1
  obtain ⟨hstored, hsubmitted⟩ := hlisted.marked id
  have hends : ∀ output, (s.engine.cancel id).Marked id output → endsWith output := by
    intro output h
    obtain ⟨hmark, hlast⟩ := marked_run (s := s.after (.cancel id)) h hcancelled hbetween
    -- the two ticks are the same term, so nothing of them is unfolded
    with_reducible exact hmark.reported hlast now
  refine ⟨fun r hr hid => hends _ (hstored r hr hid), fun sub hsub hid hvocab => ?_⟩
  refine hends _ (hsubmitted sub hsub hid ?_)
  rw [Engine.vocabSize, hmodel]
  exact hvocab

/-- A request without time beside another one, and a request that is cancelled after its first
token. -/
theorem expires_without_time_or_by_request :
    (∃ s : Scheduler, (s.overdue 0).map Request.id = [2] ∧ s.ExpiresExactly 0) ∧
    ∃ e, Engine.new .counting {} Stream.ofSeed = .ok e ∧
      let s := Session.run { engine := e }
        [.submit { prompt := [4], sampling := .greedy 3 } 0, .step 0]
      let asked := (s.after (.cancel 1)).run [.submit { prompt := [2], sampling := .greedy 3 } 1]
      (s.engine.scheduler.requests.map fun r => (r.id, r.output.toList)) = [(1, [5])] ∧
      ∃ o ∈ ((Engine.step 1).run asked.engine).1.finished,
        o.requestId = 1 ∧ o.state = .cancelled ∧ o.output = [5] := by
  have hs : Scheduler.Operated {} {} ⟨1, 1, 1, 1⟩ _ :=
    .addRequest (.addRequest .new (r := Request.new 1 [7] (.greedy 4)) rfl)
      (r := { Request.new 2 [8] (.greedy 4) with timeout := some 0 }) rfl
  refine ⟨⟨_, rfl, expires_exactly.1 hs 0⟩, ?_⟩
  have hnew : ∃ e, Engine.new .counting {} Stream.ofSeed = .ok e := ⟨_, rfl⟩
  obtain ⟨e, he⟩ := hnew
  obtain ⟨hstored, -⟩ := expires_exactly.2 he
    [.submit { prompt := [4], sampling := .greedy 3 } 0, .step 0]
    [.submit { prompt := [2], sampling := .greedy 3 } 1] 1 1 (by simp)
  have hone : ((Session.run { engine := e } [.submit { prompt := [4], sampling := .greedy 3 } 0,
      .step 0]).engine.scheduler.requests.map fun r => (r.id, r.output.toList)) = [(1, [5])] := by
    cases he
    decide +kernel
  refine ⟨e, he, hone, ?_⟩
  obtain ⟨r, hr, hpair⟩ := List.mem_map.mp (hone ▸ List.mem_singleton_self (1, [5]))
  obtain ⟨hid, hout⟩ := Prod.mk.injEq .. ▸ hpair
  obtain ⟨⟨o, ho, hoid, hstate, -, hsame⟩, -⟩ := hstored r hr hid
  exact ⟨o, ho, hoid, hstate, hsame.trans hout⟩

end Session

end CausalServe
