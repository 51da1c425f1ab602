import CausalServe.Proofs.Engine.Streaming

/-! What the holder of a handle has been told, however an engine is used and whenever the handle is
polled: the beginning of what the feed shows, and all of it right after a poll. -/

namespace CausalServe

/-- A caller who was told the tokens of a feed up to the cursor of the handle. -/
structure Caller.Heard (c : Caller) (f : Feed) : Prop where
  cursor : c.handle.cursor ≤ f.tokens.size
  told : c.told = f.tokens.toList.take c.handle.cursor

namespace Caller.Heard

variable {c : Caller} {f g : Feed}

theorem prefix_told (h : c.Heard f) : c.told <+: f.tokens.toList := by
  rw [h.told]
  exact List.take_prefix _ _

/-- What a caller was told stays true. -/
theorem later (h : c.Heard f) (hfg : f.Leads g) : c.Heard g := by
  obtain ⟨rest, hrest⟩ := hfg.tokens
  have hcursor := h.cursor
  refine ⟨?_, ?_⟩
  · rw [← Array.length_toList, ← hrest, List.length_append, Array.length_toList]
    omega
  · rw [h.told, ← hrest, List.take_append_of_le_length]
    simpa using hcursor

/-- A poll tells what is missing, and nothing else. -/
theorem poll {e : Engine} (h : c.Heard (e.feed c.handle.id)) :
    (c.poll e).told = (e.feed c.handle.id).tokens.toList ∧
      (c.poll e).Heard (e.feed c.handle.id) := by
  have htold : (c.poll e).told = (e.feed c.handle.id).tokens.toList := by
    have hdrop : ∀ (xs : Array Token) (n : Nat), (xs.drop n).toList = xs.toList.drop n := by simp
    show c.told ++ ((e.feed c.handle.id).tokens.drop c.handle.cursor).toList = _
    rw [h.told, hdrop, List.take_append_drop]
  have hcursor : (c.poll e).handle.cursor = (e.feed c.handle.id).tokens.size := rfl
  refine ⟨htold, Nat.le_of_eq hcursor, ?_⟩
  rw [htold, hcursor, ← Array.length_toList, List.take_length]

end Caller.Heard

namespace Session

variable {s : Session}

/-- A session whose feeds follow their requests, and whose callers were told what the feeds show. -/
structure Followed (s : Session) : Prop where
  streamed : Engine.Streamed s.accepted s.outputs s.engine.submissions [] [] s.engine
  model : s.engine.model.AppendsOnly
  heard : ∀ c ∈ s.callers, c.Heard (s.engine.feed c.handle.id)

theorem Followed.appendsAt (h : s.Followed) (now : Nat) : s.engine.AppendsAt now :=
  .of_appendsOnly h.streamed.audit.coherent h.model now

theorem Followed.start {model : LanguageModel} {config : EngineConfig}
    {entropy : RequestId → Stream} {e : Engine} (hnew : Engine.new model config entropy = .ok e) (hmodel : model.AppendsOnly) :
    Followed { engine := e } := by
  refine ⟨Engine.Streamed.new hnew, ?_, nofun⟩
  rw [Engine.new_eq hnew]
  exact hmodel

/-- Nobody was told anything that a tick takes back. -/
theorem Followed.step (h : s.Followed) (now : Nat) : (s.after (.step now)).Followed ∧
    Engine.FeedsLead s.engine (s.after (.step now)).engine := by
  obtain ⟨hstreamed, hleads⟩ := h.streamed.step (h.appendsAt now)
  have hstill := (h.streamed.audit.coherent.step (h.appendsAt now)).2.1
  refine ⟨⟨?_, ?_, ?_⟩, ?_⟩
  · rw [accepted_step, outputs_step, engine_step]
    exact hstreamed
  · rw [engine_step, hstill.model]
    exact h.model
  · rw [callers_step, engine_step]
    intro c hc
    exact (h.heard c hc).later (hleads c.handle.id)
  · rw [engine_step]
    exact hleads

theorem Followed.poll (h : s.Followed) (place : Nat) : (s.after (.poll place)).Followed := by
  refine ⟨?_, h.model, ?_⟩
  · rw [accepted_poll]
    exact h.streamed
  · intro c hc
    show c.Heard (s.engine.feed c.handle.id)
    change c ∈ s.callers.modify place fun c => c.poll s.engine at hc
    obtain ⟨i, hi⟩ := List.mem_iff_getElem?.mp hc
    rw [List.getElem?_modify] at hi
    obtain ⟨old, hold, he⟩ := Option.map_eq_some_iff.mp hi
    have hheard := h.heard old (List.mem_of_getElem? hold)
    subst he
    split
    · exact hheard.poll.2
    · exact hheard

theorem Followed.after (h : s.Followed) (event : Event) : (s.after event).Followed ∧
    Engine.FeedsLead s.engine (s.after event).engine := by
  rcases s.after_cases event with he | ⟨g, now, hvalid, he⟩ | ⟨id, he⟩ | ⟨now, rfl⟩ | ⟨place, rfl⟩
  · rw [he]
    exact ⟨h, .of_eq fun _ => rfl⟩
  · rw [he]
    have hleads : Engine.FeedsLead s.engine (s.engine.accepted g now) :=
      .of_eq (Engine.feed_accepted s.engine g now)
    refine ⟨⟨?_, h.model, ?_⟩, hleads⟩
    · rw [accepted_submit]
      exact h.streamed.accepted hvalid now
    · intro c hc
      rcases List.mem_append.mp hc with hc | hc
      · exact (h.heard c hc).later (hleads c.handle.id)
      · rw [List.mem_singleton.mp hc]
        exact ⟨Nat.zero_le _, rfl⟩
  · rw [he]
    exact ⟨⟨h.streamed.cancelled id, h.model, h.heard⟩, .of_eq fun _ => rfl⟩
  · exact h.step now
  · exact ⟨h.poll place, .of_eq fun _ => rfl⟩

theorem Followed.run (h : s.Followed) (events : List Event) : (s.run events).Followed ∧
    Engine.FeedsLead s.engine (s.run events).engine :=
  run_keep (fun t => t.Followed ∧ Engine.FeedsLead s.engine t.engine)
    (fun _ event ⟨ht, hleads⟩ => ⟨(ht.after event).1, hleads.trans (ht.after event).2⟩)
    ⟨h, .of_eq fun _ => rfl⟩ events

/-- However an engine is used: after a tick the feed of every stored request shows its tokens and its
state, and the feed of every request that the tick reports shows what the report tells. What a caller
was told is the beginning of what the feed shows, and all of it right after a poll. And whatever
happens later, the tokens of a feed are only appended to, and a feed that shows an end is never
written again. -/
theorem streams {model : LanguageModel} {config : EngineConfig} {entropy : RequestId → Stream}
    {e : Engine} (hnew : Engine.new model config entropy = .ok e) (hmodel : model.AppendsOnly)
    (events : List Event) :
    let s := Session.run { engine := e } events
    (∀ now, let next := (s.after (.step now)).engine
      next.submissions = [] ∧
      (∀ r ∈ next.scheduler.requests, r.state.isTerminal = false ∧
        next.feed r.id = { tokens := r.output, state := r.state, finishReason := r.finishReason,
                           failure := r.failure }) ∧
      ∀ o ∈ ((Engine.step now).run s.engine).1.finished,
        next.feed o.requestId = { tokens := o.output.toArray, state := o.state,
                                  finishReason := o.finishReason, failure := o.failure }) ∧
    (∀ c ∈ s.callers, c.told <+: (s.engine.feed c.handle.id).tokens.toList) ∧
    (∀ place c, (s.after (.poll place)).callers[place]? = some c →
      c.told = (s.engine.feed c.handle.id).tokens.toList) ∧
    ∀ later id,
      (s.engine.feed id).tokens.toList <+: ((s.run later).engine.feed id).tokens.toList ∧
      ((s.engine.feed id).state.isTerminal = true →
        (s.run later).engine.feed id = s.engine.feed id) := by
  intro s
  have h : s.Followed := ((Followed.start hnew hmodel).run events).1
  refine ⟨?_, ?_, ?_, ?_⟩
  · intro now next
    obtain ⟨hstreamed, -⟩ := h.streamed.step (h.appendsAt now)
    have hstill := (h.streamed.audit.coherent.step (h.appendsAt now)).2.1
    have hnext : next = ((Engine.step now).run s.engine).2 := s.engine_step now
    rw [← hnext] at hstreamed hstill
    clear_value next
    have hnone : next.submissions = [] := hstill.submissions
    have hcoherent : Engine.Coherent (fun _ _ => True) next next.submissions [] :=
      hstreamed.audit.coherent
    refine ⟨hnone, ?_, ?_⟩
    · intro r hr
      exact ⟨hcoherent.live r hr, hstreamed.current r hr List.not_mem_nil⟩
    · intro o ho
      exact hstreamed.told o (List.mem_append_right _ ho)
  · intro c hc
    exact (h.heard c hc).prefix_told
  · intro place c hc
    change (s.callers.modify place fun c => c.poll s.engine)[place]? = some c at hc
    rw [List.getElem?_modify] at hc
    obtain ⟨old, hold, he⟩ := Option.map_eq_some_iff.mp hc
    rw [if_pos rfl] at he
    subst he
    exact (h.heard old (List.mem_of_getElem? hold)).poll.1
  · intro later id
    have hleads := (h.run later).2 id
    exact ⟨hleads.tokens, hleads.final⟩

/-- A request for three tokens that is polled after its first tick and cancelled after its second.
The first poll tells the first token, and the second poll, after the end, the other. -/
theorem streams_until_cancelled :
    let events : List Event := [.submit { prompt := [2], sampling := .greedy 3 } 0, .step 0,
      .poll 0, .step 0, .cancel 1, .step 0]
    ∃ e, Engine.new .counting {} Stream.ofSeed = .ok e ∧
      let s := Session.run { engine := e } events
      (s.callers.map Caller.told = [[3]] ∧ (s.engine.feed 1).tokens = #[3, 4] ∧
        (s.engine.feed 1).state = .cancelled) ∧
      (∀ c ∈ s.callers, c.told <+: (s.engine.feed c.handle.id).tokens.toList) ∧
      (∀ c, (s.after (.poll 0)).callers[0]? = some c →
        c.told = (s.engine.feed c.handle.id).tokens.toList) ∧
      (s.run [.step 0, .poll 0]).engine.feed 1 = s.engine.feed 1 := by
  intro events
  have hnew : ∃ e, Engine.new .counting {} Stream.ofSeed = .ok e := ⟨_, rfl⟩
  obtain ⟨e, he⟩ := hnew
  have hfacts : (Session.run { engine := e } events).callers.map Caller.told = [[3]] ∧
      ((Session.run { engine := e } events).engine.feed 1).tokens = #[3, 4] ∧
      ((Session.run { engine := e } events).engine.feed 1).state = .cancelled := by
    cases he
    decide +kernel
  obtain ⟨-, hprefix, hpolled, hlater⟩ := streams he LanguageModel.counting_appendsOnly events
  refine ⟨e, he, hfacts, hprefix, hpolled 0, (hlater [.step 0, .poll 0] 1).2 ?_⟩
  rw [hfacts.2.2]
  rfl

end Session

end CausalServe
