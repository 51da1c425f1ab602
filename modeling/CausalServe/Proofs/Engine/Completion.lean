import CausalServe.Proofs.Engine.Audit

/-! Every accepted request is answered once, however an engine is used. A request may end in many
places, at a tick's beginning, in its plan or in its batch; its id has one place in the books, and
that settles how often it can be answered. -/

namespace CausalServe

/-! ## Reports of a tick -/

theorem StepOutput.reports_iff {out : StepOutput} {id : RequestId} :
    out.reports id = true ↔ id ∈ out.finished.map GenerationOutput.requestId := by
  simp [reports]

/-- A request is reported by no more ticks than there are outputs of it. -/
theorem length_reports_le (ticks : List StepOutput) (id : RequestId) :
    (ticks.filter fun out => out.reports id).length ≤
      ((ticks.flatMap StepOutput.finished).map GenerationOutput.requestId).count id := by
  induction ticks with
  | nil => simp
  | cons out rest ih =>
    rw [List.flatMap_cons, List.map_append, List.count_append]
    by_cases h : out.reports id = true
    · have hpos := List.count_pos_iff.mpr (StepOutput.reports_iff.mp h)
      rw [List.filter_cons_of_pos (by simpa using h), List.length_cons]
      omega
    · rw [List.filter_cons_of_neg (by simpa using h)]
      omega

namespace Session

variable {s : Session}

theorem mem_outputs {id : RequestId} : id ∈ s.outputs.map GenerationOutput.requestId ↔
    ∃ out ∈ s.ticks, out.reports id = true := by
  simp only [outputs, StepOutput.reports_iff, List.mem_map, List.mem_flatMap]
  constructor
  · rintro ⟨o, ⟨out, hout, ho⟩, hid⟩
    exact ⟨out, hout, o, ho, hid⟩
  · rintro ⟨out, hout, o, ho, hid⟩
    exact ⟨o, ⟨out, hout, ho⟩, hid⟩

/-- A session whose books are in order, with a model that only appends. -/
structure Audited (s : Session) : Prop where
  audit : Engine.Audit s.accepted s.outputs s.engine.submissions [] s.engine
  model : s.engine.model.AppendsOnly

theorem Audited.appendsAt (h : s.Audited) (now : Nat) : s.engine.AppendsAt now :=
  .of_appendsOnly h.audit.coherent h.model now

theorem Audited.start {model : LanguageModel} {config : EngineConfig} {entropy : RequestId → Stream}
    {e : Engine} (hnew : Engine.new model config entropy = .ok e) (hmodel : model.AppendsOnly) :
    Audited { engine := e } := by
  refine ⟨Engine.Audit.new hnew, ?_⟩
  rw [Engine.new_eq hnew]
  exact hmodel

theorem Audited.after (h : s.Audited) (event : Event) : (s.after event).Audited := by
  rcases s.after_cases event with he | ⟨g, now, hvalid, he⟩ | ⟨id, he⟩ | ⟨now, rfl⟩ | ⟨place, rfl⟩
  · rw [he]
    exact h
  · rw [he]
    refine ⟨?_, h.model⟩
    rw [accepted_submit]
    exact h.audit.accepted hvalid now
  · rw [he]
    exact ⟨h.audit.cancelled id, h.model⟩
  · have hstill := (h.audit.coherent.step (h.appendsAt now)).2.1
    refine ⟨?_, ?_⟩
    · rw [accepted_step, outputs_step, engine_step]
      exact h.audit.step (h.appendsAt now)
    · rw [engine_step, hstill.model]
      exact h.model
  · refine ⟨?_, h.model⟩
    rw [accepted_poll]
    exact h.audit

theorem Audited.run (h : s.Audited) (events : List Event) : (s.run events).Audited :=
  run_keep Audited (fun _ event hs => hs.after event) h events

def stored (s : Session) : List RequestId := s.engine.scheduler.requests.map Request.id

theorem Audited.mem_stored (h : s.Audited) (id : RequestId) : id ∈ s.stored ↔ id ∈ s.accepted ∧
    id ∉ s.engine.submissions.map Submission.id ∧ ∀ out ∈ s.ticks, out.reports id = false := by
  have hmem := h.audit.mem_stored id
  rw [mem_outputs] at hmem
  rw [stored, hmem]
  simp

/-- No more than one tick reports a request, and no tick reports it twice. -/
theorem Audited.reported_once (h : s.Audited) (id : RequestId) :
    (s.ticks.filter fun out => out.reports id).length ≤ 1 ∧
      ∀ out ∈ s.ticks, (out.finished.map GenerationOutput.requestId).Nodup := by
  have hnodup : (s.outputs.map GenerationOutput.requestId).Nodup :=
    (List.nodup_append.mp h.audit.apart).1
  refine ⟨?_, ?_⟩
  · have hle := length_reports_le s.ticks id
    have hone := List.nodup_iff_count_le_one.mp hnodup id
    exact Nat.le_trans hle hone
  · intro out hout
    rw [outputs, List.map_flatMap] at hnodup
    exact (List.nodup_flatMap.mp hnodup).1 out hout

/-- An engine with nothing left to do has reported every request. -/
theorem Audited.reported_of_idle (h : s.Audited) (hidle : s.engine.hasPending = false)
    {id : RequestId} (hid : id ∈ s.accepted) :
    0 < (s.ticks.filter fun out => out.reports id).length := by
  obtain ⟨out, hout, hreports⟩ := mem_outputs.mp ((h.audit.settled hidle).mem_iff.mpr hid)
  exact List.length_pos_of_mem (List.mem_filter.mpr ⟨hout, hreports⟩)

/-- What a tick reports of a request: it was accepted, it has ended, and the report tells why. -/
theorem Audited.explained (h : s.Audited) {out : StepOutput} (hout : out ∈ s.ticks)
    {o : GenerationOutput} (ho : o ∈ out.finished) :
    o.requestId ∈ s.accepted ∧ o.state.isTerminal = true ∧
      (o.state = .completed → o.finishReason.isSome = true ∧ o.failure = none) ∧
      (o.state = .cancelled ∨ o.state = .failed →
        o.failure.isSome = true ∧ o.finishReason = none) := by
  have hmem : o ∈ s.outputs := List.mem_flatMap.mpr ⟨out, hout, ho⟩
  obtain ⟨hend, hconsistent⟩ := h.audit.answered o hmem
  refine ⟨h.audit.tally.mem_iff.mp (List.mem_append_left _ (List.mem_map_of_mem hmem)), hend, ?_, ?_⟩
  · intro hstate
    unfold Feed.Consistent GenerationOutput.shown at hconsistent
    simp only [hstate] at hconsistent
    exact hconsistent
  · intro hstate
    unfold Feed.Consistent GenerationOutput.shown at hconsistent
    rcases hstate with hstate | hstate <;> simp only [hstate] at hconsistent <;>
      exact hconsistent.symm

/-- However an engine is used, it gives out every id once, and answers every accepted request in one
tick at most, and in one once nothing is pending. A report tells how its request ended. In between,
the samplers and the feeds that are still written are those of the stored requests, and the stored
requests are those that a tick has taken up and none has reported; a tick takes up all there are. -/
theorem answers_once {model : LanguageModel} {config : EngineConfig} {entropy : RequestId → Stream}
    {e : Engine} (hnew : Engine.new model config entropy = .ok e) (hmodel : model.AppendsOnly)
    (events : List Event) :
    let s := Session.run { engine := e } events
    s.accepted.Nodup ∧
    (∀ id, (s.ticks.filter fun out => out.reports id).length ≤ 1) ∧
    (s.engine.hasPending = false →
      ∀ id ∈ s.accepted, (s.ticks.filter fun out => out.reports id).length = 1) ∧
    (∀ out ∈ s.ticks, (out.finished.map GenerationOutput.requestId).Nodup ∧
      ∀ o ∈ out.finished, o.requestId ∈ s.accepted ∧ o.state.isTerminal = true ∧
        (o.state = .completed → o.finishReason.isSome = true ∧ o.failure = none) ∧
        (o.state = .cancelled ∨ o.state = .failed →
          o.failure.isSome = true ∧ o.finishReason = none)) ∧
    (s.engine.samplers.keys = s.stored ∧ s.engine.published = s.stored ∧ s.stored.Nodup ∧
      (∀ r ∈ s.engine.scheduler.requests, r.state.isTerminal = false) ∧
      ∀ id, id ∈ s.stored ↔ id ∈ s.accepted ∧
        id ∉ s.engine.submissions.map Submission.id ∧ ∀ out ∈ s.ticks, out.reports id = false) ∧
    ∀ now, (s.after (.step now)).engine.submissions = [] := by
  intro s
  have h : s.Audited := (Audited.start hnew hmodel).run events
  refine ⟨h.audit.nodup, fun id => (h.reported_once id).1, ?_, ?_, ?_, ?_⟩
  · intro hidle id hid
    exact Nat.le_antisymm (h.reported_once id).1 (h.reported_of_idle hidle hid)
  · intro out hout
    exact ⟨(h.reported_once 0).2 out hout, fun o ho => h.explained hout ho⟩
  · exact ⟨h.audit.coherent.keys, h.audit.published, h.audit.coherent.owned.ids,
      h.audit.coherent.live, h.mem_stored⟩
  · intro now
    rw [engine_step]
    exact (h.audit.coherent.step (h.appendsAt now)).2.1.submissions

/-- Three requests of which one is completed, one is refused for a token that the model does not
know, and one is cancelled: a single tick answers them all. -/
theorem answers_three_ends :
    let events : List Event := [.submit { prompt := [5], sampling := .greedy 1 } 0,
      .enqueue { prompt := [9], sampling := .greedy 1 } 0,
      .submit { prompt := [4], sampling := .greedy 3 } 0, .cancel 3, .step 0]
    ∃ e, Engine.new .counting {} Stream.ofSeed = .ok e ∧
      let s := Session.run { engine := e } events
      s.accepted = [1, 2, 3] ∧ s.engine.hasPending = false ∧
      ∀ id ∈ s.accepted, (s.ticks.filter fun out => out.reports id).length = 1 := by
  intro events
  have hnew : ∃ e, Engine.new .counting {} Stream.ofSeed = .ok e := ⟨_, rfl⟩
  obtain ⟨e, he⟩ := hnew
  have hidle : (Session.run { engine := e } events).accepted = [1, 2, 3] ∧
      (Session.run { engine := e } events).engine.hasPending = false := by
    cases he
    decide +kernel
  obtain ⟨-, -, honce, -⟩ := answers_once he LanguageModel.counting_appendsOnly events
  exact ⟨e, he, hidle.1, hidle.2, honce hidle.2⟩

end Session

end CausalServe
