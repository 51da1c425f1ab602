import CausalServe.Proofs.Engine.Enlistment
import CausalServe.Proofs.Engine.Streaming
import CausalServe.Proofs.Kernel.Rows
import CausalServe.Proofs.Sampler.Support
import CausalServe.Proofs.Traverse

/-! Tokens stay inside the vocabulary. A prompt is looked at when its submission is taken up, and
every other token was drawn from a row of logits, so it is an index into that row. With rows as wide
as the vocabulary nothing else is ever stored, shown, answered or fed to the model again. -/

namespace CausalServe

/-- Every row of logits has an entry for each token of the vocabulary, and no other. -/
def LanguageModel.CoversVocabulary (m : LanguageModel) : Prop :=
  ∀ entries c rows, (Action.exec (m.forward entries) c).1 = .ok rows →
    ∀ row ∈ rows, row.length = m.config.vocabSize

/-- The logits of a transformer are cut into rows of that width. -/
theorem Transformer.coversVocabulary (t : Transformer) : t.toModel.CoversVocabulary := by
  intro entries c rows hrows row hrow
  have hexec : Action.exec (t.forward entries) c =
      (.ok rows, (Action.exec (t.forward entries) c).2) := Prod.ext hrows rfl
  unfold forward at hexec
  by_cases hnone : entries = []
  · rw [if_pos hnone] at hexec
    cases hexec
    exact absurd hrow List.not_mem_nil
  · rw [if_neg hnone] at hexec
    obtain ⟨_, _, -, hexec⟩ := Action.exec_bind_eq_ok.mp hexec
    obtain ⟨_, _, -, hexec⟩ := Action.exec_bind_eq_ok.mp hexec
    obtain ⟨_, _, -, hexec⟩ := Action.exec_bind_eq_ok.mp hexec
    obtain ⟨_, _, -, hexec⟩ := Action.exec_bind_eq_ok.mp hexec
    obtain ⟨logits, _, -, hexec⟩ := Action.exec_bind_eq_ok.mp hexec
    cases hexec
    exact length_of_mem_pieces hrow

theorem LanguageModel.counting_coversVocabulary : counting.CoversVocabulary := by
  intro entries c rows hrows row hrow
  have hexec : Action.exec (counting.forward entries) c =
      (.ok rows, (Action.exec (counting.forward entries) c).2) := Prod.ext hrows rfl
  obtain ⟨_, _, -, hexec⟩ := Action.exec_bind_eq_ok.mp hexec
  cases hexec
  obtain ⟨entry, -, rfl⟩ := List.mem_map.mp hrow
  exact (List.length_map _).trans List.length_range

namespace Request

def Within (size : Nat) (r : Request) : Prop := ∀ t ∈ r.tokens, t < size

variable {size : Nat} {r x : Request}

theorem Within.suffix (h : r.Within size) (hx : x.tokens <:+ r.tokens) : x.Within size :=
  fun t ht => h t (hx.subset ht)

theorem tokens_settled (r : Request) (eos : Option Token) (sampled : Except Error Token) :
    (r.settled eos sampled).tokens = r.tokens ++ sampled.toOption.toList := by
  have hprompt : (r.settled eos sampled).prompt = r.prompt :=
    settled_keeps Request.prompt (fun _ => rfl) (fun _ => rfl) (fun _ _ => rfl) eos sampled
  rw [tokens, settled_output, hprompt, ← List.append_assoc]
  rfl

theorem Within.settled (h : r.Within size) {sampled : Except Error Token}
    (hsampled : ∀ token, sampled = .ok token → token < size) (eos : Option Token) :
    (r.settled eos sampled).Within size := by
  intro t ht
  rw [tokens_settled] at ht
  rcases List.mem_append.mp ht with ht | ht
  · exact h t ht
  · cases sampled with
    | error => exact absurd ht List.not_mem_nil
    | ok token =>
      rw [List.mem_singleton.mp ht]
      exact hsampled token rfl

end Request

/-- An output with no other tokens, or of a request that was refused for its prompt. -/
def GenerationOutput.Within (size : Nat) (o : GenerationOutput) : Prop :=
  (∀ t ∈ o.prompt ++ o.output, t < size) ∨
    o.output = [] ∧ ∃ fault, checkVocabulary o.prompt size = .error fault ∧
      o.failure = some (.ofError fault)

namespace Engine

/-- An engine with no other tokens, but for submissions that are still to be taken up. -/
structure InVocabulary (size : Nat) (outs : List GenerationOutput) (e : Engine) : Prop where
  stored : ∀ r ∈ e.scheduler.requests, r.Within size
  shown : ∀ id, ∀ t ∈ (e.feed id).tokens, t < size
  answered : ∀ o ∈ outs, o.Within size

variable {size : Nat} {outs : List GenerationOutput} {ended : List RequestId} {e : Engine}

theorem InVocabulary.answer (h : InVocabulary size outs e) {o : GenerationOutput}
    (ho : o.Within size) : ∀ o' ∈ outs ++ [o], o'.Within size := by
  intro o' ho'
  rcases List.mem_append.mp ho' with ho' | ho'
  · exact h.answered o' ho'
  · rwa [List.mem_singleton.mp ho']

/-- A feed is written with tokens of its request. -/
theorem InVocabulary.write (h : InVocabulary size outs e) (id : RequestId) {r : Request}
    (hr : ∀ t ∈ r.output, t < size) (other : RequestId) :
    ∀ t ∈ (({ e with feeds := e.feeds.modify id (·.write r) } : Engine).feed other).tokens,
      t < size := by
  have hshown := h.shown other
  unfold feed at hshown ⊢
  rw [Table.get?_modify]
  split
  next =>
    cases hfeed : e.feeds.get? other with
    | none => exact fun t ht => absurd ht (Array.not_mem_empty t)
    | some f =>
      rw [hfeed] at hshown
      intro t ht
      change t ∈ f.tokens ++ r.output.drop f.tokens.size at ht
      rcases Array.mem_append.mp ht with ht | ht
      · exact hshown t ht
      · refine hr t (Array.mem_def.mpr (List.mem_of_mem_drop (i := f.tokens.size) ?_))
        rw [← Array.toList_drop]
        exact Array.mem_def.mp ht
  next => exact hshown

/-! ## Between two ticks -/

theorem InVocabulary.accepted (h : InVocabulary size outs e) (g : GenerationRequest) (now : Nat) :
    InVocabulary size outs (e.accepted g now) where
  stored := h.stored
  shown := fun id => by
    rw [feed_accepted]
    exact h.shown id
  answered := h.answered

theorem InVocabulary.cancelled (h : InVocabulary size outs e) (id : RequestId) :
    InVocabulary size outs (e.cancel id) where
  stored := fun r hr => by
    obtain ⟨old, hold, he⟩ := mem_requests_cancel hr
    rw [he]
    exact h.stored old hold
  shown := h.shown
  answered := h.answered

/-! ## A tick -/

theorem InVocabulary.takeUp {s : Submission} {rest : List Submission}
    (h : InVocabulary size outs e) (hlisted : Enlisted (s :: rest) [] e)
    (hsize : e.vocabSize = size) (now : Nat) :
    InVocabulary size (outs ++ ((Engine.takeUp now s).run e).1.toList)
      ((Engine.takeUp now s).run e).2 := by
  subst hsize
  rcases takeUp_cases e now hlisted.unknown with ⟨fault, hbad, hrun⟩ | ⟨hprompt, hrun⟩ <;> rw [hrun]
  · refine ⟨h.stored, h.write s.id fun t ht => absurd ht (Array.not_mem_empty t), h.answer ?_⟩
    exact .inr ⟨rfl, fault, hbad, rfl⟩
  · rw [Option.toList_none, List.append_nil]
    refine ⟨fun r hr => ?_, h.shown, h.answered⟩
    rcases Scheduler.mem_arrived.mp hr with hr | rfl
    · exact h.stored r hr
    · intro t ht
      rcases List.mem_append.mp ht with ht | ht
      · exact checkVocabulary_eq_ok.mp hprompt t ht
      · exact absurd ht List.not_mem_nil

theorem InVocabulary.drained (h : InVocabulary size outs e) (hlisted : Enlisted e.submissions [] e)
    (hsize : e.vocabSize = size) (now : Nat) :
    InVocabulary size (outs ++ (e.drained now).1.filterMap id) (e.drained now).2 := by
  obtain ⟨-, -, hkept⟩ := hlisted.drained_keep now
    (fun new _ x => InVocabulary size (outs ++ new) x)
    (by rw [List.append_nil]; exact { h with }) fun s rest new x _ hmodel hx hp => by
      have hsame : x.vocabSize = size := by rw [vocabSize, hmodel, ← hsize, vocabSize]
      rw [← List.append_assoc]
      exact hp.takeUp hx hsame now
  exact hkept

/-- A plan feeds nothing and draws nothing. -/
theorem InVocabulary.planned (h : InVocabulary size outs e) (hlisted : Enlisted [] [] e)
    (now : Nat) : InVocabulary size outs (e.planned now) where
  stored := fun x hx => by
    obtain ⟨r, hr, hsuffix⟩ := hlisted.lined.tick_tokens now x hx
    exact (h.stored r hr).suffix hsuffix
  shown := h.shown
  answered := h.answered

/-- A token that is recorded in a turn was drawn from a row of the pass. -/
theorem InVocabulary.ran (h : InVocabulary size outs e) (hlisted : Enlisted [] ended e)
    (hmodel : e.model.CoversVocabulary) (hsize : e.vocabSize = size) :
    InVocabulary size outs (e.ran e.scheduler.running).2 := by
  obtain ⟨-, -, hkept⟩ := hlisted.ran_keep (fun _ x => InVocabulary size outs x) { h with }
    fun r rest result x sampled result' x' _ _ ht hp => by
      have hdrawn : ∀ token, sampled = .ok token → token < size := by
        intro token htoken
        obtain ⟨rows, hrows, logits, hlogits, sampler, hsample⟩ := ht.drawn token htoken
        rw [← hsize, vocabSize, ← hmodel _ _ rows hrows logits hlogits]
        exact Sampler.lt_of_sample hsample
      -- nobody but the request of the turn has changed
      obtain ⟨samplers, -, rfl⟩ := ht.engine
      obtain ⟨slot, hform⟩ := Scheduler.settledForm_eq (r.settled x.model.config.eosToken sampled)
      refine ⟨fun y hy => ?_, hp.shown, hp.answered⟩
      rw [Scheduler.settle_requests, hform] at hy
      rcases Scheduler.mem_update.mp hy with ⟨rfl, -⟩ | ⟨hy, -⟩
      · exact (hp.stored r ht.stored).settled hdrawn _
      · exact hp.stored y hy
  exact hkept

theorem InVocabulary.publish (h : InVocabulary size outs e) (id : RequestId) :
    InVocabulary size outs (e.publish id) := by
  unfold Engine.publish
  split
  · cases hfound : e.scheduler.request? id with
    | none => exact h
    | some r =>
      have hr := h.stored r (Scheduler.mem_of_request? hfound).1
      refine ⟨h.stored, h.write id fun t ht => hr t ?_, h.answered⟩
      exact List.mem_append_right _ (Array.mem_def.mp ht)
  · exact h

theorem InVocabulary.written (h : InVocabulary size outs e) (ids : List RequestId) :
    ∃ feeds, ids.foldl Engine.publish e = { e with feeds := feeds } ∧
      InVocabulary size outs { e with feeds := feeds } := by
  have hkept : InVocabulary size outs (ids.foldl Engine.publish e) := by
    induction ids generalizing e with
    | nil => exact h
    | cons id rest ih => exact ih (h.publish id)
  obtain ⟨feeds, hfeeds⟩ := foldl_publish ids e
  exact ⟨feeds, hfeeds, hfeeds ▸ hkept⟩

theorem InVocabulary.closed (h : InVocabulary size outs e) (hlisted : Enlisted [] ended e)
    (now : Nat) :
    InVocabulary size (outs ++ (e.closed now ended).1.filterMap id) (e.closed now ended).2 := by
  obtain ⟨-, -, hkept⟩ := hlisted.closed_keep now (fun outs _ x => InVocabulary size outs x)
    outs h fun id rest outs x hx hp => by
      obtain ⟨r, hr, rfl, -⟩ := hx.finish now
      rw [run_finish (hx.ids.request? hr)]
      exact ⟨fun y hy => hp.stored y (Scheduler.mem_removeRequest.mp hy).1, hp.shown,
        hp.answer (.inl (hp.stored r hr))⟩
  exact hkept

/-- At every stage of a tick. -/
theorem InVocabulary.stages (h : InVocabulary size outs e) (hlisted : Enlisted e.submissions [] e)
    (hmodel : e.model.CoversVocabulary) (hsize : e.vocabSize = size) (now : Nat) :
    let start := (e.drained now).2.planned now
    (∀ r ∈ start.scheduler.requests, r.Within size) ∧
      (∀ r ∈ (start.ran start.scheduler.running).2.scheduler.requests, r.Within size) ∧
      InVocabulary size (outs ++ ((Engine.step now).run e).1.finished)
        ((Engine.step now).run e).2 := by
  intro start
  obtain ⟨hdrained, hplanned, hran, -⟩ := hlisted.stages now
  have hfirst := h.drained hlisted hsize now
  have hsecond := hfirst.planned hdrained now
  have hsame : start.model = e.model := (hlisted.drained now).2.model
  have hstart : start.vocabSize = size := by rw [vocabSize, hsame, ← hsize, vocabSize]
  have hthird := hsecond.ran hplanned (hsame ▸ hmodel) hstart
  obtain ⟨metrics, hrun, -⟩ := Engine.run_step e now
  have hbatch : ((e.drained now).2.scheduler.schedule now).1.batch = start.scheduler.running :=
    (hdrained.lined.tick now).enrolled.batch_eq
  simp only [hbatch] at hrun
  obtain ⟨feeds, hfeeds, hfourth⟩ := hthird.written (start.scheduler.running ++
    ((e.drained now).2.scheduler.schedule now).1.retired ++
      ((e.drained now).2.scheduler.schedule now).1.preempted)
  rw [hfeeds] at hrun
  have hlast := hfourth.closed (hran.withFeeds feeds) now
  rw [hrun, ← List.append_assoc]
  exact ⟨hsecond.stored, hthird.stored, hlast⟩

end Engine

namespace Session

variable {s : Session} {size : Nat}

theorem inVocabulary_after (h : Engine.InVocabulary size s.outputs s.engine)
    (hlisted : Engine.Enlisted s.engine.submissions [] s.engine)
    (hmodel : s.engine.model.CoversVocabulary) (hsize : s.engine.vocabSize = size)
    (event : Event) :
    Engine.InVocabulary size (s.after event).outputs (s.after event).engine := by
  rcases s.after_cases event with he | ⟨g, now, -, he⟩ | ⟨id, he⟩ | ⟨now, rfl⟩ | ⟨place, rfl⟩
  · rwa [he]
  · rw [he]
    exact h.accepted g now
  · rw [he]
    exact h.cancelled id
  · rw [outputs_step, engine_step]
    exact (h.stages hlisted hmodel hsize now).2.2
  · exact h

theorem inVocabulary_run {model : LanguageModel} {config : EngineConfig}
    {entropy : RequestId → Stream} {e : Engine} (hnew : Engine.new model config entropy = .ok e) (hmodel : model.CoversVocabulary)
    (events : List Event) :
    Engine.InVocabulary model.config.vocabSize (Session.run { engine := e } events).outputs
      (Session.run { engine := e } events).engine := by
  have hkeep := run_keep (fun s => (Engine.Enlisted s.engine.submissions [] s.engine ∧
      s.engine.model = model) ∧ Engine.InVocabulary model.config.vocabSize s.outputs s.engine)
    (s := { engine := e }) (fun s event ⟨⟨hlisted, hsame⟩, hs⟩ => ?_) ⟨⟨.new hnew, ?_⟩, ?_⟩ events
  · exact hkeep.2
  · obtain ⟨hnext, hmodel'⟩ := enlisted_after hlisted event
    refine ⟨⟨hnext, hmodel'.trans hsame⟩, inVocabulary_after hs hlisted ?_ ?_ event⟩
    · rwa [hsame]
    · rw [Engine.vocabSize, hsame]
  · rw [Engine.new_eq hnew]
  · rw [Engine.new_eq hnew]
    exact {
      stored := fun r hr => (List.not_mem_nil hr).elim
      shown := fun id t ht => (Array.not_mem_empty t ht).elim
      answered := fun o ho => (List.not_mem_nil ho).elim }

end Session

end CausalServe
