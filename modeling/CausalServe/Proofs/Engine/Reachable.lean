import CausalServe.Proofs.Engine.Progress

/-! Every state that an engine can be brought to by its operations, in any order and whether they
succeed or not, and what its next ticks come to. -/

namespace CausalServe

def countingLogits (tokens : List Token) : List Float32 :=
  (List.range 8).map fun t => if tokens.getLast?.map (· + 1) = some t then 1 else 0

/-- A model of one layer that counts: it writes a row of zeros for each token that it is fed, and
looks at the last one. -/
def LanguageModel.counting : LanguageModel where
  config := { vocabSize := 8, hiddenSize := 2, intermediateSize := 2, numLayers := 1, numHeads := 1,
              numKvHeads := 1 }
  forward := fun entries => do
    Cache.writeAll (entries.flatMap fun entry =>
      entry.tokens.map fun _ => ⟨entry.slot, 0, [0, 0], [0, 0]⟩)
    return entries.map fun entry => countingLogits entry.tokens

theorem LanguageModel.counting_appendsOnly : counting.AppendsOnly := by
  intro entries c
  let rows : List RowWrite := entries.flatMap fun entry =>
    entry.tokens.map fun _ => ⟨entry.slot, 0, [0, 0], [0, 0]⟩
  have happended := Cache.Appended.refl.writeAll (c := c) rows
  have hforward : counting.forward entries =
      Cache.writeAll rows >>= fun _ => pure (entries.map fun entry => countingLogits entry.tokens) :=
    rfl
  rw [hforward, Action.exec_bind]
  rcases hexec : Action.exec (Cache.writeAll rows) c with ⟨outcome, c'⟩
  rw [hexec] at happended
  cases outcome <;> exact happended

namespace Engine

/-- The states of an engine that is used through its operations alone. -/
inductive Reachable (model : LanguageModel) (config : EngineConfig) : Engine → Prop
  | new {entropy : RequestId → Stream} {e : Engine} (h : Engine.new model config entropy = .ok e) :
      Reachable model config e
  | submit {e : Engine} (h : Reachable model config e) (g : GenerationRequest) (now : Nat) :
      Reachable model config (Action.exec (submit g now) e).2
  | enqueue {e : Engine} (h : Reachable model config e) (g : GenerationRequest) (now : Nat) :
      Reachable model config (Action.exec (enqueue g now) e).2
  | cancel {e : Engine} (h : Reachable model config e) (id : RequestId) :
      Reachable model config (e.cancel id)
  | step {e : Engine} (h : Reachable model config e) (now : Nat) :
      Reachable model config ((step now).run e).2

variable {model : LanguageModel} {config : EngineConfig} {e : Engine}

theorem AppendsAt.of_appendsOnly {limit : RequestId → Nat → Prop}
    (h : Coherent limit e e.submissions []) (hmodel : e.model.AppendsOnly) (now : Nat) :
    e.AppendsAt now := by
  have hsame : (e.drained now).2.model = e.model := (h.drained now).2.1.model
  unfold AppendsAt
  change Cache.Appended _ (Action.exec ((e.drained now).2.model.forward _) _).2
  rw [hsame]
  exact hmodel _ _

theorem Reachable.coherent (h : Reachable model config e) (hmodel : model.AppendsOnly) :
    Coherent (fun _ _ => True) e e.submissions [] ∧ e.model = model ∧ e.config = config := by
  induction h with
  | new h =>
    obtain ⟨hm, hc, hs, -, hcoherent⟩ := Coherent.new h
    exact ⟨by rw [hs]; exact hcoherent, hm, hc⟩
  | @submit e h g now ih =>
    rcases submit_cases e g now with ⟨fault, he⟩ | ⟨hv, he⟩ <;> rw [he]
    · exact ih
    · exact ⟨ih.1.accepted (asks_of_validate hv) trivial now, ih.2⟩
  | @enqueue e h g now ih =>
    rcases enqueue_cases e g now with ⟨fault, he⟩ | ⟨hv, he⟩ <;> rw [he]
    · exact ih
    · exact ⟨ih.1.accepted (asks_of_validate hv) trivial now, ih.2⟩
  | cancel h id ih => exact ⟨ih.1.cancelled id, ih.2⟩
  | @step e h now ih =>
    obtain ⟨hc, hm, hcfg⟩ := ih
    obtain ⟨hnext, hstill, -⟩ := hc.step (.of_appendsOnly hc (hm ▸ hmodel) now)
    have hsub : ((Engine.step now).run e).2.submissions = [] := hstill.submissions
    exact ⟨by rw [hsub]; exact hnext, hstill.model.trans hm, hstill.config.trans hcfg⟩

/-- What the requests ask for that were accepted and have not ended. -/
def demands (e : Engine) : List Nat :=
  e.submissions.map (fun s => s.request.sampling.maxTokens) ++
    (e.scheduler.requests.filter fun r => !r.state.isTerminal).map fun r => r.sampling.maxTokens

def Asks (e : Engine) (id : RequestId) (n : Nat) : Prop :=
  (∃ s ∈ e.submissions, s.id = id ∧ s.request.sampling.maxTokens = n) ∨
    ∃ r ∈ e.scheduler.requests, r.id = id ∧ r.sampling.maxTokens = n

theorem total_succ {α : Type} (f : α → Nat) (xs : List α) :
    total (fun x => 1 + f x) xs = xs.length + (xs.map f).sum := by
  induction xs with
  | nil => rfl
  | cons x xs ih =>
    simp only [total, ih, List.length_cons, List.map_cons, List.sum_cons]
    omega

/-- The work that is left is one tick for each request and one for each token that it may ask for. -/
theorem remaining_le (e : Engine) : e.remaining ≤ e.demands.length + e.demands.sum := by
  have hstored : total Request.remaining (e.scheduler.requests.filter fun r => !r.state.isTerminal) ≤
      total (fun r => 1 + r.sampling.maxTokens)
        (e.scheduler.requests.filter fun r => !r.state.isTerminal) :=
    total_le fun r _ => Nat.add_le_add_left (Nat.sub_le _ _) 1
  rw [total_succ] at hstored
  unfold remaining demands
  rw [total_succ, List.length_append, List.sum_append, List.length_map, List.length_map]
  omega

/-- A tick of an engine that has something to do generates a token or ends a request, and no request
gets more tokens than it asks for. So an engine that gets no more requests comes to rest within one
tick for each request and one for each token asked for, however many more it is given, and the loops
inside its ticks end by themselves. -/
theorem Reachable.progress (h : Reachable model config e) (hmodel : model.AppendsOnly) :
    (e.hasPending = true → ∀ now, 0 < ((Engine.step now).run e).1.metrics.generated ∨
      ((Engine.step now).run e).1.finished ≠ []) ∧
    (∀ r ∈ e.scheduler.requests, r.output.size ≤ r.sampling.maxTokens) ∧
    (∀ now, ((Engine.step now).run e).2.stepCount = e.stepCount + 1 ∧
      ∀ o ∈ ((Engine.step now).run e).1.finished, ∃ n, e.Asks o.requestId n ∧ o.output.length ≤ n) ∧
    (∀ clock, ∃ outputs last, (runUntilIdle clock).run e = (outputs, last) ∧
      last.hasPending = false ∧
      last.stepCount ≤ e.stepCount + (e.demands.length + e.demands.sum) ∧
      (∀ o ∈ outputs, ∃ n, e.Asks o.requestId n ∧ o.output.length ≤ n) ∧
      ∀ turns, e.demands.length + e.demands.sum ≤ turns →
        (runFor clock turns).run e = (outputs, last)) ∧
    ∀ now, let start : Round := { scheduler := (e.drained now).2.scheduler }
      let waiting := start.expire now
      Round.admitTurns (waiting.scheduler.waiting.length + 1) waiting none =
        some waiting.admitWaiting ∧
      ∀ (grown : List RequestId) (id : RequestId), Round.growTurns (config.scheduler.maxSeqs + 1)
          (grown.foldl Round.growOne waiting.admitWaiting) id =
        some ((grown.foldl Round.growOne waiting.admitWaiting).growOne id) := by
  obtain ⟨hc, hm, hconfig⟩ := h.coherent hmodel
  have happends : e.model.AppendsOnly := hm ▸ hmodel
  have hasks : Coherent e.Asks e e.submissions [] := { hc with
    limited := ⟨fun s hs => .inl ⟨s, hs, rfl, rfl⟩, fun r hr => .inr ⟨r, hr, rfl, rfl⟩⟩ }
  refine ⟨fun hp now => ?_, fun r hr => (hc.sized r hr).1, fun now => ?_, fun clock => ?_,
    fun now => ?_⟩
  · obtain ⟨-, -, -, -, hpos⟩ := hc.step (.of_appendsOnly hc happends now)
    rcases Nat.eq_zero_or_pos ((Engine.step now).run e).1.metrics.generated with hzero | hgenerated
    · refine .inr (List.length_pos_iff.mp ?_)
      have := hpos hp
      omega
    · exact .inl hgenerated
  · obtain ⟨-, hstill, -, hwithin, -⟩ := hasks.step (.of_appendsOnly hc happends now)
    exact ⟨hstill.stepCount, hwithin⟩
  · obtain ⟨last, hlast, hidle, hsteps, hruns⟩ := exists_rest
      (fun outs x => Coherent e.Asks x x.submissions [] ∧ x.model.AppendsOnly ∧
        ∀ o ∈ outs, Within e.Asks o)
      (fun outs x hx => ⟨hx.1, fun now => .of_appendsOnly hx.1 hx.2.1 now⟩)
      (fun outs x now ⟨hx, ha, ho⟩ => by
        obtain ⟨hnext, hstill, -, hwithin, -⟩ := hx.step (.of_appendsOnly hx ha now)
        have hsub : ((Engine.step now).run x).2.submissions = [] := hstill.submissions
        have hsame : ((Engine.step now).run x).2.model = x.model := hstill.model
        refine ⟨by rw [hsub]; exact hnext, by rw [hsame]; exact ha, fun o hmem => ?_⟩
        exact (List.mem_append.mp hmem).elim (ho o) (hwithin o))
      clock ⟨hasks, happends, fun o ho => (List.not_mem_nil ho).elim⟩
    have hle := e.remaining_le
    exact ⟨last.1, last.2, hruns _ (Nat.le_refl _), hidle, by omega, hlast.2.2,
      fun turns hturns => hruns turns (by omega)⟩
  · obtain ⟨hd, hstill, -⟩ := hc.drained now
    obtain ⟨hexpire, hwaiting, henter, hentered, -⟩ := hd.owned.phases now
    refine ⟨Round.admitTurns_eq _ rfl none (Nat.lt_succ_self _), fun grown id => ?_⟩
    have hgrow := (Round.grow_fold now grown hentered).1
    have hmoves : Round.Moves now _ _ := (hexpire.moves.trans henter).trans hgrow
    have howned := hmoves.owned hd.owned
    refine Round.growTurns_eq howned id (Nat.lt_succ_of_le ?_)
    have hset : (e.drained now).2.config = config := hstill.config.trans hconfig
    have hseqs := hd.settings.trans hmoves.settings
    rw [hset] at hseqs
    exact Nat.le_trans howned.running_le (Nat.le_of_eq (congrArg _ hseqs.config))

/-- A request for three tokens, of which the first tick generates one. -/
theorem progress_of_three_tokens : ∃ e : Engine, e.hasPending = true ∧ e.demands = [3] ∧
    (0 < ((step 0).run e).1.metrics.generated ∨ ((step 0).run e).1.finished ≠ []) ∧
    ∃ outputs last, (runFor id 4).run e = (outputs, last) ∧ last.hasPending = false := by
  have hnew : ∃ e, Engine.new .counting {} Stream.ofSeed = .ok e := ⟨_, rfl⟩
  obtain ⟨e, he⟩ := hnew
  have hs : Reachable .counting {} _ := .submit (.new he) { prompt := [5], sampling := .greedy 3 } 0
  obtain ⟨hticks, -, -, hrest, -⟩ := Reachable.progress hs LanguageModel.counting_appendsOnly
  have hfacts : (Action.exec (submit { prompt := [5], sampling := .greedy 3 } 0) e).2.hasPending =
      true ∧ (Action.exec (submit { prompt := [5], sampling := .greedy 3 } 0) e).2.demands = [3] := by
    cases he
    exact ⟨rfl, rfl⟩
  obtain ⟨outputs, last, -, hidle, -, -, hruns⟩ := hrest id
  exact ⟨_, hfacts.1, hfacts.2, hticks hfacts.1 0, outputs, last,
    hruns 4 (by rw [hfacts.2]; decide), hidle⟩

end Engine

end CausalServe
