import CausalServe.Proofs.Engine.Faithful
import CausalServe.Proofs.Engine.Reachable

/-! Batching, queueing, preemption and the cache do not show in what an engine answers: every
request that it accepts comes to what its loop comes to on its own, whatever else is submitted and
whenever the engine is ticked. -/

namespace CausalServe

/-- A request that nothing but its own limits ends: it has no deadline, and the budget covers all
that it can come to need. -/
structure GenerationRequest.Servable (model : LanguageModel) (config : EngineConfig)
    (g : GenerationRequest) : Prop where
  timeless : g.timeout = none
  affordable : config.cache.Affords (.ofModel model.config)
    (g.prompt.length + g.sampling.maxTokens)

def Solo.Answers (m : Solo) (entropy : RequestId → Stream)
    (log : List (RequestId × GenerationRequest)) (id : RequestId) (outcome : Outcome) : Prop :=
  ∃ g, (id, g) ∈ log ∧ outcome = m.answer g (entropy id)

/-! ## A model that serves -/

namespace LanguageModel

def countingRows (entries : List BatchEntry) : List RowWrite :=
  entries.flatMap fun entry => entry.tokens.map fun _ => ⟨entry.slot, 0, [0, 0], [0, 0]⟩

theorem mem_countingRows {entries : List BatchEntry} {w : RowWrite} (h : w ∈ countingRows entries) :
    ∃ entry ∈ entries, w = ⟨entry.slot, 0, [0, 0], [0, 0]⟩ := by
  obtain ⟨entry, he, hw⟩ := List.mem_flatMap.mp h
  obtain ⟨_, -, rfl⟩ := List.mem_map.mp hw
  exact ⟨entry, he, rfl⟩

theorem count_countingRows (entries : List BatchEntry) (slot : SlotId) :
    RowWrite.count (countingRows entries) slot 0 = (BatchEntry.tokensOf entries slot).length := by
  induction entries with
  | nil => rfl
  | cons entry rest ih =>
    have hcons : countingRows (entry :: rest) = (entry.tokens.map fun _ =>
        (⟨entry.slot, 0, [0, 0], [0, 0]⟩ : RowWrite)) ++ countingRows rest := rfl
    have hrest : RowWrite.count (countingRows (entry :: rest)) slot 0 =
        (if entry.slot = slot then entry.tokens.length else 0) +
          (BatchEntry.tokensOf rest slot).length := by
      rw [← ih, hcons, RowWrite.count, List.countP_append, List.countP_map]
      congr 1
      by_cases hslot : entry.slot = slot <;> simp [hslot, Function.comp_def]
    rw [hrest]
    unfold BatchEntry.tokensOf
    by_cases hslot : entry.slot = slot <;> simp [hslot]

variable {config : CacheConfig} {c : Cache} {entries : List BatchEntry}

theorem counting_rowsFor (hkept : c.Kept counting config) (hbatch : c.Batchable entries) :
    c.RowsFor counting.config.numLayers entries (countingRows entries) where
  fits := fun w hw => by
    obtain ⟨entry, he, rfl⟩ := mem_countingRows hw
    have hlayout : c.layout.kvWidth = 2 := by rw [hkept.limits.layout]; rfl
    exact ⟨⟨hlayout.symm, hlayout.symm⟩, Nat.one_pos, entry, he, rfl⟩
  count := fun entry he layer hlayer => by
    obtain rfl : layer = 0 := Nat.lt_one_iff.mp hlayer
    rw [count_countingRows, BatchEntry.tokensOf_mem hbatch.distinct he]

theorem counting_forward (hkept : c.Kept counting config) (hbatch : c.Batchable entries) :
    Action.exec (counting.forward entries) c =
        (.ok (entries.map fun entry => countingLogits entry.tokens),
          (Action.exec (Cache.writeAll (countingRows entries)) c).2) ∧
      (Action.exec (counting.forward entries) c).2.Kept counting config := by
  obtain ⟨c', n, hwrite, hsound, hfed, hn⟩ :=
    hkept.written hbatch (counting_rowsFor hkept hbatch)
  have hforward : counting.forward entries = Cache.writeAll (countingRows entries) >>= fun _ =>
      pure (entries.map fun entry => countingLogits entry.tokens) := rfl
  rw [hforward, Action.exec_bind_ok hwrite, hwrite]
  exact ⟨rfl, hkept.fedTo hsound hfed hn⟩

/-- The counting model serves: what it looks at is the last of all tokens. -/
theorem counting_serves (config : CacheConfig) : counting.Serves config countingLogits where
  layered := Nat.one_pos
  forward := fun {c fed entries} h hbatch => by
    have hkept : c.Kept counting config := h.keep fun _ hk hb => (counting_forward hk hb).2
    refine ⟨countingRows entries, counting_rowsFor hkept hbatch, ?_⟩
    have hlast : entries.map (fun entry => countingLogits (fed entry.slot ++ entry.tokens)) =
        entries.map fun entry => countingLogits entry.tokens := by
      refine List.map_congr_left fun entry he => ?_
      unfold countingLogits
      rw [List.getLast?_append_of_ne_nil _ (hbatch.nonempty entry he)]
    rw [(counting_forward hkept hbatch).1, hlast]

end LanguageModel

namespace Engine

/-! ## Submissions between ticks -/

/-- An engine that is given requests and ticked, in any order, with the requests that it accepted
under their ids and the outputs so far. -/
inductive Serving (model : LanguageModel) (config : EngineConfig) (entropy : RequestId → Stream) :
    Engine → List (RequestId × GenerationRequest) → List GenerationOutput → Prop
  | new {e : Engine} (h : Engine.new model config entropy = .ok e) :
      Serving model config entropy e [] []
  | submit {e e' : Engine} {log : List (RequestId × GenerationRequest)}
      {outs : List GenerationOutput} (h : Serving model config entropy e log outs)
      {g : GenerationRequest} (hg : g.Servable model config) {now : Nat} {handle : RequestHandle}
      (hexec : Action.exec (submit g now) e = (.ok handle, e')) :
      Serving model config entropy e' (log ++ [(handle.id, g)]) outs
  | enqueue {e e' : Engine} {log : List (RequestId × GenerationRequest)}
      {outs : List GenerationOutput} (h : Serving model config entropy e log outs)
      {g : GenerationRequest} (hg : g.Servable model config) {now : Nat} {handle : RequestHandle}
      (hexec : Action.exec (enqueue g now) e = (.ok handle, e')) :
      Serving model config entropy e' (log ++ [(handle.id, g)]) outs
  | step {e : Engine} {log : List (RequestId × GenerationRequest)} {outs : List GenerationOutput}
      (h : Serving model config entropy e log outs) (now : Nat) :
      Serving model config entropy ((step now).run e).2 log (outs ++ ((step now).run e).1.finished)

variable {model : LanguageModel} {config : EngineConfig} {entropy : RequestId → Stream}
  {logits : List Token → List Float32} {want : RequestId → Outcome → Prop} {e : Engine}
  {log : List (RequestId × GenerationRequest)} {outs : List GenerationOutput}

theorem prompt_of_validate {g : GenerationRequest} (h : g.validate = .ok ()) : g.prompt ≠ [] :=
  (ok_of_guard h).1

theorem Faithful.new (h : Engine.new model config entropy = .ok e) :
    Faithful model config logits want [] [] e.submissions [] e := by
  obtain ⟨hmodel, hconfig, hsub, hsched, hcoherent⟩ := Coherent.new h
  rw [hsub]
  exact {
    coherent := hcoherent
    model_eq := hmodel
    config_eq := hconfig
    pending := fun s hs => (List.not_mem_nil hs).elim
    tracks := ⟨fun _ => [], by
      rw [hsched]
      exact ⟨.new, fun r hr => (List.not_mem_nil hr).elim, fun r hr => (List.not_mem_nil hr).elim⟩⟩
    answered := fun o ho => (List.not_mem_nil ho).elim
    tally := by
      rw [hsched]
      exact .refl _ }

/-- A request that is queued waits for its loop to start. -/
theorem Faithful.accepted {ids : List RequestId}
    (h : Faithful model config logits want ids outs e.submissions [] e) {g : GenerationRequest}
    (hg : g.Servable model config) (hvalid : g.validate = .ok ())
    (hwant : want e.nextId ((config.solo model logits).answer g (e.entropy e.nextId)))
    (now : Nat) : Faithful model config logits want (ids ++ [e.nextId]) outs
      (e.accepted g now).submissions [] (e.accepted g now) where
  coherent := h.coherent.accepted (asks_of_validate hvalid) trivial now
  model_eq := h.model_eq
  config_eq := h.config_eq
  pending := fun s hs => by
    rcases List.mem_append.mp hs with hs | hs
    · exact h.pending s hs
    · rw [List.mem_singleton.mp hs]
      exact ⟨rfl, hg.timeless, prompt_of_validate hvalid, hg.affordable, hwant⟩
  tracks := h.tracks
  answered := h.answered
  tally := by
    have hsame : (e.accepted g now).submissions.map Submission.id =
        e.submissions.map Submission.id ++ [e.nextId] := List.map_append
    have hlast : ∀ xs ys zs : List RequestId,
        (xs ++ (ys ++ [e.nextId] ++ zs)).Perm ((xs ++ (ys ++ zs)) ++ [e.nextId]) := fun xs ys zs => by
      rw [List.append_assoc, List.append_assoc, List.append_assoc]
      exact ((List.perm_append_comm).append_left ys).append_left xs
    rw [hsame]
    exact (hlast _ _ _).trans (h.tally.append_right _)

/-- An engine that is faithful to the requests in its log, which are told apart by their ids. -/
structure Logged (model : LanguageModel) (config : EngineConfig) (entropy : RequestId → Stream)
    (logits : List Token → List Float32) (want : RequestId → Outcome → Prop)
    (log : List (RequestId × GenerationRequest)) (outs : List GenerationOutput) (e : Engine) :
    Prop where
  entropy_eq : e.entropy = entropy
  faithful : Faithful model config logits want (log.map Prod.fst) outs e.submissions [] e
  nodup : (log.map Prod.fst).Nodup
  below : ∀ id ∈ log.map Prod.fst, id < e.nextId

theorem Logged.accepted (h : Logged model config entropy logits want log outs e)
    {g : GenerationRequest} (hg : g.Servable model config) (hvalid : g.validate = .ok ())
    (hwant : want e.nextId ((config.solo model logits).answer g (entropy e.nextId)))
    (now : Nat) :
    Logged model config entropy logits want (log ++ [(e.nextId, g)]) outs (e.accepted g now) := by
  have hids : (log ++ [(e.nextId, g)]).map Prod.fst = log.map Prod.fst ++ [e.nextId] :=
    List.map_append
  refine ⟨h.entropy_eq, ?_, ?_, ?_⟩ <;> rw [hids]
  · rw [← h.entropy_eq] at hwant
    exact h.faithful.accepted hg hvalid hwant now
  · refine h.nodup.append (List.nodup_singleton _) fun id hid hnew => ?_
    rw [List.mem_singleton.mp hnew] at hid
    exact Nat.lt_irrefl _ (h.below _ hid)
  · intro id hid
    rcases List.mem_append.mp hid with hid | hid
    · exact Nat.lt_succ_of_lt (h.below id hid)
    · rw [List.mem_singleton.mp hid]
      exact Nat.lt_succ_self _

theorem Logged.step (h : Logged model config entropy logits want log outs e)
    (hserves : model.Serves config.cache logits) (now : Nat) :
    Logged model config entropy logits want log (outs ++ ((Engine.step now).run e).1.finished)
      ((Engine.step now).run e).2 := by
  have hstill := (h.faithful.coherent.step (h.faithful.appendsAt hserves now)).2.1
  refine ⟨hstill.entropy.trans h.entropy_eq, h.faithful.step hserves now, h.nodup, ?_⟩
  rw [hstill.nextId]
  exact h.below

/-- Whatever is wanted of the requests that were accepted is what they come to. -/
theorem Serving.logged (h : Serving model config entropy e log outs)
    (hserves : model.Serves config.cache logits)
    (hwant : ∀ p ∈ log, want p.1 ((config.solo model logits).answer p.2 (entropy p.1))) :
    Logged model config entropy logits want log outs e := by
  induction h with
  | new h =>
    exact ⟨by rw [new_eq h], .new h, List.nodup_nil, fun id hid => (List.not_mem_nil hid).elim⟩
  | @submit e e' log outs h g hg now handle hexec ih =>
    have hlogged := ih fun p hp => hwant p (List.mem_append_left _ hp)
    have hnew := hwant (handle.id, g) (by simp)
    rcases submit_cases e g now with ⟨fault, he⟩ | ⟨hvalid, he⟩ <;> cases he.symm.trans hexec
    exact hlogged.accepted hg hvalid hnew now
  | @enqueue e e' log outs h g hg now handle hexec ih =>
    have hlogged := ih fun p hp => hwant p (List.mem_append_left _ hp)
    have hnew := hwant (handle.id, g) (by simp)
    rcases enqueue_cases e g now with ⟨fault, he⟩ | ⟨hvalid, he⟩ <;> cases he.symm.trans hexec
    exact hlogged.accepted hg hvalid hnew now
  | step h now ih => exact (ih hwant).step hserves now

theorem Serving.answers (h : Serving model config entropy e log outs)
    (hserves : model.Serves config.cache logits) :
    Logged model config entropy logits ((config.solo model logits).Answers entropy log) log outs e :=
  h.logged hserves fun p hp => ⟨p.2, hp, rfl⟩

/-- An engine that has nothing left to do has answered every request once, as it should. -/
theorem Serving.answered (h : Serving model config entropy e log outs)
    (hserves : model.Serves config.cache logits) (hidle : e.hasPending = false) :
    ∀ p ∈ log, ∃ o, outs.filter (fun o => o.requestId = p.1) = [o] ∧
      o.outcome = (config.solo model logits).answer p.2 (entropy p.1) := by
  obtain ⟨-, hf, hnodup, -⟩ := h.answers hserves
  rw [hasPending, Bool.or_eq_false_iff, Bool.not_eq_false', List.isEmpty_iff] at hidle
  obtain ⟨hsched, hsub⟩ := hidle
  have hnone : e.scheduler.requests = [] := List.eq_nil_iff_forall_not_mem.mpr fun r hr => by
    rw [hf.coherent.owned.hasPending_iff.mpr ⟨r, hr, hf.coherent.live r hr⟩] at hsched
    cases hsched
  have htally := hf.tally
  rw [hnone, hsub, List.map_nil, List.map_nil, List.append_nil, List.append_nil] at htally
  rintro ⟨id, g⟩ hp
  obtain ⟨o, ho, rfl⟩ := List.mem_map.mp (htally.mem_iff.mpr (List.mem_map_of_mem hp))
  refine ⟨o, filter_eq_singleton (htally.nodup_iff.mpr hnodup) ho, ?_⟩
  obtain ⟨g', hg', houtcome⟩ := hf.answered o ho
  cases List.inj_on_of_nodup_map hnodup hg' hp rfl
  exact houtcome

/-- Scheduling does not show in the answers. However requests are submitted between ticks, whatever
is answered is what the loop of that request comes to on its own; and from any point on an engine
that is ticked until nothing is pending comes to rest, and has then answered every request that it
accepted once, as the loop of that request does. -/
theorem Serving.transparent (h : Serving model config entropy e log outs)
    (hserves : model.Serves config.cache logits) :
    (∀ o ∈ outs, ∃ g, (o.requestId, g) ∈ log ∧
      o.outcome = (config.solo model logits).answer g (entropy o.requestId)) ∧
    ∀ clock, ∃ later last, (runUntilIdle clock).run e = (later, last) ∧ last.hasPending = false ∧
      ∀ p ∈ log, ∃ o, (outs ++ later).filter (fun o => o.requestId = p.1) = [o] ∧
        o.outcome = (config.solo model logits).answer p.2 (entropy p.1) := by
  refine ⟨(h.answers hserves).faithful.answered, fun clock => ?_⟩
  obtain ⟨last, hlast, hidle, -, hruns⟩ := exists_rest
    (fun outs x => Serving model config entropy x log outs)
    (fun outs x hx => by
      have hf := (hx.answers hserves).faithful
      exact ⟨hf.coherent, hf.appendsAt hserves⟩)
    (fun outs x now hx => hx.step now) clock h
  exact ⟨last.1, last.2, hruns _ (Nat.le_refl _), hidle, hlast.answered hserves hidle⟩

/-- Two requests under a budget for one of them, so one has to give way. The second comes to the
three numbers after its prompt, as it does on its own. -/
theorem transparent_under_pressure :
    let config : EngineConfig := { cache :=
      { blockSize := 1, memoryBudget := some 64, pressurePolicy := .preemptLeastRecent } }
    let log : List (RequestId × GenerationRequest) :=
      [(1, { prompt := [5], sampling := .greedy 3 }), (2, { prompt := [4], sampling := .greedy 3 })]
    ∃ e outs later last, Serving .counting config Stream.ofSeed e log outs ∧
      (runUntilIdle id).run e = (later, last) ∧ last.hasPending = false ∧
      ∃ o, (outs ++ later).filter (fun o => o.requestId = 2) = [o] ∧
        o.outcome = { state := .completed, finishReason := some .maxTokens, failure := none,
                      prompt := [4], output := [5, 6, 7] } := by
  intro config log
  have hnew : ∃ e, Engine.new .counting config Stream.ofSeed = .ok e := ⟨_, rfl⟩
  obtain ⟨e, he⟩ := hnew
  have hservable : ∀ p ∈ log, p.2.Servable .counting config := by
    intro p hp
    have hbytes : ∀ limit, config.cache.memoryBudget = some limit →
        (Cache.new (.ofModel LanguageModel.counting.config) config.cache).bytesFor
          (min 4 config.cache.maxContext) ≤ limit := fun limit hlimit => by
      cases hlimit
      decide
    simp only [log, List.mem_cons, List.not_mem_nil, or_false] at hp
    rcases hp with rfl | rfl <;> exact ⟨rfl, .inr ⟨nofun, hbytes⟩⟩
  have hsubmits : ∃ e₁ e₂, Action.exec (submit { prompt := [5], sampling := .greedy 3 } 0) e =
        (.ok { id := 1 }, e₁) ∧
      Action.exec (submit { prompt := [4], sampling := .greedy 3 } 0) e₁ =
        (.ok { id := 2 }, e₂) := by
    cases he
    exact ⟨_, _, rfl, rfl⟩
  obtain ⟨e₁, e₂, hfirst, hsecond⟩ := hsubmits
  have hserving : Serving .counting config Stream.ofSeed _ log _ :=
    (((Serving.new he).submit (hservable (1, _) (by simp [log])) hfirst).submit
      (hservable (2, _) (by simp [log])) hsecond).step 0
  obtain ⟨-, hrest⟩ := Serving.transparent hserving (LanguageModel.counting_serves config.cache)
  obtain ⟨later, last, hrun, hidle, hanswered⟩ := hrest id
  obtain ⟨o, ho, houtcome⟩ := hanswered (2, { prompt := [4], sampling := .greedy 3 }) (by simp [log])
  refine ⟨_, _, later, last, hserving, hrun, hidle, o, ho, houtcome.trans ?_⟩
  decide +kernel

end Engine

end CausalServe
