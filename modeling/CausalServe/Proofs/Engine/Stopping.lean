import CausalServe.Proofs.Engine.Enlistment
import CausalServe.Proofs.Engine.Solo

/-! Generation stops at the first stop condition, with any model. The conditions are looked at once
for each token, when it is sampled; a request that meets one ends in that turn, so a request that is
still live has met none, and what is fed again after a preemption is not looked at again. -/

namespace CausalServe

namespace Request

/-! ## The stop conditions -/

/-- The output ends with the token that ends sequences. -/
def AtEnd (r : Request) (eos : Option Token) : Prop :=
  ∃ last, eos = some last ∧ [last] <:+ r.output.toList

/-- The output ends with a stop sequence, of which the empty one is none. -/
def AtStop (r : Request) : Prop :=
  ∃ stop ∈ r.sampling.stopSequences, stop ≠ [] ∧ stop <:+ r.output.toList

def AtLimit (r : Request) : Prop := r.output.toList ≠ [] ∧ r.sampling.maxTokens ≤ r.output.size

variable {r x : Request} {eos : Option Token}

theorem checkStop_congr (houtput : x.output = r.output) (hsampling : x.sampling = r.sampling) :
    x.checkStop eos = r.checkStop eos := by
  unfold checkStop endsWith
  rw [houtput, hsampling]

theorem checkStop_nil (h : r.output.toList = []) : r.checkStop eos = none := by
  rw [checkStop, ← Array.getLast?_toList, h]
  rfl

/-- Each reason has its condition; an earlier one wins. -/
theorem checkStop_reasons (r : Request) (eos : Option Token) :
    (r.checkStop eos = some .endOfSequence ↔ r.AtEnd eos) ∧
    (r.checkStop eos = some .stopSequence ↔ ¬ r.AtEnd eos ∧ r.AtStop) ∧
    (r.checkStop eos = some .maxTokens ↔ ¬ r.AtEnd eos ∧ ¬ r.AtStop ∧ r.AtLimit) := by
  by_cases hnil : r.output.toList = []
  · have hend : ¬ r.AtEnd eos := fun ⟨last, _, hsuffix⟩ => by
      rw [hnil] at hsuffix
      cases List.suffix_nil.mp hsuffix
    have hstop : ¬ r.AtStop := fun ⟨stop, _, hne, hsuffix⟩ => by
      rw [hnil] at hsuffix
      exact hne (List.suffix_nil.mp hsuffix)
    rw [checkStop_nil hnil]
    simp [hend, hstop, AtLimit, hnil]
  have hend : (eos.isSome && eos == r.output.toList.getLast?) = true ↔ r.AtEnd eos := by
    obtain ⟨before, last, hlast⟩ := (List.eq_nil_or_concat r.output.toList).resolve_left hnil
    have hsuffix : ∀ token, [token] <:+ before ++ [last] ↔ token = last := fun token => by
      rw [List.suffix_iff_eq_drop]
      simp
    rw [List.concat_eq_append] at hlast
    unfold AtEnd
    rw [hlast]
    simp only [hsuffix]
    cases eos <;> simp
  have hstop : (r.sampling.stopSequences.any fun stop =>
      !stop.isEmpty && stop.isSuffixOf r.output.toList) = true ↔ r.AtStop := by
    simp [AtStop]
  have hlimit : r.sampling.maxTokens ≤ r.output.toList.length ↔ r.AtLimit := by
    simp [AtLimit, hnil]
  rw [checkStop_of_output eos hnil, Solo.stopReason]
  split
  next h => simp [hend.mp h]
  next h =>
    have h₁ := mt hend.mpr h
    split
    next h => simp [h₁, hstop.mp h]
    next h =>
      have h₂ := mt hstop.mpr h
      split
      next h => simp [h₁, h₂, hlimit.mp h]
      next h => simp [h₁, h₂, mt hlimit.mpr h]

/-! ## One request -/

def upTo (r : Request) (n : Nat) : Request := { r with output := r.output.take n }

/-- The stop conditions were met by no part of the output, and by all of it just where the request
was completed. Every token took a step. -/
structure StopsFirst (eos : Option Token) (r : Request) : Prop where
  earlier : ∀ n, 0 < n → n < r.output.size → (r.upTo n).checkStop eos = none
  completed : r.state = .completed ↔ (r.checkStop eos).isSome = true
  reason : r.finishReason = r.checkStop eos
  steps : r.steps = r.output.size
  wanted : r.output.size ≤ r.sampling.maxTokens
  budgeted : ∀ limit, r.maxSteps = some limit → r.output.size ≤ limit

/-- Nothing else counts. -/
theorem StopsFirst.congr (h : r.StopsFirst eos) (houtput : x.output = r.output)
    (hsampling : x.sampling = r.sampling) (hsteps : x.steps = r.steps)
    (hmax : x.maxSteps = r.maxSteps) (hreason : x.finishReason = r.finishReason)
    (hstate : x.state = .completed ↔ r.state = .completed) : x.StopsFirst eos where
  earlier := fun n hpos hlt => by
    rw [houtput] at hlt
    have houtput' : (x.upTo n).output = (r.upTo n).output := by rw [upTo, upTo, houtput]
    rw [checkStop_congr houtput' hsampling]
    exact h.earlier n hpos hlt
  completed := by rw [hstate, checkStop_congr houtput hsampling]; exact h.completed
  reason := by rw [hreason, checkStop_congr houtput hsampling]; exact h.reason
  steps := by rw [hsteps, houtput]; exact h.steps
  wanted := by rw [houtput, hsampling]; exact h.wanted
  budgeted := by rw [hmax, houtput]; exact h.budgeted

/-- A request that goes on has met no condition. -/
theorem StopsFirst.live (h : r.StopsFirst eos) (hlive : r.state.isTerminal = false) :
    r.checkStop eos = none := by
  cases hstop : r.checkStop eos with
  | none => rfl
  | some reason =>
    rw [h.completed.mpr (by rw [hstop]; rfl)] at hlive
    cases hlive

/-- A request may end for another reason. -/
theorem StopsFirst.ended (h : r.StopsFirst eos) (hlive : r.state.isTerminal = false)
    (houtput : x.output = r.output) (hsampling : x.sampling = r.sampling)
    (hsteps : x.steps = r.steps) (hmax : x.maxSteps = r.maxSteps)
    (hreason : x.finishReason = r.finishReason) (hstate : x.state ≠ .completed) :
    x.StopsFirst eos :=
  h.congr houtput hsampling hsteps hmax hreason
    ⟨fun hx => absurd hx hstate, fun hr => by rw [hr] at hlive; cases hlive⟩

theorem StopsFirst.carries (h : r.StopsFirst eos) (hc : r.Carries x) : x.StopsFirst eos := by
  refine h.congr hc.output hc.sampling hc.steps hc.maxSteps hc.finishReason
    ⟨fun hx => ?_, fun hr => ?_⟩
  · rcases hc.outcome (by rw [hx]; rfl) with rfl | ⟨-, hfailed⟩
    · exact hx
    · rw [hx] at hfailed
      cases hfailed
  · rw [hc.ended (by rw [hr]; rfl)]
    exact hr

theorem upTo_stepped (r : Request) (token : Token) {n : Nat} (h : n ≤ r.output.size) :
    ((r.stepped token).upTo n).output = (r.upTo n).output := by
  have htake : ∀ xs : Array Token, (xs.take n).toList = xs.toList.take n := by simp
  refine Array.toList_inj.mp ?_
  change ((r.output.push token).take n).toList = (r.output.take n).toList
  rw [htake, htake, Array.toList_push, List.take_append_of_le_length (by simpa using h)]

/-- With a token more, no part of the output but all of it is new. -/
theorem StopsFirst.earlier_stepped (h : r.StopsFirst eos) (hlive : r.state.isTerminal = false)
    (token : Token) {n : Nat} (hpos : 0 < n) (hn : n < r.output.size + 1) :
    ((r.stepped token).upTo n).checkStop eos = none := by
  refine (checkStop_congr (r.upTo_stepped token (Nat.lt_succ_iff.mp hn)) rfl).trans ?_
  rcases Nat.lt_or_eq_of_le (Nat.lt_succ_iff.mp hn) with hn | rfl
  · exact h.earlier n hpos hn
  · have hall : (r.upTo r.output.size).output = r.output := by simp [upTo]
    exact (checkStop_congr hall rfl).trans (h.live hlive)

/-- A request that has met no condition wants a token more. -/
theorem StopsFirst.size_lt (h : r.StopsFirst eos) (hlive : r.state.isTerminal = false)
    (hwants : 0 < r.sampling.maxTokens) : r.output.size < r.sampling.maxTokens := by
  rcases Nat.eq_zero_or_pos r.output.size with hzero | hpos
  · rwa [hzero]
  · exact checkStop_none hpos (h.live hlive)

/-- A token more is looked at once, with the output that it completes. -/
theorem StopsFirst.stepped (h : r.StopsFirst eos) (hlive : r.state.isTerminal = false)
    (hwants : 0 < r.sampling.maxTokens) (hbudget : r.isStepBudgetExhausted = false) (token : Token)
    (houtput : x.output = (r.stepped token).output) (hsampling : x.sampling = r.sampling)
    (hsteps : x.steps = r.steps + 1) (hmax : x.maxSteps = r.maxSteps)
    (hreason : x.finishReason = x.checkStop eos)
    (hstate : x.state = .completed ↔ (x.checkStop eos).isSome = true) : x.StopsFirst eos := by
  have hsize : x.output.size = r.output.size + 1 := by
    rw [houtput]
    exact Array.size_push ..
  refine ⟨fun n hpos hn => ?_, hstate, hreason, ?_, ?_, fun limit hlimit => ?_⟩
  · have hupTo : (x.upTo n).output = ((r.stepped token).upTo n).output := by
      rw [upTo, upTo, houtput]
    rw [checkStop_congr hupTo hsampling]
    exact h.earlier_stepped hlive token hpos (hsize ▸ hn)
  · rw [hsteps, hsize, h.steps]
  · rw [hsize, hsampling]
    exact h.size_lt hlive hwants
  · rw [isStepBudgetExhausted, ← hmax, hlimit] at hbudget
    have hlt : r.steps < limit := by simpa using hbudget
    rwa [hsize, ← h.steps]

/-- A turn ends a request if it must. -/
theorem StopsFirst.settled (h : r.StopsFirst eos) (hrun : r.state.isRunning = true)
    (hwants : 0 < r.sampling.maxTokens) (hbudget : r.isStepBudgetExhausted = false)
    (sampled : Except Error Token) : (r.settled eos sampled).StopsFirst eos := by
  have hlive := RequestState.isTerminal_of_isRunning hrun
  cases sampled with
  | error fault =>
    exact h.ended (x := r.failedBy fault) hlive rfl rfl rfl rfl rfl (by simp [failedBy])
  | ok token =>
    cases hstop : (r.stepped token).checkStop eos with
    | none =>
      rw [settled_goesOn hstop]
      refine h.stepped hlive hwants hbudget token rfl rfl rfl rfl ?_ ?_ <;> rw [hstop]
      · exact h.reason.trans (h.live hlive)
      · simp [Request.stepped]
    | some reason =>
      rw [settled_completes hstop]
      have hsame : ((r.stepped token).completed reason).checkStop eos = some reason :=
        (checkStop_congr rfl rfl).trans hstop
      refine h.stepped hlive hwants hbudget token rfl rfl rfl rfl ?_ ?_ <;> rw [hsame]
      · rfl
      · exact iff_of_true rfl rfl

/-- A request that stops where it should, with what its submission asked for. -/
structure Stops (eos : Option Token) (asked : RequestId → GenerationRequest → Prop) (r : Request) :
    Prop where
  first : r.StopsFirst eos
  wants : 0 < r.sampling.maxTokens
  asked : ∃ g, asked r.id g ∧ r.sampling = g.sampling ∧ r.maxSteps = g.maxSteps

variable {asked : RequestId → GenerationRequest → Prop}

theorem Stops.withSlot (h : r.Stops eos asked) (slot : Option SlotId) :
    { r with slot := slot }.Stops eos asked :=
  ⟨h.first.congr rfl rfl rfl rfl rfl .rfl, h.wants, h.asked⟩

theorem Stops.expired (h : r.Stops eos asked) (hlive : r.state.isTerminal = false) :
    r.expired.Stops eos asked :=
  ⟨h.first.ended hlive rfl rfl rfl rfl rfl nofun, h.wants, h.asked⟩

theorem Stops.carries (h : r.Stops eos asked) (hc : r.Carries x) : x.Stops eos asked := by
  refine ⟨h.first.carries hc, ?_, ?_⟩
  · rw [hc.sampling]
    exact h.wants
  · rw [hc.id, hc.sampling, hc.maxSteps]
    exact h.asked

theorem settled_maxSteps (r : Request) (eos : Option Token) (sampled : Except Error Token) :
    (r.settled eos sampled).maxSteps = r.maxSteps :=
  settled_keeps Request.maxSteps (fun _ => rfl) (fun _ => rfl) (fun _ _ => rfl) eos sampled

theorem Stops.settled (h : r.Stops eos asked) (hrun : r.state.isRunning = true)
    (hsteps : r.isStepBudgetExhausted = false) (sampled : Except Error Token) :
    (r.settled eos sampled).Stops eos asked := by
  refine ⟨h.first.settled hrun h.wants hsteps sampled, ?_, ?_⟩
  · rw [settled_sampling]
    exact h.wants
  · rw [settled_id, settled_sampling, settled_maxSteps]
    exact h.asked

/-- A request that has generated nothing has nothing to stop for. -/
theorem StopsFirst.empty (houtput : r.output = #[]) (hsteps : r.steps = 0)
    (hreason : r.finishReason = none) (hstate : r.state ≠ .completed) : r.StopsFirst eos where
  earlier := fun n _ hlt => by simp [houtput] at hlt
  completed := by
    rw [checkStop_nil (by rw [houtput])]
    exact ⟨fun h => absurd h hstate, nofun⟩
  reason := by rw [hreason, checkStop_nil (by rw [houtput])]
  steps := by simp [hsteps, houtput]
  wanted := by simp [houtput]
  budgeted := fun limit _ => by simp [houtput]

end Request

namespace Engine

/-! ## All requests -/

/-- All that an engine was asked for stops where it should, with the outputs so far and the
submissions that are still to be taken up. -/
structure Stopping (eos : Option Token) (asked : RequestId → GenerationRequest → Prop)
    (outs : List GenerationOutput) (todo : List Submission) (e : Engine) : Prop where
  pending : ∀ s ∈ todo, asked s.id s.request ∧ 0 < s.request.sampling.maxTokens
  stored : ∀ r ∈ e.scheduler.requests, r.Stops eos asked
  answered : ∀ o ∈ outs, ∃ r now, o = .ofRequest r now ∧ r.Stops eos asked

variable {eos : Option Token} {asked : RequestId → GenerationRequest → Prop}
  {outs : List GenerationOutput} {todo : List Submission} {ended : List RequestId} {e : Engine}

theorem Stopping.answer (h : Stopping eos asked outs todo e) {r : Request}
    (hr : r.Stops eos asked) (now : Nat) : ∀ o ∈ outs ++ [.ofRequest r now],
      ∃ r now, o = .ofRequest r now ∧ r.Stops eos asked := fun o ho => by
  rcases List.mem_append.mp ho with ho | ho
  · exact h.answered o ho
  · exact ⟨r, now, List.mem_singleton.mp ho, hr⟩

theorem Stopping.accepted (h : Stopping eos asked outs e.submissions e) {g : GenerationRequest}
    (hvalid : g.validate = .ok ()) (hasked : asked e.nextId g) (now : Nat) :
    Stopping eos asked outs (e.accepted g now).submissions (e.accepted g now) where
  pending := fun s hs => by
    rcases mem_accepted.mp hs with hs | rfl
    · exact h.pending s hs
    · exact ⟨hasked, asks_of_validate hvalid⟩
  stored := h.stored
  answered := h.answered

theorem Stopping.cancelled (h : Stopping eos asked outs e.submissions e) (id : RequestId) :
    Stopping eos asked outs (e.cancel id).submissions (e.cancel id) where
  pending := fun s hs => by
    obtain ⟨old, hold, he⟩ := mem_submissions_cancel hs
    rw [he]
    exact h.pending old hold
  stored := fun r hr => by
    obtain ⟨old, hold, he⟩ := mem_requests_cancel hr
    obtain ⟨hfirst, hwants, hasked⟩ := h.stored old hold
    rw [he]
    exact ⟨hfirst.congr rfl rfl rfl rfl rfl .rfl, hwants, hasked⟩
  answered := h.answered

theorem Stopping.takeUp {s : Submission} {rest : List Submission}
    (h : Stopping eos asked outs (s :: rest) e) (hlisted : Enlisted (s :: rest) [] e) (now : Nat) :
    Stopping eos asked (outs ++ ((Engine.takeUp now s).run e).1.toList) rest
      ((Engine.takeUp now s).run e).2 := by
  obtain ⟨hasked, hwants⟩ := h.pending s (by simp)
  have hrest : ∀ s ∈ rest, asked s.id s.request ∧ 0 < s.request.sampling.maxTokens :=
    fun s hs => h.pending s (List.mem_cons_of_mem _ hs)
  rcases takeUp_cases e now hlisted.unknown with ⟨fault, -, hrun⟩ | ⟨-, hrun⟩ <;> rw [hrun]
  · have hr : (s.toRequest.failedBy fault).Stops eos asked :=
      ⟨.empty rfl rfl rfl nofun, hwants, s.request, hasked, rfl, rfl⟩
    exact ⟨hrest, h.stored, h.answer hr now⟩
  · rw [Option.toList_none, List.append_nil]
    refine ⟨hrest, fun r hr => ?_, h.answered⟩
    rcases Scheduler.mem_arrived.mp hr with hr | rfl
    · exact h.stored r hr
    · exact ⟨.empty rfl rfl rfl nofun, hwants, s.request, hasked, rfl, rfl⟩

theorem Stopping.drained (h : Stopping eos asked outs e.submissions e)
    (hlisted : Enlisted e.submissions [] e) (now : Nat) :
    Stopping eos asked (outs ++ (e.drained now).1.filterMap id) [] (e.drained now).2 := by
  obtain ⟨-, -, hkept⟩ := hlisted.drained_keep now
    (fun new rest x => Stopping eos asked (outs ++ new) rest x)
    (by rw [List.append_nil]; exact { h with }) fun s rest new x _ _ hx hp => by
      rw [← List.append_assoc]
      exact hp.takeUp hx now
  exact hkept

theorem Stopping.planned (h : Stopping eos asked outs [] e) (hlisted : Enlisted [] [] e)
    (now : Nat) : Stopping eos asked outs [] (e.planned now) where
  pending := nofun
  stored := fun x hx => by
    obtain ⟨r, hr, -, ⟨hcarries, -⟩ | ⟨hlive, -, rfl⟩⟩ := hlisted.lined.tick_requests now x hx
    · exact (h.stored r hr).carries hcarries
    · exact (h.stored r hr).expired hlive
  answered := h.answered

/-- A batch after a plan: whoever has a turn is not out of steps. -/
theorem Stopping.ran (h : Stopping eos asked outs [] e) (hlisted : Enlisted [] ended e)
    (heos : e.model.config.eosToken = eos)
    (hsteps : ∀ r ∈ e.scheduler.requests, r.state.isRunning = true →
      r.isStepBudgetExhausted = false) :
    Stopping eos asked outs [] (e.ran e.scheduler.running).2 := by
  obtain ⟨-, -, hkept⟩ := hlisted.ran_keep (fun _ x => Stopping eos asked outs [] x) { h with }
    fun r rest result x sampled result' x' hr hturning ht hp => by
      obtain ⟨samplers, -, rfl⟩ := ht.engine
      have hsame : x.model.config.eosToken = eos := by rw [hturning.still.model, heos]
      obtain ⟨slot, hform⟩ := Scheduler.settledForm_eq (r.settled x.model.config.eosToken sampled)
      refine ⟨nofun, fun y hy => ?_, hp.answered⟩
      rw [Scheduler.settle_requests, hform, hsame] at hy
      rcases Scheduler.mem_update.mp hy with ⟨rfl, -⟩ | ⟨hy, -⟩
      · have hstops := (hp.stored r ht.stored).settled ht.running (hsteps r hr ht.running) sampled
        exact hstops.withSlot slot
      · exact hp.stored y hy
  exact hkept

theorem Stopping.closed (h : Stopping eos asked outs [] e) (hlisted : Enlisted [] ended e)
    (now : Nat) : Stopping eos asked (outs ++ (e.closed now ended).1.filterMap id) []
      (e.closed now ended).2 := by
  obtain ⟨-, -, hkept⟩ := hlisted.closed_keep now (fun outs _ x => Stopping eos asked outs [] x)
    outs h fun id rest outs x hx hp => by
      obtain ⟨r, hr, rfl, -, hout, hothers, -⟩ := hx.finish now
      rw [hout]
      exact ⟨nofun, fun y hy => hp.stored y ((hothers y).mp hy).1,
        hp.answer ((hp.stored r hr).withSlot none) now⟩
  exact hkept

/-- Nobody runs in the batch of a tick who is out of steps. -/
theorem Enlisted.steps_left (h : Enlisted [] [] e) {now : Nat} {r : Request}
    (hr : r ∈ (e.planned now).scheduler.requests) (hrun : r.state.isRunning = true) :
    r.isStepBudgetExhausted = false :=
  Request.expiry?_none (h.lined.not_due_of_tick hr (RequestState.isTerminal_of_isRunning hrun))

/-- At every stage of a tick. -/
theorem Stopping.stages (h : Stopping eos asked outs e.submissions e)
    (hlisted : Enlisted e.submissions [] e) (heos : e.model.config.eosToken = eos) (now : Nat) :
    let drained := (e.drained now).2
    let start := drained.planned now
    let result := start.ran start.scheduler.running
    (∀ r ∈ drained.scheduler.requests, r.Stops eos asked) ∧
      (∀ r ∈ start.scheduler.requests, r.Stops eos asked) ∧
      (∀ r ∈ result.2.scheduler.requests, r.Stops eos asked) ∧
      Stopping eos asked (outs ++ ((Engine.step now).run e).1.finished)
        ((Engine.step now).run e).2.submissions ((Engine.step now).run e).2 := by
  intro drained start result
  obtain ⟨hdrained, hplanned, hran, feeds, -, -, hfinished, he, -⟩ := hlisted.stages now
  have hfirst := h.drained hlisted now
  have hsecond := hfirst.planned hdrained now
  have hmodel : start.model = e.model := (hlisted.drained now).2.model
  have hthird := hsecond.ran hplanned (by rw [hmodel, heos]) fun r hr => hdrained.steps_left hr
  have hlast := Stopping.closed (e := { result.2 with feeds := feeds }) { hthird with }
    (hran.withFeeds feeds) now
  rw [(hlisted.step now).2.1, hfinished, he, ← List.append_assoc]
  exact ⟨hfirst.stored, hsecond.stored, hthird.stored, hlast⟩

end Engine

namespace Session

variable {s : Session}

/-! ## The requests of a session -/

/-- The request that an event brings in, under its id, if the engine accepts it. -/
def logged (s : Session) : Event → Option (RequestId × GenerationRequest)
  | .submit g now =>
    (Action.exec (Engine.submit g now) s.engine).1.toOption.map fun handle => (handle.id, g)
  | .enqueue g now =>
    (Action.exec (Engine.enqueue g now) s.engine).1.toOption.map fun handle => (handle.id, g)
  | .cancel _ | .step _ | .poll _ => none

/-- The requests that a session accepts in the course of some events, under their ids. -/
def log (s : Session) : List Event → List (RequestId × GenerationRequest)
  | [] => []
  | event :: rest => (s.logged event).toList ++ (s.after event).log rest

/-- A submission that is refused changes nothing, and one that is accepted is known. -/
theorem stopping_called {eos : Option Token} {asked : RequestId → GenerationRequest → Prop}
    (h : Engine.Stopping eos asked s.outputs s.engine.submissions s.engine) {g : GenerationRequest}
    {now : Nat} {outcome : Except Error RequestHandle × Engine}
    (hcases : (∃ fault, outcome = (.error fault, s.engine)) ∨ (g.validate = .ok () ∧
      outcome = (.ok { id := s.engine.nextId }, s.engine.accepted g now)))
    (hknown : ∀ p, (outcome.1.toOption.map fun handle => (handle.id, g)) = some p →
      asked p.1 p.2) :
    Engine.Stopping eos asked (s.called outcome).outputs (s.called outcome).engine.submissions
      (s.called outcome).engine := by
  rcases hcases with ⟨fault, rfl⟩ | ⟨hvalid, rfl⟩
  · exact h
  · exact h.accepted hvalid (hknown _ rfl) now

/-- Every event keeps what stops where it should, if what it brings in is known. -/
theorem stopping_after {eos : Option Token} {asked : RequestId → GenerationRequest → Prop}
    (h : Engine.Stopping eos asked s.outputs s.engine.submissions s.engine)
    (hlisted : Engine.Enlisted s.engine.submissions [] s.engine)
    (heos : s.engine.model.config.eosToken = eos) (event : Event)
    (hknown : ∀ p, s.logged event = some p → asked p.1 p.2) :
    Engine.Stopping eos asked (s.after event).outputs (s.after event).engine.submissions
      (s.after event).engine := by
  cases event with
  | submit g now => exact stopping_called h (Engine.submit_cases s.engine g now) hknown
  | enqueue g now => exact stopping_called h (Engine.enqueue_cases s.engine g now) hknown
  | cancel id => exact h.cancelled id
  | step now =>
    rw [outputs_step, engine_step]
    exact (h.stages hlisted heos now).2.2.2
  | poll place => exact h

theorem stopping_run {eos : Option Token} {asked : RequestId → GenerationRequest → Prop}
    (h : Engine.Stopping eos asked s.outputs s.engine.submissions s.engine)
    (hlisted : Engine.Enlisted s.engine.submissions [] s.engine)
    (heos : s.engine.model.config.eosToken = eos) (events : List Event)
    (hknown : ∀ p ∈ s.log events, asked p.1 p.2) :
    Engine.Stopping eos asked (s.run events).outputs (s.run events).engine.submissions
      (s.run events).engine := by
  induction events generalizing s with
  | nil => exact h
  | cons event rest ih =>
    obtain ⟨hnext, hmodel⟩ := enlisted_after hlisted event
    refine ih (stopping_after h hlisted heos event fun p hp => ?_) hnext (by rw [hmodel, heos])
      fun p hp => hknown p (List.mem_append_right _ hp)
    exact hknown p (List.mem_append_left _ (by rw [hp]; exact List.mem_singleton_self p))

/-- Generation stops at the first stop condition, with any model and in the course of any events:
every request that an engine was given, at whatever stage of a tick, and every one that it has
answered, has met no condition before its last token, is completed just where it meets one then, and
reports the one that wins. It took as many steps as it has tokens, and no more than it may. The
conditions are about the output alone. -/
theorem stops_first {model : LanguageModel} {config : EngineConfig} {entropy : RequestId → Stream}
    {e : Engine} (hnew : Engine.new model config entropy = .ok e) (events : List Event) :
    let s := Session.run { engine := e } events
    let eos := model.config.eosToken
    let stops (r : Request) : Prop := r.StopsFirst eos ∧
      ∃ g, (r.id, g) ∈ Session.log { engine := e } events ∧
        r.sampling = g.sampling ∧ r.maxSteps = g.maxSteps
    (∀ sub ∈ s.engine.submissions, stops sub.toRequest) ∧
    (∀ r ∈ s.engine.scheduler.requests, stops r) ∧
    (∀ o ∈ s.outputs, ∃ r now, o = .ofRequest r now ∧ stops r) ∧
    (∀ now, let drained := (s.engine.drained now).2
      let start := drained.planned now
      (∀ r ∈ drained.scheduler.requests, stops r) ∧ (∀ r ∈ start.scheduler.requests, stops r) ∧
        ∀ r ∈ (start.ran start.scheduler.running).2.scheduler.requests, stops r) ∧
    ∀ r : Request,
      (r.checkStop eos = some .endOfSequence ↔ r.AtEnd eos) ∧
      (r.checkStop eos = some .stopSequence ↔ ¬ r.AtEnd eos ∧ r.AtStop) ∧
      (r.checkStop eos = some .maxTokens ↔ ¬ r.AtEnd eos ∧ ¬ r.AtStop ∧ r.AtLimit) := by
  intro s eos stops
  obtain ⟨hlisted, hmodel⟩ := enlisted_run hnew events
  have hstart : Engine.Stopping eos (fun id g => (id, g) ∈ Session.log { engine := e } events)
      [] e.submissions e := by
    rw [Engine.new_eq hnew]
    exact ⟨by simp, by simp [Scheduler.new], by simp⟩
  have heos : e.model.config.eosToken = eos := by rw [Engine.new_eq hnew]
  have hlast := stopping_run (s := { engine := e }) hstart (.new hnew) heos events fun p hp => hp
  have hstops : ∀ r : Request, r.Stops eos (fun id g =>
      (id, g) ∈ Session.log { engine := e } events) → stops r := fun r hr => ⟨hr.first, hr.asked⟩
  have hqueued : ∀ sub : Submission, sub.toRequest.StopsFirst eos := fun sub =>
    .empty rfl rfl rfl (by simp [Submission.toRequest, Request.new])
  refine ⟨fun sub hsub => ⟨hqueued sub, _, (hlast.pending sub hsub).1, rfl, rfl⟩,
    fun r hr => hstops r (hlast.stored r hr), fun o ho => ?_, fun now => ?_,
    fun r => r.checkStop_reasons eos⟩
  · obtain ⟨r, now, hr, hstop⟩ := hlast.answered o ho
    exact ⟨r, now, hr, hstops r hstop⟩
  · obtain ⟨hfirst, hsecond, hthird, -⟩ := hlast.stages hlisted (by rw [hmodel]) now
    exact ⟨fun r hr => hstops r (hfirst r hr), fun r hr => hstops r (hsecond r hr),
      fun r hr => hstops r (hthird r hr)⟩

/-- A request that runs into the second of its stop sequences, of which the first is empty. -/
theorem stops_first_at_a_sequence :
    let sampling := { SamplingConfig.greedy 3 with stopSequences := [[], [5, 6]] }
    let g : GenerationRequest := { prompt := [3, 4], sampling := sampling }
    ∃ e, Engine.new .counting {} Stream.ofSeed = .ok e ∧
      let s := Session.run { engine := e } [.submit g 0, .step 0, .step 1]
      s.outputs.map (fun o => (o.output, o.finishReason)) = [([5, 6], some .stopSequence)] ∧
      ∀ o ∈ s.outputs, ∃ r now, o = .ofRequest r now ∧ r.StopsFirst none := by
  intro sampling g
  have hnew : ∃ e, Engine.new .counting {} Stream.ofSeed = .ok e := ⟨_, rfl⟩
  obtain ⟨e, he⟩ := hnew
  obtain ⟨-, -, hanswered, -⟩ := stops_first he [.submit g 0, .step 0, .step 1]
  refine ⟨e, he, ?_, fun o ho => ?_⟩
  · cases he
    decide +kernel
  · obtain ⟨r, now, hr, hstops, -⟩ := hanswered o ho
    exact ⟨r, now, hr, hstops⟩

end Session

end CausalServe
