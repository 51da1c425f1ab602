import CausalServe.Proofs.Engine.Enlistment

/-! The figures that ticks report, summed up over a session with any model. They are held against a
ledger with one entry for everybody who was accepted, which tells the tokens of that request so far:
some were answered, some wait to be taken up, the others are stored. Entries move from one part of
the ledger to the next, and a tick reports just the tokens that it adds to them. -/

namespace CausalServe

/-! ## The ledger -/

abbrev LedgerEntry := RequestId × List Token

def Request.account (r : Request) : LedgerEntry := (r.id, r.output.toList)

def GenerationOutput.account (o : GenerationOutput) : LedgerEntry := (o.requestId, o.output)

def Submission.account (s : Submission) : LedgerEntry := (s.id, [])

/-- Figures that agree with a ledger: who is in it, how many tokens there are, and who has any. -/
structure Tallied (ids : List RequestId) (generated : Nat) (firsts : List RequestId)
    (ledger : List LedgerEntry) : Prop where
  everyone : (ledger.map Prod.fst).Perm ids
  generated : total (fun entry => entry.2.length) ledger = generated
  firsts : ((ledger.filter fun entry => !entry.2.isEmpty).map Prod.fst).Perm firsts

namespace Tallied

variable {ids firsts : List RequestId} {generated : Nat} {ledger ledger' : List LedgerEntry}

theorem empty : Tallied [] 0 [] [] := ⟨.refl _, rfl, .refl _⟩

theorem perm (h : Tallied ids generated firsts ledger) (hp : ledger'.Perm ledger) :
    Tallied ids generated firsts ledger' where
  everyone := (hp.map _).trans h.everyone
  generated := (total_perm _ hp).trans h.generated
  firsts := ((hp.filter _).map _).trans h.firsts

/-- Who comes in has no token. -/
theorem enter (h : Tallied ids generated firsts ledger) (id : RequestId) :
    Tallied (ids ++ [id]) generated firsts ((id, []) :: ledger) where
  everyone := (h.everyone.cons id).trans (List.perm_append_singleton id ids).symm
  generated := by simpa [total] using h.generated
  firsts := by simpa using h.firsts

/-- A token more, or none. It is a first one where there was none before. -/
theorem extend {id : RequestId} {tokens : List Token}
    (h : Tallied ids generated firsts ((id, tokens) :: ledger)) (token : Option Token) :
    Tallied ids (generated + token.toList.length)
      (if token.isSome && tokens.isEmpty then firsts ++ [id] else firsts)
      ((id, tokens ++ token.toList) :: ledger) where
  everyone := h.everyone
  generated := by
    have := h.generated
    simp only [total, List.length_append] at this ⊢
    omega
  firsts := by
    have hfirsts := h.firsts
    cases token with
    | none => simpa using hfirsts
    | some token =>
      cases tokens with
      | nil =>
        rw [List.filter_cons_of_neg (by simp)] at hfirsts
        simpa using (hfirsts.cons id).trans (List.perm_append_singleton id firsts).symm
      | cons first rest => simpa using hfirsts

/-- An id has one entry. -/
theorem nodup (h : Tallied ids generated firsts ledger) (hids : ids.Nodup) :
    (ledger.map Prod.fst).Nodup := h.everyone.nodup_iff.mpr hids

theorem firsts_nodup (h : Tallied ids generated firsts ledger) (hids : ids.Nodup) :
    firsts.Nodup :=
  h.firsts.nodup_iff.mp ((h.nodup hids).sublist (List.filter_sublist.map _))

theorem mem_firsts (h : Tallied ids generated firsts ledger) (id : RequestId) :
    id ∈ firsts ↔ ∃ entry ∈ ledger, entry.1 = id ∧ entry.2 ≠ [] := by
  rw [← h.firsts.mem_iff]
  simp only [List.mem_map, List.mem_filter]
  constructor
  · rintro ⟨entry, ⟨hmem, hne⟩, hid⟩
    exact ⟨entry, hmem, hid, by simpa using hne⟩
  · rintro ⟨entry, hmem, hid, hne⟩
    exact ⟨entry, ⟨hmem, by simpa using hne⟩, hid⟩

end Tallied

namespace Scheduler

variable {s : Scheduler} {r later : Request}

def others (s : Scheduler) (id : RequestId) : List Request := s.requests.filter fun r => r.id ≠ id

theorem others_eq {before behind : List Request} (hsplit : s.requests = before ++ r :: behind)
    (hne : ∀ x ∈ before ++ behind, x.id ≠ r.id) : s.others r.id = before ++ behind := by
  rw [others, hsplit, List.filter_append, List.filter_cons_of_neg (by simp), ← List.filter_append]
  exact List.filter_eq_self.mpr fun x hx => by simpa using hne x hx

/-- A request is stored beside the others, whatever takes its place. -/
theorem DistinctIds.update_perm (h : s.DistinctIds) (hr : r ∈ s.requests) (hid : later.id = r.id) :
    (s.update later).requests.Perm (later :: s.others r.id) := by
  obtain ⟨before, behind, hsplit⟩ := List.append_of_mem hr
  have hne : ∀ x ∈ before ++ behind, x.id ≠ r.id := by
    have hids : (r.id :: (before ++ behind).map Request.id).Nodup := by
      rw [List.map_append, ← List.nodup_middle, ← List.map_cons, ← List.map_append, ← hsplit]
      exact h
    exact fun x hx he => (List.nodup_cons.mp hids).1 (he ▸ List.mem_map_of_mem hx)
  have hsame : ∀ xs : List Request, (∀ x ∈ xs, x.id ≠ r.id) →
      xs.map (fun old => if old.id = later.id then later else old) = xs := fun xs hxs => by
    conv_rhs => rw [← List.map_id xs]
    exact List.map_congr_left fun x hx => if_neg (hid ▸ hxs x hx)
  have hupdate : (s.update later).requests = before ++ later :: behind := by
    rw [Scheduler.update, hsplit, List.map_append, List.map_cons, if_pos hid.symm,
      hsame _ fun x hx => hne x (List.mem_append_left _ hx),
      hsame _ fun x hx => hne x (List.mem_append_right _ hx)]
  rw [others_eq hsplit hne, hupdate]
  exact List.perm_middle

theorem DistinctIds.requests_perm (h : s.DistinctIds) (hr : r ∈ s.requests) :
    s.requests.Perm (r :: s.others r.id) := by
  have hperm := h.update_perm hr rfl
  rwa [h.update_self hr] at hperm

theorem requests_removeRequest (h : s.request? r.id = some r) :
    (s.removeRequest r.id).2.requests = s.others r.id := by
  rw [removeRequest_of_some h, release_eq]
  rfl

/-- A tick of the scheduler gives nobody a token, and takes none. -/
theorem Lined.tick_accounts (h : s.Lined) (now : Nat) :
    (s.tick now).scheduler.requests.map Request.account = s.requests.map Request.account := by
  have hids := h.tick_ids now
  have hlength : (s.tick now).scheduler.requests.length = s.requests.length := by
    simpa using congrArg List.length hids
  refine List.ext_getElem (by simpa using hlength) fun i hi hi' => ?_
  rw [List.getElem_map, List.getElem_map]
  rw [List.length_map] at hi hi'
  obtain ⟨r, hr, hid, hfate⟩ := h.tick_requests now _ (List.getElem_mem hi)
  have hplace : (s.tick now).scheduler.requests[i].id = s.requests[i].id := by
    have := congrArg (fun ids => ids[i]?) hids
    simpa [hi, hi'] using this
  obtain rfl := h.enrolled.ids.eq hr (List.getElem_mem hi') (hid.symm.trans hplace)
  rcases hfate with ⟨hcarries, -⟩ | ⟨-, -, hexpired⟩
  · rw [Request.account, hid, hcarries.output]
    rfl
  · rw [hexpired]
    rfl

/-- Whoever is live waits or runs. -/
theorem Enrolled.census (h : s.Enrolled) (hlive : ∀ r ∈ s.requests, r.state.isTerminal = false) :
    s.numWaiting + s.numRunning = s.requests.length := by
  have hwaiting : (s.waiting.map QueueEntry.request).Perm
      ((s.requests.filter fun r => r.state = .queued).map Request.id) := by
    rw [List.perm_ext_iff_of_nodup h.waiting_nodup (h.ids.sublist (List.filter_sublist.map _))]
    intro id
    rw [h.waiting_iff]
    simp [and_assoc, and_comm]
  have hrunning : s.running.Perm ((s.requests.filter fun r => r.state.isRunning).map Request.id) := by
    rw [List.perm_ext_iff_of_nodup h.running_nodup (h.ids.sublist (List.filter_sublist.map _))]
    intro id
    rw [h.running_iff]
    simp [and_left_comm, and_comm]
  -- a live request that does not wait runs
  have hrest : (s.requests.filter fun r => !decide (r.state = .queued)) =
      s.requests.filter fun r => r.state.isRunning := List.filter_congr fun r hr => by
    have := hlive r hr
    cases hs : r.state <;> simp_all [RequestState.isTerminal, RequestState.isRunning]
  have hsplit := List.length_eq_length_filter_add (l := s.requests)
    fun r => decide (r.state = .queued)
  have hwait := hwaiting.length_eq
  have hrun := hrunning.length_eq
  simp only [List.length_map] at hwait hrun
  rw [hrest] at hsplit
  rw [numWaiting, numRunning, hwait, hrun, hsplit]

end Scheduler

/-! ## A tick -/

namespace Engine

/-- Everybody who was accepted: those that were answered, those that wait to be taken up, and those
that are stored. -/
def ledger (outs : List GenerationOutput) (todo : List Submission) (e : Engine) :
    List LedgerEntry :=
  outs.map GenerationOutput.account ++
    (todo.map Submission.account ++ e.scheduler.requests.map Request.account)

variable {ids firsts : List RequestId} {generated : Nat} {outs : List GenerationOutput}
  {todo : List Submission} {ended : List RequestId} {e : Engine}

theorem tallied_takeUp {s : Submission} {rest : List Submission}
    (h : Tallied ids generated firsts (e.ledger outs (s :: rest)))
    (hlisted : Enlisted (s :: rest) [] e) (now : Nat) :
    Tallied ids generated firsts (((Engine.takeUp now s).run e).2.ledger
      (outs ++ ((Engine.takeUp now s).run e).1.toList) rest) := by
  refine h.perm ?_
  rcases takeUp_cases e now hlisted.unknown with ⟨fault, -, hrun⟩ | ⟨-, hrun⟩ <;> rw [hrun]
  · have hrefused : (GenerationOutput.ofRequest (s.toRequest.failedBy fault) now).account =
        s.account := rfl
    simp [ledger, hrefused]
  · have harrived : (e.scheduler.arrived s.toRequest).requests.map Request.account =
        e.scheduler.requests.map Request.account ++ [s.account] := by
      rw [Scheduler.arrived, Scheduler.enqueue, List.map_append]
      rfl
    simp only [ledger, harrived, Option.toList_none, List.append_nil, List.map_cons,
      List.cons_append]
    refine List.Perm.append_left _ ?_
    rw [← List.append_assoc]
    exact List.perm_append_singleton _ _

theorem tallied_drained (h : Tallied ids generated firsts (e.ledger outs e.submissions))
    (hlisted : Enlisted e.submissions [] e) (now : Nat) :
    Tallied ids generated firsts
      ((e.drained now).2.ledger (outs ++ (e.drained now).1.filterMap id) []) := by
  obtain ⟨-, -, hkept⟩ := hlisted.drained_keep now
    (fun new rest x => Tallied ids generated firsts (x.ledger (outs ++ new) rest))
    (by rw [List.append_nil]; exact h) fun s rest new x _ _ hx hp => by
      rw [← List.append_assoc]
      exact tallied_takeUp hp hx now
  exact hkept

theorem ledger_accepted (e : Engine) (outs : List GenerationOutput) (g : GenerationRequest)
    (now : Nat) : ((e.accepted g now).ledger outs (e.accepted g now).submissions).Perm
      ((e.nextId, []) :: e.ledger outs e.submissions) := by
  have hsubmitted : (e.accepted g now).submissions.map Submission.account =
      e.submissions.map Submission.account ++ [(e.nextId, [])] := by
    rw [accepted, List.map_append]
    rfl
  rw [ledger, hsubmitted, List.append_assoc, List.singleton_append, ledger, ← List.append_assoc,
    ← List.append_assoc]
  exact List.perm_middle

theorem ledger_cancel (hids : e.scheduler.DistinctIds) (id : RequestId) :
    (e.cancel id).ledger outs (e.cancel id).submissions = e.ledger outs e.submissions := by
  have hsubmitted : (e.cancel id).submissions.map Submission.account =
      e.submissions.map Submission.account := by
    simp only [cancel, List.map_map]
    refine List.map_congr_left fun s _ => ?_
    simp only [Function.comp_apply]
    split <;> rfl
  have hstored : (e.cancel id).scheduler.requests.map Request.account =
      e.scheduler.requests.map Request.account := by
    change (Action.exec (Scheduler.cancel id) e.scheduler).2.requests.map Request.account = _
    rw [Scheduler.exec_cancel]
    split
    next r hr => exact hids.map_update _ (Scheduler.mem_of_request? hr).1 rfl rfl
    next => rfl
  rw [ledger, hsubmitted, hstored, ledger]

theorem ledger_planned (hlisted : Enlisted [] [] e) (now : Nat) :
    (e.planned now).ledger outs [] = e.ledger outs [] := by
  have hsame : (e.planned now).scheduler.requests.map Request.account =
      e.scheduler.requests.map Request.account := hlisted.lined.tick_accounts now
  rw [ledger, hsame, ledger]

section Turn

variable {start e' : Engine} {result result' : BatchResult} {r : Request}
  {sampled : Except Error Token}

/-- A turn moves one entry on, by the token that was sampled. -/
theorem ledger_turn (outs : List GenerationOutput) (hids : e.scheduler.DistinctIds)
    (ht : Turn start e result r sampled result' e') :
    ∃ rest, (e.ledger outs []).Perm (r.account :: rest) ∧
      (e'.ledger outs []).Perm ((r.id, r.output.toList ++ sampled.toOption.toList) :: rest) := by
  obtain ⟨samplers, -, rfl⟩ := ht.engine
  have hstored : (r.settled e.model.config.eosToken sampled).account =
      (r.id, r.output.toList ++ sampled.toOption.toList) := by
    rw [Request.account, Request.settled_id, Request.settled_output]
  have hid := Request.settled_id r e.model.config.eosToken sampled
  generalize r.settled e.model.config.eosToken sampled = later at hstored hid
  refine ⟨outs.map GenerationOutput.account ++ (e.scheduler.others r.id).map Request.account,
    ?_, ?_⟩
  · exact (((hids.requests_perm ht.stored).map Request.account).append_left _).trans
      List.perm_middle
  · obtain ⟨slot, hform⟩ := Scheduler.settledForm_eq later
    have hperm : (e.scheduler.update { later with slot := slot }).requests.Perm
        ({ later with slot := slot } :: e.scheduler.others r.id) := hids.update_perm ht.stored hid
    rw [← hstored, ledger, Scheduler.settle_requests, hform]
    exact ((hperm.map Request.account).append_left _).trans List.perm_middle

/-- What a turn counts is the token that was sampled, if there is one. -/
theorem tallied_turn
    (h : Tallied ids (generated + result.generated) (firsts ++ result.firstTokens)
      (e.ledger outs []))
    (hids : e.scheduler.DistinctIds) (ht : Turn start e result r sampled result' e') :
    Tallied ids (generated + result'.generated) (firsts ++ result'.firstTokens)
      (e'.ledger outs []) := by
  obtain ⟨rest, hbefore, hafter⟩ := ledger_turn outs hids ht
  have hextended := ((h.perm hbefore.symm).extend sampled.toOption).perm hafter
  have hcount : sampled.toOption.toList.length = sampled.isOk.toNat := by cases sampled <;> rfl
  have hsome : sampled.toOption.isSome = sampled.isOk := by cases sampled <;> rfl
  have hempty : r.output.toList.isEmpty = r.output.isEmpty := Array.isEmpty_toList
  rw [hcount, hsome, hempty, Nat.add_assoc, ← ht.generated] at hextended
  rw [ht.firstTokens]
  split at hextended
  next hfirst => rwa [if_pos hfirst, ← List.append_assoc]
  next hfirst => rwa [if_neg hfirst]

end Turn

theorem tallied_ran (h : Tallied ids generated firsts (e.ledger outs []))
    (hlisted : Enlisted [] ended e) :
    Tallied ids (generated + (e.ran e.scheduler.running).1.generated)
      (firsts ++ (e.ran e.scheduler.running).1.firstTokens)
      ((e.ran e.scheduler.running).2.ledger outs []) := by
  obtain ⟨-, -, hkept⟩ := hlisted.ran_keep
    (fun result x => Tallied ids (generated + result.generated) (firsts ++ result.firstTokens)
      (x.ledger outs []))
    (by rw [List.append_nil]; exact h)
    fun _ _ _ _ _ _ _ _ hturning ht hp => tallied_turn hp hturning.enlisted.ids ht
  exact hkept

theorem tallied_closed (h : Tallied ids generated firsts (e.ledger outs []))
    (hlisted : Enlisted [] ended e) (now : Nat) : Tallied ids generated firsts
      ((e.closed now ended).2.ledger (outs ++ (e.closed now ended).1.filterMap id) []) := by
  obtain ⟨-, -, hkept⟩ := hlisted.closed_keep now
    (fun outs _ x => Tallied ids generated firsts (x.ledger outs [])) outs h
    fun id rest outs x hx hp => by
      obtain ⟨r, hr, rfl, -⟩ := hx.reported.stored id (by simp)
      have hfound := hx.ids.request? hr
      rw [run_finish hfound]
      refine hp.perm ?_
      have hmoved : (GenerationOutput.ofRequest { r with slot := none } now).account =
          r.account := rfl
      have hrest : (x.scheduler.removeRequest r.id).2.requests = x.scheduler.others r.id :=
        Scheduler.requests_removeRequest hfound
      simp only [ledger, hrest, Option.toList_some, List.map_append, List.map_singleton, hmoved,
        List.append_assoc]
      exact ((hx.ids.requests_perm hr).map Request.account).symm.append_left _
  exact hkept

theorem ledger_feeds (feeds : Table Feed) :
    ({ e with feeds := feeds } : Engine).ledger outs todo = e.ledger outs todo := rfl

/-- A tick keeps the ledger, and reports what it adds to it. -/
theorem tallied_step (h : Tallied ids generated firsts (e.ledger outs e.submissions))
    (hlisted : Enlisted e.submissions [] e) (now : Nat) :
    Tallied ids (generated + ((Engine.step now).run e).1.metrics.generated)
      (firsts ++ ((Engine.step now).run e).1.metrics.firstTokens)
      (((Engine.step now).run e).2.ledger (outs ++ ((Engine.step now).run e).1.finished)
        ((Engine.step now).run e).2.submissions) := by
  obtain ⟨hdrained, hplanned, hran, feeds, -, -, hfinished, hlast, hmeasured⟩ :=
    hlisted.stages now
  have hnone := (hlisted.step now).2.1
  have hfirst := tallied_drained h hlisted now
  rw [← ledger_planned hdrained now] at hfirst
  have hsecond := tallied_ran hfirst hplanned
  rw [← ledger_feeds feeds] at hsecond
  have hclosed := tallied_closed hsecond (hran.withFeeds feeds) now
  rw [hnone, hmeasured.generated, hmeasured.firstTokens, hfinished, hlast, ← List.append_assoc]
  exact hclosed

end Engine

/-! ## A session -/

/-- Who is in one of several lists at most is in just one, or in none. -/
theorem countP_mem_of_nodup {α : Type} (f : α → List RequestId) {xs : List α}
    (h : (xs.flatMap f).Nodup) (id : RequestId) :
    (xs.countP fun x => id ∈ f x) ≤ 1 ∧
      ((xs.countP fun x => id ∈ f x) = 1 ↔ id ∈ xs.flatMap f) := by
  induction xs with
  | nil => simp
  | cons x rest ih =>
    rw [List.flatMap_cons, List.nodup_append] at h
    obtain ⟨-, hrest, hdisjoint⟩ := h
    obtain ⟨hle, hone⟩ := ih hrest
    rw [List.countP_cons, List.flatMap_cons, List.mem_append]
    by_cases hx : id ∈ f x
    · have hnot : id ∉ rest.flatMap f := fun hmem => hdisjoint id hx id hmem rfl
      have hzero : (rest.countP fun x => id ∈ f x) = 0 := by
        have := mt hone.mp hnot
        omega
      simp [hx, hzero]
    · simp [hx, hle, hone]

namespace Session

variable {s : Session}

def live (s : Session) : List Request :=
  s.engine.scheduler.requests.filter fun r => !r.state.isTerminal

def HasProduced (s : Session) (id : RequestId) : Prop :=
  (∃ o ∈ s.outputs, o.requestId = id ∧ o.output ≠ []) ∨
    ∃ r ∈ s.live, r.id = id ∧ r.output ≠ #[]

theorem ticks_step (s : Session) (now : Nat) :
    (s.after (.step now)).ticks = s.ticks ++ [((Engine.step now).run s.engine).1] := rfl

structure Counted (s : Session) : Prop where
  enlisted : Engine.Enlisted s.engine.submissions [] s.engine
  fresh : ∀ id ∈ s.accepted, id < s.engine.nextId
  nodup : s.accepted.Nodup
  tallied : Tallied s.accepted (total (fun out => out.metrics.generated) s.ticks)
    (s.ticks.flatMap fun out => out.metrics.firstTokens)
    (s.engine.ledger s.outputs s.engine.submissions)
  finished : total (fun out => out.metrics.numFinished) s.ticks = s.outputs.length

theorem Counted.new {model : LanguageModel} {config : EngineConfig} {entropy : RequestId → Stream}
    {e : Engine} (hnew : Engine.new model config entropy = .ok e) : Counted { engine := e } where
  enlisted := .new hnew
  fresh := by simp [accepted]
  nodup := List.nodup_nil
  tallied := by
    rw [Engine.new_eq hnew]
    exact .empty
  finished := rfl

theorem Counted.accept (h : s.Counted) (g : GenerationRequest) (now : Nat) :
    Counted { s with
      engine := s.engine.accepted g now
      callers := s.callers ++ [{ handle := { id := s.engine.nextId } }] } := by
  refine ⟨h.enlisted.accepted g now, ?_, ?_, ?_, h.finished⟩ <;> rw [accepted_submit]
  · intro id hid
    rcases List.mem_append.mp hid with hid | hid
    · exact Nat.lt_succ_of_lt (h.fresh id hid)
    · rw [List.mem_singleton.mp hid]
      exact Nat.lt_succ_self _
  · refine List.nodup_append.mpr ⟨h.nodup, List.nodup_singleton _, fun id hid other hother he => ?_⟩
    rw [List.mem_singleton.mp hother] at he
    exact Nat.lt_irrefl _ (he ▸ h.fresh id hid)
  · exact (h.tallied.enter s.engine.nextId).perm (s.engine.ledger_accepted s.outputs g now)

theorem Counted.cancel (h : s.Counted) (id : RequestId) :
    Counted { s with engine := s.engine.cancel id } where
  enlisted := h.enlisted.cancelled id
  fresh := h.fresh
  nodup := h.nodup
  tallied := by
    rw [Engine.ledger_cancel h.enlisted.ids]
    exact h.tallied
  finished := h.finished

/-- A tick reports as many outputs as it returns. -/
theorem Counted.step (h : s.Counted) (now : Nat) : (s.after (.step now)).Counted := by
  obtain ⟨-, -, -, feeds, -, hstill, -, hlast, hmeasured⟩ := h.enlisted.stages now
  have hnext : ((Engine.step now).run s.engine).2.nextId = s.engine.nextId := by
    rw [hlast]
    exact hstill.nextId
  exact {
    enlisted := (h.enlisted.step now).1
    fresh := by
      rw [engine_step, hnext]
      exact h.fresh
    nodup := h.nodup
    tallied := by
      rw [ticks_step, total_append, List.flatMap_append, outputs_step]
      simpa [total] using Engine.tallied_step h.tallied h.enlisted now
    finished := by
      rw [ticks_step, total_append, outputs_step, List.length_append, h.finished]
      simpa [total] using hmeasured.numFinished }

theorem Counted.after (h : s.Counted) (event : Event) : (s.after event).Counted := by
  rcases s.after_cases event with he | ⟨g, now, -, he⟩ | ⟨id, he⟩ | ⟨now, rfl⟩ | ⟨place, rfl⟩
  · rwa [he]
  · rw [he]
    exact h.accept g now
  · rw [he]
    exact h.cancel id
  · exact h.step now
  · exact {
      enlisted := h.enlisted
      fresh := by rw [accepted_poll]; exact h.fresh
      nodup := by rw [accepted_poll]; exact h.nodup
      tallied := by rw [accepted_poll]; exact h.tallied
      finished := h.finished }

theorem counted_run {model : LanguageModel} {config : EngineConfig} {entropy : RequestId → Stream}
    {e : Engine} (hnew : Engine.new model config entropy = .ok e) (events : List Event) :
    (Session.run { engine := e } events).Counted :=
  run_keep Counted (fun _ event h => h.after event) (.new hnew) events

theorem Counted.live_eq (h : s.Counted) : s.live = s.engine.scheduler.requests :=
  List.filter_eq_self.mpr fun r hr => by rw [h.enlisted.live r hr]; rfl

/-- Who waits or runs was accepted and is not answered. -/
theorem Counted.census (h : s.Counted) (hdrained : s.engine.submissions = []) :
    s.engine.scheduler.numWaiting + s.engine.scheduler.numRunning + s.outputs.length =
      s.accepted.length := by
  have hstored := h.enlisted.lined.enrolled.census h.enlisted.live
  have heveryone := h.tallied.everyone.length_eq
  simp only [Engine.ledger, hdrained, List.length_map, List.length_append, List.length_nil]
    at heveryone
  omega

theorem Counted.generated_eq (h : s.Counted) :
    total (fun out => out.metrics.generated) s.ticks =
      total (fun o => o.output.length) s.outputs + total (fun r => r.output.size) s.live := by
  have hnone : total (fun entry : LedgerEntry => entry.2.length)
      (s.engine.submissions.map Submission.account) = 0 := total_eq_zero fun entry hentry => by
    obtain ⟨sub, -, rfl⟩ := List.mem_map.mp hentry
    rfl
  rw [← h.tallied.generated, Engine.ledger, total_append, total_append, hnone, Nat.zero_add,
    total_map, total_map, h.live_eq]
  rfl

theorem Counted.mem_firsts_iff (h : s.Counted) (id : RequestId) :
    (id ∈ s.ticks.flatMap fun out => out.metrics.firstTokens) ↔ s.HasProduced id := by
  rw [h.tallied.mem_firsts, HasProduced, h.live_eq]
  constructor
  · rintro ⟨entry, hentry, rfl, hne⟩
    rcases List.mem_append.mp hentry with houtput | hentry
    · obtain ⟨o, ho, rfl⟩ := List.mem_map.mp houtput
      exact .inl ⟨o, ho, rfl, hne⟩
    rcases List.mem_append.mp hentry with hwaiting | hstored
    · obtain ⟨sub, -, rfl⟩ := List.mem_map.mp hwaiting
      exact absurd rfl hne
    · obtain ⟨r, hr, rfl⟩ := List.mem_map.mp hstored
      exact .inr ⟨r, hr, rfl, fun hempty => hne (by rw [Request.account, hempty])⟩
  · rintro (⟨o, ho, rfl, hne⟩ | ⟨r, hr, rfl, hne⟩)
    · exact ⟨o.account, List.mem_append_left _ (List.mem_map_of_mem ho), rfl, hne⟩
    · exact ⟨r.account, List.mem_append_right _ (List.mem_append_right _ (List.mem_map_of_mem hr)),
        rfl, fun hempty => hne (Array.toList_eq_nil_iff.mp hempty)⟩

/-- The figures of the ticks add up, with any model and in the course of any events. After a tick,
whoever waits or runs was accepted and is not answered. The tokens that were counted are those of
the answers and of the live requests. As many ends were counted as there are answers. Nobody is
named for a first token twice, and named are those that have any, however often they were sent back
to the queue. -/
theorem counters_add_up {model : LanguageModel} {config : EngineConfig}
    {entropy : RequestId → Stream} {e : Engine} (hnew : Engine.new model config entropy = .ok e) (events : List Event) :
    let s := Session.run { engine := e } events
    let namings (id : RequestId) := s.ticks.countP fun out => id ∈ out.metrics.firstTokens
    (∀ now, let metrics := ((Engine.step now).run s.engine).1.metrics
      metrics.queueDepth + metrics.numRunning + (s.after (.step now)).outputs.length =
        (s.after (.step now)).accepted.length) ∧
    total (fun out => out.metrics.generated) s.ticks =
      total (fun o => o.output.length) s.outputs + total (fun r => r.output.size) s.live ∧
    total (fun out => out.metrics.numFinished) s.ticks = s.outputs.length ∧
    (∀ out ∈ s.ticks, out.metrics.firstTokens.Nodup) ∧
    ∀ id, namings id ≤ 1 ∧ (namings id = 1 ↔ s.HasProduced id) := by
  intro s namings
  have h : s.Counted := counted_run hnew events
  have hfirsts := h.tallied.firsts_nodup h.nodup
  refine ⟨fun now => ?_, h.generated_eq, h.finished,
    fun out hout => (List.nodup_flatMap.mp hfirsts).1 out hout, fun id => ?_⟩
  · obtain ⟨-, -, -, feeds, -, -, -, -, hmeasured⟩ := h.enlisted.stages now
    have hdrained : (s.after (.step now)).engine.submissions = [] := (h.enlisted.step now).2.1
    have hcensus := (h.step now).census hdrained
    rw [engine_step] at hdrained hcensus
    intro metrics
    rw [hmeasured.queueDepth, hmeasured.numRunning, hdrained, List.length_nil, Nat.add_zero]
    exact hcensus
  · obtain ⟨hle, hone⟩ := countP_mem_of_nodup _ hfirsts id
    exact ⟨hle, hone.trans (h.mem_firsts_iff id)⟩

/-- Two requests under a budget for one of them. The second is sent back to the queue with two
tokens, and feeds them again in the last tick, which does not name it again. -/
theorem counted_across_a_preemption :
    let config : EngineConfig := { cache :=
      { blockSize := 1, memoryBudget := some 64, pressurePolicy := .preemptLeastRecent } }
    let events : List Event := [.submit { prompt := [5], sampling := .greedy 3 } 0,
      .submit { prompt := [4], sampling := .greedy 3 } 0, .step 0, .step 1, .step 2, .step 3]
    ∃ e, Engine.new .counting config Stream.ofSeed = .ok e ∧
      let s := Session.run { engine := e } events
      s.ticks.map (fun out => (out.metrics.generated, out.metrics.numPreempted)) =
        [(2, 0), (2, 0), (1, 1), (1, 0)] ∧
      s.live.length = 0 ∧ s.HasProduced 2 ∧
      ∀ id, (s.ticks.countP fun out => id ∈ out.metrics.firstTokens) ≤ 1 := by
  intro config events
  have hnew : ∃ e, Engine.new .counting config Stream.ofSeed = .ok e := ⟨_, rfl⟩
  obtain ⟨e, he⟩ := hnew
  obtain ⟨-, -, -, -, hnamed⟩ := counters_add_up he events
  refine ⟨e, he, ?_, ?_, (hnamed 2).2.mp ?_, fun id => (hnamed id).1⟩
  all_goals cases he; decide +kernel

end Session

end CausalServe
