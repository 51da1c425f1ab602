import CausalServe.Proofs.Engine.Completion

/-! A feed follows its request. It is written at the end of every tick in which its request changed,
the last time when the request ends, and it is only ever appended to. So whoever polls a handle gets
every token once, in order, whatever happens to the request. -/

namespace CausalServe

/-! ## Feeds -/

/-- A feed that may come to show what another shows: it has no token that the other has not, and if
it tells of an end, that is all there is to tell. -/
structure Feed.Leads (f g : Feed) : Prop where
  tokens : f.tokens.toList <+: g.tokens.toList
  final : f.state.isTerminal = true → g = f

namespace Feed

theorem Leads.refl (f : Feed) : f.Leads f := ⟨List.prefix_refl _, fun _ => rfl⟩

theorem Leads.trans {f g h : Feed} (hfg : f.Leads g) (hgh : g.Leads h) : f.Leads h where
  tokens := hfg.tokens.trans hgh.tokens
  final := by
    intro hend
    have hsame := hfg.final hend
    rw [hsame] at hgh
    exact hgh.final hend

theorem leads_of_new (g : Feed) : ({} : Feed).Leads g := ⟨List.nil_prefix, nofun⟩

/-- What a feed lacks of its request is written, and no token twice. -/
theorem Leads.write {f : Feed} {r : Request} (h : f.Leads r.shown) : f.write r = r.shown := by
  obtain ⟨rest, hrest⟩ := h.tokens
  have htokens : f.tokens ++ r.output.drop f.tokens.size = r.output := by
    change f.tokens.toList ++ rest = r.output.toList at hrest
    have hsize : r.output.size = f.tokens.size + rest.length := by
      simpa using (congrArg List.length hrest).symm
    refine Array.toList_inj.mp ?_
    rw [Array.toList_append, Array.drop_eq_extract, Array.toList_extract, ← hrest]
    simp [hsize]
  unfold Feed.write Request.shown
  rw [htokens]

end Feed

namespace Engine

def FeedsLead (e e' : Engine) : Prop := ∀ id, (e.feed id).Leads (e'.feed id)

theorem FeedsLead.of_eq {e e' : Engine} (h : ∀ id, e'.feed id = e.feed id) : FeedsLead e e' := by
  intro id
  rw [h id]
  exact .refl _

theorem FeedsLead.trans {a b c : Engine} (h : FeedsLead a b) (h' : FeedsLead b c) :
    FeedsLead a c := fun id => (h id).trans (h' id)

theorem feed_modify {e : Engine} {id : RequestId} (hid : id ∈ e.feeds.keys) (f : Feed → Feed)
    (other : RequestId) : ({ e with feeds := e.feeds.modify id f } : Engine).feed other =
      if other = id then f (e.feed id) else e.feed other := by
  show ((e.feeds.modify id f).get? other).getD {} = _
  rw [Table.get?_modify]
  split
  next heq =>
    rw [heq]
    obtain ⟨g, hg⟩ := Option.isSome_iff_exists.mp (Table.get?_isSome.mpr hid)
    simp [feed, hg]
  next => rfl

end Engine

/-- A turn appends to what its request has generated. -/
theorem Request.output_settled (r : Request) (eos : Option Token) (sampled : Except Error Token) :
    r.output.toList <+: (r.settled eos sampled).output.toList := by
  rw [settled_output]
  exact List.prefix_append _ _

namespace Round

/-- A request that a plan has not reported, sent back or batched shows what it showed before. -/
theorem Move.shown {now : Nat} {start a b : Round} (hm : Move now a b)
    (h : ∀ x ∈ a.scheduler.requests, x.id ∈ a.retired ∨ x.id ∈ a.preempted ∨
      x.state.isRunning = true ∨ ∃ r ∈ start.scheduler.requests, r.id = x.id ∧ r.shown = x.shown) :
    ∀ x ∈ b.scheduler.requests, x.id ∈ b.retired ∨ x.id ∈ b.preempted ∨
      x.state.isRunning = true ∨
      ∃ r ∈ start.scheduler.requests, r.id = x.id ∧ r.shown = x.shown := by
  intro x hx
  cases hm with
  | @fit r cut hr hq hfit =>
    rcases Scheduler.mem_update.mp hx with ⟨rfl, -⟩ | ⟨hx, -⟩
    · rw [Scheduler.fitPrompt_kept hfit]
      exact h r hr
    · exact h x hx
  | @retire r ended hr hlive hcause =>
    rcases Scheduler.mem_update.mp hx with ⟨rfl, -⟩ | ⟨hx, -⟩
    · exact .inl (List.mem_append_right _ (List.mem_singleton_self _))
    · exact (h x hx).imp_left fun hret => List.mem_append_left _ hret
  | @enter r entry rest cache hr hq =>
    rcases Scheduler.mem_update.mp hx with ⟨rfl, -⟩ | ⟨hx, -⟩
    · exact .inr (.inr (.inl rfl))
    · exact h x hx
  | reserve => exact h x hx
  | @preempt r hr hrun =>
    rcases Scheduler.mem_update.mp hx with ⟨rfl, -⟩ | ⟨hx, -⟩
    · exact .inr (.inl (List.mem_append_right _ (List.mem_singleton_self _)))
    · exact (h x hx).imp_right (Or.imp_left fun hpre => List.mem_append_left _ hpre)

theorem Moves.shown {now : Nat} {a b : Round} (hm : Moves now a b) :
    ∀ x ∈ b.scheduler.requests, x.id ∈ b.retired ∨ x.id ∈ b.preempted ∨
      x.state.isRunning = true ∨
      ∃ r ∈ a.scheduler.requests, r.id = x.id ∧ r.shown = x.shown :=
  hm.keep (P := fun y => ∀ x ∈ y.scheduler.requests, x.id ∈ y.retired ∨ x.id ∈ y.preempted ∨
      x.state.isRunning = true ∨ ∃ r ∈ a.scheduler.requests, r.id = x.id ∧ r.shown = x.shown)
    (fun x hx => .inr (.inr (.inr ⟨x, hx, rfl, rfl⟩))) fun _ _ hmove hp => hmove.shown hp

end Round

namespace Engine

/-- An engine with its feeds, between any two steps. A feed shows its request as it is, or, for the
requests that are still to be published, as it may have been earlier in the tick. -/
structure Streamed (ids : List RequestId) (outs : List GenerationOutput) (todo : List Submission)
    (ended stale : List RequestId) (e : Engine) : Prop where
  audit : Audit ids outs todo ended e
  below : ∀ id ∈ e.feeds.keys, id < e.nextId
  known : ∀ id ∈ todo.map Submission.id ++ e.scheduler.requests.map Request.id, id ∈ e.feeds.keys
  waiting : ∀ s ∈ todo, e.feed s.id = {}
  trails : ∀ r ∈ e.scheduler.requests, (e.feed r.id).Leads r.shown
  current : ∀ r ∈ e.scheduler.requests, r.id ∉ stale → e.feed r.id = r.shown
  told : ∀ o ∈ outs, e.feed o.requestId = o.shown

variable {ids : List RequestId} {outs : List GenerationOutput} {todo : List Submission}
  {ended stale : List RequestId} {e : Engine}

/-- The feed of a request that is still stored has not told of its end, unless it is written. -/
theorem Streamed.open (h : Streamed ids outs todo ended stale e) {r : Request}
    (hr : r ∈ e.scheduler.requests) (hlive : r.state.isTerminal = false) :
    (e.feed r.id).state.isTerminal = false := by
  cases hend : (e.feed r.id).state.isTerminal with
  | false => rfl
  | true =>
    have hsame : r.shown.state = (e.feed r.id).state :=
      congrArg Feed.state ((h.trails r hr).final hend)
    change r.state = _ at hsame
    rw [hsame, hend] at hlive
    cases hlive

/-! ## Between two ticks -/

theorem Streamed.new {model : LanguageModel} {config : EngineConfig} {entropy : RequestId → Stream}
    (h : Engine.new model config entropy = .ok e) : Streamed [] [] e.submissions [] [] e := by
  have haudit := Audit.new h
  rw [new_eq h] at haudit ⊢
  exact {
    audit := haudit
    below := fun id hid => (List.not_mem_nil hid).elim
    known := fun id hid => (List.not_mem_nil hid).elim
    waiting := fun s hs => (List.not_mem_nil hs).elim
    trails := fun r hr => (List.not_mem_nil hr).elim
    current := fun r hr => (List.not_mem_nil hr).elim
    told := fun o ho => (List.not_mem_nil ho).elim }

/-- A new request has a feed of its own, which shows nothing. -/
theorem feed_accepted (e : Engine) (g : GenerationRequest) (now : Nat) (id : RequestId) :
    (e.accepted g now).feed id = e.feed id := by
  show ((e.feeds.insert e.nextId {}).get? id).getD {} = (e.feeds.get? id).getD {}
  rw [Table.get?_insert]
  cases e.feeds.get? id with
  | some f => rfl
  | none =>
    split <;> rfl

theorem Streamed.accepted (h : Streamed ids outs e.submissions [] [] e) {g : GenerationRequest}
    (hvalid : g.validate = .ok ()) (now : Nat) : Streamed (ids ++ [e.nextId]) outs
      (e.accepted g now).submissions [] [] (e.accepted g now) := by
  have hfeed := feed_accepted e g now
  have hkeys : (e.accepted g now).feeds.keys = e.feeds.keys ++ [e.nextId] := Table.keys_insert _ _ _
  have hunknown : e.feed e.nextId = {} := by
    have hnone : e.feeds.get? e.nextId = none := by
      rw [← Option.not_isSome_iff_eq_none, Table.get?_isSome]
      exact fun hid => Nat.lt_irrefl _ (h.below _ hid)
    simp [feed, hnone]
  exact {
    audit := h.audit.accepted hvalid now
    below := by
      intro id hid
      rw [hkeys] at hid
      show id < e.nextId + 1
      rcases List.mem_append.mp hid with hid | hid
      · exact Nat.lt_succ_of_lt (h.below id hid)
      · rw [List.mem_singleton.mp hid]
        exact Nat.lt_succ_self _
    known := by
      intro id hid
      rw [hkeys]
      simp only [Engine.accepted, List.map_append, List.map_cons, List.map_nil, List.mem_append,
        List.mem_singleton] at hid ⊢
      rcases hid with (hid | hid) | hid
      · exact .inl (h.known id (List.mem_append_left _ hid))
      · exact .inr hid
      · exact .inl (h.known id (List.mem_append_right _ hid))
    waiting := by
      intro s hs
      rw [hfeed]
      rcases List.mem_append.mp hs with hs | hs
      · exact h.waiting s hs
      · rw [List.mem_singleton.mp hs]
        exact hunknown
    trails := by
      intro r hr
      rw [hfeed]
      exact h.trails r hr
    current := by
      intro r hr hstale
      rw [hfeed]
      exact h.current r hr hstale
    told := by
      intro o ho
      rw [hfeed]
      exact h.told o ho }

theorem Streamed.cancelled (h : Streamed ids outs e.submissions [] [] e) (id : RequestId) :
    Streamed ids outs (e.cancel id).submissions [] [] (e.cancel id) := by
  obtain ⟨hsub, hreq⟩ := ids_cancel e id
  have hfeed : ∀ other, (e.cancel id).feed other = e.feed other := fun _ => rfl
  exact {
    audit := h.audit.cancelled id
    below := h.below
    known := by rw [hsub, hreq]; exact h.known
    waiting := by
      intro s hs
      obtain ⟨old, hold, he⟩ := mem_submissions_cancel hs
      rw [he]
      exact h.waiting old hold
    trails := by
      intro r hr
      obtain ⟨old, hold, he⟩ := mem_requests_cancel hr
      rw [he]
      exact h.trails old hold
    current := by
      intro r hr
      obtain ⟨old, hold, he⟩ := mem_requests_cancel hr
      rw [he]
      exact h.current old hold
    told := h.told }

/-! ## Taking up submissions -/

/-- The feed of a submission that is refused tells why. -/
theorem Streamed.refused {s : Submission} {rest : List Submission}
    (h : Streamed ids outs (s :: rest) [] [] e) (fault : Error) (now : Nat) :
    let next : Engine := { e with
      feeds := e.feeds.modify s.id (·.write (s.toRequest.failedBy fault)) }
    Streamed ids (outs ++ [.ofRequest (s.toRequest.failedBy fault) now]) rest [] [] next ∧
      FeedsLead e next := by
  intro next
  have hid : s.id ∈ e.feeds.keys := h.known s.id (by simp)
  have hkeys : next.feeds.keys = e.feeds.keys := Table.keys_modify _ _ _
  have hfeed : ∀ other, next.feed other =
      if other = s.id then (s.toRequest.failedBy fault).shown else e.feed other := by
    intro other
    rw [feed_modify hid, h.waiting s (by simp), (Feed.leads_of_new _).write]
  have hstored : ∀ r ∈ e.scheduler.requests, next.feed r.id = e.feed r.id := by
    intro r hr
    rw [hfeed, if_neg]
    exact Scheduler.request?_eq_none.mp h.audit.coherent.unknown r hr
  have hdistinct := List.nodup_cons.mp h.audit.coherent.distinct
  refine ⟨?_, ?_⟩
  · exact {
      audit := h.audit.refused fault now _
      below := by rw [hkeys]; exact h.below
      known := by
        intro id hid
        rw [hkeys]
        exact h.known id (List.mem_cons_of_mem _ hid)
      waiting := by
        intro other hother
        rw [hfeed, if_neg]
        · exact h.waiting other (List.mem_cons_of_mem _ hother)
        · intro he
          exact hdistinct.1 (List.mem_append_left _ (List.mem_map.mpr ⟨other, hother, he⟩))
      trails := by
        intro r hr
        rw [hstored r hr]
        exact h.trails r hr
      current := by
        intro r hr hstale
        rw [hstored r hr]
        exact h.current r hr hstale
      told := by
        intro o ho
        rw [hfeed]
        rcases List.mem_append.mp ho with ho | ho
        · rw [if_neg (h.audit.unseen (List.mem_cons_self ..) o ho)]
          exact h.told o ho
        · rw [List.mem_singleton.mp ho]
          exact if_pos rfl }
  · intro other
    rw [hfeed]
    split
    next he =>
      rw [he, h.waiting s (by simp)]
      exact Feed.leads_of_new _
    next => exact .refl _

/-- A request that the scheduler gets shows nothing yet. -/
theorem Streamed.stored {s : Submission} {rest : List Submission}
    (h : Streamed ids outs (s :: rest) [] [] e) : Streamed ids outs rest [] [] { e with
      scheduler := e.scheduler.arrived s.toRequest
      samplers := e.samplers.insert s.id (.new s.request.sampling (e.entropy s.id))
      published := e.published ++ [s.id] } where
  audit := h.audit.stored
  below := h.below
  known := by
    intro id hid
    exact h.known id ((pending_arrived e.scheduler s rest).mem_iff.mp hid)
  waiting := fun other hother => h.waiting other (List.mem_cons_of_mem _ hother)
  trails := by
    intro r hr
    rcases Scheduler.mem_arrived.mp hr with hr | rfl
    · exact h.trails r hr
    · show (e.feed s.id).Leads _
      rw [h.waiting s (by simp)]
      exact Feed.leads_of_new _
  current := by
    intro r hr hstale
    rcases Scheduler.mem_arrived.mp hr with hr | rfl
    · exact h.current r hr hstale
    · exact h.waiting s (by simp)
  told := h.told

theorem Streamed.takeUp {s : Submission} {rest : List Submission}
    (h : Streamed ids outs (s :: rest) [] [] e) (now : Nat) :
    Streamed ids (outs ++ ((Engine.takeUp now s).run e).1.toList) rest [] []
        ((Engine.takeUp now s).run e).2 ∧
      FeedsLead e ((Engine.takeUp now s).run e).2 := by
  rcases takeUp_cases e now h.audit.coherent.unknown with ⟨fault, -, hrun⟩ | ⟨-, hrun⟩ <;> rw [hrun]
  · exact h.refused fault now
  · rw [Option.toList_none, List.append_nil]
    exact ⟨h.stored, .of_eq fun _ => rfl⟩

theorem Streamed.drained (h : Streamed ids outs e.submissions [] [] e) (now : Nat) :
    Streamed ids (outs ++ (e.drained now).1.filterMap id) [] [] [] (e.drained now).2 ∧
      FeedsLead e (e.drained now).2 := by
  have hstart : Streamed ids outs e.submissions [] []
      { e with submissions := [], stepCount := e.stepCount + 1 } :=
    { h with audit := { h.audit with coherent := { h.audit.coherent with } } }
  refine mapM_keep_outputs (fun outs rest x => Streamed ids outs rest [] [] x ∧ FeedsLead e x)
    (Engine.takeUp now) ?_ e.submissions ⟨hstart, .of_eq fun _ => rfl⟩
  intro s rest outs x ⟨hx, hleads⟩
  obtain ⟨hnext, hlater⟩ := hx.takeUp now
  exact ⟨hnext, hleads.trans hlater⟩

/-! ## The plan and the batch -/

/-- A plan writes no feeds. Those that may be behind are of the requests that it reports, sends back
or batches. -/
theorem Streamed.planned (h : Streamed ids outs [] [] [] e) (now : Nat) :
    Streamed ids outs [] (e.scheduler.schedule now).1.retired
      ((e.planned now).scheduler.running ++ (e.scheduler.schedule now).1.retired ++
        (e.scheduler.schedule now).1.preempted) (e.planned now) := by
  have haudit := h.audit.planned now
  have hmoves := h.audit.coherent.owned.moves_tick now
  have hids : (e.planned now).scheduler.requests.map Request.id =
      e.scheduler.requests.map Request.id := hmoves.ids
  have hfeed : ∀ id, (e.planned now).feed id = e.feed id := fun _ => rfl
  exact {
    audit := haudit
    below := h.below
    known := by rw [hids]; exact h.known
    waiting := nofun
    trails := by
      intro x hx
      obtain ⟨r, hr, hf⟩ := hmoves.follows x hx
      rw [hfeed, hf.id, h.current r hr (List.not_mem_nil)]
      refine ⟨?_, ?_⟩
      · show r.output.toList <+: x.output.toList
        rw [hf.output]
      · intro hend
        have hlive : r.state.isTerminal = false := h.audit.coherent.live r hr
        have hend' : r.state.isTerminal = true := hend
        rw [hlive] at hend'
        cases hend'
    current := by
      intro x hx hstale
      simp only [List.mem_append, not_or] at hstale
      obtain ⟨⟨hrun, hretired⟩, hpreempted⟩ := hstale
      rcases hmoves.shown x hx with hret | hpre | hrunning | ⟨r, hr, hid, hshown⟩
      · exact absurd hret hretired
      · exact absurd hpre hpreempted
      · exact absurd ((haudit.coherent.owned.mem_running hx).mpr hrunning) hrun
      · rw [hfeed, ← hid, h.current r hr (List.not_mem_nil), hshown]
    told := h.told }

/-- A turn writes no feed, and what the feed of its request shows stays true. -/
theorem Streamed.turn {start : Engine} {r : Request} {rest : List RequestId}
    {result result' : BatchResult} {sampled : Except Error Token} {x : Engine}
    (h : Streamed ids outs [] (ended ++ result.ended) stale e) (hstale : r.id ∈ stale)
    (hrunning : Running (fun _ _ => True) start ended rest result' x)
    (ht : Turn start e result r sampled result' x) :
    Streamed ids outs [] (ended ++ result'.ended) stale x ∧ x.feeds = e.feeds := by
  have haudit := h.audit.turn hrunning ht
  obtain ⟨samplers, -, rfl⟩ := ht.engine
  have hids := Scheduler.ids_settle e.scheduler (r.settled e.model.config.eosToken sampled)
  obtain ⟨slot, hform⟩ := Scheduler.settledForm_eq (r.settled e.model.config.eosToken sampled)
  have hid := Request.settled_id r e.model.config.eosToken sampled
  refine ⟨?_, rfl⟩
  exact {
    audit := haudit
    below := h.below
    known := by simp only [hids]; exact h.known
    waiting := nofun
    trails := by
      intro x hx
      rw [Scheduler.settle_requests, hform] at hx
      rcases Scheduler.mem_update.mp hx with ⟨rfl, -⟩ | ⟨hx, -⟩
      · show (e.feed (r.settled e.model.config.eosToken sampled).id).Leads _
        rw [hid]
        have hopen := h.open ht.stored (RequestState.isTerminal_of_isRunning ht.running)
        refine ⟨(h.trails r ht.stored).tokens.trans ?_, ?_⟩
        · exact Request.output_settled r _ _
        · intro hend
          rw [hopen] at hend
          cases hend
      · exact h.trails x hx
    current := by
      intro x hx hfresh
      rw [Scheduler.settle_requests, hform] at hx
      rcases Scheduler.mem_update.mp hx with ⟨rfl, -⟩ | ⟨hx, -⟩
      · have hsame : ({ r.settled e.model.config.eosToken sampled with slot := slot } : Request).id =
          r.id := hid
        rw [hsame] at hfresh
        exact absurd hstale hfresh
      · exact h.current x hx hfresh
    told := h.told }

theorem Streamed.ran (h : Streamed ids outs [] ended stale e)
    (hstale : ∀ id ∈ e.scheduler.running, id ∈ stale)
    (hforward : Cache.Appended e.scheduler.cache
      (Action.exec (e.model.forward ((e.entries e.scheduler.running).map Prod.snd))
        e.scheduler.cache).2) :
    Streamed ids outs [] (ended ++ (e.ran e.scheduler.running).1.ended) stale
        (e.ran e.scheduler.running).2 ∧
      (e.ran e.scheduler.running).2.feeds = e.feeds := by
  have hkeep := h.audit.coherent.ran_keep hforward
    (fun turns result x => (Streamed ids outs [] (ended ++ result.ended) stale x ∧
      x.feeds = e.feeds) ∧ ∀ id ∈ turns, id ∈ stale) ?_ ?_
  · exact hkeep.1
  · refine ⟨⟨?_, rfl⟩, hstale⟩
    have hpassed := h.audit.passed hforward
    rw [List.append_nil]
    exact { h with audit := hpassed }
  · intro r rest result x sampled result' x' _ ht hnext ⟨⟨hx, hsame⟩, hturns⟩
    obtain ⟨hx', hsame'⟩ := hx.turn (hturns r.id (List.mem_cons_self ..)) hnext ht
    exact ⟨⟨hx', hsame'.trans hsame⟩, fun id hid => hturns id (List.mem_cons_of_mem _ hid)⟩

/-! ## Publishing -/

/-- Once its feed is written, a request is no longer behind. -/
theorem Streamed.publish {id : RequestId} {rest : List RequestId}
    (h : Streamed ids outs [] ended (id :: rest) e) :
    Streamed ids outs [] ended rest (e.publish id) ∧ FeedsLead e (e.publish id) := by
  unfold Engine.publish
  split
  next hcontains =>
    have hid : id ∈ e.scheduler.requests.map Request.id := by
      rw [← h.audit.published]
      simpa using hcontains
    obtain ⟨r, hr, rfl⟩ := List.mem_map.mp hid
    rw [h.audit.coherent.request?_of_mem hr]
    have hknown : r.id ∈ e.feeds.keys := h.known r.id (by simpa using ⟨r, hr, rfl⟩)
    have hkeys : (e.feeds.modify r.id (·.write r)).keys = e.feeds.keys := Table.keys_modify _ _ _
    have hfeed : ∀ other, ({ e with feeds := e.feeds.modify r.id (·.write r) } : Engine).feed other =
        if other = r.id then r.shown else e.feed other := by
      intro other
      rw [feed_modify hknown, (h.trails r hr).write]
    have hself : ∀ x ∈ e.scheduler.requests, x.id = r.id → x = r := by
      intro x hx he
      exact h.audit.coherent.owned.ids.eq hx hr he
    refine ⟨?_, ?_⟩
    · exact {
        audit := h.audit.withFeeds _
        below := by simp only [hkeys]; exact h.below
        known := by simp only [hkeys]; exact h.known
        waiting := nofun
        trails := by
          intro x hx
          rw [hfeed]
          split
          next he =>
            rw [hself x hx he]
            exact .refl _
          next => exact h.trails x hx
        current := by
          intro x hx hfresh
          rw [hfeed]
          split
          next he => rw [hself x hx he]
          next hne => exact h.current x hx (by simp [hne, hfresh])
        told := by
          intro o ho
          rw [hfeed, if_neg (h.audit.unanswered hr o ho)]
          exact h.told o ho }
    · intro other
      rw [hfeed]
      split
      next he =>
        rw [he]
        exact h.trails r hr
      next => exact .refl _
  next hcontains =>
    have hnot : ∀ r ∈ e.scheduler.requests, r.id ≠ id := by
      intro r hr he
      refine hcontains ?_
      rw [h.audit.published, List.contains_iff_mem, ← he]
      exact List.mem_map_of_mem hr
    refine ⟨{ h with current := ?_ }, .of_eq fun _ => rfl⟩
    intro r hr hfresh
    exact h.current r hr (by simp [hnot r hr, hfresh])

theorem Streamed.written (h : Streamed ids outs [] ended stale e) :
    Streamed ids outs [] ended [] (stale.foldl Engine.publish e) ∧
      FeedsLead e (stale.foldl Engine.publish e) := by
  induction stale generalizing e with
  | nil => exact ⟨h, .of_eq fun _ => rfl⟩
  | cons id rest ih =>
    obtain ⟨hnext, hleads⟩ := h.publish
    obtain ⟨hlast, hlater⟩ := ih hnext
    exact ⟨hlast, hleads.trans hlater⟩

/-! ## The end of a tick -/

/-- The output of a request tells what its feed shows. -/
theorem Streamed.finish {id : RequestId} {rest : List RequestId}
    (h : Streamed ids outs [] (id :: rest) [] e) (now : Nat) :
    Streamed ids (outs ++ ((Engine.finish now id).run e).1.toList) [] rest []
        ((Engine.finish now id).run e).2 ∧
      ((Engine.finish now id).run e).2.feeds = e.feeds := by
  have haudit := h.audit.finish now
  obtain ⟨r, hr, -⟩ := h.audit.coherent.finish now
  obtain ⟨hmem, rfl⟩ := Scheduler.mem_of_request? hr
  rw [run_finish hr] at haudit ⊢
  refine ⟨?_, rfl⟩
  exact {
    audit := haudit
    below := h.below
    known := by
      intro id hid
      simp only [List.map_nil, List.nil_append, List.mem_map] at hid
      obtain ⟨x, hx, rfl⟩ := hid
      exact h.known x.id (List.mem_map_of_mem (Scheduler.mem_removeRequest.mp hx).1)
    waiting := nofun
    trails := fun x hx => h.trails x (Scheduler.mem_removeRequest.mp hx).1
    current := fun x hx => h.current x (Scheduler.mem_removeRequest.mp hx).1
    told := by
      intro o ho
      rcases List.mem_append.mp ho with ho | ho
      · exact h.told o ho
      · rw [List.mem_singleton.mp ho]
        exact h.current r hmem List.not_mem_nil }

theorem Streamed.closed (h : Streamed ids outs [] ended [] e) (now : Nat) :
    Streamed ids (outs ++ (e.closed now ended).1.filterMap id) [] [] [] (e.closed now ended).2 ∧
      (e.closed now ended).2.feeds = e.feeds := by
  refine mapM_keep_outputs (fun outs rest x => Streamed ids outs [] rest [] x ∧ x.feeds = e.feeds)
    (Engine.finish now) ?_ ended ⟨h, rfl⟩
  intro id rest outs x ⟨hx, hsame⟩
  obtain ⟨hnext, hsame'⟩ := hx.finish now
  exact ⟨hnext, hsame'.trans hsame⟩

/-- After a tick every feed shows its request as it is, and no feed has taken anything back. -/
theorem Streamed.step (h : Streamed ids outs e.submissions [] [] e) {now : Nat}
    (ha : e.AppendsAt now) :
    Streamed ids (outs ++ ((Engine.step now).run e).1.finished)
        ((Engine.step now).run e).2.submissions [] [] ((Engine.step now).run e).2 ∧
      FeedsLead e ((Engine.step now).run e).2 := by
  obtain ⟨hdrained, hfirst⟩ := h.drained now
  have hplanned := hdrained.planned now
  obtain ⟨hran, hsame⟩ := hplanned.ran (fun id hid => by simp [hid]) ha
  obtain ⟨hwritten, hwrite⟩ := hran.written
  obtain ⟨hclosed, hsame'⟩ := hwritten.closed now
  have hbatch : ((e.drained now).2.scheduler.schedule now).1.batch =
      ((e.drained now).2.planned now).scheduler.running :=
    (hdrained.audit.coherent.owned.tick now).batch_eq
  have hstill := (h.audit.coherent.step ha).2.1
  obtain ⟨metrics, hrun, -⟩ := Engine.run_step e now
  simp only [hbatch] at hrun
  rw [hstill.submissions]
  simp only [hrun]
  refine ⟨by rw [← List.append_assoc]; exact hclosed, ?_⟩
  refine hfirst.trans (.trans (.of_eq fun id => ?_) (hwrite.trans (.of_eq fun id => ?_)))
  · exact congrArg (fun feeds => (feeds.get? id).getD {}) hsame
  · exact congrArg (fun feeds => (feeds.get? id).getD {}) hsame'

end Engine

end CausalServe
