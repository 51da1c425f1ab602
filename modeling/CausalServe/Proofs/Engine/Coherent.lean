import CausalServe.Proofs.Cache.History
import CausalServe.Proofs.Engine.Phases
import CausalServe.Proofs.Table
import CausalServe.Proofs.Traverse

/-! The books of an engine: its scheduler is in order, every stored request has a sampler, ids are
used once, and no request has generated as much as it asked for without having ended. They are kept
with the submissions that are still to be taken up and with the requests that have ended and are
still stored; between two ticks there are none of the latter. -/

namespace CausalServe

namespace Scheduler

theorem Owned.appended {s : Scheduler} (h : s.Owned) {c : Cache} (hc : Cache.Appended s.cache c) :
    { s with cache := c }.Owned := by
  induction hc with
  | refl => exact h
  | append _ slot layer key value ih => exact ih.append slot layer key value

/-- The requests that remain when one is forgotten. -/
theorem mem_removeRequest {s : Scheduler} {id : RequestId} {x : Request} :
    x ∈ (s.removeRequest id).2.requests ↔ x ∈ s.requests ∧ x.id ≠ id := by
  cases hr : s.request? id with
  | none =>
    rw [removeRequest_of_none hr]
    exact ⟨fun hx => ⟨hx, request?_eq_none.mp hr x hx⟩, And.left⟩
  | some r =>
    rw [removeRequest_of_some hr, release_eq]
    simp

theorem ids_removeRequest {s : Scheduler} {id : RequestId} {r : Request}
    (h : s.request? id = some r) : (s.removeRequest id).2.requests.map Request.id =
      (s.requests.map Request.id).filter fun other => other ≠ id := by
  rw [removeRequest_of_some h, release_eq, List.filter_map]
  rfl

/-- Forgetting a request takes its id, and no other, from the stored ones. -/
theorem ids_removeRequest_perm {s : Scheduler} (h : s.DistinctIds) {id : RequestId}
    {r : Request} (hr : s.request? id = some r) :
    (id :: (s.removeRequest id).2.requests.map Request.id).Perm (s.requests.map Request.id) := by
  obtain ⟨hmem, rfl⟩ := mem_of_request? hr
  have hothers : (s.requests.map Request.id).filter (fun other => other ≠ r.id) =
      (s.requests.map Request.id).erase r.id := by
    rw [List.Nodup.erase_eq_filter h]
    refine List.filter_congr fun other _ => ?_
    rw [Bool.eq_iff_iff]
    simp
  rw [ids_removeRequest hr, hothers]
  exact (List.perm_cons_erase (List.mem_map_of_mem hmem)).symm

/-- Who has ended holds nothing that could be given back. -/
theorem Owned.cache_removeRequest {s : Scheduler} (h : s.Owned) {id : RequestId} {r : Request}
    (hr : s.request? id = some r) (hend : r.state.isTerminal = true) :
    (s.removeRequest id).2.cache = s.cache := by
  have hslot : r.slot = none := by
    cases hs : r.slot with
    | none => rfl
    | some slot =>
      have hrun := h.running_of_slot (mem_of_request? hr).1 hs
      rw [RequestState.isTerminal_of_isRunning hrun] at hend
      cases hend
  rw [removeRequest_of_some hr, release_eq, hslot]
  rfl

theorem ids_settle (s : Scheduler) (r : Request) :
    (s.settle r).requests.map Request.id = s.requests.map Request.id := by
  unfold settle
  split <;> exact ids_update _ _

def settledForm (r : Request) : Request := if r.state.isTerminal then { r with slot := none } else r

theorem settledForm_eq (r : Request) : ∃ slot, settledForm r = { r with slot := slot } := by
  unfold settledForm
  split
  · exact ⟨none, rfl⟩
  · exact ⟨r.slot, rfl⟩

theorem settle_requests (s : Scheduler) (r : Request) :
    (s.settle r).requests = (s.update (settledForm r)).requests := by
  unfold settle settledForm
  split <;> rfl

/-- A request that has ended gives its slot back when it is settled. -/
theorem cache_settle (s : Scheduler) (r : Request) :
    (s.settle r).cache = if r.state.isTerminal then freed s.cache r.slot else s.cache := by
  unfold settle
  split
  · rw [Scheduler.retire, release_eq]
    rfl
  · rfl

end Scheduler

namespace Round.Reported

variable {s : Scheduler} {ended : List RequestId}

/-- Whoever ends when it is settled is reported. -/
theorem settle (h : Reported { scheduler := s, retired := ended }) {r later : Request}
    (hr : r ∈ s.requests) (hlive : r.state.isTerminal = false) (hid : later.id = r.id) :
    Reported { scheduler := s.settle later
               retired := if later.state.isTerminal then ended ++ [r.id] else ended } := by
  unfold Scheduler.settle
  split
  next hend =>
    have := h.retire hr hid hlive hend
    rw [Round.retire, hid] at this
    exact this
  next hend => exact h.update hr hid hlive (by simpa using hend) rfl rfl

/-- Whoever has ended can be forgotten. -/
theorem forget {id : RequestId} {rest : List RequestId}
    (h : Reported { scheduler := s, retired := id :: rest }) :
    Reported { scheduler := (s.removeRequest id).2, retired := rest } := by
  have hnd := List.nodup_cons.mp h.nodup
  refine ⟨hnd.2, fun x hx => ?_, fun other hother => ?_⟩
  · obtain ⟨hx, hne⟩ := Scheduler.mem_removeRequest.mp hx
    rw [← h.iff x hx, List.mem_cons]
    simp [hne]
  · obtain ⟨x, hx, hxid⟩ := h.stored other (List.mem_cons_of_mem _ hother)
    exact ⟨x, Scheduler.mem_removeRequest.mpr
      ⟨hx, fun he => hnd.1 (by rw [← he, hxid]; exact hother)⟩, hxid⟩

end Round.Reported

namespace Engine

/-- The books of an engine, with the submissions that are still to be taken up, the requests that
have ended and are still stored, and a bound on what each request may ask for. -/
structure Coherent (limit : RequestId → Nat → Prop) (e : Engine) (todo : List Submission)
    (ended : List RequestId) : Prop where
  owned : e.scheduler.Owned
  settings : Scheduler.SameSettings
    (.new e.config.scheduler e.config.cache (.ofModel e.model.config)) e.scheduler
  valid : e.config.validate = .ok ()
  keys : e.samplers.keys = e.scheduler.requests.map Request.id
  reported : Round.Reported { scheduler := e.scheduler, retired := ended }
  sized : ∀ r ∈ e.scheduler.requests, r.output.size ≤ r.sampling.maxTokens ∧
    (r.state.isTerminal = false → r.output.size < r.sampling.maxTokens)
  asked : ∀ s ∈ todo, 0 < s.request.sampling.maxTokens
  below : ∀ id ∈ todo.map Submission.id ++ e.scheduler.requests.map Request.id, id < e.nextId
  distinct : (todo.map Submission.id ++ e.scheduler.requests.map Request.id).Nodup
  limited : (∀ s ∈ todo, limit s.id s.request.sampling.maxTokens) ∧
    ∀ r ∈ e.scheduler.requests, limit r.id r.sampling.maxTokens

variable {limit : RequestId → Nat → Prop} {e : Engine} {todo : List Submission}
  {ended : List RequestId}

/-- What a valid configuration promises. -/
theorem positive_of_valid {config : EngineConfig} (h : config.validate = .ok ()) :
    0 < config.scheduler.maxSeqs ∧ 0 < config.cache.maxContext := by
  obtain ⟨hseqs, h⟩ := ok_of_guard h
  obtain ⟨-, h⟩ := ok_of_guard h
  obtain ⟨hcontext, -⟩ := ok_of_guard h
  exact ⟨Nat.pos_of_ne_zero hseqs, Nat.pos_of_ne_zero hcontext⟩

theorem Coherent.live (h : Coherent limit e todo []) :
    ∀ r ∈ e.scheduler.requests, r.state.isTerminal = false := fun r hr => by
  have := h.reported.iff r hr
  simpa using this

theorem Coherent.request?_of_mem (h : Coherent limit e todo ended) {r : Request}
    (hr : r ∈ e.scheduler.requests) : e.scheduler.request? r.id = some r :=
  h.owned.ids.request? hr

/-- Every stored request has its sampler. -/
theorem Coherent.sampler (h : Coherent limit e todo ended) {r : Request}
    (hr : r ∈ e.scheduler.requests) : ∃ sampler, e.samplers.get? r.id = some sampler := by
  rw [← Option.isSome_iff_exists, Table.get?_isSome, h.keys]
  exact List.mem_map_of_mem hr

/-- The feeds are not part of the books. -/
theorem Coherent.withFeeds (h : Coherent limit e todo ended) (feeds : Table Feed) :
    Coherent limit { e with feeds := feeds } todo ended :=
  { h with }

/-! ## Between two ticks -/

theorem new_eq {model : LanguageModel} {config : EngineConfig} {entropy : RequestId → Stream}
    (h : Engine.new model config entropy = .ok e) : e =
      { model := model, config := config, entropy := entropy
        scheduler := .new config.scheduler config.cache (.ofModel model.config) } := by
  obtain ⟨_, -, h⟩ := bind_eq_ok.mp h
  obtain ⟨_, -, h⟩ := bind_eq_ok.mp h
  exact (Except.ok.inj h).symm

theorem Coherent.new {model : LanguageModel} {config : EngineConfig} {entropy : RequestId → Stream}
    (h : Engine.new model config entropy = .ok e) :
    e.model = model ∧ e.config = config ∧ e.submissions = [] ∧
      e.scheduler = .new config.scheduler config.cache (.ofModel model.config) ∧
      Coherent limit e [] [] := by
  unfold Engine.new at h
  cases hc : config.validate with
  | error fault => rw [hc] at h; cases h
  | ok =>
    cases hm : model.config.validate with
    | error fault => rw [hc, hm] at h; cases h
    | ok =>
      rw [hc, hm] at h
      cases h
      refine ⟨rfl, rfl, rfl, rfl, ?_⟩
      exact {
        owned := .new _ _ _
        settings := .refl _
        valid := hc
        keys := rfl
        reported := .start fun r hr => (List.not_mem_nil hr).elim
        sized := fun r hr => (List.not_mem_nil hr).elim
        asked := fun s hs => (List.not_mem_nil hs).elim
        below := fun id hid => (List.not_mem_nil hid).elim
        distinct := List.nodup_nil
        limited := ⟨fun s hs => (List.not_mem_nil hs).elim,
          fun r hr => (List.not_mem_nil hr).elim⟩ }

theorem asks_of_validate {g : GenerationRequest} (h : g.validate = .ok ()) :
    0 < g.sampling.maxTokens := by
  obtain ⟨-, h⟩ := ok_of_guard h
  exact Nat.pos_of_ne_zero (ok_of_guard h).1

/-- An accepted request has the next id. -/
theorem ids_accepted (e : Engine) (g : GenerationRequest) (now : Nat) :
    ((e.accepted g now).submissions.map Submission.id ++
      e.scheduler.requests.map Request.id).Perm
        (e.nextId :: (e.submissions.map Submission.id ++ e.scheduler.requests.map Request.id)) := by
  simp [Engine.accepted]

theorem mem_accepted {e : Engine} {g : GenerationRequest} {now : Nat} {s : Submission} :
    s ∈ (e.accepted g now).submissions ↔
      s ∈ e.submissions ∨ s = { id := e.nextId, request := g, submittedAt := now } := by
  simp [Engine.accepted]

/-- A request is queued under an id that was never used. -/
theorem Coherent.accepted (h : Coherent limit e e.submissions []) {g : GenerationRequest}
    (hasks : 0 < g.sampling.maxTokens) (hlimit : limit e.nextId g.sampling.maxTokens) (now : Nat) :
    Coherent limit (e.accepted g now) (e.accepted g now).submissions [] := by
  have hperm := ids_accepted e g now
  exact {
    h with
    asked := fun s hs => (mem_accepted.mp hs).elim (h.asked s) fun he => by rw [he]; exact hasks
    below := fun id hid => by
      rcases List.mem_cons.mp (hperm.mem_iff.mp hid) with rfl | hid
      · exact Nat.lt_succ_self _
      · exact Nat.lt_succ_of_lt (h.below id hid)
    distinct := hperm.nodup_iff.mpr (List.nodup_cons.mpr
      ⟨fun hid => Nat.lt_irrefl _ (h.below _ hid), h.distinct⟩)
    limited := ⟨fun s hs => (mem_accepted.mp hs).elim (h.limited.1 s) fun he => by
      rw [he]; exact hlimit, h.limited.2⟩ }

theorem ids_cancel (e : Engine) (id : RequestId) :
    (e.cancel id).submissions.map Submission.id = e.submissions.map Submission.id ∧
      (e.cancel id).scheduler.requests.map Request.id = e.scheduler.requests.map Request.id := by
  have hsched : (e.cancel id).scheduler = (Action.exec (Scheduler.cancel id) e.scheduler).2 := rfl
  constructor
  · simp only [Engine.cancel, List.map_map]
    refine List.map_congr_left fun s _ => ?_
    simp only [Function.comp_apply]
    split <;> rfl
  · rw [hsched, Scheduler.exec_cancel]
    split
    · exact Scheduler.ids_update _ _
    · rfl

theorem cache_cancel (e : Engine) (id : RequestId) :
    (e.cancel id).scheduler.cache = e.scheduler.cache := by
  show (Action.exec (Scheduler.cancel id) e.scheduler).2.cache = e.scheduler.cache
  rw [Scheduler.exec_cancel]
  split
  · rfl
  · rfl

/-- A submission is marked when it is cancelled, and no more. -/
theorem mem_submissions_cancel {id : RequestId} {s : Submission}
    (h : s ∈ (e.cancel id).submissions) :
    ∃ old ∈ e.submissions, s = { old with cancelled := s.cancelled } := by
  obtain ⟨old, hold, rfl⟩ := List.mem_map.mp h
  refine ⟨old, hold, ?_⟩
  split <;> rfl

/-- A request is marked when it is cancelled, and no more. -/
theorem mem_requests_cancel {id : RequestId} {r : Request}
    (h : r ∈ (e.cancel id).scheduler.requests) :
    ∃ old ∈ e.scheduler.requests, r = { old with cancelRequested := r.cancelRequested } := by
  change r ∈ (Action.exec (Scheduler.cancel id) e.scheduler).2.requests at h
  rw [Scheduler.exec_cancel] at h
  split at h
  next old hold =>
    rcases Scheduler.mem_update.mp h with ⟨rfl, -⟩ | ⟨hr, -⟩
    · exact ⟨old, (Scheduler.mem_of_request? hold).1, rfl⟩
    · exact ⟨r, hr, rfl⟩
  next => exact ⟨r, h, rfl⟩

/-- A cancelled request is marked, and all else stays. -/
theorem Coherent.cancelled (h : Coherent limit e e.submissions []) (id : RequestId) :
    Coherent limit (e.cancel id) (e.cancel id).submissions [] := by
  obtain ⟨hids, hrids⟩ := ids_cancel e id
  exact {
    owned := h.owned.cancel id
    settings := h.settings.trans (Scheduler.cancel_calls _ _).settings
    valid := h.valid
    keys := h.keys.trans hrids.symm
    reported := .start fun x hx => by
      obtain ⟨old, hold, he⟩ := mem_requests_cancel hx
      rw [he]
      exact h.live old hold
    sized := fun x hx => by
      obtain ⟨old, hold, he⟩ := mem_requests_cancel hx
      rw [he]
      exact h.sized old hold
    asked := fun s hs => by
      obtain ⟨old, hold, he⟩ := mem_submissions_cancel hs
      rw [he]
      exact h.asked old hold
    below := by rw [hids, hrids]; exact h.below
    distinct := by rw [hids, hrids]; exact h.distinct
    limited := ⟨fun s hs => by
      obtain ⟨old, hold, he⟩ := mem_submissions_cancel hs
      rw [he]
      exact h.limited.1 old hold, fun x hx => by
      obtain ⟨old, hold, he⟩ := mem_requests_cancel hx
      rw [he]
      exact h.limited.2 old hold⟩ }

/-! ## The phases keep the books -/

theorem Coherent.unknown {s : Submission} {rest : List Submission}
    (h : Coherent limit e (s :: rest) ended) : e.scheduler.request? s.id = none := by
  refine Scheduler.request?_eq_none.mpr fun r hr he => ?_
  have hd := h.distinct
  rw [List.map_cons, List.cons_append, List.nodup_cons] at hd
  exact hd.1 (List.mem_append_right _ (he ▸ List.mem_map_of_mem hr))

theorem Coherent.skip {s : Submission} {rest : List Submission}
    (h : Coherent limit e (s :: rest) ended) : Coherent limit e rest ended :=
  { h with
    asked := fun x hx => h.asked x (List.mem_cons_of_mem _ hx)
    below := fun id hid => h.below id (List.mem_cons_of_mem _ hid)
    distinct := (List.nodup_cons.mp h.distinct).2
    limited := ⟨fun x hx => h.limited.1 x (List.mem_cons_of_mem _ hx), h.limited.2⟩ }

/-- The ids that are pending stay the same when a submission is taken up. -/
theorem pending_arrived (scheduler : Scheduler) (s : Submission) (rest : List Submission) :
    (rest.map Submission.id ++ (scheduler.arrived s.toRequest).requests.map Request.id).Perm
      ((s :: rest).map Submission.id ++ scheduler.requests.map Request.id) := by
  rw [Scheduler.ids_arrived, ← List.append_assoc]
  exact List.perm_append_singleton s.id _

/-- A submission that is taken up gets a sampler, as every request has one. -/
theorem keys_arrived (hkeys : e.samplers.keys = e.scheduler.requests.map Request.id)
    (s : Submission) (sampler : Sampler) : (e.samplers.insert s.id sampler).keys =
      (e.scheduler.arrived s.toRequest).requests.map Request.id := by
  rw [Scheduler.ids_arrived, Table.keys_insert, hkeys]
  rfl

theorem Coherent.arrived {s : Submission} {rest : List Submission}
    (h : Coherent limit e (s :: rest) []) : Coherent limit { e with
      scheduler := e.scheduler.arrived s.toRequest
      samplers := e.samplers.insert s.id (.new s.request.sampling (e.entropy s.id))
      published := e.published ++ [s.id] } rest [] := by
  have hperm := pending_arrived e.scheduler s rest
  have hmem : ∀ r ∈ (e.scheduler.arrived s.toRequest).requests, r ∈ e.scheduler.requests ∨
      r = { s.toRequest with arrivalSeq := e.scheduler.arrivals } := by
    intro r hr
    exact Scheduler.mem_arrived.mp hr
  exact {
    owned := h.owned.add (r := { s.toRequest with arrivalSeq := e.scheduler.arrivals }) h.unknown
      rfl rfl _
    settings := h.settings.trans ⟨rfl, rfl, .refl _⟩
    valid := h.valid
    keys := keys_arrived h.keys s _
    reported := .start fun r hr => (hmem r hr).elim (h.live r) fun he => by rw [he]; rfl
    sized := fun r hr => (hmem r hr).elim (h.sized r) fun he => by
      rw [he]
      exact ⟨Nat.zero_le _, fun _ => h.asked s (by simp)⟩
    asked := fun x hx => h.asked x (List.mem_cons_of_mem _ hx)
    below := fun id hid => h.below id (hperm.mem_iff.mp hid)
    distinct := hperm.nodup_iff.mpr h.distinct
    limited := ⟨fun x hx => h.limited.1 x (List.mem_cons_of_mem _ hx),
      fun r hr => (hmem r hr).elim (h.limited.2 r) fun he => by
        rw [he]
        exact h.limited.1 s (by simp)⟩ }

theorem Coherent.planned (h : Coherent limit e [] []) (now : Nat) :
    Coherent limit (e.planned now) [] (e.scheduler.schedule now).1.retired := by
  have hmoves := h.owned.moves_tick now
  have hids : (e.planned now).scheduler.requests.map Request.id =
      e.scheduler.requests.map Request.id := hmoves.ids
  exact {
    owned := hmoves.owned h.owned
    settings := h.settings.trans hmoves.settings
    valid := h.valid
    keys := h.keys.trans hids.symm
    reported := by
      have hreported := hmoves.reported (.start h.live)
      exact ⟨hreported.nodup, hreported.iff, hreported.stored⟩
    sized := fun r hr => by
      obtain ⟨x, hx, hf⟩ := hmoves.follows r hr
      rw [hf.output, hf.sampling]
      exact ⟨(h.sized x hx).1, fun hl => (h.sized x hx).2 (hf.live hl).1⟩
    asked := nofun
    below := by rw [hids]; exact h.below
    distinct := by rw [hids]; exact h.distinct
    limited := ⟨nofun, fun r hr => by
      obtain ⟨x, hx, hf⟩ := hmoves.follows r hr
      rw [hf.id, hf.sampling]
      exact h.limited.2 x hx⟩ }

theorem Coherent.appended (h : Coherent limit e todo ended) {c : Cache}
    (hc : Cache.Appended e.scheduler.cache c) :
    Coherent limit { e with scheduler := { e.scheduler with cache := c } } todo ended :=
  { h with
    owned := h.owned.appended hc
    settings := h.settings.trans ⟨rfl, rfl, hc.limits⟩
    reported := ⟨h.reported.nodup, h.reported.iff, h.reported.stored⟩ }

/-- A running request makes its step, or fails. -/
theorem Coherent.settle (h : Coherent limit e [] ended) {r later : Request}
    (hr : r ∈ e.scheduler.requests) (hrun : r.state.isRunning = true) (hid : later.id = r.id)
    (hslot : later.slot = r.slot) (hsampling : later.sampling = r.sampling)
    (hlater : later.state.isTerminal = false → later.state.isRunning = true)
    (hsize : later.output.size ≤ r.sampling.maxTokens ∧
      (later.state.isTerminal = false → later.output.size < r.sampling.maxTokens))
    {samplers : Table Sampler} (hkeys : samplers.keys = e.samplers.keys) :
    Coherent limit { e with samplers := samplers, scheduler := e.scheduler.settle later } []
      (if later.state.isTerminal then ended ++ [r.id] else ended) := by
  have hlive := RequestState.isTerminal_of_isRunning hrun
  have hids := Scheduler.ids_settle e.scheduler later
  obtain ⟨slot, hform⟩ := Scheduler.settledForm_eq later
  have hmem : ∀ x ∈ (e.scheduler.settle later).requests,
      x = { later with slot := slot } ∨ x ∈ e.scheduler.requests := by
    intro x hx
    rw [Scheduler.settle_requests, hform] at hx
    exact (Scheduler.mem_update.mp hx).imp And.left And.left
  exact {
    owned := h.owned.settle hr hrun hid hslot hlater
    settings := h.settings.trans (Scheduler.settle_settings _ _)
    valid := h.valid
    keys := hkeys.trans (h.keys.trans hids.symm)
    reported := h.reported.settle hr hlive hid
    sized := fun x hx => (hmem x hx).elim (fun he => by
      rw [he]
      simp only [hsampling]
      exact hsize) (h.sized x)
    asked := nofun
    below := by rw [hids]; exact h.below
    distinct := by rw [hids]; exact h.distinct
    limited := ⟨nofun, fun x hx => (hmem x hx).elim (fun he => by
      rw [he]
      simp only [hid, hsampling]
      exact h.limited.2 r hr) (h.limited.2 x)⟩ }

/-- A request that has ended is forgotten. -/
theorem Coherent.finish {id : RequestId} {rest : List RequestId}
    (h : Coherent limit e [] (id :: rest)) (now : Nat) :
    ∃ r, e.scheduler.request? id = some r ∧ r.state.isTerminal = true ∧
      ((finish now id).run e).1 = some (.ofRequest { r with slot := none } now) ∧
      Coherent limit ((finish now id).run e).2 [] rest := by
  obtain ⟨r, hr, rfl⟩ := h.reported.stored id (by simp)
  have hfound := h.request?_of_mem hr
  have hids := Scheduler.ids_removeRequest hfound
  have hsub : ∀ x, x ∈ (e.scheduler.removeRequest r.id).2.requests →
      x ∈ e.scheduler.requests ∧ x.id ≠ r.id := fun x => Scheduler.mem_removeRequest.mp
  rw [run_finish hfound]
  refine ⟨r, hfound, (h.reported.iff r hr).mp (by simp), rfl, ?_⟩
  exact {
    owned := h.owned.removeRequest r.id
    settings := h.settings.trans (Scheduler.removeRequest_calls _ _).settings
    valid := h.valid
    keys := by rw [hids, ← h.keys]; exact Table.keys_erase _ _
    reported := h.reported.forget
    sized := fun x hx => h.sized x (hsub x hx).1
    asked := nofun
    below := fun id hid => h.below id (by rw [hids] at hid; exact List.mem_of_mem_filter hid)
    distinct := by rw [hids]; exact h.distinct.filter _
    limited := ⟨nofun, fun x hx => h.limited.2 x (hsub x hx).1⟩ }

end Engine

end CausalServe
