import CausalServe.Proofs.Scheduler.Growth

/-! A tick as a whole: what it does to the requests, whom it batches, and that it leaves nobody
waiting for nothing. -/

namespace CausalServe

namespace Request

/-- A request later in a tick. It has generated nothing meanwhile; if it is live, it was live, and
due when it is. -/
structure Follows (r later : Request) : Prop where
  id : later.id = r.id
  output : later.output = r.output
  sampling : later.sampling = r.sampling
  live : later.state.isTerminal = false →
    r.state.isTerminal = false ∧ ∀ now, later.expiry? now = r.expiry? now

theorem Follows.refl (r : Request) : r.Follows r := ⟨rfl, rfl, rfl, fun h => ⟨h, fun _ => rfl⟩⟩

theorem Follows.trans {a b c : Request} (h : a.Follows b) (h' : b.Follows c) : a.Follows c where
  id := h'.id.trans h.id
  output := h'.output.trans h.output
  sampling := h'.sampling.trans h.sampling
  live := fun hl => by
    obtain ⟨hb, he⟩ := h'.live hl
    obtain ⟨ha, he'⟩ := h.live hb
    exact ⟨ha, fun now => (he now).trans (he' now)⟩

theorem EndsAs.follows {r ended : Request} (h : r.EndsAs ended) : r.Follows ended :=
  ⟨h.id, h.output, h.sampling, fun hl => by rw [h.terminal] at hl; cases hl⟩

end Request

namespace Round

/-- Every request of a round was in the round before. -/
theorem Move.follows {now : Nat} {a b : Round} (hm : Move now a b) :
    ∀ x ∈ b.scheduler.requests, ∃ r ∈ a.scheduler.requests, r.Follows x := by
  have key : ∀ {r x changed : Request}, r ∈ a.scheduler.requests → r.Follows changed →
      x ∈ (a.scheduler.update changed).requests → ∃ r ∈ a.scheduler.requests, r.Follows x := by
    intro r x changed hr hf hx
    rcases Scheduler.mem_update.mp hx with ⟨rfl, -⟩ | ⟨hx, -⟩
    · exact ⟨r, hr, hf⟩
    · exact ⟨x, hx, .refl x⟩
  intro x hx
  cases hm with
  | @fit r cut hr hq hfit =>
    refine key hr ?_ hx
    rw [Scheduler.fitPrompt_kept hfit]
    exact ⟨rfl, rfl, rfl, fun hl => ⟨hl, fun _ => rfl⟩⟩
  | @retire r ended hr hlive hcause =>
    have hf := (hcause.endsAs hlive).follows
    have hended : r.Follows { ended with slot := none } := ⟨hf.id, hf.output, hf.sampling, hf.live⟩
    exact key hr hended hx
  | @enter r entry rest cache hr hq =>
    have hseated : r.Follows (r.startIn a.scheduler.cache.nextId) :=
      ⟨rfl, rfl, rfl, fun _ => ⟨by rw [hq]; rfl, fun _ => rfl⟩⟩
    exact key hr hseated hx
  | reserve => exact ⟨x, hx, .refl x⟩
  | @preempt r hr hrun =>
    have hqueued : r.Follows r.requeued :=
      ⟨rfl, rfl, rfl, fun _ => ⟨RequestState.isTerminal_of_isRunning hrun, fun _ => rfl⟩⟩
    exact key hr hqueued hx

theorem Moves.follows {now : Nat} {a b : Round} (hm : Moves now a b) :
    ∀ x ∈ b.scheduler.requests, ∃ r ∈ a.scheduler.requests, r.Follows x :=
  hm.keep (P := fun y => ∀ x ∈ y.scheduler.requests, ∃ r ∈ a.scheduler.requests, r.Follows x)
    (fun x hx => ⟨x, hx, .refl x⟩) fun _ _ h hp x hx => by
      obtain ⟨y, hy, hyx⟩ := h.follows x hx
      obtain ⟨r, hr, hry⟩ := hp y hy
      exact ⟨r, hr, hry.trans hyx⟩

/-- No request is lost, and none appears. -/
theorem Move.ids {now : Nat} {a b : Round} (hm : Move now a b) :
    b.scheduler.requests.map Request.id = a.scheduler.requests.map Request.id := by
  cases hm <;> first | rfl | exact Scheduler.ids_update _ _

theorem Moves.ids {now : Nat} {a b : Round} (hm : Moves now a b) :
    b.scheduler.requests.map Request.id = a.scheduler.requests.map Request.id :=
  hm.keep (P := fun y => y.scheduler.requests.map Request.id = a.scheduler.requests.map Request.id)
    rfl fun _ _ h hp => h.ids.trans hp

/-- The requests that ended are those that are reported, once each. -/
structure Reported (round : Round) : Prop where
  nodup : round.retired.Nodup
  iff : ∀ r ∈ round.scheduler.requests, r.id ∈ round.retired ↔ r.state.isTerminal = true
  stored : ∀ id ∈ round.retired, ∃ r ∈ round.scheduler.requests, r.id = id

theorem Reported.start {s : Scheduler} (h : ∀ r ∈ s.requests, r.state.isTerminal = false) :
    Reported { scheduler := s } where
  nodup := List.nodup_nil
  iff := fun r hr => by simp [h r hr]
  stored := nofun

/-- A live request takes the place of a live one. -/
theorem Reported.update {round result : Round} (h : round.Reported)
    {r changed : Request} (hr : r ∈ round.scheduler.requests) (hid : changed.id = r.id)
    (hlive : r.state.isTerminal = false) (hlive' : changed.state.isTerminal = false)
    (hreq : result.scheduler.requests = (round.scheduler.update changed).requests)
    (hretired : result.retired = round.retired) : result.Reported where
  nodup := hretired ▸ h.nodup
  iff := fun x hx => by
    rw [hretired]
    rcases Scheduler.mem_update.mp (hreq ▸ hx) with ⟨rfl, -⟩ | ⟨hx, -⟩
    · rw [hid, h.iff r hr, hlive, hlive']
    · exact h.iff x hx
  stored := fun id hm => by
    rw [hretired] at hm
    rw [hreq]
    obtain ⟨x, hx, hxid⟩ := h.stored id hm
    by_cases he : x.id = changed.id
    · exact ⟨changed, Scheduler.mem_update.mpr (.inl ⟨rfl, x, hx, he⟩), he.symm.trans hxid⟩
    · exact ⟨x, Scheduler.mem_update.mpr (.inr ⟨hx, he⟩), hxid⟩

/-- A live request ends, and is reported. -/
theorem Reported.retire {round : Round} (h : round.Reported) {r ended : Request}
    (hr : r ∈ round.scheduler.requests) (hid : ended.id = r.id)
    (hlive : r.state.isTerminal = false) (hend : ended.state.isTerminal = true) :
    (round.retire ended).Reported := by
  have hnew : r.id ∉ round.retired := fun hmem => by
    have := (h.iff r hr).mp hmem
    rw [hlive] at this
    cases this
  have hmade : ({ ended with slot := none } : Request) ∈ (round.retire ended).scheduler.requests :=
    Scheduler.mem_update.mpr (.inl ⟨rfl, r, hr, hid.symm⟩)
  exact {
    nodup := by
      change (round.retired ++ [ended.id]).Nodup
      rw [hid]
      exact List.nodup_append.mpr ⟨h.nodup, List.nodup_singleton _, fun x hx y hy => by
        rw [List.mem_singleton.mp hy]
        exact fun hxy => hnew (hxy ▸ hx)⟩
    iff := fun x hx => by
      change x.id ∈ round.retired ++ [ended.id] ↔ _
      rw [List.mem_append, List.mem_singleton]
      rcases Scheduler.mem_update.mp hx with ⟨rfl, -⟩ | ⟨hx, hne⟩
      · simp [hend]
      · have hne' : x.id ≠ ended.id := hne
        simp [hne', h.iff x hx]
    stored := fun id hmem => by
      rcases List.mem_append.mp hmem with hmem | hmem
      · obtain ⟨x, hx, hxid⟩ := h.stored id hmem
        by_cases heq : x.id = ended.id
        · exact ⟨_, hmade, heq.symm.trans hxid⟩
        · exact ⟨x, Scheduler.mem_update.mpr (.inr ⟨hx, heq⟩), hxid⟩
      · exact ⟨_, hmade, (List.mem_singleton.mp hmem).symm⟩ }

theorem Move.reported {now : Nat} {a b : Round} (hm : Move now a b) (h : a.Reported) :
    b.Reported := by
  cases hm with
  | @fit r cut hr hq hfit =>
    have hk := Scheduler.fitPrompt_kept hfit
    exact h.update hr (by rw [hk]) (by rw [hq]; rfl) (by rw [hk, hq]; rfl) rfl rfl
  | @retire r ended hr hlive hcause =>
    have he := hcause.endsAs hlive
    exact h.retire hr he.id hlive he.terminal
  | @enter r entry rest cache hr hq =>
    have hseated : (r.startIn a.scheduler.cache.nextId).id = r.id := rfl
    exact h.update hr hseated (by rw [hq]; rfl) rfl rfl rfl
  | reserve => exact ⟨h.nodup, h.iff, h.stored⟩
  | @preempt r hr hrun =>
    have hqueued : r.requeued.id = r.id := rfl
    exact h.update hr hqueued (RequestState.isTerminal_of_isRunning hrun) rfl rfl rfl

theorem Moves.reported {now : Nat} {a b : Round} (hm : Moves now a b) (h : a.Reported) :
    b.Reported := hm.keep h fun _ _ => Move.reported

end Round

namespace Scheduler

theorem Owned.exists_of_hasPending {s : Scheduler} (h : s.Owned) (hp : s.hasPending = true) :
    ∃ r ∈ s.requests, r.state.isTerminal = false := by
  simp only [hasPending, Bool.or_eq_true, Bool.not_eq_true', List.isEmpty_eq_false_iff_exists_mem] at hp
  rcases hp with ⟨entry, he⟩ | ⟨id, hid⟩
  · obtain ⟨r, hr, -, hq⟩ := (h.waiting_iff entry.request).mp (List.mem_map_of_mem he)
    exact ⟨r, hr, RequestState.live_iff.mpr (.inl hq)⟩
  · obtain ⟨r, hr, -, hrun⟩ := (h.running_iff id).mp hid
    exact ⟨r, hr, RequestState.live_iff.mpr (.inr hrun)⟩

/-- Something is pending just when some request has not ended. -/
theorem Owned.hasPending_iff {s : Scheduler} (h : s.Owned) :
    s.hasPending = true ↔ ∃ r ∈ s.requests, r.state.isTerminal = false := by
  refine ⟨h.exists_of_hasPending, fun ⟨r, hr, hlive⟩ => ?_⟩
  simp only [hasPending, Bool.or_eq_true, Bool.not_eq_true', List.isEmpty_eq_false_iff_exists_mem]
  rcases RequestState.live_iff.mp hlive with hq | hrun
  · obtain ⟨entry, he, -⟩ := List.mem_map.mp ((h.mem_waiting hr).mpr hq)
    exact .inl ⟨entry, he⟩
  · exact .inr ⟨r.id, (h.mem_running hr).mpr hrun⟩

/-- The round that a tick comes to. -/
def tick (s : Scheduler) (now : Nat) : Round :=
  (({ scheduler := s } : Round).expire now).admitWaiting.grow

theorem schedule_eq (s : Scheduler) (now : Nat) :
    s.schedule now = ((s.tick now).plan, (s.tick now).scheduler) := rfl

/-- The phases of a tick: requests end that are due, then others move, and the books stay in order. -/
theorem Owned.phases {s : Scheduler} (h : s.Owned) (now : Nat) :
    let expired := ({ scheduler := s } : Round).expire now
    Round.Dues now { scheduler := s } expired ∧ expired.scheduler.Owned ∧
      Round.Moves now expired expired.admitWaiting ∧ expired.admitWaiting.scheduler.Owned ∧
      Round.Moves now expired.admitWaiting (s.tick now) := by
  have hstart : ({ scheduler := s } : Round).scheduler.Owned := h
  have hexpire := Round.dues_expire hstart.ids now
  have howned := hexpire.moves.owned hstart
  have henter := Round.moves_admitWaiting howned now
  have howned' := henter.owned howned
  exact ⟨hexpire, howned, henter, howned', Round.moves_grow howned' now⟩

theorem Owned.moves_tick {s : Scheduler} (h : s.Owned) (now : Nat) :
    Round.Moves now { scheduler := s } (s.tick now) := by
  obtain ⟨hexpire, -, henter, -, hgrow⟩ := h.phases now
  exact (hexpire.moves.trans henter).trans hgrow

theorem Owned.tick {s : Scheduler} (h : s.Owned) (now : Nat) : (s.tick now).scheduler.Owned :=
  (h.moves_tick now).owned h

theorem Owned.schedule {s : Scheduler} (h : s.Owned) (now : Nat) : (s.schedule now).2.Owned :=
  h.tick now

/-- All running requests are batched, in order of admission. -/
theorem Enrolled.batch_eq {round : Round} (h : round.scheduler.Enrolled) :
    round.plan.batch = round.scheduler.running := by
  change ((_ : List Request).filter _).map _ = _
  rw [map_filter_lookup, List.filter_eq_self]
  intro id hid
  obtain ⟨r, hr, rfl, hrun⟩ := (h.running_iff id).mp hid
  rw [h.ids.request? hr]
  exact hrun

theorem Owned.batch_eq {round : Round} (h : round.scheduler.Owned) :
    round.plan.batch = round.scheduler.running := h.enrolled.batch_eq

/-- Right after a tick was planned, every request of its batch is ready. -/
theorem Owned.ready_of_tick {s : Scheduler} (h : s.Owned) {now : Nat} {r : Request}
    (hr : r ∈ (s.tick now).scheduler.requests) (hrun : r.state.isRunning = true) :
    (s.tick now).scheduler.cache.ReadyFor r := by
  obtain ⟨-, -, -, howned, -⟩ := h.phases now
  exact Round.ready_of_grow howned hr hrun

/-- No request is due that a tick leaves live. -/
theorem Owned.not_due_of_tick {s : Scheduler} (h : s.Owned) {now : Nat} {r : Request}
    (hr : r ∈ (s.tick now).scheduler.requests) (hlive : r.state.isTerminal = false) :
    r.expiry? now = none := by
  obtain ⟨-, -, henter, -, hgrow⟩ := h.phases now
  obtain ⟨x, hx, hf⟩ := Round.Moves.follows (henter.trans hgrow) r hr
  obtain ⟨hlx, hdue⟩ := hf.live hlive
  rw [hdue]
  exact Round.not_due_of_expire h.ids hx hlx

/-- While something is pending, a tick ends a request or batches one. -/
theorem Owned.tick_busy {s : Scheduler} (h : s.Owned) (hlive : ∀ r ∈ s.requests,
    r.state.isTerminal = false) (hseqs : 0 < s.config.maxSeqs) (hpending : s.hasPending = true)
    (now : Nat) : (s.tick now).Busy := by
  obtain ⟨hdues, howned, -, howned', -⟩ := h.phases now
  have hexpire := hdues.moves
  refine Round.Busy.grow (Round.busy_of_admitWaiting howned ?_ ?_) howned'
  · rw [hexpire.settings.config]
    exact hseqs
  · have hreported := hexpire.reported (.start hlive)
    by_cases hretired : (Round.expire { scheduler := s } now).retired = []
    · -- nobody ended, so whoever was pending still waits or runs
      obtain ⟨y, hy, -⟩ := h.exists_of_hasPending hpending
      have hid : y.id ∈ (Round.expire { scheduler := s } now).scheduler.requests.map Request.id := by
        rw [hexpire.ids]
        exact List.mem_map_of_mem hy
      obtain ⟨r, hr, -⟩ := List.mem_map.mp hid
      have hrlive : r.state.isTerminal = false := by
        have := hreported.iff r hr
        rw [hretired] at this
        simpa using this
      rcases RequestState.live_iff.mp hrlive with hq | hrun
      · exact .inl fun he => by simpa [he] using (howned.mem_waiting hr).mpr hq
      · exact .inr (.inr (List.ne_nil_of_mem ((howned.mem_running hr).mpr hrun)))
    · exact .inr (.inl hretired)

end Scheduler

end CausalServe
