import CausalServe.Proofs.Scheduler.Changes
import CausalServe.Proofs.Scheduler.Reachable

/-! Every state that a scheduler can be brought to by its operations and by calls of its cache that
nobody told it of, whatever the requests that are added say is cached. The requests stand in line in
all of them, and the cache is sound. -/

namespace CausalServe.Scheduler

/-- The states of a scheduler in use, its cache included. -/
inductive Operated (config : SchedulerConfig) (cacheConfig : CacheConfig) (layout : Layout) :
    Scheduler → Prop
  | new : Operated config cacheConfig layout (.new config cacheConfig layout)
  | addRequest {s : Scheduler} (h : Operated config cacheConfig layout s) {r : Request}
      (hslot : r.slot = none) : Operated config cacheConfig layout (Action.exec (addRequest r) s).2
  | removeRequest {s : Scheduler} (h : Operated config cacheConfig layout s) (id : RequestId) :
      Operated config cacheConfig layout (s.removeRequest id).2
  | cancel {s : Scheduler} (h : Operated config cacheConfig layout s) (id : RequestId) :
      Operated config cacheConfig layout (Action.exec (cancel id) s).2
  | schedule {s : Scheduler} (h : Operated config cacheConfig layout s) (now : Nat) :
      Operated config cacheConfig layout (s.schedule now).2
  | completeStep {s : Scheduler} (h : Operated config cacheConfig layout s) (id : RequestId)
      (token : Token) (eos : Option Token) :
      Operated config cacheConfig layout (Action.exec (completeStep id token eos) s).2
  | failRequest {s : Scheduler} (h : Operated config cacheConfig layout s) (id : RequestId)
      (e : Error) : Operated config cacheConfig layout (Action.exec (failRequest id e) s).2
  | call {s : Scheduler} (h : Operated config cacheConfig layout s) (call : Cache.Call) :
      Operated config cacheConfig layout { s with cache := (Action.exec call.run s.cache).2 }

variable {config : SchedulerConfig} {cacheConfig : CacheConfig} {layout : Layout} {s s' : Scheduler}

/-! ## The line -/

theorem Lined.addRequest (h : s.Lined) {r : Request} (hslot : r.slot = none) :
    (Action.exec (addRequest r) s).2.Lined := by
  rcases addRequest_cases s r with ⟨e, he⟩ | ⟨hnew, hq, he⟩ <;> rw [he]
  · exact h
  · exact h.add (r := { r with arrivalSeq := s.arrivals }) hnew hq hslot rfl

theorem Lined.cancel (h : s.Lined) (id : RequestId) : (Action.exec (cancel id) s).2.Lined := by
  rw [exec_cancel]
  split
  next r hr => exact h.update (mem_of_request? hr).1 rfl Iff.rfl rfl rfl
  next => exact h

theorem Lined.removeRequest (h : s.Lined) (id : RequestId) : (s.removeRequest id).2.Lined := by
  cases hr : s.request? id with
  | none => rw [removeRequest_of_none hr]; exact h
  | some r => rw [removeRequest_of_some hr]; exact h.remove id r.slot

theorem Lined.failRequest (h : s.Lined) (id : RequestId) (e : Error) :
    (Action.exec (failRequest id e) s).2.Lined := by
  rcases failRequest_cases s id e with ⟨fault, he⟩ | ⟨r, hr, -, he⟩ <;> rw [he]
  · exact h
  · have hended : (r.failedBy e).standing = r.standing := rfl
    exact h.retire (mem_of_request? hr).1 hended rfl

theorem Lined.completeStep (h : s.Lined) (id : RequestId) (token : Token) (eos : Option Token) :
    (Action.exec (completeStep id token eos) s).2.Lined := by
  rcases completeStep_cases s id token eos with ⟨fault, he⟩ | ⟨r, hr, hrun⟩
  · rw [he]; exact h
  · have hm := (mem_of_request? hr).1
    rw [exec_completeStep hr hrun]
    split
    · have hstepped : (r.stepped token).standing = r.standing := rfl
      exact h.update hm hstepped (RequestState.queued_iff_of_isRunning rfl hrun) hrun.symm rfl
    next reason _ =>
      have hended : ((r.stepped token).completed reason).standing = r.standing := rfl
      exact h.retire hm hended rfl

theorem Lined.tick (h : s.Lined) (now : Nat) : (s.tick now).scheduler.Lined := by
  obtain ⟨-, -, -, hlined, hdepart⟩ := h.phases now
  exact hdepart.shifts.lined hlined

theorem Operated.lined (h : Operated config cacheConfig layout s) : s.Lined := by
  induction h with
  | new => exact .new config cacheConfig layout
  | addRequest _ hslot ih => exact ih.addRequest hslot
  | removeRequest _ id ih => exact ih.removeRequest id
  | cancel _ id ih => exact ih.cancel id
  | schedule _ now ih => exact ih.tick now
  | completeStep _ id token eos ih => exact ih.completeStep id token eos
  | failRequest _ id e ih => exact ih.failRequest id e
  | call _ call ih => exact ih.withCache _

/-! ## The settings and the cache -/

theorem Lined.tick_calls (h : s.Lined) (now : Nat) : Calls s (s.tick now).scheduler := by
  obtain ⟨hdues, -, hshifts, -, hdepart⟩ := h.phases now
  exact (hdues.calls.trans hshifts.calls).trans hdepart.shifts.calls

theorem Operated.calls (h : Operated config cacheConfig layout s) :
    Calls (.new config cacheConfig layout) s := by
  induction h with
  | new => exact .refl _
  | addRequest _ _ ih => exact ih.trans (addRequest_calls _ _)
  | removeRequest _ id ih => exact ih.trans (removeRequest_calls _ id)
  | cancel _ id ih => exact ih.trans (cancel_calls _ id)
  | schedule h now ih => exact ih.trans (h.lined.tick_calls now)
  | completeStep _ id token eos ih => exact ih.trans (completeStep_calls _ id token eos)
  | failRequest _ id e ih => exact ih.trans (failRequest_calls _ id e)
  | call _ call ih => exact ih.trans ⟨rfl, rfl, .single ⟨call, rfl⟩⟩

theorem Operated.sound (h : Operated config cacheConfig layout s) : s.cache.Sound :=
  h.calls.called.sound (.new layout cacheConfig)

/-- A scheduler that is used through its operations alone is in use. -/
theorem Reachable.operated (h : Reachable config cacheConfig layout s) :
    Operated config cacheConfig layout s := by
  induction h with
  | new => exact .new
  | addRequest _ hr ih => exact ih.addRequest hr.slot
  | removeRequest _ id ih => exact ih.removeRequest id
  | cancel _ id ih => exact ih.cancel id
  | schedule _ now ih => exact ih.schedule now
  | completeStep _ id token eos ih => exact ih.completeStep id token eos
  | failRequest _ id e ih => exact ih.failRequest id e
  | @append s _ slot layer key value ih =>
    have := ih.call (.append slot layer key value)
    rwa [Cache.Call.run, Action.exec_map_snd] at this

end CausalServe.Scheduler
