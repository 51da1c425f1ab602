import CausalServe.Proofs.Cache.Calls
import CausalServe.Proofs.Scheduler.Ownership

/-! The operations on single requests: what each does to the scheduler that it finds, and that it
leaves the books in order. One that fails changes nothing. -/

namespace CausalServe.Scheduler

/-! ## What they do -/

def arrived (s : Scheduler) (r : Request) : Scheduler :=
  { s with
    requests := s.requests ++ [{ r with arrivalSeq := s.arrivals }]
    arrivals := s.arrivals + 1 }.enqueue { r with arrivalSeq := s.arrivals }

theorem mem_arrived {s : Scheduler} {r x : Request} :
    x ∈ (s.arrived r).requests ↔ x ∈ s.requests ∨ x = { r with arrivalSeq := s.arrivals } := by
  simp [arrived, enqueue]

theorem ids_arrived (s : Scheduler) (r : Request) :
    (s.arrived r).requests.map Request.id = s.requests.map Request.id ++ [r.id] := by
  rw [arrived, enqueue, List.map_append]
  rfl

theorem exec_addRequest {s : Scheduler} {r : Request} (hnew : s.request? r.id = none)
    (hq : r.state = .queued) : Action.exec (addRequest r) s = (.ok (), s.arrived r) := by
  simp [addRequest, Action.exec_bind, hnew, hq, arrived]

theorem exec_addRequest_of_known {s : Scheduler} {r old : Request}
    (h : s.request? r.id = some old) :
    Action.exec (addRequest r) s = (.error (.invalidRequest (.duplicate r.id)), s) := by
  simp [addRequest, Action.exec_bind, h]

theorem exec_addRequest_of_begun {s : Scheduler} {r : Request} (hnew : s.request? r.id = none)
    (hq : r.state ≠ .queued) :
    Action.exec (addRequest r) s =
      (.error (.invalidRequest (.notQueued r.id r.state.name)), s) := by
  simp [addRequest, Action.exec_bind, hnew, hq]

theorem addRequest_cases (s : Scheduler) (r : Request) :
    (∃ e, Action.exec (addRequest r) s = (.error e, s)) ∨
      s.request? r.id = none ∧ r.state = .queued ∧
        Action.exec (addRequest r) s = (.ok (), s.arrived r) := by
  cases hf : s.request? r.id with
  | some old => exact .inl ⟨_, exec_addRequest_of_known hf⟩
  | none =>
    by_cases hq : r.state = .queued
    · exact .inr ⟨rfl, hq, exec_addRequest hf hq⟩
    · exact .inl ⟨_, exec_addRequest_of_begun hf hq⟩

theorem exec_cancel (s : Scheduler) (id : RequestId) :
    Action.exec (cancel id) s = match s.request? id with
      | some r => (.ok (), s.update { r with cancelRequested := true })
      | none => (.error (.requestNotFound id), s) := by
  unfold cancel
  cases h : s.request? id with
  | none => simp [Action.exec_bind, request_of_none h]
  | some r => simp [Action.exec_bind, request_of_request? h]

theorem exec_failRequest {s : Scheduler} {id : RequestId} {r : Request}
    (h : s.request? id = some r) (hlive : r.state.isTerminal = false) (e : Error) :
    Action.exec (failRequest id e) s =
      (.ok (), s.retire (r.failedBy e)) := by
  simp [failRequest, Action.exec_bind, request_of_request? h, Request.fail_of_live hlive]

theorem exec_failRequest_of_unknown {s : Scheduler} {id : RequestId} (h : s.request? id = none)
    (e : Error) : Action.exec (failRequest id e) s = (.error (.requestNotFound id), s) := by
  simp [failRequest, Action.exec_bind, request_of_none h]

theorem exec_failRequest_of_ended {s : Scheduler} {id : RequestId} {r : Request}
    (h : s.request? id = some r) (hended : r.state.isTerminal = true) (e : Error) :
    Action.exec (failRequest id e) s =
      (.error (.invalidTransition r.state.name RequestState.failed.name), s) := by
  simp [failRequest, Action.exec_bind, request_of_request? h, Request.fail_of_terminal hended e]

/-- Only a live request can be failed. -/
theorem failRequest_cases (s : Scheduler) (id : RequestId) (e : Error) :
    (∃ fault, Action.exec (failRequest id e) s = (.error fault, s)) ∨
      ∃ r, s.request? id = some r ∧ r.state.isTerminal = false ∧
        Action.exec (failRequest id e) s =
          (.ok (), s.retire (r.failedBy e)) := by
  cases h : s.request? id with
  | none => exact .inl ⟨_, exec_failRequest_of_unknown h e⟩
  | some r =>
    cases ht : r.state.isTerminal with
    | true => exact .inl ⟨_, exec_failRequest_of_ended h ht e⟩
    | false => exact .inr ⟨r, rfl, ht, exec_failRequest h ht e⟩

/-- Work on a stored request replaces it, whether the work succeeds or not. -/
theorem exec_onRequest {α : Type} {s : Scheduler} {id : RequestId} {r : Request}
    (h : s.request? id = some r) (work : Action Request α) :
    Action.exec (onRequest id work) s =
      ((Action.exec work r).1, s.update (Action.exec work r).2) := by
  simp [onRequest, Action.exec_bind, request_of_request? h]

/-- What stood in the place of a request that ends does not matter. -/
theorem retire_update (s : Scheduler) {r ended : Request} (h : ended.id = r.id) :
    (s.update r).retire ended = s.retire ended := by
  have hid : { ended with slot := none : Request }.id = r.id := h
  unfold retire
  rw [update_update s hid]

theorem exec_completeRequest {s : Scheduler} {id : RequestId} {r : Request}
    (h : s.request? id = some r) (hrun : r.state.isRunning = true) (reason : FinishReason) :
    Action.exec (completeRequest id reason) s = (.ok (), s.retire (r.completed reason)) := by
  obtain ⟨-, rfl⟩ := mem_of_request? h
  have hended : (s.update (r.completed reason)).request? r.id = some (r.completed reason) :=
    request?_update (show s.request? (r.completed reason).id = some r from h)
  unfold completeRequest
  simp only [Action.exec_bind, Action.exec_get, Action.exec_ofExcept, request_of_request? h,
    exec_onRequest h, Request.exec_applyInPlace, Request.apply_finish hrun, exec_onRequest hended,
    Action.exec_modify]
  have hid : { r.completed reason with slot := none }.id = (r.completed reason).id := rfl
  rw [update_update s hid]
  rfl

/-- After its first stage the request still runs, so that none of those that follow fails. -/
theorem exec_completeStep {s : Scheduler} {id : RequestId} {r : Request}
    (h : s.request? id = some r) (hrun : r.state.isRunning = true) (token : Token)
    (eos : Option Token) :
    Action.exec (completeStep id token eos) s = match (r.stepped token).checkStop eos with
      | none => (.ok none, s.update (r.stepped token))
      | some reason => (.ok (some reason), s.retire ((r.stepped token).completed reason)) := by
  obtain ⟨-, rfl⟩ := mem_of_request? h
  have hstepped : (s.update (r.stepped token)).request? r.id = some (r.stepped token) :=
    request?_update (show s.request? (r.stepped token).id = some r from h)
  unfold completeStep
  simp only [Action.exec_bind, Action.exec_get, Action.exec_ofExcept, request_of_request? h, hrun,
    Bool.not_true, Bool.false_eq_true, if_false, exec_onRequest h,
    Request.exec_advanceInPlace hrun, request_of_request? hstepped]
  cases (r.stepped token).checkStop eos with
  | none => rfl
  | some reason =>
    have hid : ((r.stepped token).completed reason).id = (r.stepped token).id := rfl
    simp only [Action.exec_bind, exec_completeRequest hstepped rfl, retire_update s hid]
    rfl

theorem exec_completeStep_of_unknown {s : Scheduler} {id : RequestId} (h : s.request? id = none)
    (token : Token) (eos : Option Token) :
    Action.exec (completeStep id token eos) s = (.error (.requestNotFound id), s) := by
  simp [completeStep, Action.exec_bind, request_of_none h]

theorem exec_completeStep_of_still {s : Scheduler} {id : RequestId} {r : Request}
    (h : s.request? id = some r) (hstill : r.state.isRunning = false) (token : Token)
    (eos : Option Token) :
    Action.exec (completeStep id token eos) s =
      (.error (.invalidTransition r.state.name RequestState.decoding.name), s) := by
  simp [completeStep, Action.exec_bind, request_of_request? h, hstill]

/-- Only a running request makes a step. -/
theorem completeStep_cases (s : Scheduler) (id : RequestId) (token : Token) (eos : Option Token) :
    (∃ fault, Action.exec (completeStep id token eos) s = (.error fault, s)) ∨
      ∃ r, s.request? id = some r ∧ r.state.isRunning = true := by
  cases h : s.request? id with
  | none => exact .inl ⟨_, exec_completeStep_of_unknown h token eos⟩
  | some r =>
    cases hrun : r.state.isRunning with
    | false => exact .inl ⟨_, exec_completeStep_of_still h hrun token eos⟩
    | true => exact .inr ⟨r, rfl, hrun⟩

/-- A running request can be failed at any time. -/
theorem DistinctIds.still_of_failRequest {s : Scheduler} (h : s.DistinctIds) {id : RequestId}
    {e fault : Error} (hexec : Action.exec (failRequest id e) s = (.error fault, s)) {r : Request}
    (hr : r ∈ s.requests) (hid : r.id = id) : r.state.isRunning = false := by
  cases hrun : r.state.isRunning with
  | false => rfl
  | true =>
    have hok := exec_failRequest (h.request? hr) (RequestState.isTerminal_of_isRunning hrun) e
    rw [hid, hexec] at hok
    cases hok

/-- A running request can make its step. -/
theorem DistinctIds.still_of_completeStep {s : Scheduler} (h : s.DistinctIds) {id : RequestId}
    {token : Token} {eos : Option Token} {fault : Error}
    (hexec : Action.exec (completeStep id token eos) s = (.error fault, s)) {r : Request}
    (hr : r ∈ s.requests) (hid : r.id = id) : r.state.isRunning = false := by
  cases hrun : r.state.isRunning with
  | false => rfl
  | true =>
    have hok := exec_completeStep (h.request? hr) hrun token eos
    rw [hid, hexec] at hok
    split at hok <;> cases hok

theorem removeRequest_of_some {s : Scheduler} {id : RequestId} {r : Request}
    (h : s.request? id = some r) : s.removeRequest id =
      (some { r with slot := none },
        { s with requests := s.requests.filter fun old => old.id ≠ id }.release id r.slot) := by
  simp [removeRequest, h]

theorem removeRequest_of_none {s : Scheduler} {id : RequestId} (h : s.request? id = none) :
    s.removeRequest id = (none, s) := by
  simp [removeRequest, h]

theorem retire_of_no_slot (s : Scheduler) {r : Request} (h : r.slot = none) :
    s.retire r = (s.update r).release r.id none := by
  cases r
  cases h
  rfl

/-! ## What they keep -/

theorem Owned.addRequest {s : Scheduler} (h : s.Owned) {r : Request} (hslot : r.slot = none) :
    (Action.exec (addRequest r) s).2.Owned := by
  rcases addRequest_cases s r with ⟨e, he⟩ | ⟨hnew, hq, he⟩ <;> rw [he]
  · exact h
  · exact h.add (r := { r with arrivalSeq := s.arrivals }) hnew hq hslot _

theorem Owned.cancel {s : Scheduler} (h : s.Owned) (id : RequestId) :
    (Action.exec (cancel id) s).2.Owned := by
  rw [exec_cancel]
  split
  next r hr => exact h.update (mem_of_request? hr).1 rfl Iff.rfl rfl rfl
  next => exact h

theorem Owned.removeRequest {s : Scheduler} (h : s.Owned) (id : RequestId) :
    (s.removeRequest id).2.Owned := by
  cases hr : s.request? id with
  | none => rw [removeRequest_of_none hr]; exact h
  | some r =>
    obtain ⟨hm, rfl⟩ := mem_of_request? hr
    rw [removeRequest_of_some hr]
    exact h.remove hm

theorem Owned.failRequest {s : Scheduler} (h : s.Owned) (id : RequestId) (e : Error) :
    (Action.exec (failRequest id e) s).2.Owned := by
  rcases failRequest_cases s id e with ⟨fault, he⟩ | ⟨r, hr, -, he⟩ <;> rw [he]
  · exact h
  · exact h.retire (mem_of_request? hr).1 rfl rfl rfl

theorem Owned.completeStep {s : Scheduler} (h : s.Owned) (id : RequestId) (token : Token)
    (eos : Option Token) : (Action.exec (completeStep id token eos) s).2.Owned := by
  rcases completeStep_cases s id token eos with ⟨fault, he⟩ | ⟨r, hr, hrun⟩
  · rw [he]; exact h
  · have hm := (mem_of_request? hr).1
    rw [exec_completeStep hr hrun]
    split
    · exact h.update hm rfl (RequestState.queued_iff_of_isRunning rfl hrun) hrun.symm rfl
    · exact h.retire hm rfl rfl rfl

theorem Owned.append {s : Scheduler} (h : s.Owned) (slot : SlotId) (layer : Nat)
    (key value : List Float32) :
    { s with cache := (Action.exec (Cache.append slot layer key value) s.cache).2 }.Owned :=
  h.withCache (h.sound.append slot layer key value) fun other =>
    Cache.holder_append s.cache slot layer key value other

/-! ## What none of them touches -/

theorem called_freed (c : Cache) (slot : Option SlotId) : Cache.Called c (freed c slot) := by
  cases slot with
  | none => exact .refl
  | some slot => exact Cache.called_evict c slot

/-- The settings stay, and the cache changes by calls alone. -/
structure Calls (s s' : Scheduler) : Prop where
  config : s'.config = s.config
  cacheConfig : s'.cacheConfig = s.cacheConfig
  called : Cache.Called s.cache s'.cache

theorem Calls.refl (s : Scheduler) : Calls s s := ⟨rfl, rfl, .refl⟩

theorem Calls.trans {a b c : Scheduler} (h : Calls a b) (h' : Calls b c) : Calls a c :=
  ⟨h'.config.trans h.config, h'.cacheConfig.trans h.cacheConfig, h.called.trans h'.called⟩

theorem retire_calls (s : Scheduler) (r : Request) : Calls s (s.retire r) := by
  rw [Scheduler.retire, release_eq]
  exact ⟨rfl, rfl, called_freed s.cache r.slot⟩

theorem addRequest_calls (s : Scheduler) (r : Request) :
    Calls s (Action.exec (addRequest r) s).2 := by
  rcases addRequest_cases s r with ⟨e, he⟩ | ⟨-, -, he⟩ <;> rw [he]
  · exact .refl s
  · exact ⟨rfl, rfl, .refl⟩

theorem cancel_calls (s : Scheduler) (id : RequestId) : Calls s (Action.exec (cancel id) s).2 := by
  rw [exec_cancel]
  split <;> exact ⟨rfl, rfl, .refl⟩

theorem removeRequest_calls (s : Scheduler) (id : RequestId) : Calls s (s.removeRequest id).2 := by
  cases hr : s.request? id with
  | none => rw [removeRequest_of_none hr]; exact .refl s
  | some r =>
    rw [removeRequest_of_some hr, release_eq]
    exact ⟨rfl, rfl, called_freed s.cache r.slot⟩

theorem failRequest_calls (s : Scheduler) (id : RequestId) (e : Error) :
    Calls s (Action.exec (failRequest id e) s).2 := by
  rcases failRequest_cases s id e with ⟨fault, he⟩ | ⟨r, -, -, he⟩ <;> rw [he]
  · exact .refl s
  · exact retire_calls s _

theorem completeStep_calls (s : Scheduler) (id : RequestId) (token : Token) (eos : Option Token) :
    Calls s (Action.exec (completeStep id token eos) s).2 := by
  rcases completeStep_cases s id token eos with ⟨fault, he⟩ | ⟨r, hr, hrun⟩
  · rw [he]; exact .refl s
  · rw [exec_completeStep hr hrun]
    split
    · exact ⟨rfl, rfl, .refl⟩
    · exact retire_calls s _

structure SameSettings (s s' : Scheduler) : Prop where
  config : s'.config = s.config
  cacheConfig : s'.cacheConfig = s.cacheConfig
  limits : Cache.SameLimits s.cache s'.cache

theorem SameSettings.refl (s : Scheduler) : SameSettings s s := ⟨rfl, rfl, .refl _⟩

theorem SameSettings.trans {a b c : Scheduler} (h : SameSettings a b) (h' : SameSettings b c) :
    SameSettings a c :=
  ⟨h'.config.trans h.config, h'.cacheConfig.trans h.cacheConfig, h.limits.trans h'.limits⟩

theorem Calls.settings {s s' : Scheduler} (h : Calls s s') : SameSettings s s' :=
  ⟨h.config, h.cacheConfig, h.called.limits⟩

theorem freed_limits (c : Cache) (slot : Option SlotId) : Cache.SameLimits c (freed c slot) :=
  (called_freed c slot).limits

end CausalServe.Scheduler
