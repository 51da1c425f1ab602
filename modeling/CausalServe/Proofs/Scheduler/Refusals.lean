import CausalServe.Proofs.Cache.Refusals
import CausalServe.Proofs.Scheduler.Operations

/-! The reasons for which an operation on a scheduler, or on the cache in it, is refused. One that is
refused leaves the scheduler as it was, with everything that is in its cache. -/

namespace CausalServe.Scheduler

/-- Works on the cache where it stands. What was written before the work failed stays written. -/
def onCache {α : Type} (work : Action Cache α) : Action Scheduler α := do
  let s ← get
  let (outcome, cache) := Action.exec work s.cache
  set { s with cache := cache }
  Action.ofExcept outcome

/-- An operation that may be refused, with all its arguments. -/
inductive Operation
  | addRequest (r : Request)
  | cancel (id : RequestId)
  | completeStep (id : RequestId) (token : Token) (eos : Option Token)
  | failRequest (id : RequestId) (e : Error)
  | cache (call : Cache.Call)

namespace Operation

def run : Operation → Action Scheduler Unit
  | addRequest r => Scheduler.addRequest r
  | cancel id => Scheduler.cancel id
  | completeStep id token eos => (fun _ => ()) <$> Scheduler.completeStep id token eos
  | failRequest id e => Scheduler.failRequest id e
  | cache call => (fun _ => ()) <$> onCache call.run

def request? : Operation → Option RequestId
  | cancel id | completeStep id _ _ | failRequest id _ => some id
  | addRequest _ | cache _ => none

end Operation

/-- Why an operation is refused, with the error that says so. -/
inductive Refuses (s : Scheduler) : Operation → Error → Prop
  | duplicate {r old : Request} (h : s.request? r.id = some old) :
      Refuses s (.addRequest r) (.invalidRequest (.duplicate r.id))
  | notQueued {r : Request} (hnew : s.request? r.id = none) (h : r.state ≠ .queued) :
      Refuses s (.addRequest r) (.invalidRequest (.notQueued r.id r.state.name))
  | unknown {op : Operation} {id : RequestId} (hid : op.request? = some id)
      (h : s.request? id = none) : Refuses s op (.requestNotFound id)
  | still {id : RequestId} {token : Token} {eos : Option Token} {r : Request}
      (h : s.request? id = some r) (hstill : r.state.isRunning = false) :
      Refuses s (.completeStep id token eos)
        (.invalidTransition r.state.name RequestState.decoding.name)
  | ended {id : RequestId} {e : Error} {r : Request} (h : s.request? id = some r)
      (hended : r.state.isTerminal = true) :
      Refuses s (.failRequest id e) (.invalidTransition r.state.name RequestState.failed.name)
  | cache {call : Cache.Call} {e : Error} (h : s.cache.Refuses call e) : Refuses s (.cache call) e

variable {s s' : Scheduler}

theorem exec_onCache {α : Type} (work : Action Cache α) (s : Scheduler) :
    Action.exec (onCache work) s =
      ((Action.exec work s.cache).1, { s with cache := (Action.exec work s.cache).2 }) := by
  simp [onCache, Action.exec_bind]

/-! ## What every operation answers -/

variable {op : Operation} {e : Error}

/-- Where there is a reason to refuse it, an operation fails before its first write. -/
theorem exec_of_refuses (h : s.Refuses op e) : Action.exec op.run s = (.error e, s) := by
  cases h with
  | duplicate hold => exact exec_addRequest_of_known hold
  | notQueued hnew hbegun => exact exec_addRequest_of_begun hnew hbegun
  | unknown hid hnone =>
    cases op with
    | addRequest r => cases hid
    | cancel id =>
      cases hid
      rw [Operation.run, exec_cancel, hnone]
    | completeStep id token eos =>
      cases hid
      rw [Operation.run, Action.exec_map, exec_completeStep_of_unknown hnone]
    | failRequest id fault =>
      cases hid
      exact exec_failRequest_of_unknown hnone fault
    | cache call => cases hid
  | still hr hstill =>
    rw [Operation.run, Action.exec_map, exec_completeStep_of_still hr hstill]
  | ended hr hended => exact exec_failRequest_of_ended hr hended _
  | @cache call _ hcall =>
    have herror := (s.cache.run_error_iff call e).mpr hcall
    rw [Operation.run, Action.exec_map, exec_onCache, herror,
      s.cache.unchanged_of_error call herror]

/-- An operation that fails had a reason to. -/
theorem refuses_of_error (h : (Action.exec op.run s).1 = .error e) : s.Refuses op e := by
  cases op with
  | addRequest r =>
    rw [Operation.run] at h
    cases hold : s.request? r.id with
    | some old =>
      rw [exec_addRequest_of_known hold] at h
      cases h
      exact .duplicate hold
    | none =>
      by_cases hqueued : r.state = .queued
      · rw [exec_addRequest hold hqueued] at h
        cases h
      · rw [exec_addRequest_of_begun hold hqueued] at h
        cases h
        exact .notQueued hold hqueued
  | cancel id =>
    rw [Operation.run, exec_cancel] at h
    split at h
    · cases h
    next hnone =>
      cases h
      exact .unknown rfl hnone
  | completeStep id token eos =>
    rw [Operation.run, Action.exec_map_error_iff] at h
    cases hr : s.request? id with
    | none =>
      rw [exec_completeStep_of_unknown hr] at h
      cases h
      exact .unknown rfl hr
    | some r =>
      cases hrun : r.state.isRunning with
      | false =>
        rw [exec_completeStep_of_still hr hrun] at h
        cases h
        exact .still hr hrun
      | true =>
        rw [exec_completeStep hr hrun] at h
        split at h <;> cases h
  | failRequest id fault =>
    rw [Operation.run] at h
    cases hr : s.request? id with
    | none =>
      rw [exec_failRequest_of_unknown hr] at h
      cases h
      exact .unknown rfl hr
    | some r =>
      cases hended : r.state.isTerminal with
      | false =>
        rw [exec_failRequest hr hended] at h
        cases h
      | true =>
        rw [exec_failRequest_of_ended hr hended] at h
        cases h
        exact .ended hr hended
  | cache call =>
    rw [Operation.run, Action.exec_map_error_iff, exec_onCache, Cache.run_error_iff] at h
    exact .cache h

namespace Operation

/-- An operation on a scheduler in any state, reachable or not, fails exactly where there is a
reason to refuse it, and then the scheduler stays as it was, its cache included. -/
theorem fails_iff_refused (op : Operation) (s s' : Scheduler) (e : Error) :
    Action.exec op.run s = (.error e, s') ↔ s.Refuses op e ∧ s' = s := by
  constructor
  · intro h
    have hrefused : s.Refuses op e := refuses_of_error (by rw [h])
    rw [exec_of_refuses hrefused] at h
    exact ⟨hrefused, (Prod.mk.inj h).2.symm⟩
  · rintro ⟨hrefused, rfl⟩
    exact exec_of_refuses hrefused

end Operation

end CausalServe.Scheduler
