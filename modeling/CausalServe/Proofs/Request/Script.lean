import CausalServe.Proofs.Request.Lifecycle

/-! A request under any calls in any order, legal or not. A call that is refused leaves no trace, and
an ended request refuses all of them. What a request tells about its end goes by the calls that it
heeded: the one end that it does not tell of is a failure that came as a bare event. -/

namespace CausalServe

inductive LifecycleCall
  | apply (e : RequestEvent)
  | fail (e : Error)

namespace LifecycleCall

def run : LifecycleCall → Action Request Unit
  | apply e => Request.applyInPlace e
  | fail e => Request.failInPlace e

def event : LifecycleCall → RequestEvent
  | apply e => e
  | fail e => .fail e.kind

def isPreempt : LifecycleCall → Bool
  | apply .preempt => true
  | _ => false

/-- The request after a call that it heeds. -/
def effect (r : Request) : LifecycleCall → Request
  | apply e => { r.told e with state := e.target }
  | fail e => r.failedBy e

/-- A call is refused as a whole, or has its whole effect. -/
theorem exec_run (call : LifecycleCall) (r : Request) : Action.exec call.run r =
    if r.state.allows call.event then (.ok (), call.effect r)
    else (.error (.invalidTransition r.state.name call.event.target.name), r) := by
  cases call with
  | apply e =>
    rw [run, Request.exec_applyInPlace, Request.apply, RequestState.transition, event]
    cases r.state.allows e <;> rfl
  | fail e =>
    rw [run, Request.exec_failInPlace, Request.fail, Request.apply, RequestState.transition, event]
    cases r.state.allows (.fail e.kind) <;> rfl

theorem state_effect (call : LifecycleCall) (r : Request) :
    (call.effect r).state = call.event.target := by
  cases call <;> rfl

/-- An ended request heeds no call. -/
theorem live_of_allows {s : RequestState} {e : RequestEvent} (h : s.allows e = true) :
    s.isTerminal = false := by
  cases s <;> simp_all [RequestState.allows, RequestState.isTerminal]

theorem refused {r : Request} (call : LifecycleCall) (h : r.state.isTerminal = true) :
    r.state.allows call.event = false := by
  by_contra hallowed
  simp [live_of_allows (Bool.eq_true_of_not_eq_false hallowed)] at h

theorem effect_of_isPreempt {r : Request} (call : LifecycleCall) (h : call.isPreempt = true) :
    (call.effect r).cached = 0 ∧ (call.effect r).slot = none := by
  match call, h with
  | .apply .preempt, _ => exact ⟨rfl, rfl⟩

end LifecycleCall

namespace Request

def after (r : Request) (calls : List LifecycleCall) : Request :=
  calls.foldl (fun r call => (Action.exec call.run r).2) r

def heeded (r : Request) : List LifecycleCall → List LifecycleCall
  | [] => []
  | call :: rest => match Action.exec call.run r with
    | (.ok (), next) => call :: next.heeded rest
    | (.error _, next) => next.heeded rest

structure Untouched (r : Request) : Prop where
  state : r.state = .queued
  finishReason : r.finishReason = none
  failure : r.failure = none
  preemptions : r.preemptions = 0

/-- What a request tells of the calls that it heeded. -/
structure TellsOf (r : Request) (calls : List LifecycleCall) : Prop where
  finishReason : r.finishReason.isSome = true ↔ r.state = .completed
  failure : r.failure.isSome = true ↔
    (r.state = .cancelled ∨ r.state = .failed) ∧ ∀ kind, .apply (.fail kind) ∉ calls
  /-- A bare failure ends the request like any other. -/
  live : r.state.isTerminal = false → ∀ kind, .apply (.fail kind) ∉ calls
  preemptions : r.preemptions = calls.countP LifecycleCall.isPreempt

theorem Untouched.tellsOf {r : Request} (h : r.Untouched) : r.TellsOf [] where
  finishReason := by simp [h.finishReason, h.state]
  failure := by simp [h.failure, h.state]
  live := by simp
  preemptions := by simp [h.preemptions]

theorem untouched_new (id : RequestId) (prompt : List Token) (sampling : SamplingConfig) :
    (Request.new id prompt sampling).Untouched := ⟨rfl, rfl, rfl, rfl⟩

theorem after_cons (r : Request) (call : LifecycleCall) (rest : List LifecycleCall) :
    r.after (call :: rest) = (Action.exec call.run r).2.after rest := rfl

namespace TellsOf

variable {r : Request} {calls : List LifecycleCall}

/-- A live request tells of no end. -/
theorem plain (h : r.TellsOf calls) (hlive : r.state.isTerminal = false) :
    r.finishReason = none ∧ r.failure = none := by
  have hreason := h.finishReason
  have hfailure := h.failure
  cases hs : r.state <;> simp_all [RequestState.isTerminal]

/-- One step of a script: a call that is heeded is told of. -/
theorem effect (h : r.TellsOf calls) {call : LifecycleCall}
    (hallowed : r.state.allows call.event = true) :
    (call.effect r).TellsOf (calls ++ [call]) := by
  have hlive := LifecycleCall.live_of_allows hallowed
  obtain ⟨hreason, hfailure⟩ := h.plain hlive
  have hbare := h.live hlive
  have hcount := h.preemptions
  cases call with
  | fail e =>
    constructor <;>
      simp [LifecycleCall.effect, failedBy, LifecycleCall.isPreempt, RequestState.isTerminal, *]
  | apply e =>
    cases e <;> constructor <;>
      simp [LifecycleCall.effect, told, RequestEvent.target, LifecycleCall.isPreempt,
        RequestState.isTerminal, List.countP_append, *]

/-- What holds of a request and the calls it has heeded holds after any more. -/
theorem after (h : r.TellsOf calls) (more : List LifecycleCall) :
    (r.after more).TellsOf (calls ++ r.heeded more) := by
  induction more generalizing r calls with
  | nil => simpa [Request.after, heeded] using h
  | cons call rest ih =>
    rw [after_cons, heeded]
    cases hallowed : r.state.allows call.event with
    | false => simpa [call.exec_run, hallowed] using ih h
    | true => simpa [call.exec_run, hallowed] using ih (h.effect hallowed)

end TellsOf

/-- An ended request stays as it is. -/
theorem after_of_isTerminal {r : Request} (h : r.state.isTerminal = true)
    (calls : List LifecycleCall) : r.after calls = r ∧ r.heeded calls = [] := by
  induction calls with
  | nil => exact ⟨rfl, rfl⟩
  | cons call rest ih => simpa [after_cons, heeded, call.exec_run, call.refused h] using ih

/-- A request under any script of calls. A call that the state does not allow errs and changes
nothing, and one that it allows succeeds. An ended request stays as it is. The finish reason is
told exactly of completion, the failure exactly of the other two ends unless a bare event brought
the end, and the preemptions are those that succeeded. -/
theorem Untouched.told_after_calls {r : Request} (h : r.Untouched) (calls : List LifecycleCall) :
    let now := r.after calls
    let heeded := r.heeded calls
    (∀ call : LifecycleCall, now.state.allows call.event = false →
      Action.exec call.run now =
        (.error (.invalidTransition now.state.name call.event.target.name), now)) ∧
    (∀ call : LifecycleCall, now.state.allows call.event = true →
      ∃ next, Action.exec call.run now = (.ok (), next) ∧ next.state = call.event.target ∧
        (call.isPreempt = true → next.cached = 0 ∧ next.slot = none)) ∧
    (now.state.isTerminal = true →
      (∀ call : LifecycleCall, ∃ e, Action.exec call.run now = (.error e, now)) ∧
      ∀ more, now.after more = now) ∧
    (now.finishReason.isSome = true ↔ now.state = .completed) ∧
    (now.failure.isSome = true ↔
      (now.state = .cancelled ∨ now.state = .failed) ∧ ∀ kind, .apply (.fail kind) ∉ heeded) ∧
    now.preemptions = heeded.countP LifecycleCall.isPreempt := by
  have told : (r.after calls).TellsOf (r.heeded calls) := h.tellsOf.after calls
  refine ⟨fun call hcall => ?_, fun call hcall => ?_, fun hend => ⟨fun call => ?_, fun more => ?_⟩,
    told.finishReason, told.failure, told.preemptions⟩
  · simp [call.exec_run, hcall]
  · exact ⟨call.effect (r.after calls), by simp [call.exec_run, hcall], call.state_effect _,
      call.effect_of_isPreempt⟩
  · exact ⟨_, by rw [call.exec_run, if_neg (by simp [call.refused hend])]⟩
  · exact (after_of_isTerminal hend more).1

/-- Admitted, preempted, preempted in the queue, which it refuses, admitted again, decoded, and
failed. -/
theorem told_after_two_admissions :
    let calls : List LifecycleCall := [.apply .admitted, .apply .preempt, .apply .preempt,
      .apply .admitted, .apply .prefillDone, .fail .cancelled, .apply .cancel]
    let r := Request.new 1 [7] (.greedy 4)
    r.Untouched ∧ (r.after calls).state = .failed ∧ (r.heeded calls).length = 5 ∧
      (r.after calls).preemptions = (r.heeded calls).countP LifecycleCall.isPreempt := by
  have h : (Request.new 1 [7] (.greedy 4)).Untouched := untouched_new ..
  exact ⟨h, by decide, by decide, (h.told_after_calls _).2.2.2.2.2⟩

/-- A failure that comes as a bare event ends the request without a word about it. -/
theorem failed_without_failure :
    let r := (Request.new 1 [7] (.greedy 4)).after [.apply (.fail .internal)]
    r.state = .failed ∧ r.failure = none ∧
      ¬ (r.failure.isSome = true ↔ r.state = .cancelled ∨ r.state = .failed) := by
  decide

end Request

end CausalServe
