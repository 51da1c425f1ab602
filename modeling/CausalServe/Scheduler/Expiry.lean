import CausalServe.Scheduler.Round

/-! The first phase of a tick: requests that are cancelled, out of time or out of steps end. -/

namespace CausalServe

/-- How a request that must end does so; cancellation comes before time and steps. -/
def Request.expiry? (r : Request) (now : Nat) : Option RequestEvent :=
  if r.cancelRequested then some .cancel
  else if r.isTimedOut now || r.isStepBudgetExhausted then some .timeout
  else none

namespace Round

def expireOne (now : Nat) (round : Round) (r : Request) : Round :=
  match r.expiry? now with
  | some e => round.terminate r.id e
  | none => round

/-- Ends the live requests that are due, in order of arrival. -/
def expire (round : Round) (now : Nat) : Round :=
  (round.scheduler.requests.filter fun r => !r.state.isTerminal).foldl (expireOne now) round

end Round

end CausalServe
