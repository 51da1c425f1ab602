import CausalServe.Number.Total
import CausalServe.Scheduler.Admission
import CausalServe.Scheduler.Expiry
import CausalServe.Scheduler.Growth

/-! A tick: requests that are due end, others are admitted, all that run reserve room, and those
that still run form the batch. -/

namespace CausalServe

/-- What to run in one forward pass, and what happened while it was planned. -/
structure TickPlan where
  /-- Requests that feed their prompt. -/
  prefill : List RequestId
  /-- Requests that feed one token. -/
  decode : List RequestId
  /-- All of them, in order of admission. -/
  batch : List RequestId
  retired : List RequestId
  preempted : List RequestId
  prefillTokens : Nat
  decodeTokens : Nat
deriving DecidableEq, Repr

def TickPlan.numTokens (p : TickPlan) : Nat := p.prefillTokens + p.decodeTokens

namespace Round

/-- The running requests in a state. -/
def members (round : Round) (state : RequestState) : List Request :=
  (round.scheduler.running.filterMap round.scheduler.request?).filter fun r => r.state = state

def plan (round : Round) : TickPlan :=
  let running := round.scheduler.running.filterMap round.scheduler.request?
  let prefill := round.members .prefilling
  let decode := round.members .decoding
  { prefill := prefill.map Request.id
    decode := decode.map Request.id
    batch := (running.filter fun r => r.state.isRunning).map Request.id
    retired := round.retired
    preempted := round.preempted
    prefillTokens := total Request.pendingLen prefill
    decodeTokens := total Request.pendingLen decode }

end Round

/-- Plans the tick at a time. -/
def Scheduler.schedule (s : Scheduler) (now : Nat) : TickPlan × Scheduler :=
  let start : Round := { scheduler := s }
  let round := ((start.expire now).admitWaiting).grow
  (round.plan, round.scheduler)

end CausalServe
