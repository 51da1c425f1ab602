import CausalServe.Scheduler.Basic

/-! A tick under way: the scheduler, and what the phases so far report. Ending a request that has
ended already changes nothing. -/

namespace CausalServe

structure Round where
  scheduler : Scheduler
  /-- Requests that ended while the tick was planned. -/
  retired : List RequestId := []
  /-- Requests sent back to the queue. -/
  preempted : List RequestId := []

namespace Round

/-- Ends a request by an event. -/
def terminate (round : Round) (id : RequestId) (e : RequestEvent) : Round :=
  match round.scheduler.request? id with
  | none => round
  | some r => match r.apply e with
    | .error _ => round
    | .ok r =>
      { round with
        scheduler := round.scheduler.retire r
        retired := round.retired ++ [id] }

/-- Fails a request. -/
def fail (round : Round) (id : RequestId) (e : Error) : Round :=
  match Action.exec (Scheduler.failRequest id e) round.scheduler with
  | (.ok (), s) => { round with scheduler := s, retired := round.retired ++ [id] }
  | (.error _, s) => { round with scheduler := s }

/-- Sends a running request back to the queue, to the place that it had. -/
def preempt (round : Round) (id : RequestId) : Round :=
  match round.scheduler.request? id with
  | none => round
  | some r => match r.apply .preempt with
    | .error _ => round
    | .ok preempted =>
      { round with
        scheduler :=
          ((round.scheduler.update preempted).release id r.slot).enqueue preempted
        preempted := round.preempted ++ [id] }

end Round

end CausalServe
