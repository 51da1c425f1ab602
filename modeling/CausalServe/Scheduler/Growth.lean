import CausalServe.Scheduler.Round

/-! The third phase of a tick: every running request reserves room for what it is about to feed.
Where the budget is used up, the request that grew longest ago gives way, or, if none can, the
request itself fails. -/

namespace CausalServe.Round

/-- The owner of the slot to free for another one. -/
def victim? (round : Round) (slot : SlotId) : Option RequestId :=
  let s := round.scheduler
  match s.cacheConfig.pressurePolicy with
  | .refuseAdmission => none
  | .evictLeastRecent | .preemptLeastRecent =>
    (s.cache.leastRecentlyExtended [slot]).bind fun other => (s.cache.owner other).toOption

/-- Makes a request give way to another one. -/
def giveWay (round : Round) (victim id : RequestId) : Round :=
  if round.scheduler.cacheConfig.pressurePolicy = .preemptLeastRecent then round.preempt victim
  else round.fail victim (.cacheOverflow (.evictedFor id))

/-- The positions that a request needs in its slot; refused if the slot can never hold them. -/
def positionsNeeded (round : Round) (r : Request) (slot : SlotId) : Except Error Nat := do
  let cache := round.scheduler.cache
  let needed := (← cache.len slot) + r.pendingLen
  let capacity ← cache.capacity slot
  if capacity < needed ∧ cache.overflowPolicy = .reject then
    throw (.cacheOverflow (.beyondCapacity r.id needed slot capacity))
  return needed

/-- Reserves room for one request. Each request that gives way leaves fewer running. -/
def growOne (round : Round) (id : RequestId) : Round :=
  match round.scheduler.requests.find? fun r => r.id = id && r.state.isRunning with
  | none => round
  | some r => match r.slot with
    | none => round
    | some slot => match round.positionsNeeded r slot with
      | .error e => round.fail id e
      | .ok needed =>
        match Action.exec (Cache.reserve slot needed) round.scheduler.cache with
        | (.ok (), cache) =>
          { round with scheduler := { round.scheduler with cache := cache } }
        | (.error e, _) => match round.victim? slot with
          | none => round.fail id e
          | some victim =>
            let next := round.giveWay victim id
            if _h : next.scheduler.running.length < round.scheduler.running.length then
              growOne next id
            else next
termination_by round.scheduler.running.length

/-- Reserves room for the running requests, in order of admission. -/
def grow (round : Round) : Round := round.scheduler.running.foldl growOne round

end CausalServe.Round
