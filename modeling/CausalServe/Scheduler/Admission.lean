import CausalServe.Scheduler.Round

/-! The second phase of a tick: requests are admitted from the front of the queue, while there are
places in the batch and the budgets of prompt tokens and of bytes allow. The first request that
must wait ends the phase, so nothing overtakes it. -/

namespace CausalServe

/-- How the first request of the queue fares. -/
inductive Admission
  | admitted (r : Request) (cache : Cache)
  | refused (r : Request) (e : Error)
  /-- Stays where it is; nothing behind it is looked at. -/
  | postponed (r : Request) (cache : Cache)

/-- A queued request with its slot. -/
def Request.startIn (r : Request) (slot : SlotId) : Request :=
  { r with state := .prefilling, slot := some slot }

namespace Scheduler

/-- The request with a prompt that fits the context: an over-long one is cut or refused. -/
def fitPrompt (s : Scheduler) (r : Request) : Except Error Request :=
  let limit := s.cacheConfig.maxContext
  if r.prompt.length ≤ limit then .ok r
  else if s.config.truncateLongPrompts then .ok (r.truncatePrompt limit)
  else .error (.promptTooLong r.prompt.length limit)

/-- The positions to reserve at admission. Where running requests are never made to give way, it is
all that the request can come to need. -/
def positionsFor (s : Scheduler) (r : Request) : Nat :=
  let positions := match s.cacheConfig.pressurePolicy with
    | .refuseAdmission => max r.maxTotalLen r.pendingLen
    | .evictLeastRecent | .preemptLeastRecent => r.pendingLen
  min positions s.cacheConfig.maxContext

/-- Gives a request a slot with a number of positions. -/
def place (s : Scheduler) (r : Request) (positions : Nat) : Admission :=
  match Action.exec (Cache.allocate r.id s.cacheConfig.maxContext) s.cache with
  | (.error e, _) => .refused r e
  | (.ok slot, cache) => match Action.exec (Cache.reserve slot positions) cache with
    | (.ok (), cache) => .admitted (r.startIn slot) cache
    | (.error _, cache) => .postponed r (Action.exec (Cache.evict slot) cache).2

/-- Looks at a queued request after others were admitted with a number of prompt tokens in all;
`none` if it is the first. A request that does not fit an empty cache never will. -/
def admission (s : Scheduler) (fed : Option Nat) (r : Request) : Admission :=
  match s.fitPrompt r with
  | .error e => .refused r e
  | .ok r =>
    let positions := s.positionsFor r
    if fed.any fun tokens => s.config.maxPrefillTokens < tokens + r.pendingLen then
      .postponed r s.cache
    else if s.cache.canFit positions then s.place r positions
    else if s.cache.activeSlots = 0 then
      .refused r (.cacheOverflow
        (.beyondBudget r.id (s.cache.bytesFor positions) s.cache.budget))
    else .postponed r s.cache

end Scheduler

namespace Round

/-- Fails a queued request that is out of the queue already. -/
def refuse (round : Round) (r : Request) (e : Error) : Round :=
  match r.fail e with
  | .error _ => round
  | .ok failed =>
    { round with
      scheduler := round.scheduler.update failed
      retired := round.retired ++ [r.id] }

/-- Admits from a queue. Entries of requests that no longer wait are passed over. -/
def admitFrom (round : Round) (fed : Option Nat) : List QueueEntry → Round
  | [] => { round with scheduler := { round.scheduler with waiting := [] } }
  | entry :: rest =>
    let s := round.scheduler
    if s.config.maxSeqs ≤ s.running.length then
      { round with scheduler := { s with waiting := entry :: rest } }
    else match s.requests.find? fun r => r.id = entry.request && r.state == .queued with
      | none => admitFrom round fed rest
      | some r => match s.admission fed r with
        | .refused r e => admitFrom (round.refuse r e) fed rest
        | .postponed r cache =>
          { round with
            scheduler := { s.update r with cache := cache, waiting := entry :: rest } }
        | .admitted r cache =>
          let s := { s.update r with cache := cache, running := s.running ++ [r.id] }
          admitFrom { round with scheduler := s } (some (fed.getD 0 + r.pendingLen)) rest

def admitWaiting (round : Round) : Round := round.admitFrom none round.scheduler.waiting

end Round

end CausalServe
