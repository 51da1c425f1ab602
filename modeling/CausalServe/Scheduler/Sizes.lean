import CausalServe.Number.Word
import CausalServe.Scheduler.Tick

/-! The sizes that a tick computes while it admits requests and reserves room for them. They are
natural numbers here, but words of 64 bits wherever they are computed, so a tick that is carried out
is one whose sizes are all words. -/

namespace CausalServe

/-- A step, if all sizes that it computes are words. Otherwise it is broken off. -/
def Action.checked {σ α : Type} (sizes : σ → List Nat) (step : Action σ α) : Action σ α := do
  if (sizes (← get)).all fun n => n < wordSize then step
  else throw (.contract "a size beyond the words")

/-- The factors of the bytes of one position, multiplied one after another. -/
def Layout.sizes (l : Layout) : List Nat :=
  [l.numLayers * 2, l.kvWidth, l.numLayers * 2 * l.kvWidth, l.bytesPerPosition]

namespace Cache

/-- The sizes that tell the bytes of a fresh slot. -/
def sizesFor (c : Cache) (positions : Nat) : List Nat :=
  c.layout.sizes ++ [roundUp positions c.blockSize, c.bytesFor positions]

/-- The sizes that tell whether a fresh slot can be charged. Without a budget nothing is computed. -/
def sizesToFit (c : Cache) (positions : Nat) : List Nat :=
  match c.budget with
  | some _ => c.sizesFor positions ++ [c.used + c.bytesFor positions]
  | none => []

/-- The sizes that a claim computes. Where the slot is charged enough already, it computes no
charge. -/
def sizesToReserve (c : Cache) (id : SlotId) (positions : Nat) : List Nat :=
  match c.slot? id with
  | none => c.layout.sizes
  | some s =>
    let wanted := min positions s.capacity
    if wanted ≤ s.allocated then c.layout.sizes
    else
      let rounded := roundUp wanted c.blockSize
      let bytes := (min rounded s.capacity - s.allocated) * c.layout.bytesPerPosition
      c.layout.sizes ++ [rounded, bytes, c.used + bytes]

def bytesForChecked (positions : Nat) : Action Cache Nat :=
  Action.checked (fun c => c.sizesFor positions) (return (← get).bytesFor positions)

def canFitChecked (positions : Nat) : Action Cache Bool :=
  Action.checked (fun c => c.sizesToFit positions) (return (← get).canFit positions)

def reserveChecked (id : SlotId) (positions : Nat) : Action Cache Unit :=
  Action.checked (fun c => c.sizesToReserve id positions) (reserve id positions)

end Cache

namespace Scheduler

/-- The sizes that it takes to give a request a slot. -/
def sizesToPlace (s : Scheduler) (r : Request) (positions : Nat) : List Nat :=
  match Action.exec (Cache.allocate r.id s.cacheConfig.maxContext) s.cache with
  | (.error _, _) => []
  | (.ok slot, cache) => cache.sizesToReserve slot positions

/-- The sizes that it takes to look at a queued request. -/
def sizesToAdmit (s : Scheduler) (fed : Option Nat) (r : Request) : List Nat :=
  match s.fitPrompt r with
  | .error _ => []
  | .ok r =>
    let tokens := [r.totalLen, fed.getD 0 + r.pendingLen]
    if fed.any fun tokens => s.config.maxPrefillTokens < tokens + r.pendingLen then tokens
    else
      let positions := s.positionsFor r
      let most := match s.cacheConfig.pressurePolicy with
        | .refuseAdmission => [r.maxTotalLen]
        | .evictLeastRecent | .preemptLeastRecent => []
      tokens ++ most ++ s.cache.sizesToFit positions ++
        if s.cache.canFit positions then s.sizesToPlace r positions else []

end Scheduler

namespace Round

/-- The sizes of the second phase, entry by entry. -/
def sizesToAdmit (round : Round) (fed : Option Nat) : List QueueEntry → List Nat
  | [] => []
  | entry :: rest =>
    let s := round.scheduler
    if s.config.maxSeqs ≤ s.running.length then []
    else match s.requests.find? fun r => r.id = entry.request && r.state == .queued with
      | none => sizesToAdmit round fed rest
      | some r => s.sizesToAdmit fed r ++ match s.admission fed r with
        | .refused r e => sizesToAdmit (round.refuse r e) fed rest
        | .postponed _ _ => []
        | .admitted r cache =>
          let s := { s.update r with cache := cache, running := s.running ++ [r.id] }
          sizesToAdmit { round with scheduler := s } (some (fed.getD 0 + r.pendingLen)) rest

/-- The sizes of one turn of a request that grows. -/
def sizesOfTurn (round : Round) (r : Request) (slot : SlotId) : List Nat :=
  let cache := round.scheduler.cache
  match cache.len slot, round.positionsNeeded r slot with
  | .ok held, .ok needed => [r.totalLen, held + r.pendingLen] ++ cache.sizesToReserve slot needed
  | .ok held, .error _ => [r.totalLen, held + r.pendingLen]
  | .error _, _ => [r.totalLen]

/-- The sizes of all turns of one request: one turn, and one more for each that gives way to it. -/
def sizesToGrowOne (round : Round) (id : RequestId) : List Nat :=
  match round.scheduler.requests.find? fun r => r.id = id && r.state.isRunning with
  | none => []
  | some r => match r.slot with
    | none => []
    | some slot => round.sizesOfTurn r slot ++ match round.positionsNeeded r slot with
      | .error _ => []
      | .ok needed =>
        match Action.exec (Cache.reserve slot needed) round.scheduler.cache with
        | (.ok (), _) => []
        | (.error _, _) => match round.victim? slot with
          | none => []
          | some victim =>
            let next := round.giveWay victim id
            if _h : next.scheduler.running.length < round.scheduler.running.length then
              sizesToGrowOne next id
            else []
termination_by round.scheduler.running.length

/-- The sizes of the third phase, request by request. -/
def sizesToGrow (round : Round) : List RequestId → List Nat
  | [] => []
  | id :: rest => round.sizesToGrowOne id ++ sizesToGrow (round.growOne id) rest

end Round

namespace Scheduler

/-- The sizes that the tick at a time computes. -/
def sizes (s : Scheduler) (now : Nat) : List Nat :=
  let expired := ({ scheduler := s } : Round).expire now
  let admitted := expired.admitWaiting
  expired.sizesToAdmit none expired.scheduler.waiting ++
    admitted.sizesToGrow admitted.scheduler.running

/-- Plans the tick at a time, if its sizes are words. -/
def scheduleChecked (now : Nat) : Action Scheduler TickPlan :=
  Action.checked (fun s => s.sizes now) (modifyGet fun s => s.schedule now)

end Scheduler

end CausalServe
