import CausalServe.Cache.Basic
import CausalServe.Request.InPlace
import CausalServe.Scheduler.Queue

/-! The scheduler's state: every live request, the waiting queue, the running requests and the
cache. Here are the operations on single requests; a tick over all of them is in `Scheduler.Tick`. -/

namespace CausalServe

structure Scheduler where
  config : SchedulerConfig
  cacheConfig : CacheConfig
  cache : Cache
  /-- In order of arrival, until they are removed. -/
  requests : List Request := []
  /-- The queued requests, the next one first. -/
  waiting : List QueueEntry := []
  /-- The requests that hold a slot, in order of admission. -/
  running : List RequestId := []
  /-- How many requests have arrived. -/
  arrivals : Nat := 0

namespace Scheduler

def new (config : SchedulerConfig) (cacheConfig : CacheConfig) (layout : Layout) : Scheduler :=
  { config := config, cacheConfig := cacheConfig, cache := .new layout cacheConfig }

def request? (s : Scheduler) (id : RequestId) : Option Request :=
  s.requests.find? fun r => r.id = id

def request (s : Scheduler) (id : RequestId) : Except Error Request :=
  match s.request? id with
  | some r => .ok r
  | none => .error (.requestNotFound id)

def numWaiting (s : Scheduler) : Nat := s.waiting.length

def numRunning (s : Scheduler) : Nat := s.running.length

def hasPending (s : Scheduler) : Bool := !s.waiting.isEmpty || !s.running.isEmpty

/-- Puts a request in the place of the one with its id. -/
def update (s : Scheduler) (r : Request) : Scheduler :=
  { s with requests := s.requests.map fun old => if old.id = r.id then r else old }

def entry (s : Scheduler) (r : Request) : QueueEntry :=
  { request := r.id, priority := if s.config.enablePriority then r.priority else 0
    arrival := r.arrivalSeq }

def enqueue (s : Scheduler) (r : Request) : Scheduler :=
  { s with waiting := (s.entry r).enqueue s.waiting }

/-- Takes a request out of the running ones and out of the queue, and gives its slot back. -/
def release (s : Scheduler) (id : RequestId) (slot : Option SlotId) : Scheduler :=
  let cache := match slot with
    | some slot => (Action.exec (Cache.evict slot) s.cache).2
    | none => s.cache
  { s with
    cache := cache
    running := s.running.filter fun other => other ≠ id
    waiting := s.waiting.filter fun e => e.request ≠ id }

/-- Stores a request that no longer runs, and releases what it held. -/
def retire (s : Scheduler) (r : Request) : Scheduler :=
  (s.update { r with slot := none }).release r.id r.slot

/-- Queues a new request. -/
def addRequest (r : Request) : Action Scheduler Unit := do
  let s ← get
  if (s.request? r.id).isSome then throw (.invalidRequest (.duplicate r.id))
  if r.state ≠ .queued then throw (.invalidRequest (.notQueued r.id r.state.name))
  let r := { r with arrivalSeq := s.arrivals }
  set ({ s with requests := s.requests ++ [r], arrivals := s.arrivals + 1 }.enqueue r)

/-- Asks for cancellation, which the next tick honours. -/
def cancel (id : RequestId) : Action Scheduler Unit := do
  let s ← get
  let r ← Action.ofExcept (s.request id)
  set (s.update { r with cancelRequested := true })

/-- Forgets a request, which gives back what it holds. -/
def removeRequest (s : Scheduler) (id : RequestId) : Option Request × Scheduler :=
  match s.request? id with
  | none => (none, s)
  | some r =>
    let s := { s with requests := s.requests.filter fun old => old.id ≠ id }
    (some { r with slot := none }, s.release id r.slot)

/-- Fails a request that has not ended. -/
def failRequest (id : RequestId) (e : Error) : Action Scheduler Unit := do
  let s ← get
  let r ← Action.ofExcept (s.request id)
  let failed ← Action.ofExcept (r.fail e)
  set (s.retire failed)

/-- Works on a stored request where it stands. What was written before the work failed stays
written. -/
def onRequest {α : Type} (id : RequestId) (work : Action Request α) : Action Scheduler α := do
  let s ← get
  let r ← Action.ofExcept (s.request id)
  let (outcome, r) := Action.exec work r
  set (s.update r)
  Action.ofExcept outcome

/-- Completes a running request where it stands, and gives its slot back. -/
def completeRequest (id : RequestId) (reason : FinishReason) : Action Scheduler Unit := do
  let r ← Action.ofExcept ((← get).request id)
  onRequest id (Request.applyInPlace (.finish reason))
  onRequest id (modify fun r => { r with slot := none })
  modify fun s => s.release id r.slot

/-- Records the token that was sampled for a running request. One that ends by it gives its slot
back at once; the reason is returned. -/
def completeStep (id : RequestId) (token : Token) (eos : Option Token) :
    Action Scheduler (Option FinishReason) := do
  let r ← Action.ofExcept ((← get).request id)
  if !r.state.isRunning then
    throw (.invalidTransition r.state.name RequestState.decoding.name)
  onRequest id (Request.advanceInPlace token)
  let r ← Action.ofExcept ((← get).request id)
  match r.checkStop eos with
  | none => return none
  | some reason =>
    completeRequest id reason
    return some reason

end Scheduler

end CausalServe
