import CausalServe.Engine.Basic
import CausalServe.Engine.Metrics

/-! One tick of the engine: submissions are taken up, the scheduler plans a batch, the model runs it
in one pass, every request samples its next token, and the feeds are written. -/

namespace CausalServe

def Submission.toRequest (s : Submission) : Request :=
  { Request.new s.id s.request.prompt s.request.sampling with
    priority := s.request.priority
    timeout := s.request.timeout
    maxSteps := s.request.maxSteps
    arrival := s.submittedAt
    cancelRequested := s.cancelled }

namespace Engine

/-! ## Taking up submissions -/

/-- Takes up one submission. One whose prompt is outside the vocabulary ends at once, and comes back
as an output. -/
def takeUp (now : Nat) (s : Submission) : StateM Engine (Option GenerationOutput) := do
  let e ← get
  let r := s.toRequest
  match checkVocabulary r.prompt e.vocabSize with
  | .error fault => match r.fail fault with
    | .error _ => return none
    | .ok failed =>
      set { e with feeds := e.feeds.modify s.id (·.write failed) }
      return some (.ofRequest failed now)
  | .ok () => match Action.exec (Scheduler.addRequest r) e.scheduler with
    | (.error fault, _) =>
      set { e with feeds := e.feeds.modify s.id (·.refuse fault) }
      return none
    | (.ok (), scheduler) =>
      set { e with
        scheduler := scheduler
        samplers := e.samplers.insert s.id (.new s.request.sampling (e.entropy s.id))
        published := e.published ++ [s.id] }
      return none

/-- Takes up all submissions, and returns those that ended. -/
def drain (now : Nat) : StateM Engine (List GenerationOutput) := do
  let submissions := (← get).submissions
  modify fun e => { e with submissions := [] }
  let outputs ← submissions.mapM (takeUp now)
  return outputs.filterMap id

/-! ## Running the batch -/

/-- What the requests of a batch have come to. -/
structure BatchResult where
  /-- Requests that ended. -/
  ended : List RequestId := []
  generated : Nat := 0
  firstTokens : List RequestId := []

/-- Fails a request of the batch. -/
def failOne (fault : Error) (result : BatchResult) (id : RequestId) :
    StateM Engine BatchResult := do
  let e ← get
  let (r, scheduler) := Action.exec (Scheduler.failRequest id fault) e.scheduler
  set { e with scheduler := scheduler }
  match r with
  | .ok () => return { result with ended := result.ended ++ [id] }
  | .error _ => return result

/-- Samples the next token of a request from its logits, and records it. -/
def sampleOne (result : BatchResult) (id : RequestId) (logits : List Float32) :
    StateM Engine BatchResult := do
  let e ← get
  match e.samplers.get? id with
  | none => return result
  | some sampler =>
    let (sampled, sampler) := Action.exec (Sampler.sample logits) sampler
    let e := { e with samplers := e.samplers.modify id fun _ => sampler }
    set e
    match sampled with
    | .error fault => failOne fault result id
    | .ok token =>
      let isFirst := (e.scheduler.request? id).any fun r => !r.hasFirstToken
      match Action.exec (Scheduler.completeStep id token e.model.config.eosToken) e.scheduler with
      | (.error fault, _) => failOne fault result id
      | (.ok reason, scheduler) =>
        set { e with scheduler := scheduler }
        return {
          ended := if reason.isSome then result.ended ++ [id] else result.ended
          generated := result.generated + 1
          firstTokens := if isFirst then result.firstTokens ++ [id] else result.firstTokens }

/-- The requests of a batch that hold a slot, with what they feed. -/
def entries (e : Engine) (batch : List RequestId) : List (RequestId × BatchEntry) :=
  batch.filterMap fun id => do
    let r ← e.scheduler.request? id
    let slot ← r.slot
    return (id, ⟨slot, r.pending⟩)

/-- Runs the model on a batch; there must be a row of logits for each entry. -/
def forward (model : LanguageModel) (entries : List BatchEntry) :
    Action Cache (List (List Float32)) := do
  let rows ← model.forward entries
  if rows.length ≠ entries.length then
    throw (.shape "forward_batch" [entries.length] [rows.length])
  return rows

/-- Runs a batch and samples every request of it. If the pass fails, all of them do. -/
def runBatch (batch : List RequestId) : StateM Engine BatchResult := do
  let e ← get
  let members := e.entries batch
  let ids := members.map Prod.fst
  let (rows, cache) := Action.exec (forward e.model (members.map Prod.snd)) e.scheduler.cache
  set { e with scheduler := { e.scheduler with cache := cache } }
  match rows with
  | .error fault => ids.foldlM (failOne fault) {}
  | .ok rows => (ids.zip rows).foldlM (fun result (id, logits) => sampleOne result id logits) {}

/-! ## Writing the feeds -/

/-- Writes the feed of a request that the scheduler holds. -/
def publish (e : Engine) (id : RequestId) : Engine :=
  if e.published.contains id then
    match e.scheduler.request? id with
    | some r => { e with feeds := e.feeds.modify id (·.write r) }
    | none => e
  else e

/-- Forgets a request that has ended, and returns its output. -/
def finish (now : Nat) (id : RequestId) : StateM Engine (Option GenerationOutput) := do
  let e ← get
  let (r, scheduler) := e.scheduler.removeRequest id
  set { e with
    scheduler := scheduler
    samplers := e.samplers.erase id
    published := e.published.filter fun other => other ≠ id }
  return r.map fun r => .ofRequest r now

/-! ## The tick -/

def step (now : Nat) : StateM Engine StepOutput := do
  modify fun e => { e with stepCount := e.stepCount + 1 }
  let rejected ← drain now
  let (plan, scheduler) := (← get).scheduler.schedule now
  modify fun e => { e with scheduler := scheduler }
  let result ← if plan.batch = [] then pure {} else runBatch plan.batch
  modify fun e => (plan.batch ++ plan.retired ++ plan.preempted).foldl publish e
  let outputs ← (plan.retired ++ result.ended).mapM (finish now)
  let finished := rejected ++ outputs.filterMap id
  let e ← get
  return {
    finished := finished
    metrics := {
      step := e.stepCount
      batchSize := plan.batch.length
      prefillTokens := plan.prefillTokens
      decodeTokens := plan.decodeTokens
      generated := result.generated
      firstTokens := result.firstTokens
      cacheUsed := e.scheduler.cache.used
      cacheOccupancy := e.scheduler.cache.occupancy
      queueDepth := e.scheduler.numWaiting + e.submissions.length
      numRunning := e.scheduler.numRunning
      numFinished := finished.length
      numPreempted := plan.preempted.length } }

end Engine

end CausalServe
