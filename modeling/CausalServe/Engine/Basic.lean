import CausalServe.Engine.Feed
import CausalServe.Engine.Generation
import CausalServe.Model.Transformer
import CausalServe.Sampler
import CausalServe.Scheduler.Tick
import CausalServe.Table

/-! The engine: a model, a scheduler, and a sampler and a feed for every request. Submissions wait
in a queue until the next tick takes them up. -/

namespace CausalServe

/-- An accepted request that no tick has taken up yet. -/
structure Submission where
  id : RequestId
  request : GenerationRequest
  submittedAt : Nat
  cancelled : Bool := false

structure Engine where
  model : LanguageModel
  config : EngineConfig
  /-- The streams of the requests that name no seed. -/
  entropy : RequestId → Stream
  scheduler : Scheduler
  submissions : List Submission := []
  nextId : RequestId := 1
  /-- The samplers of the requests that the scheduler holds. -/
  samplers : Table Sampler := {}
  /-- The feeds of all requests that were ever accepted. -/
  feeds : Table Feed := {}
  /-- The requests whose feeds are still written. -/
  published : List RequestId := []
  stepCount : Nat := 0

namespace Engine

def new (model : LanguageModel) (config : EngineConfig) (entropy : RequestId → Stream) :
    Except Error Engine := do
  config.validate
  model.config.validate
  return { model := model, config := config, entropy := entropy
           scheduler := .new config.scheduler config.cache (.ofModel model.config) }

/-- Decodes the weights of a transformer, assembles it and starts an engine around it. -/
def ofDescriptors (modelConfig : ModelConfig) (ds : List TensorDescriptor)
    (config : EngineConfig) (entropy : RequestId → Stream) : Except Error Engine := do
  config.validate
  let kernels ← Dispatcher.new config.kernels
  let weights ← ModelWeights.ofDescriptors ds
  let model ← Transformer.ofWeights modelConfig weights kernels config.dequantizeAtLoad
  new model.toModel config entropy

def vocabSize (e : Engine) : Nat := e.model.config.vocabSize

/-- Queues a request whose prompt the next tick checks against the vocabulary. -/
def enqueue (g : GenerationRequest) (now : Nat) : Action Engine RequestHandle := do
  Action.ofExcept g.validate
  let e ← get
  let submission : Submission := { id := e.nextId, request := g, submittedAt := now }
  set { e with
    submissions := e.submissions ++ [submission]
    feeds := e.feeds.insert e.nextId {}
    nextId := e.nextId + 1 }
  return { id := e.nextId }

/-- Queues a request after a check of its prompt against the vocabulary. -/
def submit (g : GenerationRequest) (now : Nat) : Action Engine RequestHandle := do
  Action.ofExcept (checkVocabulary g.prompt (← get).vocabSize)
  enqueue g now

def feed (e : Engine) (id : RequestId) : Feed := (e.feeds.get? id).getD {}

/-- Reads what is new about a request. -/
def poll (e : Engine) (h : RequestHandle) : RequestUpdate × RequestHandle := h.read (e.feed h.id)

/-- Asks for cancellation; a request that has ended does not notice. -/
def cancel (e : Engine) (id : RequestId) : Engine :=
  { e with
    submissions := e.submissions.map fun s =>
      if s.id = id then { s with cancelled := true } else s
    scheduler := (Action.exec (Scheduler.cancel id) e.scheduler).2 }

def hasPending (e : Engine) : Bool := e.scheduler.hasPending || !e.submissions.isEmpty

def numPending (e : Engine) : Nat :=
  e.scheduler.numWaiting + e.scheduler.numRunning + e.submissions.length

end Engine

end CausalServe
