import CausalServe.Request.Basic

/-! What is submitted to the engine, and what comes back when it has ended. -/

namespace CausalServe

structure GenerationRequest where
  prompt : List Token
  sampling : SamplingConfig := {}
  priority : Priority := 0
  /-- Milliseconds from submission. -/
  timeout : Option Nat := none
  /-- How many ticks it may take part in. -/
  maxSteps : Option Nat := none

/-- What does not depend on the model. -/
def GenerationRequest.validate (g : GenerationRequest) : Except Error Unit := do
  if g.prompt = [] then throw (.invalidRequest .emptyPrompt)
  if g.sampling.maxTokens = 0 then throw (.invalidRequest .noTokensWanted)
  if !g.sampling.temperature.isFinite then
    throw (.invalidRequest (.temperature g.sampling.temperature))
  if !(0 < g.sampling.topP && g.sampling.topP ≤ 1) then
    throw (.invalidRequest (.nucleus g.sampling.topP))

/-- All tokens of a prompt are in the vocabulary. -/
def checkVocabulary (prompt : List Token) (size : Nat) : Except Error Unit :=
  match prompt.find? fun t => size ≤ t with
  | some t => .error (.invalidRequest (.promptToken t size))
  | none => .ok ()

structure GenerationOutput where
  requestId : RequestId
  /-- As it was processed, without what was cut. -/
  prompt : List Token
  /-- What was generated until the end. -/
  output : List Token
  state : RequestState
  finishReason : Option FinishReason
  failure : Option Failure
  metrics : RequestMetrics

namespace GenerationOutput

def ofRequest (r : Request) (now : Nat) : GenerationOutput :=
  { requestId := r.id, prompt := r.prompt, output := r.output.toList, state := r.state
    finishReason := r.finishReason, failure := r.failure, metrics := r.metrics now }

def isCompleted (o : GenerationOutput) : Bool := o.state = .completed

end GenerationOutput

end CausalServe
