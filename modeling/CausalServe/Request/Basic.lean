import CausalServe.Config.Basic
import CausalServe.Request.State

/-! A request for generated tokens, with the side data that its lifecycle records. Times are
milliseconds from a common start. -/

namespace CausalServe

/-- Higher is admitted first. -/
abbrev Priority := Int

/-- Why a request ended without completing. -/
structure Failure where
  kind : ErrorKind
  message : String
deriving DecidableEq, Repr

def Failure.ofError (e : Error) : Failure := ⟨e.kind, e.message⟩

structure Request where
  id : RequestId
  prompt : List Token
  /-- The generated tokens. -/
  output : Array Token := #[]
  sampling : SamplingConfig
  priority : Priority := 0
  /-- The place in the order of arrival. -/
  arrivalSeq : Nat
  arrival : Nat := 0
  timeout : Option Nat := none
  /-- How many ticks the request may take part in. -/
  maxSteps : Option Nat := none
  steps : Nat := 0
  state : RequestState := .queued
  finishReason : Option FinishReason := none
  failure : Option Failure := none
  cancelRequested : Bool := false
  slot : Option SlotId := none
  /-- Tokens whose keys and values are in the slot. -/
  cached : Nat := 0
  /-- Prompt tokens dropped from the front to fit the context. -/
  truncated : Nat := 0
  preemptions : Nat := 0

namespace Request

def new (id : RequestId) (prompt : List Token) (sampling : SamplingConfig) : Request :=
  { id := id, prompt := prompt, sampling := sampling, arrivalSeq := id }

/-- The prompt followed by the generated tokens. -/
def tokens (r : Request) : List Token := r.prompt ++ r.output.toList

def totalLen (r : Request) : Nat := r.prompt.length + r.output.size

/-- What the next forward pass feeds: while prefilling all tokens that are not cached, which
includes output to recompute after a preemption, and while decoding the last one. -/
def pending (r : Request) : List Token :=
  r.prompt.drop r.cached ++ (r.output.drop (r.cached - r.prompt.length)).toList

def pendingLen (r : Request) : Nat := r.totalLen - r.cached

/-- The most positions the request can come to need. -/
def maxTotalLen (r : Request) : Nat := r.prompt.length + r.sampling.maxTokens

/-- Output is never taken back, so a request that has any has produced its first token. -/
def hasFirstToken (r : Request) : Bool := !r.output.isEmpty

def lastToken? (r : Request) : Option Token := r.output.back?.or r.prompt.getLast?

def appendToken (r : Request) (t : Token) : Request := { r with output := r.output.push t }

def markCached (r : Request) (n : Nat) : Request :=
  { r with cached := min (r.cached + n) r.totalLen }

/-- Keeps the last `n` tokens of the prompt. -/
def truncatePrompt (r : Request) (n : Nat) : Request :=
  let dropped := r.prompt.length - n
  { r with prompt := r.prompt.drop dropped, truncated := r.truncated + dropped }

def recordStep (r : Request) : Request := { r with steps := r.steps + 1 }

/-- Whether the output ends with a sequence. -/
def endsWith (r : Request) (stop : List Token) : Bool :=
  (r.output.drop (r.output.size - stop.length)).toList = stop

/-- Whether generation ends here: the end-of-sequence token wins over a stop sequence, which wins
over the limit. Stop sequences are looked for in the output only, and an empty one never stops. -/
def checkStop (r : Request) (eos : Option Token) : Option FinishReason :=
  match r.output.back? with
  | none => none
  | some last =>
    if eos = some last then some .endOfSequence
    else if r.sampling.stopSequences.any fun stop => !stop.isEmpty && r.endsWith stop then
      some .stopSequence
    else if r.sampling.maxTokens ≤ r.output.size then some .maxTokens
    else none

def isTimedOut (r : Request) (now : Nat) : Bool :=
  r.timeout.any fun limit => limit ≤ now - r.arrival

def isStepBudgetExhausted (r : Request) : Bool :=
  r.maxSteps.any fun limit => limit ≤ r.steps

/-- What an event tells about a request, besides the next state. -/
def told (r : Request) : RequestEvent → Request
  | .finish reason => { r with finishReason := some reason }
  | .cancel => { r with failure := some (.ofError .cancelled) }
  | .timeout => { r with failure := some (.ofError (.timeout s!"{r.steps} steps")) }
  | .preempt => { r with cached := 0, slot := none, preemptions := r.preemptions + 1 }
  | _ => r

/-- Moves to the next state and records what the event tells. An illegal event is refused. -/
def apply (r : Request) (e : RequestEvent) : Except Error Request := do
  let next ← r.state.transition e
  return { r.told e with state := next }

/-- Fails the request and records the error. -/
def fail (r : Request) (e : Error) : Except Error Request := do
  let r ← r.apply (.fail e.kind)
  return { r with failure := some (.ofError e) }

/-- Requests are told apart by their ids alone. -/
instance : BEq Request := ⟨fun r s => r.id == s.id⟩

instance : Hashable Request := ⟨fun r => hash r.id⟩

end Request

/-- The figures of one request. -/
structure RequestMetrics where
  requestId : RequestId
  promptTokens : Nat
  outputTokens : Nat
  truncatedTokens : Nat
  steps : Nat
  preemptions : Nat
  hasFirstToken : Bool
  /-- Milliseconds since arrival. -/
  totalTime : Nat
deriving DecidableEq, Repr

def Request.metrics (r : Request) (now : Nat) : RequestMetrics :=
  { requestId := r.id
    promptTokens := r.prompt.length
    outputTokens := r.output.size
    truncatedTokens := r.truncated
    steps := r.steps
    preemptions := r.preemptions
    hasFirstToken := r.hasFirstToken
    totalTime := now - r.arrival }

end CausalServe
