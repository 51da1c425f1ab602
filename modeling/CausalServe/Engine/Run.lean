import CausalServe.Engine.Step
import CausalServe.Number.Total

/-! Running the engine until nothing is left to do. Every tick ends a request or generates a token,
and no request generates more tokens than it asked for, so their number bounds the ticks. -/

namespace CausalServe

/-- The ticks that a request can still take. -/
def Request.remaining (r : Request) : Nat := 1 + (r.sampling.maxTokens - r.output.size)

namespace Engine

/-- The ticks that all unfinished requests together can still take. -/
def remaining (e : Engine) : Nat :=
  total (fun s => 1 + s.request.sampling.maxTokens) e.submissions +
    total Request.remaining (e.scheduler.requests.filter fun r => !r.state.isTerminal)

/-- Ticks while something is pending, a number of times at most. Each tick is told the time by a
clock that counts the ticks so far. -/
def runFor (clock : Nat → Nat) : Nat → StateM Engine (List GenerationOutput)
  | 0 => return []
  | count + 1 => do
    let e ← get
    if e.hasPending then
      let out ← step (clock e.stepCount)
      return out.finished ++ (← runFor clock count)
    else return []

/-- Ticks until nothing is pending, and returns all that ended on the way. -/
def runUntilIdle (clock : Nat → Nat) : StateM Engine (List GenerationOutput) := do
  runFor clock (← get).remaining

/-- Submits a request and runs until it has ended. -/
def generate (g : GenerationRequest) (clock : Nat → Nat) : Action Engine GenerationOutput := do
  let h ← submit g (clock (← get).stepCount)
  let outputs ← runUntilIdle clock
  match outputs.find? fun o => o.requestId = h.id with
  | some o => return o
  | none => throw (.requestNotFound h.id)

end Engine

end CausalServe
