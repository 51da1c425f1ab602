import CausalServe.Engine.Run
import CausalServe.Scheduler.Sizes

/-! The engine on words of 64 bits. A tick that would compute a size beyond them is broken off, and
so is whatever runs it. -/

namespace CausalServe.Engine

/-- The sizes that the next tick computes, once it has taken up the submissions. -/
def sizes (e : Engine) (now : Nat) : List Nat :=
  ((drain now).run { e with stepCount := e.stepCount + 1 }).2.scheduler.sizes now

/-- A tick, if its sizes are words. -/
def stepChecked (now : Nat) : Action Engine StepOutput :=
  Action.checked (fun e => e.sizes now) (ExceptT.lift (step now))

/-- Ticks while something is pending, a number of times at most. -/
def runForChecked (clock : Nat → Nat) : Nat → Action Engine (List GenerationOutput)
  | 0 => return []
  | count + 1 => do
    let e ← get
    if e.hasPending then
      let out ← stepChecked (clock e.stepCount)
      return out.finished ++ (← runForChecked clock count)
    else return []

/-- Ticks until nothing is pending. -/
def runUntilIdleChecked (clock : Nat → Nat) : Action Engine (List GenerationOutput) := do
  runForChecked clock (← get).remaining

/-- Submits a request and runs until it has ended. -/
def generateChecked (g : GenerationRequest) (clock : Nat → Nat) :
    Action Engine GenerationOutput := do
  let h ← submit g (clock (← get).stepCount)
  let outputs ← runUntilIdleChecked clock
  match outputs.find? fun o => o.requestId = h.id with
  | some o => return o
  | none => throw (.requestNotFound h.id)

end CausalServe.Engine
