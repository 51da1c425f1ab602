import CausalServe.Action
import CausalServe.Request.Basic

/-! The lifecycle of a request that is changed where it stands, one field after another. A call that
fails leaves what it has written by then. -/

namespace CausalServe.Request

/-- Moves to the next state, after what the event tells was written. -/
def applyInPlace (e : RequestEvent) : Action Request Unit := do
  let next ← Action.ofExcept ((← get).state.transition e)
  modify fun r => r.told e
  modify fun r => { r with state := next }

/-- Fails the request, and then writes the error. -/
def failInPlace (e : Error) : Action Request Unit := do
  applyInPlace (.fail e.kind)
  modify fun r => { r with failure := some (.ofError e) }

/-- Marks what was fed as cached, counts the tick, goes on to decoding, and appends the token. -/
def advanceInPlace (token : Token) : Action Request Unit := do
  modify fun r => r.markCached r.pendingLen
  modify Request.recordStep
  if (← get).state = .prefilling then applyInPlace .prefillDone
  modify fun r => r.appendToken token

end CausalServe.Request
