import CausalServe.Request.Basic

/-! What the owner of a request sees of it: a feed that the engine writes after every tick, and a
handle that remembers how far it has been read. -/

namespace CausalServe

structure Feed where
  /-- Only ever appended to. -/
  tokens : Array Token := #[]
  state : RequestState := .queued
  finishReason : Option FinishReason := none
  failure : Option Failure := none
deriving DecidableEq, Repr

namespace Feed

/-- Writes the state of a request, and the tokens that are new. -/
def write (f : Feed) (r : Request) : Feed :=
  { tokens := f.tokens ++ r.output.drop f.tokens.size
    state := r.state, finishReason := r.finishReason, failure := r.failure }

/-- Writes that a request was refused. -/
def refuse (f : Feed) (e : Error) : Feed :=
  { f with state := .failed, failure := some (.ofError e) }

end Feed

structure RequestHandle where
  id : RequestId
  /-- How many tokens have been read. -/
  cursor : Nat := 0
deriving DecidableEq, Repr

/-- What is new on a feed. -/
structure RequestUpdate where
  newTokens : List Token
  state : RequestState
  finishReason : Option FinishReason
  failure : Option Failure
deriving DecidableEq, Repr

def RequestUpdate.isFinished (u : RequestUpdate) : Bool := u.state.isTerminal

/-- Reads what is new, and moves the handle behind it. -/
def RequestHandle.read (h : RequestHandle) (f : Feed) : RequestUpdate × RequestHandle :=
  ({ newTokens := (f.tokens.drop h.cursor).toList, state := f.state, finishReason := f.finishReason
     failure := f.failure },
   { h with cursor := f.tokens.size })

end CausalServe
