import CausalServe.Error

/-! The lifecycle of a request: a queued request is admitted, prefills, decodes and ends completed,
cancelled or failed. The next state is a function of the state and the event alone. -/

namespace CausalServe

inductive RequestState
  | queued
  /-- Admitted; the prompt goes through the model in this tick. -/
  | prefilling
  /-- One token a tick. -/
  | decoding
  | completed
  /-- Cancelled by its owner, or out of time or steps. -/
  | cancelled
  | failed
deriving DecidableEq, Repr

inductive FinishReason
  | endOfSequence
  | maxTokens
  | stopSequence
deriving DecidableEq, Repr

inductive RequestEvent
  | admitted
  | prefillDone
  | finish (reason : FinishReason)
  | cancel
  | timeout
  | fail (kind : ErrorKind)
  /-- Sent back to the queue under memory pressure. -/
  | preempt
deriving DecidableEq, Repr

namespace FinishReason

def all : List FinishReason := [endOfSequence, maxTokens, stopSequence]

def name : FinishReason → String
  | endOfSequence => "EndOfSequence"
  | maxTokens => "MaxTokens"
  | stopSequence => "StopSequence"

end FinishReason

namespace RequestState

def all : List RequestState := [queued, prefilling, decoding, completed, cancelled, failed]

/-- Whether the request holds a cache slot and joins batches. -/
def isRunning : RequestState → Bool
  | prefilling | decoding => true
  | _ => false

def isTerminal : RequestState → Bool
  | completed | cancelled | failed => true
  | _ => false

def name : RequestState → String
  | queued => "Queued"
  | prefilling => "Prefilling"
  | decoding => "Decoding"
  | completed => "Completed"
  | cancelled => "Cancelled"
  | failed => "Failed"

end RequestState

/-- The state that an event leads to, where it is legal. -/
def RequestEvent.target : RequestEvent → RequestState
  | admitted => .prefilling
  | prefillDone => .decoding
  | finish _ => .completed
  | cancel | timeout => .cancelled
  | fail _ => .failed
  | preempt => .queued

namespace RequestState

def allows : RequestState → RequestEvent → Bool
  | queued, .admitted => true
  | prefilling, .prefillDone => true
  | prefilling, .finish _ | decoding, .finish _ => true
  | prefilling, .preempt | decoding, .preempt => true
  | queued, .cancel | prefilling, .cancel | decoding, .cancel => true
  | queued, .timeout | prefilling, .timeout | decoding, .timeout => true
  | queued, .fail _ | prefilling, .fail _ | decoding, .fail _ => true
  | _, _ => false

def transition (s : RequestState) (e : RequestEvent) : Except Error RequestState :=
  if s.allows e then .ok e.target else .error (.invalidTransition s.name e.target.name)

end RequestState

end CausalServe
