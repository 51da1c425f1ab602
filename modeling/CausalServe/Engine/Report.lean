import CausalServe.Engine.Basic
import CausalServe.Engine.Metrics
import CausalServe.Json.Printer

/-! Requests, plans, outputs and figures as JSON, for whoever watches an engine from outside. -/

namespace CausalServe

open Json.Value (ofNat ofString ofOption ofFields)

/-- A list of numbers. -/
def numbers (ns : List Nat) : Json.Value := .array (ns.map ofNat)

/-- A report leaves out how long ago a request arrived, on which no two runs agree: a text that ends
with it is cut after the steps that it gives first. -/
def withoutElapsed (text : String) : String :=
  match text.endsWith " since arrival", text.splitOn " steps, " with
  | true, before :: _ :: _ => before ++ " steps"
  | _, _ => text

def Failure.toJson (f : Failure) : Json.Value :=
  ofFields [("kind", ofString f.kind.name), ("message", ofString (withoutElapsed f.message))]

/-- All that can be asked of a request. -/
def Request.toJson (r : Request) : Json.Value :=
  ofFields [
    ("id", ofNat r.id),
    ("state", ofString r.state.name),
    ("running", .bool r.state.isRunning),
    ("terminal", .bool r.state.isTerminal),
    ("prompt", numbers r.prompt),
    ("output", numbers r.output.toList),
    ("pending", numbers r.pending),
    ("last", ofOption ofNat r.lastToken?),
    ("total_len", ofNat r.totalLen),
    ("cached", ofNat r.cached),
    ("max_total", ofNat r.maxTotalLen),
    ("slot", ofOption ofNat r.slot),
    ("steps", ofNat r.steps),
    ("preemptions", ofNat r.preemptions),
    ("truncated", ofNat r.truncated),
    ("priority", .number (.ofInt r.priority)),
    ("arrival_seq", ofNat r.arrivalSeq),
    ("finish", ofOption (ofString ∘ FinishReason.name) r.finishReason),
    ("failure", ofOption Failure.toJson r.failure),
    ("has_first", .bool r.hasFirstToken),
    ("cancel", .bool r.cancelRequested),
    ("exhausted", .bool r.isStepBudgetExhausted)]

/-- The figures of a request that do not depend on the time. -/
def RequestMetrics.toJson (m : RequestMetrics) : Json.Value :=
  ofFields [
    ("request_id", ofNat m.requestId),
    ("prompt_tokens", ofNat m.promptTokens),
    ("output_tokens", ofNat m.outputTokens),
    ("truncated_tokens", ofNat m.truncatedTokens),
    ("steps", ofNat m.steps),
    ("preemptions", ofNat m.preemptions),
    ("has_ttft", .bool m.hasFirstToken)]

def TickPlan.toJson (p : TickPlan) : Json.Value :=
  ofFields [
    ("prefill", numbers p.prefill),
    ("decode", numbers p.decode),
    ("batch", numbers p.batch),
    ("retired", numbers p.retired),
    ("preempted", numbers p.preempted),
    ("prefill_tokens", ofNat p.prefillTokens),
    ("decode_tokens", ofNat p.decodeTokens),
    ("empty", .bool p.batch.isEmpty),
    ("requests", ofNat p.batch.length),
    ("tokens", ofNat p.numTokens)]

def GenerationOutput.toJson (o : GenerationOutput) : Json.Value :=
  ofFields [
    ("id", ofNat o.requestId),
    ("prompt", numbers o.prompt),
    ("output", numbers o.output),
    ("state", ofString o.state.name),
    ("completed", .bool o.isCompleted),
    ("finish", ofOption (ofString ∘ FinishReason.name) o.finishReason),
    ("failure", ofOption Failure.toJson o.failure),
    ("metrics", o.metrics.toJson)]

def StepMetrics.toJson (m : StepMetrics) : Json.Value :=
  ofFields [
    ("step", ofNat m.step),
    ("batch", ofNat m.batchSize),
    ("prefill", ofNat m.prefillTokens),
    ("decode", ofNat m.decodeTokens),
    ("generated", ofNat m.generated),
    ("first", numbers m.firstTokens),
    ("used", ofNat m.cacheUsed),
    ("occupancy", .ofRounded m.cacheOccupancy),
    ("queue", ofNat m.queueDepth),
    ("running", ofNat m.numRunning),
    ("finished", ofNat m.numFinished),
    ("preempted", ofNat m.numPreempted)]

def RequestUpdate.toJson (u : RequestUpdate) : Json.Value :=
  ofFields [
    ("new", numbers u.newTokens),
    ("state", ofString u.state.name),
    ("finished", .bool u.isFinished),
    ("finish", ofOption (ofString ∘ FinishReason.name) u.finishReason),
    ("failure", ofOption Failure.toJson u.failure)]

/-- What an engine is busy with. -/
def Engine.status (e : Engine) : Json.Value :=
  ofFields [
    ("pending", .bool e.hasPending),
    ("num", ofNat e.numPending),
    ("undrained", ofNat e.submissions.length),
    ("waiting", ofNat e.scheduler.numWaiting),
    ("running", numbers e.scheduler.running),
    ("used", ofNat e.scheduler.cache.used),
    ("vocab", ofNat e.vocabSize),
    ("max_seqs", ofNat e.config.scheduler.maxSeqs)]

end CausalServe
