import CausalServe.Proofs.Engine.Reachable
import CausalServe.Proofs.Scheduler.Residency

/-! An engine in use: requests are submitted, cancelled and polled between ticks, in any order. A
session remembers what the engine has told its users, which the engine itself does not. -/

namespace CausalServe

/-- The holder of a handle, with all tokens that its polls have returned. -/
structure Caller where
  handle : RequestHandle
  told : List Token := []

def Caller.poll (c : Caller) (e : Engine) : Caller :=
  { handle := (e.poll c.handle).2, told := c.told ++ (e.poll c.handle).1.newTokens }

def StepOutput.reports (out : StepOutput) (id : RequestId) : Bool :=
  out.finished.any fun o => o.requestId = id

inductive Event
  | submit (g : GenerationRequest) (now : Nat)
  /-- A submission from elsewhere, whose prompt is not looked at. -/
  | enqueue (g : GenerationRequest) (now : Nat)
  | cancel (id : RequestId)
  | step (now : Nat)
  /-- The caller at a place polls. -/
  | poll (place : Nat)

/-- What each slot was fed since it was given out, after the batch of a tick. -/
def Engine.feeding (e : Engine) (now : Nat) (fed : SlotId → List Token) (slot : SlotId) :
    List Token :=
  let start := (e.drained now).2
  let planned := start.planned now
  let batch := planned.entries (start.scheduler.schedule now).1.batch
  planned.scheduler.cache.fedSince start.scheduler.cache.clock fed slot ++
    BatchEntry.tokensOf (batch.map Prod.snd) slot

structure Session where
  engine : Engine
  /-- One for each accepted request, in the order of acceptance. -/
  callers : List Caller := []
  /-- What the ticks so far returned. -/
  ticks : List StepOutput := []
  /-- What each slot was fed since it was given out. -/
  fed : SlotId → List Token := fun _ => []

namespace Session

def accepted (s : Session) : List RequestId := s.callers.map fun c => c.handle.id

def outputs (s : Session) : List GenerationOutput := s.ticks.flatMap StepOutput.finished

/-- The session after a submission, which is refused or gives out a handle. -/
def called (s : Session) (outcome : Except Error RequestHandle × Engine) : Session :=
  match outcome with
  | (.ok handle, e) => { s with engine := e, callers := s.callers ++ [{ handle := handle }] }
  | (.error _, e) => { s with engine := e }

def after (s : Session) : Event → Session
  | .submit g now => s.called (Action.exec (Engine.submit g now) s.engine)
  | .enqueue g now => s.called (Action.exec (Engine.enqueue g now) s.engine)
  | .cancel id => { s with engine := s.engine.cancel id }
  | .step now =>
    { s with
      engine := ((Engine.step now).run s.engine).2
      ticks := s.ticks ++ [((Engine.step now).run s.engine).1]
      fed := s.engine.feeding now s.fed }
  | .poll place => { s with callers := s.callers.modify place fun c => c.poll s.engine }

def run (s : Session) (events : List Event) : Session := events.foldl after s

/-- What every event keeps, a session keeps. -/
theorem run_keep (P : Session → Prop) (hafter : ∀ s event, P s → P (s.after event)) {s : Session}
    (h : P s) (events : List Event) : P (s.run events) := by
  induction events generalizing s with
  | nil => exact h
  | cons event rest ih => exact ih (hafter s event h)

/-- A submission is refused without a trace, or accepted under the next id. -/
theorem called_cases (s : Session) {g : GenerationRequest} {now : Nat}
    {outcome : Except Error RequestHandle × Engine}
    (h : (∃ fault, outcome = (.error fault, s.engine)) ∨
      (g.validate = .ok () ∧ outcome = (.ok { id := s.engine.nextId }, s.engine.accepted g now))) :
    s.called outcome = s ∨ (g.validate = .ok () ∧ s.called outcome = { s with
      engine := s.engine.accepted g now
      callers := s.callers ++ [{ handle := { id := s.engine.nextId } }] }) := by
  rcases h with ⟨fault, rfl⟩ | ⟨hvalid, rfl⟩
  · exact .inl rfl
  · exact .inr ⟨hvalid, rfl⟩

/-- An accepted request is the newest of those that were accepted. -/
theorem accepted_submit (s : Session) (e : Engine) (id : RequestId) :
    Session.accepted { s with engine := e, callers := s.callers ++ [{ handle := { id := id } }] } =
      s.accepted ++ [id] := List.map_append

/-- What an event does to a session: nothing, or it accepts a request, or it cancels, ticks or
polls. -/
theorem after_cases (s : Session) (event : Event) :
    s.after event = s ∨
    (∃ g now, g.validate = .ok () ∧ s.after event = { s with
      engine := s.engine.accepted g now
      callers := s.callers ++ [{ handle := { id := s.engine.nextId } }] }) ∨
    (∃ id, s.after event = { s with engine := s.engine.cancel id }) ∨
    (∃ now, event = .step now) ∨ ∃ place, event = .poll place := by
  cases event with
  | submit g now =>
    rcases s.called_cases (Engine.submit_cases s.engine g now) with h | ⟨hvalid, h⟩
    · exact .inl h
    · exact .inr (.inl ⟨g, now, hvalid, h⟩)
  | enqueue g now =>
    rcases s.called_cases (Engine.enqueue_cases s.engine g now) with h | ⟨hvalid, h⟩
    · exact .inl h
    · exact .inr (.inl ⟨g, now, hvalid, h⟩)
  | cancel id => exact .inr (.inr (.inl ⟨id, rfl⟩))
  | step now => exact .inr (.inr (.inr (.inl ⟨now, rfl⟩)))
  | poll place => exact .inr (.inr (.inr (.inr ⟨place, rfl⟩)))

/-! A session after a tick, field by field. Proofs rewrite with these, since unification would compare
two such sessions by unfolding the tick. -/

section Tick

variable (s : Session) (now : Nat)

@[simp] theorem engine_step :
    (s.after (.step now)).engine = ((Engine.step now).run s.engine).2 := rfl

@[simp] theorem fed_step : (s.after (.step now)).fed = s.engine.feeding now s.fed := rfl

@[simp] theorem callers_step : (s.after (.step now)).callers = s.callers := rfl

@[simp] theorem accepted_step : (s.after (.step now)).accepted = s.accepted := rfl

@[simp] theorem outputs_step : (s.after (.step now)).outputs =
    s.outputs ++ ((Engine.step now).run s.engine).1.finished := by
  simp [outputs, after]

end Tick

theorem accepted_poll (s : Session) (place : Nat) :
    (s.after (.poll place)).accepted = s.accepted := by
  refine List.ext_getElem? fun i => ?_
  simp only [accepted, after, List.getElem?_map, List.getElem?_modify]
  split
  · cases s.callers[i]? <;> rfl
  · simp

end Session

end CausalServe
