import CausalServe.Proofs.Action
import CausalServe.Request.InPlace
import CausalServe.Scheduler.Expiry

/-! What an event does to a request. A request that ends keeps all but its state and what it reports
about its end. -/

namespace CausalServe

namespace RequestState

theorem isRunning_iff {s : RequestState} : s.isRunning = true ↔ s = .prefilling ∨ s = .decoding := by
  cases s <;> simp [isRunning]

theorem isTerminal_of_isRunning {s : RequestState} (h : s.isRunning = true) :
    s.isTerminal = false := by
  cases s <;> simp_all [isRunning, isTerminal]

theorem not_isRunning_of_isTerminal {s : RequestState} (h : s.isTerminal = true) :
    s.isRunning = false := by
  cases s <;> simp_all [isRunning, isTerminal]

theorem ne_queued_of_isTerminal {s : RequestState} (h : s.isTerminal = true) : s ≠ .queued := by
  cases s <;> simp_all [isTerminal]

theorem ne_queued_of_isRunning {s : RequestState} (h : s.isRunning = true) : s ≠ .queued := by
  cases s <;> simp_all [isRunning]

/-- Of two requests that run, neither waits. -/
theorem queued_iff_of_isRunning {s t : RequestState} (hs : s.isRunning = true)
    (ht : t.isRunning = true) : s = .queued ↔ t = .queued :=
  iff_of_false (ne_queued_of_isRunning hs) (ne_queued_of_isRunning ht)

/-- A live request waits or runs. -/
theorem live_iff {s : RequestState} :
    s.isTerminal = false ↔ s = .queued ∨ s.isRunning = true := by
  cases s <;> simp [isRunning, isTerminal]

end RequestState

namespace Request

/-- A request after its end: only its state and its report have changed. -/
structure EndsAs (r ended : Request) : Prop where
  terminal : ended.state.isTerminal = true
  kept : ended = { r with
    state := ended.state, finishReason := ended.finishReason, failure := ended.failure }

namespace EndsAs

variable {r ended : Request} (h : r.EndsAs ended)
include h

theorem id : ended.id = r.id := by rw [h.kept]

theorem slot : ended.slot = r.slot := by rw [h.kept]

theorem output : ended.output = r.output := by rw [h.kept]

theorem sampling : ended.sampling = r.sampling := by rw [h.kept]

end EndsAs

/-- A running request after a forward pass over all its pending tokens, with one token more. -/
def stepped (r : Request) (token : Token) : Request :=
  { r with
    cached := min (r.cached + r.pendingLen) r.totalLen
    steps := r.steps + 1
    state := .decoding
    output := r.output.push token }

def failedBy (r : Request) (e : Error) : Request :=
  { r with state := .failed, failure := some (.ofError e) }

def requeued (r : Request) : Request :=
  { r with state := .queued, cached := 0, slot := none, preemptions := r.preemptions + 1 }

def completed (r : Request) (reason : FinishReason) : Request :=
  { r with state := .completed, finishReason := some reason }

theorem fail_of_live {r : Request} (h : r.state.isTerminal = false) (e : Error) :
    r.fail e = .ok (r.failedBy e) := by
  cases r with
  | mk id prompt output sampling priority arrivalSeq arrival timeout maxSteps steps state =>
    cases state <;> first | rfl | cases h

theorem fail_of_terminal {r : Request} (h : r.state.isTerminal = true) (e : Error) :
    r.fail e = .error (.invalidTransition r.state.name RequestState.failed.name) := by
  cases r with
  | mk id prompt output sampling priority arrivalSeq arrival timeout maxSteps steps state =>
    cases state <;> first | rfl | cases h

theorem fail_ok {r failed : Request} {e : Error} (h : r.fail e = .ok failed) :
    r.state.isTerminal = false ∧ failed = r.failedBy e := by
  cases hs : r.state.isTerminal with
  | false =>
    rw [fail_of_live hs] at h
    exact ⟨rfl, (Except.ok.inj h).symm⟩
  | true =>
    rw [fail_of_terminal hs e] at h
    cases h

theorem fail_endsAs {r failed : Request} {e : Error} (h : r.fail e = .ok failed) :
    r.EndsAs failed := by
  obtain ⟨-, rfl⟩ := fail_ok h
  exact ⟨rfl, rfl⟩

theorem apply_cancel {r : Request} (h : r.state.isTerminal = false) :
    r.apply .cancel = .ok { r with state := .cancelled, failure := some (.ofError .cancelled) } := by
  cases r with
  | mk id prompt output sampling priority arrivalSeq arrival timeout maxSteps steps state =>
    cases state <;> first | rfl | cases h

theorem apply_timeout {r : Request} (h : r.state.isTerminal = false) :
    r.apply .timeout = .ok { r with
      state := .cancelled, failure := some (.ofError (.timeout s!"{r.steps} steps")) } := by
  cases r with
  | mk id prompt output sampling priority arrivalSeq arrival timeout maxSteps steps state =>
    cases state <;> first | rfl | cases h

theorem apply_finish {r : Request} (h : r.state.isRunning = true) (reason : FinishReason) :
    r.apply (.finish reason) = .ok (r.completed reason) := by
  cases r with
  | mk id prompt output sampling priority arrivalSeq arrival timeout maxSteps steps state =>
    cases state <;> first | rfl | cases h

theorem apply_preempt {r : Request} (h : r.state.isRunning = true) :
    r.apply .preempt = .ok r.requeued := by
  cases r with
  | mk id prompt output sampling priority arrivalSeq arrival timeout maxSteps steps state =>
    cases state <;> first | rfl | cases h

/-- Only a running request can be sent back. -/
theorem apply_preempt_error {r : Request} (h : r.state.isRunning = false) :
    ∃ fault, r.apply .preempt = .error fault := by
  cases r with
  | mk id prompt output sampling priority arrivalSeq arrival timeout maxSteps steps state =>
    cases state <;> first | exact ⟨_, rfl⟩ | cases h

/-! ## In place -/

/-- An event that is refused changes nothing, and any other has its effect. -/
theorem exec_applyInPlace (r : Request) (e : RequestEvent) :
    Action.exec (applyInPlace e) r = match r.apply e with
      | .ok r' => (.ok (), r')
      | .error fault => (.error fault, r) := by
  unfold applyInPlace apply
  simp only [Action.exec_bind, Action.exec_get, Action.exec_ofExcept]
  cases r.state.transition e <;> rfl

theorem exec_failInPlace (r : Request) (e : Error) :
    Action.exec (failInPlace e) r = match r.fail e with
      | .ok r' => (.ok (), r')
      | .error fault => (.error fault, r) := by
  unfold failInPlace fail
  simp only [Action.exec_bind, exec_applyInPlace]
  cases r.apply (.fail e.kind) <;> rfl

/-- The tokens of a running request are fed, whatever its state is. -/
theorem exec_advanceInPlace {r : Request} (h : r.state.isRunning = true) (token : Token) :
    Action.exec (advanceInPlace token) r = (.ok (), r.stepped token) := by
  cases r with
  | mk id prompt output sampling priority arrivalSeq arrival timeout maxSteps steps state =>
    cases state <;> first | rfl | cases h

/-! ## Tokens -/

theorem pending_eq (r : Request) : r.pending = r.tokens.drop r.cached := by
  rw [pending, tokens, List.drop_append]
  simp

theorem length_tokens (r : Request) : r.tokens.length = r.totalLen := by
  simp [tokens, totalLen]

theorem length_pending (r : Request) : r.pending.length = r.pendingLen := by
  rw [pending_eq, List.length_drop, length_tokens, pendingLen]

/-- Generation goes on only below the limit. -/
theorem checkStop_none {r : Request} {eos : Option Token} (hsize : 0 < r.output.size)
    (h : r.checkStop eos = none) : r.output.size < r.sampling.maxTokens := by
  obtain ⟨last, hback⟩ : ∃ last, r.output.back? = some last := by
    rw [Array.back?_eq_getElem?]
    exact ⟨_, Array.getElem?_eq_getElem (by omega)⟩
  simp only [checkStop, hback] at h
  by_cases heos : eos = some last
  · rw [if_pos heos] at h
    cases h
  · rw [if_neg heos] at h
    by_cases hstop : (r.sampling.stopSequences.any fun stop =>
        !stop.isEmpty && r.endsWith stop) = true
    · rw [if_pos hstop] at h
      cases h
    · rw [if_neg hstop] at h
      by_cases hle : r.sampling.maxTokens ≤ r.output.size
      · rw [if_pos hle] at h
        cases h
      · exact Nat.lt_of_not_le hle

theorem expiry?_some {r : Request} {now : Nat} {e : RequestEvent} (h : r.expiry? now = some e) :
    (e = .cancel ∧ r.cancelRequested = true) ∨
      (e = .timeout ∧ r.cancelRequested = false ∧
        (r.isTimedOut now = true ∨ r.isStepBudgetExhausted = true)) := by
  unfold expiry? at h
  split at h
  next hc => exact .inl ⟨(Option.some.inj h).symm, hc⟩
  next hc =>
    split at h
    next ht => exact .inr ⟨(Option.some.inj h).symm, by simpa using hc, by simpa using ht⟩
    next => cases h

theorem expiry?_none {r : Request} {now : Nat} (h : r.expiry? now = none) :
    r.isStepBudgetExhausted = false := by
  unfold expiry? at h
  split at h
  · cases h
  · split at h
    · cases h
    next hdue =>
      simp only [Bool.or_eq_true, not_or, Bool.not_eq_true] at hdue
      exact hdue.2

/-- A request that is due ends by its event, and an ended one is left alone. -/
theorem apply_expiry {r : Request} {now : Nat} {e : RequestEvent} (h : r.expiry? now = some e)
    (hl : r.state.isTerminal = false) : ∃ ended, r.apply e = .ok ended ∧ r.EndsAs ended := by
  rcases expiry?_some h with ⟨rfl, -⟩ | ⟨rfl, -⟩
  · exact ⟨_, apply_cancel hl, rfl, rfl⟩
  · exact ⟨_, apply_timeout hl, rfl, rfl⟩

end Request

end CausalServe
