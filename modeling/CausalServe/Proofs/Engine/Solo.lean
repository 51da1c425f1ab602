import CausalServe.Proofs.Engine.Phases

/-! A request on its own: one loop that asks a model for logits, samples, and stops. Nothing in it
knows of a queue, of a cache or of other requests. What becomes of a stored request is what the loop
would come to from where the request is, and the steps of an engine do not change that. -/

namespace CausalServe

structure Outcome where
  state : RequestState
  finishReason : Option FinishReason
  failure : Option ErrorKind
  /-- As it was processed. -/
  prompt : List Token
  output : List Token
deriving DecidableEq

def Outcome.failed (kind : ErrorKind) (prompt output : List Token) : Outcome :=
  { state := .failed, finishReason := none, failure := some kind, prompt := prompt, output := output }

/-- A model that answers with logits for all tokens so far, and the limits of a request. -/
structure Solo where
  logits : List Token → List Float32
  vocabSize : Nat
  eos : Option Token
  maxContext : Nat
  truncates : Bool
  overflowPolicy : OverflowPolicy

namespace Solo

def stopReason (eos : Option Token) (sampling : SamplingConfig) (output : List Token) :
    Option FinishReason :=
  if eos.isSome && eos == output.getLast? then some .endOfSequence
  else if sampling.stopSequences.any fun stop => !stop.isEmpty && stop.isSuffixOf output then
    some .stopSequence
  else if sampling.maxTokens ≤ output.length then some .maxTokens
  else none

theorem lt_of_stopReason {eos : Option Token} {sampling : SamplingConfig} {output : List Token}
    (h : stopReason eos sampling output = none) : output.length < sampling.maxTokens := by
  unfold stopReason at h
  split at h
  · cases h
  · split at h
    · cases h
    · split at h
      · cases h
      next hlt => exact Nat.lt_of_not_le hlt

/-- The end of a prompt that the context holds; none if the prompt is too long and may not be cut. -/
def fitted (m : Solo) (prompt : List Token) : Option (List Token) :=
  if prompt.length ≤ m.maxContext then some prompt
  else if m.truncates then some (prompt.drop (prompt.length - m.maxContext))
  else none

/-- One token after another, until the request is out of steps, does not fit, cannot be sampled, or
has come to its end. -/
def run (m : Solo) (sampling : SamplingConfig) (maxSteps : Option Nat) (sampler : Sampler)
    (steps : Nat) (prompt output : List Token) : Outcome :=
  if maxSteps.any fun limit => limit ≤ steps then
    { state := .cancelled, finishReason := none, failure := some .timeout
      prompt := prompt, output := output }
  else match m.fitted prompt with
    | none => .failed .cacheOverflow prompt output
    | some prompt =>
      if m.overflowPolicy = .reject ∧ m.maxContext < prompt.length + output.length then
        .failed .cacheOverflow prompt output
      else match Action.exec (Sampler.sample (m.logits (prompt ++ output))) sampler with
        | (.error fault, _) => .failed fault.kind prompt output
        | (.ok token, sampler) =>
          match _h : stopReason m.eos sampling (output ++ [token]) with
          | some reason =>
            { state := .completed, finishReason := some reason, failure := none
              prompt := prompt, output := output ++ [token] }
          | none => m.run sampling maxSteps sampler (steps + 1) prompt (output ++ [token])
termination_by sampling.maxTokens - output.length
decreasing_by
  have := lt_of_stopReason _h
  simp only [List.length_append, List.length_singleton] at this ⊢
  omega

/-- What a request comes to that has the model for itself, and a stream to draw from if it names no
seed. -/
def answer (m : Solo) (g : GenerationRequest) (unseeded : Stream) : Outcome :=
  if g.prompt.all fun t => t < m.vocabSize then
    m.run g.sampling g.maxSteps (.new g.sampling unseeded) 0 g.prompt []
  else .failed .invalidRequest g.prompt []

/-! ## The cases of the loop -/

variable {m : Solo} {sampling : SamplingConfig} {maxSteps : Option Nat} {sampler : Sampler}
  {steps : Nat} {prompt cut output : List Token}

theorem fitted_length (h : m.fitted prompt = some cut) : cut.length ≤ m.maxContext := by
  unfold fitted at h
  split at h
  next hle => cases h; exact hle
  next hle =>
    split at h
    · cases h
      rw [List.length_drop]
      omega
    · cases h

theorem fitted_of_le (h : prompt.length ≤ m.maxContext) : m.fitted prompt = some prompt :=
  if_pos h

theorem run_exhausted (h : (maxSteps.any fun limit => limit ≤ steps) = true) :
    m.run sampling maxSteps sampler steps prompt output =
      { state := .cancelled, finishReason := none, failure := some .timeout
        prompt := prompt, output := output } := by
  rw [run, if_pos h]

theorem run_tooLong (h : (maxSteps.any fun limit => limit ≤ steps) = false)
    (hfit : m.fitted prompt = none) : m.run sampling maxSteps sampler steps prompt output =
      .failed .cacheOverflow prompt output := by
  rw [run, if_neg (by simp [h]), hfit]

/-- A prompt is cut once. -/
theorem run_fitted (h : (maxSteps.any fun limit => limit ≤ steps) = false)
    (hfit : m.fitted prompt = some cut) : m.run sampling maxSteps sampler steps prompt output =
      m.run sampling maxSteps sampler steps cut output := by
  conv_lhs => rw [run, if_neg (by simp [h]), hfit]
  conv_rhs => rw [run, if_neg (by simp [h]), fitted_of_le (fitted_length hfit)]

theorem run_overflow (h : (maxSteps.any fun limit => limit ≤ steps) = false)
    (hfit : m.fitted prompt = some cut) (hpolicy : m.overflowPolicy = .reject)
    (hfull : m.maxContext < cut.length + output.length) :
    m.run sampling maxSteps sampler steps prompt output = .failed .cacheOverflow cut output := by
  rw [run, if_neg (by simp [h]), hfit]
  exact if_pos ⟨hpolicy, hfull⟩

theorem run_sampled (h : (maxSteps.any fun limit => limit ≤ steps) = false)
    (hfit : m.fitted prompt = some cut)
    (hroom : m.overflowPolicy = .reject → cut.length + output.length ≤ m.maxContext) :
    m.run sampling maxSteps sampler steps prompt output =
      match Action.exec (Sampler.sample (m.logits (cut ++ output))) sampler with
      | (.error fault, _) => .failed fault.kind cut output
      | (.ok token, sampler) => match stopReason m.eos sampling (output ++ [token]) with
        | some reason =>
          { state := .completed, finishReason := some reason, failure := none
            prompt := cut, output := output ++ [token] }
        | none => m.run sampling maxSteps sampler (steps + 1) cut (output ++ [token]) := by
  have hfits : ¬ (m.overflowPolicy = .reject ∧ m.maxContext < cut.length + output.length) :=
    fun ⟨hpolicy, hlt⟩ => Nat.lt_irrefl _ (Nat.lt_of_lt_of_le hlt (hroom hpolicy))
  rw [run, if_neg (by simp [h]), hfit]
  simp only [if_neg hfits]
  rcases Action.exec (Sampler.sample (m.logits (cut ++ output))) sampler with ⟨fault | token, next⟩
  · rfl
  · simp only
    cases stopReason m.eos sampling (output ++ [token]) <;> rfl

/-! ## Requests that draw from no stream of their own -/

/-- Greedy choice is a function of the logits, and leaves the sampler as it was. -/
theorem exec_sample_greedy {s : Sampler} (h : s.isGreedy = true) (logits : List Float32) :
    Action.exec (Sampler.sample logits) s =
      (Sampler.checkLogits logits >>= fun _ => .ok (Sampler.argmax logits), s) := by
  unfold Sampler.sample
  cases hcheck : Sampler.checkLogits logits with
  | error fault => rfl
  | ok =>
    show Action.exec (if s.isGreedy = true then _ else _) s = _
    rw [if_pos h]
    rfl

theorem sample_greedy_congr {s s' next : Sampler} (h : s.isGreedy = true) (h' : s'.isGreedy = true)
    {logits : List Float32} {sampled : Except Error Token}
    (hsample : Action.exec (Sampler.sample logits) s = (sampled, next)) :
    next = s ∧ Action.exec (Sampler.sample logits) s' = (sampled, s') := by
  rw [exec_sample_greedy h] at hsample
  cases hsample
  exact ⟨rfl, exec_sample_greedy h' logits⟩

theorem run_greedy {s s' : Sampler} (h : s.isGreedy = true) (h' : s'.isGreedy = true) :
    m.run sampling maxSteps s steps prompt output =
      m.run sampling maxSteps s' steps prompt output := by
  fun_induction Solo.run m sampling maxSteps s steps prompt output with
  | case1 s steps prompt output hspent => rw [run_exhausted hspent]
  | case2 s steps prompt output hleft hfit =>
    rw [run_tooLong (Bool.eq_false_of_not_eq_true hleft) hfit]
  | case3 s steps prompt output hleft cut hfit hfull =>
    rw [run_overflow (Bool.eq_false_of_not_eq_true hleft) hfit hfull.1 hfull.2]
  | case4 s steps prompt output hleft cut hfit hfull fault next hsample =>
    have hroom := fun hpolicy => Nat.le_of_not_lt (not_and.mp hfull hpolicy)
    rw [run_sampled (Bool.eq_false_of_not_eq_true hleft) hfit hroom,
      (sample_greedy_congr h h' hsample).2]
  | case5 s steps prompt output hleft cut hfit hfull token next hsample reason hstop =>
    have hroom := fun hpolicy => Nat.le_of_not_lt (not_and.mp hfull hpolicy)
    rw [run_sampled (Bool.eq_false_of_not_eq_true hleft) hfit hroom,
      (sample_greedy_congr h h' hsample).2]
    simp only [hstop]
  | case6 s steps prompt output hleft cut hfit hfull token next hsample hstop ih =>
    obtain ⟨rfl, hsample'⟩ := sample_greedy_congr h h' hsample
    have hroom := fun hpolicy => Nat.le_of_not_lt (not_and.mp hfull hpolicy)
    rw [run_sampled (Bool.eq_false_of_not_eq_true hleft) hfit hroom, hsample']
    simp only [hstop]
    exact ih h

/-- A request that is greedy or names a seed comes to the same, whatever stream it is handed. -/
theorem answer_congr {g : GenerationRequest} (h : g.sampling.temperature ≤ 0 ∨
    g.sampling.seed.isSome = true) (a b : Stream) : m.answer g a = m.answer g b := by
  unfold answer
  split
  · rcases h with hgreedy | hseed
    · have hnew : ∀ s, (Sampler.new g.sampling s).isGreedy = true := fun s => by
        unfold Sampler.new
        cases g.sampling.seed <;> exact decide_eq_true hgreedy
      exact run_greedy (hnew a) (hnew b)
    · obtain ⟨seed, hs⟩ := Option.isSome_iff_exists.mp hseed
      rw [Sampler.new, Sampler.new, hs]
  · rfl

end Solo

def GenerationOutput.outcome (o : GenerationOutput) : Outcome :=
  { state := o.state, finishReason := o.finishReason, failure := o.failure.map Failure.kind
    prompt := o.prompt, output := o.output }

namespace Request

def outcome (r : Request) : Outcome :=
  { state := r.state, finishReason := r.finishReason, failure := r.failure.map Failure.kind
    prompt := r.prompt, output := r.output.toList }

/-- What becomes of a request, with a sampler for its next tokens. -/
def prospect (m : Solo) (r : Request) (sampler : Sampler) : Outcome :=
  if r.state.isTerminal then r.outcome
  else m.run r.sampling r.maxSteps sampler r.steps r.prompt r.output.toList

variable {m : Solo} {r : Request} {sampler : Sampler}

theorem prospect_ended (h : r.state.isTerminal = true) : r.prospect m sampler = r.outcome :=
  if_pos h

theorem prospect_live (h : r.state.isTerminal = false) : r.prospect m sampler =
    m.run r.sampling r.maxSteps sampler r.steps r.prompt r.output.toList := by
  rw [prospect, h]
  rfl

/-- Why a request stops that has any output. -/
theorem checkStop_of_output (eos : Option Token) (h : r.output.toList ≠ []) :
    r.checkStop eos = Solo.stopReason eos r.sampling r.output.toList := by
  have hends : ∀ stop : List Token, r.endsWith stop = stop.isSuffixOf r.output.toList :=
    fun stop => by
      rw [Bool.eq_iff_iff, List.isSuffixOf_iff_suffix, List.suffix_iff_eq_drop]
      have hdrop : ∀ (xs : Array Token) (n : Nat), (xs.drop n).toList = xs.toList.drop n := by simp
      rw [endsWith, hdrop, decide_eq_true_iff, eq_comm]
      rfl
  obtain ⟨last, hlast⟩ := List.getLast?_isSome.mpr h |> Option.isSome_iff_exists.mp
  have hback : r.output.back? = some last := by rw [← Array.getLast?_toList, hlast]
  have heos : (eos = some last) ↔ (eos.isSome && eos == r.output.toList.getLast?) = true := by
    rw [hlast]
    cases eos <;> simp
  unfold checkStop Solo.stopReason
  simp only [hback, heos, hends, Array.length_toList]

theorem checkStop_eq (eos : Option Token) (token : Token) :
    (r.stepped token).checkStop eos =
      Solo.stopReason eos r.sampling (r.output.toList ++ [token]) := by
  have hlist : (r.stepped token).output.toList = r.output.toList ++ [token] := Array.toList_push
  rw [checkStop_of_output eos (by rw [hlist]; simp), hlist]
  rfl

/-- What a request asks for and has generated is all that its prospect depends on. -/
theorem prospect_congr {x : Request} (hlive : r.state.isTerminal = false)
    (hlive' : x.state.isTerminal = false) (hsampling : x.sampling = r.sampling)
    (hmax : x.maxSteps = r.maxSteps) (hsteps : x.steps = r.steps) (hprompt : x.prompt = r.prompt)
    (hout : x.output = r.output) : x.prospect m sampler = r.prospect m sampler := by
  rw [prospect_live hlive, prospect_live hlive', hsampling, hmax, hsteps, hprompt, hout]

/-- Cutting the prompt is part of the loop. -/
theorem prospect_fitted (hlive : r.state.isTerminal = false)
    (hsteps : r.isStepBudgetExhausted = false) {cut : Request}
    (hfitted : m.fitted r.prompt = some cut.prompt)
    (hkept : cut = { r with prompt := cut.prompt, truncated := cut.truncated })
    (sampler : Sampler) : cut.prospect m sampler = r.prospect m sampler := by
  have hlive' : cut.state.isTerminal = false := by rw [hkept]; exact hlive
  rw [prospect_live hlive, prospect_live hlive', Solo.run_fitted hsteps hfitted, hkept]

/-- A request that has not ended reports nothing about its end. -/
def Plain (r : Request) : Prop := r.finishReason = none ∧ r.failure = none

theorem prospect_failedBy (hplain : r.Plain) (e : Error) :
    (r.failedBy e).prospect m sampler = .failed e.kind r.prompt r.output.toList := by
  rw [prospect_ended rfl]
  simp only [outcome, failedBy, hplain.1, Option.map_some]
  rfl

/-- A step takes a request to where the loop would take it, and its sampler with it. -/
theorem prospect_settled (hlive : r.state.isTerminal = false) (hplain : r.Plain)
    (hsteps : r.isStepBudgetExhausted = false) (hfit : r.prompt.length ≤ m.maxContext)
    (hroom : m.overflowPolicy = .reject → r.totalLen ≤ m.maxContext)
    {sampled : Except Error Token} {next : Sampler}
    (hsample : Action.exec (Sampler.sample (m.logits r.tokens)) sampler = (sampled, next)) :
    (r.settled m.eos sampled).prospect m next = r.prospect m sampler := by
  have hsample' : Action.exec (Sampler.sample (m.logits (r.prompt ++ r.output.toList))) sampler =
      (sampled, next) := hsample
  rw [prospect_live hlive, Solo.run_sampled hsteps (Solo.fitted_of_le hfit) hroom, hsample']
  cases sampled with
  | error fault => exact prospect_failedBy hplain fault
  | ok token =>
    have hstop := checkStop_eq (r := r) m.eos token
    have hlist : (r.stepped token).output.toList = r.output.toList ++ [token] := Array.toList_push
    cases hreason : Solo.stopReason m.eos r.sampling (r.output.toList ++ [token]) with
    | none =>
      rw [hreason] at hstop
      rw [settled_goesOn hstop, prospect_live rfl, hlist]
      simp only [hreason]
      rfl
    | some reason =>
      rw [hreason] at hstop
      have hfailure : (r.stepped token).failure = none := hplain.2
      rw [settled_completes hstop, prospect_ended rfl]
      simp only [hreason, outcome, completed, hlist, hfailure]
      rfl

end Request

end CausalServe
