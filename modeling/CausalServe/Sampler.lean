import CausalServe.Action
import CausalServe.Config.Basic
import CausalServe.Random.Weighted

/-! Choosing the next token from a row of logits: greedily, or by a draw among the candidates that
the temperature, the count and the probability mass leave. -/

namespace CausalServe

structure Sampler where
  temperature : Float32
  topK : Nat
  topP : Float32
  stream : Stream

namespace Sampler

def withStream (config : SamplingConfig) (stream : Stream) : Sampler :=
  { temperature := config.temperature, topK := config.topK, topP := config.topP, stream := stream }

def withSeed (config : SamplingConfig) (seed : Nat) : Sampler := withStream config (.ofSeed seed)

/-- A configuration without a seed takes the stream it is given. -/
def new (config : SamplingConfig) (unseeded : Stream) : Sampler :=
  match config.seed with
  | some seed => withSeed config seed
  | none => withStream config unseeded

def isGreedy (s : Sampler) : Bool := s.temperature ≤ 0

/-- A token with its scaled logit. -/
abbrev Candidate := Float32 × Token

/-- The best of the entries seen and of those to come; an entry must exceed what it replaces. -/
def best (found : Candidate) : List Candidate → Candidate
  | [] => found
  | next :: rest => best (if found.1 < next.1 then next else found) rest

/-- The first of the largest logits. -/
def argmax (logits : List Float32) : Token :=
  match logits.zipIdx with
  | [] => 0
  | first :: rest => (best first rest).2

/-- Logits below their maximum in units of the temperature. -/
def scaled (temperature : Float32) (logits : List Float32) : List Float32 :=
  let top := logits.foldl Binary32.larger Binary32.negInfinity
  logits.map fun x => (x - top) / temperature

/-- Candidates from the most likely on, equal ones by index. -/
def ranked (scaled : List Float32) : List Candidate :=
  scaled.zipIdx.mergeSort fun a b => Binary32.totalKey b.1 ≤ Binary32.totalKey a.1

/-- Keeps the first `k`, or all if `k` is zero. -/
def keepTop (k : Nat) (candidates : List Candidate) : List Candidate :=
  if k = 0 then candidates else candidates.take k

def probabilities (xs : List Float32) : List Float32 :=
  let top := xs.foldl Binary32.larger Binary32.negInfinity
  let exps := xs.map fun x => (x - top).exp
  let total := exps.foldl (· + ·) Binary32.negZero
  exps.map (· / total)

/-- How many leading probabilities it takes until their sum exceeds `p`; all if none does. -/
def massLength (p : Float32) (sum : Float32) : List Float32 → Nat
  | [] => 0
  | q :: qs => if p < sum + q then 1 else massLength p (sum + q) qs + 1

/-- How many leading probabilities are kept. -/
def nucleusLength (p : Float32) (qs : List Float32) : Nat :=
  if 0 < p ∧ p < 1 then massLength p 0 qs else qs.length

/-- The kept candidates and the weights to draw them by. -/
def candidates (s : Sampler) (logits : List Float32) : List Candidate × List Float32 :=
  let kept := keepTop s.topK (ranked (scaled s.temperature logits))
  let qs := probabilities (kept.map (·.1))
  let count := nucleusLength s.topP qs
  (kept.take count, qs.take count)

def checkLogits (logits : List Float32) : Except Error Unit :=
  match logits with
  | [] => .error (.invalidRequest .emptyLogits)
  | _ => match logits.zipIdx.find? fun (x, _) => !x.isFinite with
    | some (x, i) => .error (.numeric (.logit i x))
    | none => .ok ()

/-- The next token. A draw takes one word from the stream; greedy choice and failure take none. -/
def sample (logits : List Float32) : Action Sampler Token := do
  Action.ofExcept (checkLogits logits)
  let s ← get
  if s.isGreedy then return argmax logits
  let (kept, weights) := s.candidates logits
  match Weighted.ofWeights weights with
  | .error fault => throw (.numeric (.distribution fault))
  | .ok w =>
    match kept[w.choose s.stream.word]? with
    | some (_, t) =>
      set { s with stream := s.stream.skip 1 }
      return t
    | none => throw (.contract "more weights than candidates")

end Sampler

end CausalServe
