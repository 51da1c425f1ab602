/-! Seeded streams of 32-bit words: ChaCha with twelve rounds over a key that a seed is expanded to.
A stream is its key and the number of words drawn from it, so that every word is a function of its
place. -/

namespace CausalServe

/-- The state of one block: constants, key, block number, and two zeros. -/
abbrev ChaChaState := Vector UInt32 16

namespace ChaChaState

def rotateLeft (x : UInt32) (k : UInt32) : UInt32 := x <<< k ||| x >>> (32 - k)

/-- Adds one word to another and mixes the sum into a third, which is rotated. -/
def mix (s : ChaChaState) (target source mixed : Fin 16) (k : UInt32) : ChaChaState :=
  let s := s.set target (s.get target + s.get source)
  s.set mixed (rotateLeft (s.get mixed ^^^ s.get target) k)

def quarterRound (s : ChaChaState) (a b c d : Fin 16) : ChaChaState :=
  (((s.mix a b d 16).mix c d b 12).mix a b d 8).mix c d b 7

/-- The four columns, then the four diagonals. -/
def doubleRound (s : ChaChaState) : ChaChaState :=
  let s := (((s.quarterRound 0 4 8 12).quarterRound 1 5 9 13).quarterRound 2 6 10 14).quarterRound
    3 7 11 15
  (((s.quarterRound 0 5 10 15).quarterRound 1 6 11 12).quarterRound 2 7 8 13).quarterRound 3 4 9 14

def doubleRounds : Nat → ChaChaState → ChaChaState
  | 0, s => s
  | count + 1, s => doubleRounds count s.doubleRound

def constants : Vector UInt32 4 := #v[0x61707865, 0x3320646e, 0x79622d32, 0x6b206574]

def blockNumber (block : Nat) : Vector UInt32 4 :=
  #v[UInt32.ofNat block, UInt32.ofNat (block >>> 32), 0, 0]

def initial (key : Vector UInt32 8) (block : Nat) : ChaChaState :=
  constants ++ key ++ blockNumber block

/-- The words of a block. -/
def output (key : Vector UInt32 8) (block : Nat) : List UInt32 :=
  let start := initial key block
  (Vector.zipWith (· + ·) (doubleRounds 6 start) start).toList

end ChaChaState

structure Stream where
  key : Vector UInt32 8
  /-- Words drawn so far. -/
  drawn : Nat := 0
deriving DecidableEq

namespace Stream

/-- One step of the generator that expands a seed, with its word. -/
def expandStep (state : UInt64) : UInt32 × UInt64 :=
  let next := state * 6364136223846793005 + 11634580027462260723
  let x := (((next >>> 18) ^^^ next) >>> 27).toUInt32
  let k := (next >>> 59).toUInt32
  (x >>> k ||| x <<< (32 - k), next)

/-- The first words that a seed is expanded to. -/
def expand : Nat → UInt64 → List UInt32
  | 0, _ => []
  | count + 1, state =>
    let (word, next) := expandStep state
    word :: expand count next

def ofSeed (seed : Nat) : Stream :=
  let words := expand 8 (UInt64.ofNat seed)
  { key := Vector.ofFn fun i => words.getD i 0 }

/-- The next word. -/
def word (s : Stream) : UInt32 :=
  (ChaChaState.output s.key (s.drawn / 16)).getD (s.drawn % 16) 0

/-- The next words. -/
def words (s : Stream) (count : Nat) : List UInt32 :=
  let first := s.drawn / 16
  let blocks := List.range' first (count / 16 + 2)
  ((blocks.flatMap (ChaChaState.output s.key)).drop (s.drawn % 16)).take count

def skip (s : Stream) (count : Nat) : Stream := { s with drawn := s.drawn + count }

end Stream

/-- The float in `[0, 1)` that a word stands for, in steps of `2 ^ -23`. -/
def fraction (word : UInt32) : Float32 := Float32.ofBits (word >>> 9 ||| 0x3F800000) - 1

/-- The float between two ends that a word stands for. -/
def uniform (low high : Float32) (word : UInt32) : Float32 := fraction word * (high - low) + low

end CausalServe
