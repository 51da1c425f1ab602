/-! Encodings of quantized blocks: thirty-two signed codes that share one scale.

| encoding | codes      | bytes of a block       |
|----------|------------|------------------------|
| Q8       | -128 … 127 | 32                     |
| Q4       | -8 … 7     | 16, two codes to a byte | -/

namespace CausalServe

/-- Elements of one block. -/
def blockSize : Nat := 32

inductive Encoding
  | q8
  | q4
deriving DecidableEq, Repr

namespace Encoding

/-- The largest magnitude of a block is mapped to this code. -/
def maxCode : Encoding → Int
  | q8 => 127
  | q4 => 7

def minCode : Encoding → Int
  | q8 => -128
  | q4 => -8

def bytesPerBlock : Encoding → Nat
  | q8 => blockSize
  | q4 => blockSize / 2

def name : Encoding → String
  | q8 => "q8"
  | q4 => "q4"

def inRange (e : Encoding) (code : Int) : Bool :=
  decide (e.minCode ≤ code) && decide (code ≤ e.maxCode)

end Encoding

end CausalServe
