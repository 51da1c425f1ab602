/-! Sizes as 64-bit words. -/

namespace CausalServe

/-- The number of 64-bit words: the least natural number that is none. -/
def wordSize : Nat := 0x10000000000000000

/-- The product of two sizes as a 64-bit word. -/
def wordMul (m n : Nat) : Nat := m * n % wordSize

/-- The sum of two sizes as a 64-bit word. -/
def wordAdd (m n : Nat) : Nat := (m + n) % wordSize

end CausalServe
