/-! Instruction sets that a kernel can be asked for, and the kernels that exist. -/

namespace CausalServe

/-- A vector instruction set, widest first. -/
inductive SimdLevel
  | avx512
  | avx2Fma
  | avx
  | sse
  | neon
  | scalar
deriving DecidableEq, Repr

/-- The kernels of this library: four 128-bit registers of four lanes, or plain scalars. -/
inductive Kernel
  | sse
  | scalar
deriving DecidableEq, Repr

namespace SimdLevel

def all : List SimdLevel := [avx512, avx2Fma, avx, sse, neon, scalar]

def name : SimdLevel → String
  | avx512 => "avx512"
  | avx2Fma => "avx2_fma"
  | avx => "avx"
  | sse => "sse"
  | neon => "neon"
  | scalar => "scalar"

/-- The width of a register in bits. -/
def width : SimdLevel → Nat
  | avx512 => 512
  | avx2Fma | avx => 256
  | sse | neon => 128
  | scalar => 0

/-- The kernel written for an instruction set, if there is one. -/
def kernel? : SimdLevel → Option Kernel
  | sse => some .sse
  | scalar => some .scalar
  | _ => none

def isSupported (l : SimdLevel) : Bool := l.kernel?.isSome

/-- The supported instruction sets, widest first. -/
def available : List SimdLevel := all.filter isSupported

end SimdLevel

namespace Kernel

def level : Kernel → SimdLevel
  | sse => .sse
  | scalar => .scalar

/-- The widest kernel there is. -/
def widest : Kernel := .sse

end Kernel

end CausalServe
