import CausalServe.Quant.Encoding

/-! Codes in bytes. Q8 keeps a code as one byte in two's complement. Q4 adds eight to each code and
keeps two to a byte, the first in the low half. -/

namespace CausalServe.Encoding

def byte (code : Int) : UInt8 := UInt8.ofNat (code % 256).toNat

def nibble (code : Int) : Nat := ((code + 8) % 16).toNat

/-- A last code without a partner leaves its byte zero. -/
def packNibbles : List Int → List UInt8
  | [] => []
  | [_] => [0]
  | low :: high :: rest => UInt8.ofNat (nibble high * 16 + nibble low) :: packNibbles rest

def pack : Encoding → List Int → List UInt8
  | q8, codes => codes.map byte
  | q4, codes => packNibbles codes

def code (b : UInt8) : Int :=
  if b.toNat < 128 then b.toNat else b.toNat - 256

def nibbleCodes (b : UInt8) : List Int :=
  [(b.toNat % 16 : Nat) - 8, (b.toNat / 16 : Nat) - 8]

def unpack : Encoding → List UInt8 → List Int
  | q8, bytes => bytes.map code
  | q4, bytes => bytes.flatMap nibbleCodes

/-- Bytes that a number of codes take. -/
def packedLen : Encoding → Nat → Nat
  | q8, n => n
  | q4, n => (n + 1) / 2

end CausalServe.Encoding
