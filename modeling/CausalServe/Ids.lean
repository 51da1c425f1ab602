/-! The numbers that name tokens, requests and cache slots. -/

namespace CausalServe

/-- An index into the vocabulary. -/
abbrev Token := Nat

abbrev RequestId := Nat

abbrev SlotId := Nat

end CausalServe
