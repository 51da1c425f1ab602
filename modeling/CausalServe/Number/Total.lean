/-! Totals over lists. -/

namespace CausalServe

/-- The sum of what a function gives for the items. -/
def total {α : Type} (f : α → Nat) : List α → Nat
  | [] => 0
  | x :: xs => f x + total f xs

end CausalServe
