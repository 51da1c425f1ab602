/-! Combining lists of activations entry by entry. -/

namespace CausalServe

/-- Combines entries with those of a second list as far as it goes, and keeps the others. -/
def zipOnto {α β : Type} (f : α → β → α) : List α → List β → List α
  | x :: xs, y :: ys => f x y :: zipOnto f xs ys
  | xs, _ => xs

/-- `x` times its logistic sigmoid. -/
def silu (x : Float32) : Float32 := x / (1 + (-x).exp)

end CausalServe
