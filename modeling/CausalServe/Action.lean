import CausalServe.Error

/-! Steps on a state that may fail. -/

namespace CausalServe

/-- A step on a state `σ` that may fail. What it wrote before it failed stays written. -/
abbrev Action (σ α : Type) := ExceptT Error (StateM σ) α

namespace Action

/-- The answer of a step and the state it leaves, whether it failed or not. -/
def exec {σ α : Type} (a : Action σ α) (s : σ) : Except Error α × σ :=
  (StateT.run (ExceptT.run a) s).run

/-- A part of the state that was checked without writing. -/
def ofExcept {σ α : Type} (e : Except Error α) : Action σ α :=
  ExceptT.mk (pure e)

end Action

end CausalServe
