import Mathlib
import CausalServe.Action

/-! What running a step gives, one equation for each way to build a step. With these an operation is
read from its definition by rewriting, and nothing else looks inside `Action.exec`. -/

namespace CausalServe.Action

variable {σ α β : Type}

@[simp] theorem exec_pure (a : α) (s : σ) : exec (pure a : Action σ α) s = (.ok a, s) := rfl

@[simp] theorem exec_throw (e : Error) (s : σ) :
    exec (throw e : Action σ α) s = (.error e, s) := rfl

@[simp] theorem exec_get (s : σ) : exec (get : Action σ σ) s = (.ok s, s) := rfl

@[simp] theorem exec_set (s t : σ) : exec (set t : Action σ PUnit) s = (.ok (), t) := rfl

@[simp] theorem exec_modify (f : σ → σ) (s : σ) :
    exec (modify f : Action σ PUnit) s = (.ok (), f s) := rfl

@[simp] theorem exec_ofExcept (e : Except Error α) (s : σ) : exec (ofExcept e) s = (e, s) := rfl

theorem exec_bind (a : Action σ α) (f : α → Action σ β) (s : σ) :
    exec (a >>= f) s = match exec a s with
      | (.ok x, t) => exec (f x) t
      | (.error e, t) => (.error e, t) := by
  change (ExceptT.bindCont f (exec a s).1) (exec a s).2 = _
  rcases exec a s with ⟨_ | _, _⟩ <;> rfl

theorem exec_bind_ok {a : Action σ α} {s t : σ} {x : α} (h : exec a s = (.ok x, t))
    (f : α → Action σ β) : exec (a >>= f) s = exec (f x) t := by
  rw [exec_bind, h]

theorem exec_bind_error {a : Action σ α} {s t : σ} {e : Error} (h : exec a s = (.error e, t))
    (f : α → Action σ β) : exec (a >>= f) s = (.error e, t) := by
  rw [exec_bind, h]

theorem exec_map (g : α → β) (a : Action σ α) (s : σ) :
    exec (g <$> a) s = match exec a s with
      | (.ok x, t) => (.ok (g x), t)
      | (.error e, t) => (.error e, t) := by
  rw [map_eq_pure_bind, exec_bind]
  rcases exec a s with ⟨_ | _, _⟩ <;> rfl

theorem exec_map_snd (g : α → β) (a : Action σ α) (s : σ) :
    (exec (g <$> a) s).2 = (exec a s).2 := by
  rw [exec_map]
  rcases exec a s with ⟨_ | _, _⟩ <;> rfl

theorem exec_map_error_iff (g : α → β) (a : Action σ α) (s : σ) (e : Error) :
    (exec (g <$> a) s).1 = .error e ↔ (exec a s).1 = .error e := by
  rw [exec_map]
  rcases exec a s with ⟨_ | _, _⟩ <;> simp

theorem exec_ite (p : Prop) [Decidable p] (a b : Action σ α) (s : σ) :
    exec (if p then a else b) s = if p then exec a s else exec b s := by
  split <;> rfl

end CausalServe.Action
