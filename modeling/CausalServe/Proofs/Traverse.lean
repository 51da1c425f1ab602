import Mathlib
import CausalServe.Proofs.Action

/-! Steps that may fail, taken for every item of a list. -/

namespace CausalServe

section Checked

variable {ε α β : Type}

theorem bind_eq_ok {x : Except ε α} {f : α → Except ε β} {b : β} :
    x >>= f = .ok b ↔ ∃ a, x = .ok a ∧ f a = .ok b := by
  cases x with
  | error e => exact ⟨nofun, fun ⟨_, h, _⟩ => nomatch h⟩
  | ok a => exact ⟨fun h => ⟨a, rfl, h⟩, fun ⟨_, h, hf⟩ => Except.ok.inj h ▸ hf⟩

/-- Where a check was passed, the rest was run. -/
theorem ok_of_guard {p : Prop} [Decidable p] {fault : ε} {rest : Except ε α} {a : α}
    (h : (if p then (throw fault : Except ε Unit) >>= fun _ => rest else rest) = .ok a) :
    ¬ p ∧ rest = .ok a := by
  split at h
  · cases h
  next hp => exact ⟨hp, h⟩

theorem mapM_eq_ok {f : α → Except ε β} {g : α → β} {xs : List α}
    (h : ∀ x ∈ xs, f x = .ok (g x)) : xs.mapM f = .ok (xs.map g) := by
  induction xs with
  | nil => rfl
  | cons x xs ih =>
    rw [List.mapM_cons, h x List.mem_cons_self, ih fun y hy => h y (List.mem_cons_of_mem _ hy)]
    rfl

theorem mapM_cons_eq_ok {f : α → Except ε β} {x : α} {xs : List α} {ys : List β} :
    (x :: xs).mapM f = .ok ys ↔ ∃ y rest, f x = .ok y ∧ xs.mapM f = .ok rest ∧ ys = y :: rest := by
  rw [List.mapM_cons, bind_eq_ok]
  constructor
  · rintro ⟨y, hy, h⟩
    obtain ⟨rest, hrest, h⟩ := bind_eq_ok.mp h
    exact ⟨y, rest, hy, hrest, (Except.ok.inj h).symm⟩
  · rintro ⟨y, rest, hy, hrest, rfl⟩
    exact ⟨y, hy, bind_eq_ok.mpr ⟨rest, hrest, rfl⟩⟩

theorem exists_of_mapM_eq_ok {f : α → Except ε β} {xs : List α} {ys : List β}
    (h : xs.mapM f = .ok ys) {x : α} (hx : x ∈ xs) : ∃ y ∈ ys, f x = .ok y := by
  induction xs generalizing ys with
  | nil => exact absurd hx List.not_mem_nil
  | cons z xs ih =>
    obtain ⟨y, rest, hy, hrest, rfl⟩ := mapM_cons_eq_ok.mp h
    rcases List.mem_cons.mp hx with rfl | hx
    · exact ⟨y, List.mem_cons_self, hy⟩
    · obtain ⟨y', hy', hf⟩ := ih hrest hx
      exact ⟨y', List.mem_cons_of_mem _ hy', hf⟩

theorem exists_mapM_eq_ok {f : α → Except ε β} {xs : List α} (h : ∀ x ∈ xs, ∃ y, f x = .ok y) :
    ∃ ys, xs.mapM f = .ok ys := by
  induction xs with
  | nil => exact ⟨[], rfl⟩
  | cons x xs ih =>
    obtain ⟨y, hy⟩ := h x List.mem_cons_self
    obtain ⟨rest, hrest⟩ := ih fun z hz => h z (List.mem_cons_of_mem _ hz)
    exact ⟨y :: rest, mapM_cons_eq_ok.mpr ⟨y, rest, hy, hrest, rfl⟩⟩

/-- What all steps yield holds of everything that a traversal yields. -/
theorem forall_of_mapM_eq_ok {f : α → Except ε β} {P : β → Prop} {xs : List α} {ys : List β}
    (h : xs.mapM f = .ok ys) (hf : ∀ x ∈ xs, ∀ y, f x = .ok y → P y) : ∀ y ∈ ys, P y := by
  induction xs generalizing ys with
  | nil =>
    cases h
    exact fun y hy => absurd hy List.not_mem_nil
  | cons x xs ih =>
    obtain ⟨y, rest, hy, hrest, rfl⟩ := mapM_cons_eq_ok.mp h
    intro z hz
    rcases List.mem_cons.mp hz with rfl | hz
    · exact hf x List.mem_cons_self _ hy
    · exact ih hrest (fun x hx => hf x (List.mem_cons_of_mem _ hx)) z hz

theorem length_of_mapM_eq_ok {f : α → Except ε β} {xs : List α} {ys : List β}
    (h : xs.mapM f = .ok ys) : ys.length = xs.length := by
  induction xs generalizing ys with
  | nil => cases h; rfl
  | cons x xs ih =>
    obtain ⟨y, rest, -, hrest, rfl⟩ := mapM_cons_eq_ok.mp h
    rw [List.length_cons, List.length_cons, ih hrest]

end Checked

section Paired

variable {α β γ : Type} {R : α → β → Prop} {xs : List α} {ys : List β}

theorem exists_of_forall₂ (h : List.Forall₂ R xs ys) {x : α} (hx : x ∈ xs) : ∃ y ∈ ys, R x y := by
  induction h with
  | nil => cases hx
  | cons hxy _ ih =>
    rcases List.mem_cons.mp hx with rfl | hx
    · exact ⟨_, List.mem_cons_self, hxy⟩
    · obtain ⟨y, hy, h⟩ := ih hx
      exact ⟨y, List.mem_cons_of_mem _ hy, h⟩

theorem map_eq_of_forall₂ (h : List.Forall₂ R xs ys) {f : α → γ} {g : β → γ}
    (hfg : ∀ x y, R x y → f x = g y) : xs.map f = ys.map g := by
  induction h with
  | nil => rfl
  | cons hxy _ ih => rw [List.map_cons, List.map_cons, hfg _ _ hxy, ih]

end Paired

namespace Action

variable {σ α β γ : Type} {s t : σ}

theorem ofExcept_bind (x : Except Error α) (f : α → Except Error β) :
    (ofExcept (x >>= f) : Action σ β) = ofExcept x >>= fun a => ofExcept (f a) := by
  cases x <;> rfl

theorem exec_bind_eq_ok {a : Action σ α} {f : α → Action σ β} {b : β} :
    exec (a >>= f) s = (.ok b, t) ↔
      ∃ x u, exec a s = (.ok x, u) ∧ exec (f x) u = (.ok b, t) := by
  rw [exec_bind]
  rcases exec a s with ⟨_ | x, u⟩
  · exact ⟨nofun, fun ⟨_, _, h, _⟩ => nomatch h⟩
  · constructor
    · intro h
      exact ⟨x, u, rfl, h⟩
    · rintro ⟨x', u', h, hf⟩
      cases h
      exact hf

theorem exec_map_eq_ok {f : α → β} {a : Action σ α} {b : β} :
    exec (f <$> a) s = (.ok b, t) ↔ ∃ x, exec a s = (.ok x, t) ∧ b = f x := by
  rw [exec_map]
  rcases exec a s with ⟨_ | x, u⟩
  · exact ⟨nofun, fun ⟨_, h, _⟩ => nomatch h⟩
  · constructor
    · intro h
      cases h
      exact ⟨x, rfl, rfl⟩
    · rintro ⟨x', h, rfl⟩
      cases h
      rfl

theorem exec_mapM_cons_eq_ok {f : α → Action σ β} {x : α} {xs : List α} {ys : List β} :
    exec ((x :: xs).mapM f) s = (.ok ys, t) ↔ ∃ y u rest, exec (f x) s = (.ok y, u) ∧
      exec (xs.mapM f) u = (.ok rest, t) ∧ ys = y :: rest := by
  rw [List.mapM_cons, exec_bind_eq_ok]
  constructor
  · rintro ⟨y, u, hy, h⟩
    obtain ⟨rest, v, hrest, h⟩ := exec_bind_eq_ok.mp h
    cases h
    exact ⟨y, u, rest, hy, hrest, rfl⟩
  · rintro ⟨y, u, rest, hy, hrest, rfl⟩
    exact ⟨y, u, hy, exec_bind_eq_ok.mpr ⟨rest, t, hrest, rfl⟩⟩

theorem length_of_exec_mapM {f : α → Action σ β} {xs : List α} {ys : List β}
    (h : exec (xs.mapM f) s = (.ok ys, t)) : ys.length = xs.length := by
  induction xs generalizing s ys with
  | nil => cases h; rfl
  | cons x xs ih =>
    obtain ⟨y, u, rest, -, hrest, rfl⟩ := exec_mapM_cons_eq_ok.mp h
    rw [List.length_cons, List.length_cons, ih hrest]

theorem forall_of_exec_mapM {f : α → Action σ β} {P : β → Prop}
    {xs : List α} {ys : List β} (h : exec (xs.mapM f) s = (.ok ys, t))
    (hf : ∀ x ∈ xs, ∀ y s t, exec (f x) s = (.ok y, t) → P y) : ∀ y ∈ ys, P y := by
  induction xs generalizing s ys with
  | nil =>
    cases h
    exact fun y hy => absurd hy List.not_mem_nil
  | cons x xs ih =>
    obtain ⟨y, u, rest, hy, hrest, rfl⟩ := exec_mapM_cons_eq_ok.mp h
    intro z hz
    rcases List.mem_cons.mp hz with rfl | hz
    · exact hf x List.mem_cons_self _ _ _ hy
    · exact ih hrest (fun x hx => hf x (List.mem_cons_of_mem _ hx)) z hz

/-- What every step keeps, a traversal keeps; and its results are those of its steps. -/
theorem exec_mapM_keep {f : α → Action σ β} {I : σ → Prop} {P : α → β → Prop} {xs : List α}
    {ys : List β} (h : exec (xs.mapM f) s = (.ok ys, t)) (hs : I s)
    (hf : ∀ x ∈ xs, ∀ y s t, I s → exec (f x) s = (.ok y, t) → I t ∧ P x y) :
    I t ∧ List.Forall₂ P xs ys := by
  induction xs generalizing s ys with
  | nil =>
    cases h
    exact ⟨hs, .nil⟩
  | cons x xs ih =>
    obtain ⟨y, u, rest, hy, hrest, rfl⟩ := exec_mapM_cons_eq_ok.mp h
    obtain ⟨hu, hxy⟩ := hf x List.mem_cons_self y s u hs hy
    obtain ⟨ht, hall⟩ := ih hrest hu fun z hz => hf z (List.mem_cons_of_mem _ hz)
    exact ⟨ht, .cons hxy hall⟩

/-- Where every step yields what is asked of it, so does a traversal. -/
theorem exists_exec_mapM {f : α → Action σ β} {P : α → β → Prop} {xs : List α}
    (hf : ∀ x ∈ xs, ∀ s, ∃ y t, exec (f x) s = (.ok y, t) ∧ P x y) (s : σ) :
    ∃ ys t, exec (xs.mapM f) s = (.ok ys, t) ∧ List.Forall₂ P xs ys := by
  induction xs generalizing s with
  | nil => exact ⟨[], s, rfl, .nil⟩
  | cons x xs ih =>
    obtain ⟨y, u, hy, hxy⟩ := hf x List.mem_cons_self s
    obtain ⟨ys, t, hys, hall⟩ := ih (fun z hz => hf z (List.mem_cons_of_mem _ hz)) u
    exact ⟨y :: ys, t, exec_mapM_cons_eq_ok.mpr ⟨y, u, ys, hy, hys, rfl⟩, .cons hxy hall⟩

/-- A traversal that combines every item with what its step yields. -/
theorem exec_mapM_map_eq_ok {f : α → Action σ β} {g : α → β → γ} {xs : List α} {zs : List γ} :
    exec (xs.mapM fun x => g x <$> f x) s = (.ok zs, t) ↔
      ∃ ys, exec (xs.mapM f) s = (.ok ys, t) ∧ zs = (xs.zip ys).map fun (x, y) => g x y := by
  induction xs generalizing s zs with
  | nil =>
    constructor
    · intro h
      cases h
      exact ⟨[], rfl, rfl⟩
    · rintro ⟨ys, h, rfl⟩
      cases h
      rfl
  | cons x xs ih =>
    rw [exec_mapM_cons_eq_ok]
    constructor
    · rintro ⟨z, u, rest, hz, hrest, rfl⟩
      obtain ⟨y, hy, rfl⟩ := exec_map_eq_ok.mp hz
      obtain ⟨ys, hys, rfl⟩ := ih.mp hrest
      exact ⟨y :: ys, exec_mapM_cons_eq_ok.mpr ⟨y, u, ys, hy, hys, rfl⟩, rfl⟩
    · rintro ⟨ys, hys, rfl⟩
      obtain ⟨y, u, rest, hy, hrest, rfl⟩ := exec_mapM_cons_eq_ok.mp hys
      exact ⟨_, u, _, exec_map_eq_ok.mpr ⟨y, hy, rfl⟩, ih.mpr ⟨rest, hrest, rfl⟩, rfl⟩

end Action

end CausalServe
