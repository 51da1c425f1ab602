import Mathlib
import CausalServe.Number.Total

/-! Totals over lists, when a list is extended or one of its items is replaced. -/

namespace CausalServe

variable {α : Type} {f g : α → Nat}

theorem total_append (f : α → Nat) (xs ys : List α) :
    total f (xs ++ ys) = total f xs + total f ys := by
  induction xs with
  | nil => simp [total]
  | cons x xs ih => simp only [List.cons_append, total, ih]; omega

theorem total_perm (f : α → Nat) {xs ys : List α} (h : xs.Perm ys) : total f xs = total f ys := by
  induction h with
  | nil => rfl
  | cons x _ ih => rw [total, total, ih]
  | swap x y l => simp only [total]; omega
  | trans _ _ ih ih' => rw [ih, ih']

theorem total_map {β : Type} (f : α → Nat) (g : β → α) (xs : List β) :
    total f (xs.map g) = total (fun x => f (g x)) xs := by
  induction xs with
  | nil => rfl
  | cons x xs ih => rw [List.map_cons, total, total, ih]

theorem total_mul (f : α → Nat) (n : Nat) (xs : List α) :
    total (fun x => f x * n) xs = total f xs * n := by
  induction xs with
  | nil => exact (Nat.zero_mul n).symm
  | cons x xs ih => rw [total, total, ih, Nat.add_mul]

theorem le_total (f : α → Nat) {xs : List α} {x : α} (h : x ∈ xs) : f x ≤ total f xs := by
  induction xs with
  | nil => cases h
  | cons y ys ih =>
    rw [total]
    rcases List.mem_cons.mp h with rfl | h
    · exact Nat.le_add_right _ _
    · exact Nat.le_add_left_of_le (ih h)

theorem total_eq_zero {xs : List α} (h : ∀ x ∈ xs, f x = 0) : total f xs = 0 := by
  induction xs with
  | nil => rfl
  | cons x xs ih =>
    rw [total, h x (by simp), ih fun y hy => h y (List.mem_cons_of_mem _ hy)]

theorem total_le {xs : List α} (h : ∀ x ∈ xs, f x ≤ g x) : total f xs ≤ total g xs := by
  induction xs with
  | nil => exact Nat.le_refl _
  | cons x xs ih =>
    have hx := h x (by simp)
    have hr := ih fun y hy => h y (List.mem_cons_of_mem _ hy)
    simp only [total]
    omega

theorem total_le_mul {xs : List α} {n : Nat} (h : ∀ x ∈ xs, f x ≤ n) :
    total f xs ≤ xs.length * n := by
  induction xs with
  | nil => exact Nat.zero_le _
  | cons x xs ih =>
    have hx := h x (by simp)
    have hr := ih fun y hy => h y (List.mem_cons_of_mem _ hy)
    rw [List.length_cons, Nat.add_mul, Nat.one_mul, total]
    omega

theorem total_congr {xs : List α} (h : ∀ x ∈ xs, f x = g x) : total f xs = total g xs :=
  Nat.le_antisymm (total_le fun x hx => (h x hx).le) (total_le fun x hx => (h x hx).ge)

theorem total_filter_le (f : α → Nat) (p : α → Bool) (xs : List α) :
    total f (xs.filter p) ≤ total f xs := by
  induction xs with
  | nil => exact Nat.le_refl _
  | cons x xs ih =>
    rw [List.filter_cons]
    split <;> simp only [total] <;> omega

theorem total_filter (f : α → Nat) (p : α → Bool) (xs : List α) :
    total f (xs.filter p) = total (fun x => if p x then f x else 0) xs := by
  induction xs with
  | nil => rfl
  | cons x xs ih =>
    rw [List.filter_cons]
    split <;> simp_all [total]

/-- Replacing one item changes the total by what the two items differ in. -/
theorem total_set (f : α → Nat) (xs : List α) {i : Nat} {old : α} (h : xs[i]? = some old)
    (new : α) : total f (xs.set i new) + f old = total f xs + f new := by
  induction xs generalizing i with
  | nil => simp at h
  | cons x xs ih =>
    cases i with
    | zero =>
      simp only [List.getElem?_cons_zero, Option.some.injEq] at h
      subst h
      simp only [List.set_cons_zero, total]
      omega
    | succ i =>
      have hs := ih (i := i) (by simpa using h)
      simp only [List.set_cons_succ, total]
      omega

end CausalServe
