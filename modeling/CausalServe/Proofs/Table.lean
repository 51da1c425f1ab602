import Mathlib
import CausalServe.Table

/-! What a table holds after it was changed. -/

namespace CausalServe

/-- Without the entries of one key, every other key still finds what it found. -/
theorem lookup_filter_ne {κ α : Type} [BEq κ] [LawfulBEq κ] [DecidableEq κ] (key other : κ)
    (entries : List (κ × α)) : (entries.filter fun entry => entry.1 ≠ key).lookup other =
      if other = key then none else entries.lookup other := by
  induction entries with
  | nil => simp
  | cons entry rest ih =>
    obtain ⟨k, a⟩ := entry
    by_cases hk : k = key
    · subst hk
      rw [List.filter_cons_of_neg (by simp), ih]
      by_cases h : other = k
      · simp [h]
      · have hb : (other == k) = false := by simpa using h
        simp [h, List.lookup_cons, hb]
    · rw [List.filter_cons_of_pos (by simpa using hk), List.lookup_cons, List.lookup_cons, ih]
      by_cases h : other = k
      · subst h; simp [hk]
      · have hb : (other == k) = false := by simpa using h
        simp [hb]

namespace Table

variable {α : Type}

theorem get?_isSome {t : Table α} {id : RequestId} : (t.get? id).isSome = true ↔ id ∈ t.keys := by
  obtain ⟨entries⟩ := t
  simp only [get?, keys]
  induction entries with
  | nil => simp
  | cons entry rest ih =>
    obtain ⟨key, a⟩ := entry
    by_cases h : id = key
    · subst h; simp
    · have hb : (id == key) = false := by simpa using h
      simp [List.lookup_cons, hb, h, ih]

theorem get?_insert (t : Table α) (id : RequestId) (a : α) (other : RequestId) :
    (t.insert id a).get? other = (t.get? other).or (if other = id then some a else none) := by
  obtain ⟨entries⟩ := t
  simp only [get?, insert]
  induction entries with
  | nil =>
    by_cases h : other = id
    · subst h; simp
    · have hb : (other == id) = false := by simpa using h
      simp [List.lookup_cons, hb, h]
  | cons entry rest ih =>
    obtain ⟨key, b⟩ := entry
    rw [List.cons_append, List.lookup_cons, List.lookup_cons, ih]
    by_cases h : (other == key) = true <;> simp [h]

theorem get?_modify (t : Table α) (id : RequestId) (f : α → α) (other : RequestId) :
    (t.modify id f).get? other = if other = id then (t.get? other).map f else t.get? other := by
  obtain ⟨entries⟩ := t
  simp only [get?, modify]
  induction entries with
  | nil => simp
  | cons entry rest ih =>
    obtain ⟨key, b⟩ := entry
    rw [List.map_cons, List.lookup_cons]
    by_cases h : other = key
    · subst h
      by_cases hi : other = id
      · subst hi; simp
      · simp [hi]
    · have hb : (other == key) = false := by simpa using h
      by_cases hk : key = id
      · simp only [hk, if_true, List.lookup_cons]
        subst hk
        simpa [hb, h] using ih
      · simp only [hk, if_false, List.lookup_cons, hb]
        exact ih

theorem get?_erase (t : Table α) (id : RequestId) (other : RequestId) :
    (t.erase id).get? other = if other = id then none else t.get? other :=
  lookup_filter_ne id other t.entries

theorem keys_insert (t : Table α) (id : RequestId) (a : α) :
    (t.insert id a).keys = t.keys ++ [id] := by
  simp [keys, insert]

theorem keys_modify (t : Table α) (id : RequestId) (f : α → α) : (t.modify id f).keys = t.keys := by
  simp only [keys, modify, List.map_map]
  apply List.map_congr_left
  intro entry _
  simp only [Function.comp_apply]
  split <;> rfl

theorem keys_erase (t : Table α) (id : RequestId) :
    (t.erase id).keys = t.keys.filter fun other => other ≠ id := by
  simp only [keys, erase, List.filter_map]
  rfl

end Table

end CausalServe
