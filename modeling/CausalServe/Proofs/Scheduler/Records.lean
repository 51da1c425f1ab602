import CausalServe.Proofs.Request.Lifecycle
import CausalServe.Proofs.Total
import CausalServe.Scheduler.Tick

/-! The requests that a scheduler stores, as a list with one entry for each id: what is found by id,
and what is found after one request took the place of another. -/

namespace CausalServe

theorem QueueEntry.enqueue_perm (e : QueueEntry) (q : List QueueEntry) :
    (e.enqueue q).Perm (e :: q) := by
  induction q with
  | nil => exact .refl _
  | cons head rest ih =>
    rw [QueueEntry.enqueue]
    split
    · exact .refl _
    · exact (ih.cons head).trans (.swap e head rest)

namespace Scheduler

def DistinctIds (s : Scheduler) : Prop := (s.requests.map Request.id).Nodup

/-! ## Looking up -/

theorem mem_of_request? {s : Scheduler} {id : RequestId} {r : Request}
    (h : s.request? id = some r) : r ∈ s.requests ∧ r.id = id := by
  have hp := List.find?_some h
  exact ⟨List.mem_of_find?_eq_some h, by simpa using hp⟩

theorem DistinctIds.eq {s : Scheduler} (h : s.DistinctIds) {r r' : Request} (hr : r ∈ s.requests)
    (hr' : r' ∈ s.requests) (he : r.id = r'.id) : r = r' :=
  List.inj_on_of_nodup_map h hr hr' he

theorem DistinctIds.request? {s : Scheduler} (h : s.DistinctIds) {r : Request}
    (hr : r ∈ s.requests) : s.request? r.id = some r := by
  cases hf : s.request? r.id with
  | none =>
    have := List.find?_eq_none.mp hf r hr
    simp at this
  | some r' =>
    obtain ⟨hm, hid⟩ := mem_of_request? hf
    rw [h.eq hm hr hid]

theorem request?_eq_none {s : Scheduler} {id : RequestId} :
    s.request? id = none ↔ ∀ r ∈ s.requests, r.id ≠ id := by
  simp [Scheduler.request?]

theorem request_of_request? {s : Scheduler} {id : RequestId} {r : Request}
    (h : s.request? id = some r) : s.request id = .ok r := by
  simp [request, h]

theorem request_of_none {s : Scheduler} {id : RequestId} (h : s.request? id = none) :
    s.request id = .error (.requestNotFound id) := by
  simp [request, h]

/-- A search by id and by a property of the request. -/
theorem DistinctIds.find? {s : Scheduler} (h : s.DistinctIds) {r : Request} (hr : r ∈ s.requests)
    {p : Request → Bool} (hp : p r = true) :
    (s.requests.find? fun x => x.id = r.id && p x) = some r := by
  cases hf : s.requests.find? fun x => x.id = r.id && p x with
  | none =>
    have := List.find?_eq_none.mp hf r hr
    simp [hp] at this
  | some r' =>
    have hm := List.mem_of_find?_eq_some hf
    have hs := List.find?_some hf
    simp only [Bool.and_eq_true, decide_eq_true_eq] at hs
    rw [h.eq hm hr hs.1]

/-- Looking requests up by their ids, and keeping the ids of some of them. -/
theorem map_filter_lookup (s : Scheduler) (p : Request → Bool) (ids : List RequestId) :
    ((ids.filterMap s.request?).filter p).map Request.id =
      ids.filter fun id => (s.request? id).any p := by
  induction ids with
  | nil => rfl
  | cons id rest ih =>
    rw [List.filter_cons]
    cases hr : s.request? id with
    | none => rw [List.filterMap_cons_none hr, ih]; rfl
    | some r =>
      rw [List.filterMap_cons_some hr, List.filter_cons, Option.any_some]
      split
      next => rw [List.map_cons, ih, (mem_of_request? hr).2]
      next => exact ih

/-! ## Replacing -/

theorem mem_update {s : Scheduler} {r x : Request} :
    x ∈ (s.update r).requests ↔
      (x = r ∧ ∃ old ∈ s.requests, old.id = r.id) ∨ (x ∈ s.requests ∧ x.id ≠ r.id) := by
  simp only [update, List.mem_map]
  constructor
  · rintro ⟨old, hm, he⟩
    split at he
    next hid => exact .inl ⟨he.symm, old, hm, hid⟩
    next hid => subst he; exact .inr ⟨hm, hid⟩
  · rintro (⟨rfl, old, hm, hid⟩ | ⟨hm, hid⟩)
    · exact ⟨old, hm, if_pos hid⟩
    · exact ⟨x, hm, if_neg hid⟩

theorem ids_update (s : Scheduler) (r : Request) :
    (s.update r).requests.map Request.id = s.requests.map Request.id := by
  simp only [update, List.map_map]
  apply List.map_congr_left
  intro old _
  simp only [Function.comp_apply]
  split
  next h => exact h.symm
  next => rfl

theorem DistinctIds.update {s : Scheduler} (h : s.DistinctIds) (r : Request) :
    (s.update r).DistinctIds := by
  unfold DistinctIds
  rw [ids_update]
  exact h

/-- A request that takes its own place changes nothing. -/
theorem DistinctIds.update_self {s : Scheduler} (h : s.DistinctIds) {r : Request}
    (hr : r ∈ s.requests) : s.update r = s := by
  have hm : s.requests.map (fun old => if old.id = r.id then r else old) = s.requests := by
    conv_rhs => rw [← List.map_id s.requests]
    apply List.map_congr_left
    intro old ho
    split
    next he => exact (h.eq ho hr he).symm
    next => rfl
  rw [Scheduler.update, hm]

theorem update_update (s : Scheduler) {r r' : Request} (h : r'.id = r.id) :
    (s.update r).update r' = s.update r' := by
  have hm : (s.requests.map fun old => if old.id = r.id then r else old).map
      (fun old => if old.id = r'.id then r' else old) =
      s.requests.map fun old => if old.id = r'.id then r' else old := by
    rw [List.map_map]
    apply List.map_congr_left
    intro old _
    simp only [Function.comp_apply, h]
    by_cases he : old.id = r.id <;> simp [he]
  simp only [update, hm]

/-- A request is found in the place of the one that it replaced. -/
theorem request?_update {s : Scheduler} {r later : Request} (h : s.request? later.id = some r) :
    (s.update later).request? later.id = some later := by
  obtain ⟨hr, hid⟩ := mem_of_request? h
  have hsame : ((fun x : Request => decide (x.id = later.id)) ∘
      fun old => if old.id = later.id then later else old) =
        fun x => decide (x.id = later.id) := by
    funext x
    by_cases hx : x.id = later.id <;> simp [hx]
  unfold request? at h ⊢
  rw [update, List.find?_map, hsame, h]
  simp [hid]

/-- Replacing one request changes a total over all by what the two differ in. -/
theorem DistinctIds.total_update {s : Scheduler} (h : s.DistinctIds) (f : Request → Nat)
    {old r : Request} (ho : old ∈ s.requests) (hid : r.id = old.id) :
    total f (s.update r).requests + f old = total f s.requests + f r := by
  obtain ⟨i, hi⟩ := List.mem_iff_getElem?.mp ho
  have hset : (s.update r).requests = s.requests.set i r := by
    apply List.ext_getElem?
    intro j
    rw [Scheduler.update, List.getElem?_map, List.getElem?_set]
    by_cases hj : i = j
    · subst hj
      have hlt := (List.getElem?_eq_some_iff.mp hi).1
      rw [hi, if_pos rfl, if_pos hlt, Option.map_some, if_pos hid.symm]
    · rw [if_neg hj]
      cases hx : s.requests[j]? with
      | none => rfl
      | some x =>
        -- another place holds another id
        have hne : x.id ≠ r.id := fun he => by
          have hxo := h.eq (List.mem_of_getElem? hx) ho (he.trans hid)
          subst hxo
          have hd := List.nodup_iff_injective_get.mp (List.Nodup.of_map _ h)
          obtain ⟨hlt, hgi⟩ := List.getElem?_eq_some_iff.mp hi
          obtain ⟨hlt', hgj⟩ := List.getElem?_eq_some_iff.mp hx
          have := @hd ⟨i, hlt⟩ ⟨j, hlt'⟩ (by simp [hgi, hgj])
          exact hj (congrArg Fin.val this)
        simp [hne]
  rw [hset]
  exact total_set f s.requests hi r

end Scheduler

end CausalServe
