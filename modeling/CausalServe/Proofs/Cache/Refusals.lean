import CausalServe.Proofs.Cache.Calls

/-! The reasons for which a call of the cache is refused. A refused call leaves the cache as it was:
a claim of storage is checked before it is charged, and after a claim was met nothing can keep the
row from its slot. -/

namespace CausalServe.Cache

namespace Call

def slot? : Call → Option SlotId
  | allocate _ _ => none
  | evict id | reserve id _ | append id _ _ _ | read id _ | readPrefix id _ _ => some id

def layer? : Call → Option Nat
  | append _ layer _ _ | read _ layer | readPrefix _ layer _ => some layer
  | _ => none

/-- The row of a call, if it has one, has the width of the layout. -/
def Fits (c : Cache) : Call → Prop
  | append _ _ key value => c.RowFits key value
  | _ => True

end Call

/-- Why a call is refused, with the error that says so. Of several reasons the first is told. -/
inductive Refuses (c : Cache) : Call → Error → Prop
  | zeroCapacity {owner : RequestId} : Refuses c (.allocate owner 0) (.invalidRequest .zeroCapacity)
  | width {id : SlotId} {layer : Nat} {key value : List Float32} (h : ¬ c.RowFits key value) :
      Refuses c (.append id layer key value)
        (.shape "kv append" [c.layout.kvWidth, c.layout.kvWidth] [key.length, value.length])
  | unknownSlot {call : Call} {id : SlotId} (hid : call.slot? = some id) (hfits : call.Fits c)
      (hs : c.slot? id = none) : Refuses c call (.slotNotFound id)
  | unknownLayer {call : Call} {id : SlotId} {layer : Nat} {s : Slot} (hid : call.slot? = some id)
      (hlayer : call.layer? = some layer) (hfits : call.Fits c) (hs : c.slot? id = some s)
      (hl : s.layers[layer]? = none) :
      Refuses c call (.shape "kv layer" [s.layers.length] [layer])
  | tooShort {id : SlotId} {layer len : Nat} {l : LayerStore} (hl : c.layer id layer = .ok l)
      (h : l.len < len) : Refuses c (.readPrefix id layer len) (.shape "kv read" [l.len] [len])
  | full {id : SlotId} {layer : Nat} {key value : List Float32} {s : Slot} {l : LayerStore}
      (hfits : c.RowFits key value) (hs : c.slot? id = some s) (hl : s.layers[layer]? = some l)
      (hfull : s.capacity ≤ l.len) (hpolicy : c.overflowPolicy = .reject) :
      Refuses c (.append id layer key value) (.cacheOverflow (.slotFull id s.capacity))
  | overBudget {id : SlotId} {positions : Nat} {s : Slot} (hs : c.slot? id = some s)
      (hneeds : ¬ s.Covers positions) (h : c.affords (c.growth s positions) = false) :
      Refuses c (.reserve id positions)
        (.cacheOverflow (.overBudget id (c.growth s positions) c.used (c.budget.getD 0)))
  /-- A row beyond what is charged needs a claim, which is refused. -/
  | unpaid {id : SlotId} {layer : Nat} {key value : List Float32} {s : Slot} {l : LayerStore}
      {e : Error} (hfits : c.RowFits key value) (hs : c.slot? id = some s)
      (hl : s.layers[layer]? = some l) (hroom : l.len < s.capacity)
      (h : Refuses c (.reserve id (l.len + 1)) e) : Refuses c (.append id layer key value) e

variable {c c' : Cache}

/-! ## What an append answers -/

section append

variable {id : SlotId} {layer : Nat} {key value : List Float32} {s : Slot} {l : LayerStore}

theorem append_of_not_fits (h : ¬ c.RowFits key value) :
    (Action.exec (append id layer key value) c).1 =
      .error (.shape "kv append" [c.layout.kvWidth, c.layout.kvWidth]
        [key.length, value.length]) := by
  have hw : key.length ≠ c.layout.kvWidth ∨ value.length ≠ c.layout.kvWidth :=
    Decidable.not_and_iff_or_not.mp h
  unfold append
  simp only [Action.exec_bind, Action.exec_get, if_pos hw, Action.exec_throw]

theorem append_of_no_slot (h : c.RowFits key value) (hs : c.slot? id = none) :
    (Action.exec (append id layer key value) c).1 = .error (.slotNotFound id) := by
  unfold append
  simp [Action.exec_bind, h.1, h.2, slot_of_none hs]

theorem append_of_no_layer (h : c.RowFits key value) (hs : c.slot? id = some s)
    (hl : s.layers[layer]? = none) : (Action.exec (append id layer key value) c).1 =
      .error (.shape "kv layer" [s.layers.length] [layer]) := by
  unfold append
  simp [Action.exec_bind, h.1, h.2, slot_of_slot? hs, layer_of_slot? hs, hl]

theorem append_of_full (h : c.RowFits key value) (hs : c.slot? id = some s)
    (hl : s.layers[layer]? = some l) (hfull : s.capacity ≤ l.len) :
    (Action.exec (append id layer key value) c).1 =
      if c.overflowPolicy = .reject then .error (.cacheOverflow (.slotFull id s.capacity))
      else .ok () := by
  split
  next hpolicy =>
    unfold append
    simp [Action.exec_bind, h.1, h.2, slot_of_slot? hs, layer_of_slot? hs, hl, hfull, hpolicy]
  next hpolicy =>
    rw [exec_append h hs hl (fun _ => hpolicy) fun hroom => by omega]

/-- Where a layer has room, the claim of its next position decides. -/
theorem append_of_room (h : c.RowFits key value) (hs : c.slot? id = some s)
    (hl : s.layers[layer]? = some l) (hroom : l.len < s.capacity) :
    (Action.exec (append id layer key value) c).1 =
      (Action.exec (reserve id (l.len + 1)) c).1 := by
  have hfull : ¬ s.capacity ≤ l.len := by omega
  by_cases hcharged : l.len + 1 ≤ s.allocated
  · have hcovers : s.Covers (l.len + 1) := by unfold Slot.Covers; omega
    rw [exec_append h hs hl (fun hge => absurd hge hfull) fun _ => hcharged, exec_reserve hs,
      if_pos hcovers]
  · have huncharged : s.allocated ≤ l.len := by omega
    unfold append
    rcases hr : Action.exec (reserve id (l.len + 1)) c with ⟨_ | _, c₁⟩
    · simp [Action.exec_bind, h.1, h.2, slot_of_slot? hs, layer_of_slot? hs, hl, hfull,
        hroom, huncharged, hr]
    · obtain ⟨n, hn⟩ := slot?_of_reserve_ok hs hr
      simp [Action.exec_bind, h.1, h.2, slot_of_slot? hs, layer_of_slot? hs, hl, hfull,
        hroom, huncharged, hr, slot_of_slot? hn]

end append

/-! ## What every call answers -/

theorem answer_look (view : Cache → Except Error CacheView) (c : Cache) (e : Error) :
    (Action.exec (Call.look view) c).1 = .error e ↔ view c = .error e := by
  rw [exec_look]
  cases view c <;> simp

theorem allocate_error_iff {owner : RequestId} {capacity : Nat} {e : Error} :
    (Action.exec (allocate owner capacity) c).1 = .error e ↔
      c.Refuses (.allocate owner capacity) e := by
  rw [exec_allocate]
  constructor
  · intro h
    split at h
    next hzero =>
      cases h
      subst hzero
      exact .zeroCapacity
    · cases h
  · intro h
    cases h with
    | zeroCapacity => rfl
    | unknownSlot hid => cases hid
    | unknownLayer hid => cases hid

theorem evict_error_iff {id : SlotId} {e : Error} :
    (Action.exec (evict id) c).1 = .error e ↔ c.Refuses (.evict id) e := by
  rw [exec_evict]
  constructor
  · intro h
    split at h
    · cases h
    next hs =>
      cases h
      exact .unknownSlot rfl trivial hs
  · intro h
    cases h with
    | unknownSlot hid _ hs =>
      cases hid
      rw [hs]
    | unknownLayer _ hlayer => cases hlayer

theorem reserve_error_iff {id : SlotId} {positions : Nat} {e : Error} :
    (Action.exec (reserve id positions) c).1 = .error e ↔ c.Refuses (.reserve id positions) e := by
  constructor
  · intro h
    cases hs : c.slot? id with
    | none =>
      rw [exec_reserve_none hs] at h
      cases h
      exact .unknownSlot rfl trivial hs
    | some s =>
      rw [exec_reserve hs] at h
      split at h
      · cases h
      next hneeds =>
        split at h
        · cases h
        next hover =>
          cases h
          exact .overBudget hs hneeds (Bool.eq_false_of_not_eq_true hover)
  · intro h
    cases h with
    | unknownSlot hid _ hs =>
      cases hid
      rw [exec_reserve_none hs]
    | unknownLayer _ hlayer => cases hlayer
    | overBudget hs hneeds hover => rw [exec_reserve hs, if_neg hneeds, if_neg (by simp [hover])]

theorem append_error_iff {id : SlotId} {layer : Nat} {key value : List Float32} {e : Error} :
    (Action.exec (append id layer key value) c).1 = .error e ↔
      c.Refuses (.append id layer key value) e := by
  constructor
  · intro h
    by_cases hfits : c.RowFits key value
    · cases hs : c.slot? id with
      | none =>
        rw [append_of_no_slot hfits hs] at h
        cases h
        exact .unknownSlot rfl hfits hs
      | some s =>
        cases hl : s.layers[layer]? with
        | none =>
          rw [append_of_no_layer hfits hs hl] at h
          cases h
          exact .unknownLayer rfl rfl hfits hs hl
        | some l =>
          rcases Nat.lt_or_ge l.len s.capacity with hroom | hfull
          · rw [append_of_room hfits hs hl hroom] at h
            exact .unpaid hfits hs hl hroom (reserve_error_iff.mp h)
          · rw [append_of_full hfits hs hl hfull] at h
            split at h
            next hpolicy =>
              cases h
              exact .full hfits hs hl hfull hpolicy
            · cases h
    · rw [append_of_not_fits hfits] at h
      cases h
      exact .width hfits
  · intro h
    cases h with
    | width hfits => exact append_of_not_fits hfits
    | unknownSlot hid hfits hs =>
      cases hid
      exact append_of_no_slot hfits hs
    | unknownLayer hid hlayer hfits hs hl =>
      cases hid
      cases hlayer
      exact append_of_no_layer hfits hs hl
    | full hfits hs hl hfull hpolicy => rw [append_of_full hfits hs hl hfull, if_pos hpolicy]
    | unpaid hfits hs hl hroom hclaim =>
      exact (append_of_room hfits hs hl hroom).trans (reserve_error_iff.mpr hclaim)

theorem layer_error_iff {id : SlotId} {layer : Nat} {e : Error} : c.layer id layer = .error e ↔
    (c.slot? id = none ∧ e = .slotNotFound id) ∨ ∃ s, c.slot? id = some s ∧
      s.layers[layer]? = none ∧ e = .shape "kv layer" [s.layers.length] [layer] := by
  cases hs : c.slot? id with
  | none => simp [Cache.layer, slot_of_none hs, Bind.bind, Except.bind, eq_comm]
  | some s =>
    rw [layer_of_slot? hs]
    cases hl : s.layers[layer]? with
    | none => simp [List.getElem?_eq_none_iff.mp hl, eq_comm]
    | some l =>
      have hlt : ¬ s.layers.length ≤ layer :=
        Nat.not_le.mpr (List.getElem?_eq_some_iff.mp hl).1
      simp [hlt]

theorem readPrefix_error_iff {id : SlotId} {layer len : Nat} {e : Error} :
    c.readPrefix id layer len = .error e ↔ c.layer id layer = .error e ∨
      ∃ l, c.layer id layer = .ok l ∧ l.len < len ∧ e = .shape "kv read" [l.len] [len] := by
  cases hl : c.layer id layer with
  | error fault => simp [readPrefix, hl, Bind.bind, Except.bind]
  | ok l =>
    by_cases hshort : l.len < len
    · simp [readPrefix, hl, hshort, Bind.bind, Except.bind, throw, throwThe, MonadExceptOf.throw,
        eq_comm]
    · simp [readPrefix, hl, hshort, Bind.bind, Except.bind, Pure.pure, Except.pure]

theorem read_error_iff {id : SlotId} {layer : Nat} {e : Error} :
    c.read id layer = .error e ↔ c.layer id layer = .error e := by
  cases hl : c.layer id layer with
  | error fault => simp [read, cursor, hl, Bind.bind, Except.bind]
  | ok l =>
    have hcursor : c.cursor id layer = .ok l.len := by rw [cursor, hl]; rfl
    simp [read, hcursor, readPrefix_error_iff, hl, Bind.bind, Except.bind]

/-- A call that looks into a layer is refused where there is none. -/
theorem refuses_of_layer {call : Call} {id : SlotId} {layer : Nat} {e : Error}
    (hid : call.slot? = some id) (hlayer : call.layer? = some layer) (hfits : call.Fits c)
    (h : c.layer id layer = .error e) : c.Refuses call e := by
  obtain ⟨hs, rfl⟩ | ⟨s, hs, hl, rfl⟩ := layer_error_iff.mp h
  · exact .unknownSlot hid hfits hs
  · exact .unknownLayer hid hlayer hfits hs hl

theorem refuses_read_iff {id : SlotId} {layer : Nat} {e : Error} :
    c.Refuses (.read id layer) e ↔ c.layer id layer = .error e := by
  constructor
  · intro h
    cases h with
    | unknownSlot hid _ hs =>
      cases hid
      exact layer_error_iff.mpr (.inl ⟨hs, rfl⟩)
    | unknownLayer hid hlayer _ hs hl =>
      cases hid
      cases hlayer
      exact layer_error_iff.mpr (.inr ⟨_, hs, hl, rfl⟩)
  · exact refuses_of_layer rfl rfl trivial

theorem refuses_readPrefix_iff {id : SlotId} {layer len : Nat} {e : Error} :
    c.Refuses (.readPrefix id layer len) e ↔ c.layer id layer = .error e ∨
      ∃ l, c.layer id layer = .ok l ∧ l.len < len ∧ e = .shape "kv read" [l.len] [len] := by
  constructor
  · intro h
    cases h with
    | unknownSlot hid _ hs =>
      cases hid
      exact .inl (layer_error_iff.mpr (.inl ⟨hs, rfl⟩))
    | unknownLayer hid hlayer _ hs hl =>
      cases hid
      cases hlayer
      exact .inl (layer_error_iff.mpr (.inr ⟨_, hs, hl, rfl⟩))
    | tooShort hl hshort => exact .inr ⟨_, hl, hshort, rfl⟩
  · rintro (h | ⟨l, hl, hshort, rfl⟩)
    · exact refuses_of_layer rfl rfl trivial h
    · exact .tooShort hl hshort

/-- A call is refused exactly for the reasons there are. -/
theorem run_error_iff (c : Cache) (call : Call) (e : Error) :
    (Action.exec call.run c).1 = .error e ↔ c.Refuses call e := by
  cases call with
  | allocate owner capacity => rw [Call.run, Action.exec_map_error_iff, allocate_error_iff]
  | evict id => rw [Call.run, Action.exec_map_error_iff, evict_error_iff]
  | reserve id positions => rw [Call.run, Action.exec_map_error_iff, reserve_error_iff]
  | append id layer key value => rw [Call.run, Action.exec_map_error_iff, append_error_iff]
  | read id layer => rw [Call.run, answer_look, read_error_iff, refuses_read_iff]
  | readPrefix id layer len =>
    rw [Call.run, answer_look, readPrefix_error_iff, refuses_readPrefix_iff]

/-- A refused call leaves the cache as it was. -/
theorem unchanged_of_error (c : Cache) (call : Call) {e : Error}
    (h : (Action.exec call.run c).1 = .error e) : (Action.exec call.run c).2 = c := by
  have heffect := effect_run c call
  rw [h] at heffect
  generalize (Action.exec call.run c).2 = c' at heffect ⊢
  cases heffect
  rfl

end CausalServe.Cache
