import CausalServe.Proofs.Cache.Headroom
import CausalServe.Proofs.Cache.History

/-! Rows that a model appends, whether its pass succeeds or fails half-way. Every live slot lives on,
and what each of its layers holds and counts goes by the rows that the layer got. A model that
appends a row for each token makes all layers of a slot count alike. -/

namespace CausalServe

/-- A slot after its layers got a number of rows each. It may have been charged for them. -/
structure Slot.GrewBy (s : Slot) (n : Nat → Nat) (s' : Slot) : Prop where
  capacity : s'.capacity = s.capacity
  numLayers : s'.layers.length = s.layers.length
  layers : ∀ i l, s.layers[i]? = some l → ∃ l', s'.layers[i]? = some l' ∧
    l'.len = min (l.len + n i) s.capacity ∧ l'.appended = l.appended + n i

theorem Slot.GrewBy.trans {s t u : Slot} {m n : Nat → Nat} (h : s.GrewBy m t) (h' : t.GrewBy n u) :
    s.GrewBy (fun i => m i + n i) u where
  capacity := h'.capacity.trans h.capacity
  numLayers := h'.numLayers.trans h.numLayers
  layers := by
    intro i l hl
    obtain ⟨l₁, hl₁, hlen₁, happ₁⟩ := h.layers i l hl
    obtain ⟨l₂, hl₂, hlen₂, happ₂⟩ := h'.layers i l₁ hl₁
    rw [h.capacity] at hlen₂
    refine ⟨l₂, hl₂, ?_, ?_⟩
    · omega
    · omega

/-- A charge does not show in the layers. -/
theorem Slot.Sound.grewBy_charged {c : Cache} {s : Slot} (h : s.Sound c) (charge : Nat) :
    s.GrewBy (fun _ => 0) { s with allocated := charge } where
  capacity := rfl
  numLayers := rfl
  layers := by
    intro i l hl
    have hlen := h.len_le l (List.mem_of_getElem? hl)
    have hcap := h.allocated_le
    refine ⟨l, hl, ?_, rfl⟩
    show l.len = min (l.len + 0) s.capacity
    omega

/-- A slot whose layers were all given a number of rows since it is in use, and hold as many of them
as fit. -/
def Slot.Given (s : Slot) (n : Nat) : Prop :=
  ∀ l ∈ s.layers, l.appended = n ∧ l.len = min n s.capacity

theorem Slot.Given.grewBy {s s' : Slot} {m k : Nat} {n : Nat → Nat} (h : s.Given m)
    (hgrew : s.GrewBy n s') (hn : ∀ i < s.layers.length, n i = k) : s'.Given (m + k) := by
  intro l' hl'
  obtain ⟨i, hi⟩ := List.mem_iff_getElem?.mp hl'
  have hlt : i < s.layers.length := hgrew.numLayers ▸ (List.getElem?_eq_some_iff.mp hi).1
  obtain ⟨l, hl, hlen, happended⟩ := hgrew.layers i _ (List.getElem?_eq_getElem hlt)
  cases hl.symm.trans hi
  obtain ⟨hcount, hheld⟩ := h _ (List.getElem_mem hlt)
  rw [hn i hlt] at hlen happended
  rw [hgrew.capacity]
  constructor
  · omega
  · omega

/-- The next position of a slot is the number of rows that its layers were given. -/
theorem Slot.Given.nextPosition {s : Slot} {n : Nat} (h : s.Given n) (hne : s.layers ≠ []) :
    s.nextPosition = n := by
  rw [Slot.nextPosition, List.map_eq_replicate_iff.mpr fun l hl => (h l hl).1,
    List.min?_replicate_of_pos (List.length_pos_iff.mpr hne), Option.getD_some]

theorem Cache.given_freshSlot (c : Cache) (owner : RequestId) (capacity : Nat) :
    (c.freshSlot owner capacity).Given 0 := by
  intro l hl
  rw [List.eq_of_mem_replicate hl]
  exact ⟨rfl, (Nat.zero_min _).symm⟩

namespace Cache

structure GrewBy (c : Cache) (n : SlotId → Nat → Nat) (c' : Cache) : Prop where
  sound : c'.Sound
  live : ∀ id s, c.slot? id = some s → ∃ s', c'.slot? id = some s' ∧ s.GrewBy (n id) s'

variable {c c' c₁ : Cache} {m n : SlotId → Nat → Nat} {id : SlotId} {s : Slot}

theorem layer_eq_ok {i : Nat} {l : LayerStore} :
    c.layer id i = .ok l ↔ ∃ s, c.slot? id = some s ∧ s.layers[i]? = some l := by
  cases hs : c.slot? id with
  | none => simp [Cache.layer, slot_of_none hs, Bind.bind, Except.bind]
  | some s =>
    rw [layer_of_slot? hs]
    cases hl : s.layers[i]? with
    | none => simp [hl]
    | some l' => simp [hl]

/-- A slot counts by the layer that got the fewest rows. -/
theorem nextPosition_of_idle {i : Nat} {l : LayerStore} (h : c.layer id i = .ok l)
    (hidle : l.appended = 0) : c.nextPosition id = .ok 0 := by
  obtain ⟨s, hs, hl⟩ := layer_eq_ok.mp h
  have hleast : (s.layers.map LayerStore.appended).min? = some 0 :=
    List.min?_eq_some_iff.mpr
      ⟨List.mem_map.mpr ⟨l, List.mem_of_getElem? hl, hidle⟩, fun _ _ => Nat.zero_le _⟩
  rw [nextPosition_of_slot? hs, Slot.nextPosition, hleast]
  rfl

/-- What a layer counts goes by the rows that it got. -/
theorem GrewBy.appended (h : c.GrewBy n c') {i : Nat} {l l' : LayerStore}
    (hl : c.layer id i = .ok l) (hl' : c'.layer id i = .ok l') :
    l'.appended = l.appended + n id i := by
  obtain ⟨s, hs, hi⟩ := layer_eq_ok.mp hl
  obtain ⟨s', hs', hi'⟩ := layer_eq_ok.mp hl'
  obtain ⟨t, ht, hgrew⟩ := h.live id s hs
  cases hs'.symm.trans ht
  obtain ⟨m, hm, -, happended⟩ := hgrew.layers i l hi
  cases hi'.symm.trans hm
  exact happended

theorem Sound.grewBy_refl (hc : c.Sound) : c.GrewBy (fun _ _ => 0) c where
  sound := hc
  live := fun id s hs => ⟨s, hs, (hc.slots id s hs).grewBy_charged s.allocated⟩

theorem GrewBy.trans (h : c.GrewBy m c₁) (h' : c₁.GrewBy n c') :
    c.GrewBy (fun id i => m id i + n id i) c' where
  sound := h'.sound
  live := by
    intro id s hs
    obtain ⟨s₁, hs₁, hgrew₁⟩ := h.live id s hs
    obtain ⟨s₂, hs₂, hgrew₂⟩ := h'.live id s₁ hs₁
    exact ⟨s₂, hs₂, hgrew₁.trans hgrew₂⟩

/-- A claim that is met changes no layer. -/
theorem Sound.reserve_grewBy (hc : c.Sound) {positions : Nat} (hs : c.slot? id = some s)
    (hr : Action.exec (Cache.reserve id positions) c = (.ok (), c')) : c.GrewBy (fun _ _ => 0) c' where
  sound := hc.reserve_ok hs hr
  live := by
    intro other t ht
    by_cases he : other = id
    · subst he
      cases hs.symm.trans ht
      obtain ⟨charge, hcharge⟩ := slot?_of_reserve_ok hs hr
      exact ⟨_, hcharge, (hc.slots other s hs).grewBy_charged charge⟩
    · exact ⟨t, (slot?_reserve_ne hs hr he).trans ht,
        (hc.slots other t ht).grewBy_charged t.allocated⟩

theorem FedTo.grewBy (h : c.FedTo n c') (hsound : c'.Sound) : c.GrewBy n c' where
  sound := hsound
  live := by
    intro id s hs
    obtain ⟨s', hs', hfed⟩ := h.live id s hs
    exact ⟨s', hs', hfed.capacity, hfed.numLayers, hfed.layers⟩

/-- An append that succeeds adds a row to its layer, and none to others. -/
theorem Sound.append_grewBy (hc : c.Sound) {w : RowWrite}
    (h : Action.exec (Cache.append w.slot w.layer w.key w.value) c = (.ok (), c')) :
    c.GrewBy (RowWrite.count [w]) c' := by
  have hsound := hc.append w.slot w.layer w.key w.value
  rw [h] at hsound
  rcases exec_append_cases c w.slot w.layer w.key w.value with ⟨e, he⟩ |
    ⟨s, l, c₁, s₁, -, hs, hl, hfull, hroom, hs₁, hr⟩
  · rw [h] at he
    cases he
  rw [h] at hr
  obtain rfl := (Prod.mk.inj hr).2
  -- the charge comes first, if there is one, and leaves the layers alone
  have hcharge : c.GrewBy (fun _ _ => 0) c₁ ∧ ∃ charge, s₁ = { s with allocated := charge } := by
    rcases Nat.lt_or_ge l.len s.capacity with hlt | hge
    · obtain ⟨charge, hcharge⟩ := slot?_of_reserve_ok hs (hroom hlt)
      exact ⟨hc.reserve_grewBy hs (hroom hlt), charge, Option.some.inj (hs₁.symm.trans hcharge)⟩
    · obtain ⟨-, rfl⟩ := hfull hge
      exact ⟨hc.grewBy_refl, s.allocated, Option.some.inj (hs₁.symm.trans hs)⟩
  obtain ⟨hgrew, charge, rfl⟩ := hcharge
  have hpushed := (pushed_fedTo (w := w) hgrew.sound hs₁ hl rfl).grewBy hsound
  have hsum := hgrew.trans hpushed
  simpa only [Nat.zero_add] using hsum

theorem append_error {layer : Nat} {key value : List Float32} {e : Error}
    (h : Action.exec (Cache.append id layer key value) c = (.error e, c')) : c' = c := by
  rcases exec_append_cases c id layer key value with ⟨fault, he⟩ |
    ⟨s, l, c₁, s₁, -, -, -, -, -, -, he⟩
  · rw [h] at he
    exact (Prod.mk.inj he).2
  · rw [h] at he
    cases he

/-- Whatever rows were appended or refused, each layer got a number of them. -/
theorem Appended.grewBy (h : Appended c c') (hc : c.Sound) : ∃ n, c.GrewBy n c' := by
  induction h with
  | refl => exact ⟨_, hc.grewBy_refl⟩
  | @append c₁ _ slot layer key value ih =>
    obtain ⟨n, hgrew⟩ := ih
    rcases hexec : Action.exec (Cache.append slot layer key value) c₁ with ⟨outcome, c₂⟩
    cases outcome with
    | error e =>
      rw [append_error hexec]
      exact ⟨n, hgrew⟩
    | ok =>
      exact ⟨_, hgrew.trans (hgrew.sound.append_grewBy (w := ⟨slot, layer, key, value⟩) hexec)⟩

/-- Rows that were all written are one more each for their layers. -/
theorem Sound.writeAll_grewBy (hc : c.Sound) {ws : List RowWrite}
    (h : Action.exec (writeAll ws) c = (.ok (), c')) : c.GrewBy (RowWrite.count ws) c' := by
  induction ws generalizing c with
  | nil =>
    cases h
    exact hc.grewBy_refl
  | cons w ws ih =>
    rw [writeAll, Action.exec_bind] at h
    rcases hexec : Action.exec (Cache.append w.slot w.layer w.key w.value) c with ⟨outcome, c₁⟩
    rw [hexec] at h
    cases outcome with
    | error => cases h
    | ok =>
      have hgrew := hc.append_grewBy hexec
      rw [RowWrite.count_cons_eq]
      exact hgrew.trans (ih hgrew.sound h)

/-- A layer of a slot that was given a number of rows. -/
theorem Sound.cursor_of_given (hc : c.Sound) (hs : c.slot? id = some s) {k : Nat} (h : s.Given k)
    {i : Nat} (hi : i < c.layout.numLayers) : c.cursor id i = .ok (min k s.capacity) := by
  have hlt : i < s.layers.length := by rwa [(hc.slots id s hs).layers]
  have hlayer : c.layer id i = .ok s.layers[i] := by
    rw [layer_of_slot? hs, List.getElem?_eq_getElem hlt]
  rw [cursor, hlayer]
  exact congrArg Except.ok (h _ (List.getElem_mem hlt)).2

theorem Sound.nextPosition_of_given (hc : c.Sound) (hs : c.slot? id = some s) {k : Nat}
    (h : s.Given k) (hlayers : 0 < c.layout.numLayers) : c.nextPosition id = .ok k := by
  have hlength := (hc.slots id s hs).layers
  rw [nextPosition_of_slot? hs]
  exact congrArg Except.ok (h.nextPosition (List.ne_nil_of_length_pos (hlength.symm ▸ hlayers)))

end Cache

/-! ## Models that append a row for each token -/

/-- A model of at least one layer that only appends, and whose pass, unless it fails, appends one row
to every layer of a slot for each token that the slot is fed. -/
structure LanguageModel.AppendsEach (model : LanguageModel) : Prop where
  layered : 0 < model.config.numLayers
  only : model.AppendsOnly
  each : ∀ {c : Cache} {entries : List BatchEntry} {rows : List (List Float32)}, c.Sound →
    c.layout = .ofModel model.config → (entries.map BatchEntry.slot).Nodup →
    (Action.exec (model.forward entries) c).1 = .ok rows → ∀ slot layer l l',
      c.layer slot layer = .ok l →
      (Action.exec (model.forward entries) c).2.layer slot layer = .ok l' →
      l'.appended = l.appended + (BatchEntry.tokensOf entries slot).length

/-- After a pass that succeeded, the layers of a slot count as many rows more as it was fed tokens. -/
theorem LanguageModel.AppendsEach.given {model : LanguageModel} (h : model.AppendsEach) {c : Cache}
    {entries : List BatchEntry} {rows : List (List Float32)} (hc : c.Sound)
    (hlayout : c.layout = .ofModel model.config) (hdistinct : (entries.map BatchEntry.slot).Nodup)
    (hok : (Action.exec (model.forward entries) c).1 = .ok rows) {slot : SlotId} {st : Slot}
    (hst : c.slot? slot = some st) {n : Nat} (hgiven : st.Given n) :
    ∃ st', (Action.exec (model.forward entries) c).2.slot? slot = some st' ∧
      st'.capacity = st.capacity ∧
      st'.Given (n + (BatchEntry.tokensOf entries slot).length) := by
  obtain ⟨count, hgrew⟩ := (h.only entries c).grewBy hc
  obtain ⟨st', hst', hslot⟩ := hgrew.live slot st hst
  refine ⟨st', hst', hslot.capacity, hgiven.grewBy hslot fun i hi => ?_⟩
  obtain ⟨l', hl', -, happended⟩ := hslot.layers i _ (List.getElem?_eq_getElem hi)
  have hbefore : c.layer slot i = .ok st.layers[i] := by
    rw [Cache.layer_of_slot? hst, List.getElem?_eq_getElem hi]
  have hafter : (Action.exec (model.forward entries) c).2.layer slot i = .ok l' := by
    rw [Cache.layer_of_slot? hst', hl']
  have heach := h.each hc hlayout hdistinct hok slot i _ _ hbefore hafter
  omega

end CausalServe
