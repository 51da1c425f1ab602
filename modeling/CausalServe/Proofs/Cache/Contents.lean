import CausalServe.Proofs.Cache.Calls

/-! The cache refines its log: the live slots are those that the log has as held, and what a layer
shows are the latest of the rows that the log has for it. -/

namespace CausalServe

/-- A slot that holds what a log tells of it. -/
structure Slot.Holds (s : Slot) (layout : Layout) (capacity : Nat) (rows : Nat → List KeyValue) :
    Prop where
  pos : 0 < capacity
  capacity_eq : s.capacity = capacity
  numLayers : s.layers.length = layout.numLayers
  fits : ∀ layer, ∀ row ∈ rows layer,
    row.1.length = layout.kvWidth ∧ row.2.length = layout.kvWidth
  layers : ∀ (layer : Nat) (l : LayerStore), s.layers[layer]? = some l →
    l.Holds layout.numKvHeads layout.headDim capacity (rows layer)

namespace Slot

variable {s : Slot} {layout : Layout} {capacity : Nat} {rows : Nat → List KeyValue}

/-- What is charged to a slot is no part of what it holds. -/
theorem Holds.charge (h : s.Holds layout capacity rows) (n : Nat) :
    ({ s with allocated := n } : Slot).Holds layout capacity rows :=
  ⟨h.pos, h.capacity_eq, h.numLayers, h.fits, h.layers⟩

theorem Holds.push (h : s.Holds layout capacity rows) {layer : Nat} {l : LayerStore}
    (hl : s.layers[layer]? = some l) {key value : List Float32}
    (hk : key.length = layout.kvWidth) (hv : value.length = layout.kvWidth) (stamp : Nat) :
    ({ s with
      layers := s.layers.modify layer
        (LayerStore.push layout.headDim (decide (s.capacity ≤ l.len)) key value)
      lastExtended := stamp } : Slot).Holds layout capacity
        (Function.update rows layer (rows layer ++ [(key, value)])) := by
  constructor
  · exact h.pos
  · exact h.capacity_eq
  · exact (List.length_modify ..).trans h.numLayers
  · intro other row hrow
    by_cases he : other = layer
    · subst he
      rw [Function.update_self] at hrow
      rcases List.mem_append.mp hrow with hrow | hrow
      · exact h.fits other row hrow
      · cases List.mem_singleton.mp hrow
        exact ⟨hk, hv⟩
    · rw [Function.update_of_ne he] at hrow
      exact h.fits other row hrow
  · intro other l' hl'
    rw [List.getElem?_modify] at hl'
    obtain ⟨old, hold, rfl⟩ := Option.map_eq_some_iff.mp hl'
    by_cases he : other = layer
    · subst he
      cases hl.symm.trans hold
      rw [if_pos rfl, Function.update_self, h.capacity_eq]
      exact (h.layers other l hl).push h.pos (h.fits other) key value
    · rw [if_neg (Ne.symm he), Function.update_of_ne he]
      exact h.layers other old hold

end Slot

namespace Cache

theorem holds_freshSlot (c : Cache) (owner : RequestId) {capacity : Nat} (hpos : 0 < capacity) :
    (c.freshSlot owner capacity).Holds c.layout capacity fun _ => [] where
  pos := hpos
  capacity_eq := rfl
  numLayers := List.length_replicate
  fits := fun _ row hrow => nomatch hrow
  layers := fun layer l hl => by
    rw [List.eq_of_mem_replicate (List.mem_of_getElem? hl)]
    exact .empty _ _ _

structure Tells (c : Cache) (log : Log) : Prop where
  unused : ∀ id, log id = .unused ↔ c.slots.length ≤ id
  released : ∀ id, log id = .released ↔ id ∈ c.free
  held : ∀ id capacity rows, log id = .held capacity rows →
    ∃ s, c.slot? id = some s ∧ s.Holds c.layout capacity rows

variable {c c' : Cache} {log : Log} {id : SlotId} {s : Slot}

/-- Neither unused nor released, a live slot is held. -/
theorem Tells.held_of_live (h : c.Tells log) (hc : c.Sound) (hs : c.slot? id = some s) :
    ∃ capacity rows, log id = .held capacity rows ∧ s.Holds c.layout capacity rows := by
  cases hlog : log id with
  | unused => exact absurd (lt_of_slot? hs) (Nat.not_lt.mpr ((h.unused id).mp hlog))
  | released =>
    have hdead := ((hc.free_iff id).mp ((h.released id).mp hlog)).2
    rw [hs] at hdead
    cases hdead
  | held capacity rows =>
    obtain ⟨t, ht, hholds⟩ := h.held id capacity rows hlog
    cases hs.symm.trans ht
    exact ⟨capacity, rows, rfl, hholds⟩

/-- A live slot changes, and its entry in the log with it. -/
theorem Tells.replace (h : c.Tells log) (hs : c.slot? id = some s)
    (hlen : c'.slots.length = c.slots.length) (hfree : c'.free = c.free)
    (hlayout : c'.layout = c.layout) {t : Slot}
    (hslot : ∀ other, c'.slot? other = if other = id then some t else c.slot? other)
    {capacity : Nat} {rows : Nat → List KeyValue} (hdead : log id ≠ .released)
    (ht : t.Holds c.layout capacity rows) :
    c'.Tells (Function.update log id (.held capacity rows)) := by
  constructor
  · intro other
    rw [hlen]
    by_cases he : other = id
    · subst he
      simp [lt_of_slot? hs]
    · rw [Function.update_of_ne he, h.unused]
  · intro other
    rw [hfree]
    by_cases he : other = id
    · subst he
      simp [← h.released, hdead]
    · rw [Function.update_of_ne he, h.released]
  · intro other cap its hlog
    rw [hslot, hlayout]
    by_cases he : other = id
    · subst he
      rw [Function.update_self] at hlog
      cases hlog
      exact ⟨t, if_pos rfl, ht⟩
    · rw [Function.update_of_ne he] at hlog
      rw [if_neg he]
      exact h.held other cap its hlog

theorem Tells.opened (h : c.Tells log) (hc : c.Sound) (owner : RequestId) {capacity : Nat}
    (hpos : 0 < capacity) :
    (c.opened owner capacity).Tells (Function.update log c.nextId (.held capacity fun _ => [])) := by
  constructor
  · intro other
    by_cases he : other = c.nextId
    · subst he
      have hs := hc.slot?_opened owner capacity c.nextId
      rw [if_pos rfl] at hs
      simp [lt_of_slot? hs]
    · rw [Function.update_of_ne he, h.unused]
      cases hf : c.free with
      | nil =>
        have hn : c.nextId = c.slots.length := by simp [nextId, hf]
        have hne : c.slots.length ≠ other := fun heq => he (heq ▸ hn).symm
        simp only [Cache.opened, hf, List.length_append, List.length_singleton]
        exact ⟨fun hle => Nat.lt_of_le_of_ne hle hne, Nat.le_of_succ_le⟩
      | cons free rest => simp [Cache.opened, hf]
  · intro other
    have hmem : other ∈ (c.opened owner capacity).free ↔ other ∈ c.free ∧ other ≠ c.nextId := by
      have hnodup := hc.free_nodup
      cases hf : c.free with
      | nil => simp [Cache.opened, hf]
      | cons free rest =>
        rw [hf, List.nodup_cons] at hnodup
        have hn : c.nextId = free := by simp [nextId, hf]
        simp only [Cache.opened, hf, hn, List.tail_cons, List.mem_cons]
        refine ⟨fun hm => ⟨.inr hm, fun he => hnodup.1 (he ▸ hm)⟩, ?_⟩
        rintro ⟨rfl | hm, hne⟩
        · exact absurd rfl hne
        · exact hm
    rw [hmem]
    by_cases he : other = c.nextId
    · subst he
      simp
    · rw [Function.update_of_ne he, h.released]
      exact (and_iff_left he).symm
  · intro other cap its hlog
    rw [hc.slot?_opened]
    by_cases he : other = c.nextId
    · subst he
      rw [Function.update_self] at hlog
      cases hlog
      exact ⟨_, if_pos rfl, holds_freshSlot c owner hpos⟩
    · rw [Function.update_of_ne he] at hlog
      rw [if_neg he]
      exact h.held other cap its hlog

theorem Tells.closed (h : c.Tells log) (hs : c.slot? id = some s) :
    (c.closed id s).Tells (Function.update log id .released) := by
  constructor
  · intro other
    have hlen : (c.closed id s).slots.length = c.slots.length := by simp [Cache.closed, put]
    rw [hlen]
    by_cases he : other = id
    · subst he
      simp [lt_of_slot? hs]
    · rw [Function.update_of_ne he, h.unused]
  · intro other
    change _ ↔ other ∈ id :: c.free
    rw [List.mem_cons]
    by_cases he : other = id
    · subst he
      simp
    · rw [Function.update_of_ne he, h.released]
      exact (or_iff_right he).symm
  · intro other cap its hlog
    rw [slot?_closed hs]
    by_cases he : other = id
    · subst he
      rw [Function.update_self] at hlog
      cases hlog
    · rw [Function.update_of_ne he] at hlog
      rw [if_neg he]
      exact h.held other cap its hlog

theorem Tells.grown (h : c.Tells log) (hc : c.Sound) (hs : c.slot? id = some s) (n : Nat) :
    (c.grown id s n).Tells log := by
  obtain ⟨capacity, rows, hlog, hholds⟩ := h.held_of_live hc hs
  have hdead : log id ≠ .released := by
    rw [hlog]
    exact nofun
  have hlen : (c.grown id s n).slots.length = c.slots.length := by simp [Cache.grown, put]
  have hnext := h.replace hs hlen rfl rfl (slot?_grown hs n) hdead (hholds.charge (c.target s n))
  rwa [← hlog, Function.update_eq_self] at hnext

theorem Tells.pushed (h : c.Tells log) {capacity : Nat} {rows : Nat → List KeyValue}
    (hlog : log id = .held capacity rows) (hs : c.slot? id = some s) {layer : Nat} {l : LayerStore}
    (hl : s.layers[layer]? = some l) {key value : List Float32} (hw : c.RowFits key value) :
    (c.pushed id s layer (decide (s.capacity ≤ l.len)) key value).Tells
      (Function.update log id
        (.held capacity (Function.update rows layer (rows layer ++ [(key, value)])))) := by
  obtain ⟨t, ht, hholds⟩ := h.held id capacity rows hlog
  cases hs.symm.trans ht
  have hdead : log id ≠ .released := by
    rw [hlog]
    exact nofun
  have hlen : (c.pushed id s layer (decide (s.capacity ≤ l.len)) key value).slots.length =
      c.slots.length := by simp [Cache.pushed, put]
  exact h.replace hs hlen rfl rfl (slot?_pushed hs layer _ key value) hdead
    (hholds.push hl hw.1 hw.2 _)

theorem Effect.tells {call : Call} {reply : Except Error Reply} (he : Effect c call reply c')
    (hc : c.Sound) (h : c.Tells log) : c'.Tells (call.note reply log) := by
  cases he with
  | unchanged hnote => rw [hnote]; exact h
  | allocated hpos => exact h.opened hc _ hpos
  | evicted hs => exact h.closed hs
  | reserved hs hn ha => exact h.grown hc hs _
  | @appended id layer key value c₁ s l hw hgrown hs hl =>
    -- a charge made on the way shows nowhere in the log
    have hlive : c₁.Tells log ∧ c₁.RowFits key value ∧ ∃ t, c.slot? id = some t := by
      rcases hgrown with rfl | ⟨t, n, ht, rfl⟩
      · exact ⟨h, hw, s, hs⟩
      · exact ⟨h.grown hc ht n, hw, t, ht⟩
    obtain ⟨htells, hfits, t, ht⟩ := hlive
    obtain ⟨capacity, rows, hlog, -⟩ := h.held_of_live hc ht
    have hnote : (Call.append id layer key value).note (.ok .done) log = Function.update log id
        (.held capacity (Function.update rows layer (rows layer ++ [(key, value)]))) := by
      simp only [Call.note, hlog]
    rw [hnote]
    exact htells.pushed hlog hs hl hfits

variable {layout : Layout} {config : CacheConfig}

theorem Logged.tells (h : Logged layout config c log) : c.Tells log := by
  induction h with
  | new =>
    refine ⟨fun id => ?_, fun id => ?_, fun id capacity rows hlog => nomatch hlog⟩
    · simp [Cache.new]
    · simp [Cache.new]
  | @call c log h call ih => exact (effect_run c call).tells h.sound ih

/-! ## Other places -/

/-- A call changes nothing in the places that it does not write to. -/
theorem Effect.layer_eq {call : Call} {reply : Except Error Reply} (he : Effect c call reply c')
    (hc : c.Sound) {slot : SlotId} {layer : Nat} (ht : ¬ call.Touches reply slot layer) :
    c'.layer slot layer = c.layer slot layer := by
  have hsame : ∀ {a b : Cache}, a.slot? slot = b.slot? slot → a.layer slot layer = b.layer slot layer :=
    fun h => by simp only [Cache.layer, Cache.slot, h]
  have hgrow : ∀ {id : SlotId} {t : Slot} (n : Nat), c.slot? id = some t →
      (c.grown id t n).layer slot layer = c.layer slot layer := by
    intro id t n hid
    by_cases heq : slot = id
    · subst heq
      have hnew := slot?_grown hid n slot
      rw [if_pos rfl] at hnew
      rw [layer_of_slot? hnew, layer_of_slot? hid]
    · exact hsame ((slot?_grown hid n slot).trans (if_neg heq))
  cases he with
  | unchanged hnote => rfl
  | allocated hpos => exact hsame ((hc.slot?_opened _ _ slot).trans (if_neg ht))
  | evicted hs => exact hsame ((slot?_closed hs slot).trans (if_neg ht))
  | reserved hs hn ha => exact hgrow _ hs
  | @appended id at_ key value c₁ s l hw hgrown hs hl =>
    have hfirst : c₁.layer slot layer = c.layer slot layer := by
      rcases hgrown with rfl | ⟨t, n, hid, rfl⟩
      · rfl
      · exact hgrow n hid
    rw [← hfirst]
    by_cases heq : slot = id
    · subst heq
      have hne : at_ ≠ layer := fun h => ht ⟨rfl, h.symm⟩
      have hnew := slot?_pushed hs at_ (decide (s.capacity ≤ l.len)) key value slot
      rw [if_pos rfl] at hnew
      rw [layer_of_slot? hnew, layer_of_slot? hs]
      simp only [List.getElem?_modify, if_neg hne, List.length_modify]
      cases s.layers[layer]? <;> rfl
    · exact hsame ((slot?_pushed hs _ _ _ _ slot).trans (if_neg heq))

theorem readPrefix_congr (hlayout : c'.layout = c.layout) {layer : Nat}
    (h : c'.layer id layer = c.layer id layer) (len : Nat) :
    c'.readPrefix id layer len = c.readPrefix id layer len := by
  rw [Cache.readPrefix, Cache.readPrefix, h, hlayout]

theorem read_congr (hlayout : c'.layout = c.layout) {layer : Nat}
    (h : c'.layer id layer = c.layer id layer) : c'.read id layer = c.read id layer := by
  have hcursor : c'.cursor id layer = c.cursor id layer := by rw [cursor, cursor, h]
  rw [Cache.read, Cache.read, hcursor]
  congr 1
  funext len
  exact readPrefix_congr hlayout h len

/-! ## What is read -/

variable {capacity : Nat} {rows : Nat → List KeyValue}

theorem Logged.held (h : Logged layout config c log) (hlog : log id = .held capacity rows) :
    ∃ s, c.slot? id = some s ∧ s.Holds layout capacity rows := by
  obtain ⟨s, hs, hholds⟩ := h.tells.held id capacity rows hlog
  exact ⟨s, hs, h.layout_eq ▸ hholds⟩

theorem Logged.live_iff (h : Logged layout config c log) (id : SlotId) :
    (c.slot? id).isSome = true ↔ ∃ capacity rows, log id = .held capacity rows := by
  constructor
  · intro hsome
    obtain ⟨s, hs⟩ := Option.isSome_iff_exists.mp hsome
    obtain ⟨capacity, rows, hlog, -⟩ := h.tells.held_of_live h.sound hs
    exact ⟨capacity, rows, hlog⟩
  · rintro ⟨capacity, rows, hlog⟩
    obtain ⟨s, hs, -⟩ := h.held hlog
    rw [hs]
    rfl

/-- A layer of a held slot. -/
theorem Logged.layer (h : Logged layout config c log) (hlog : log id = .held capacity rows)
    {layer : Nat} (hlayer : layer < layout.numLayers) : ∃ l, c.layer id layer = .ok l ∧
      l.Holds layout.numKvHeads layout.headDim capacity (rows layer) ∧
      ∀ row ∈ rows layer, row.1.length = layout.kvWidth ∧ row.2.length = layout.kvWidth := by
  obtain ⟨s, hs, hholds⟩ := h.held hlog
  have hl := List.getElem?_eq_getElem (hholds.numLayers.symm ▸ hlayer : layer < s.layers.length)
  refine ⟨_, ?_, hholds.layers layer _ hl, hholds.fits layer⟩
  rw [layer_of_slot? hs, hl]

theorem Logged.cursor_eq (h : Logged layout config c log) (hlog : log id = .held capacity rows)
    {layer : Nat} (hlayer : layer < layout.numLayers) :
    c.cursor id layer = .ok (min (rows layer).length capacity) := by
  obtain ⟨l, hl, hholds, -⟩ := h.layer hlog hlayer
  rw [cursor, hl, ← hholds.len]
  rfl

/-- As many positions as there are can be read, and no more. -/
theorem Logged.readPrefix_eq (h : Logged layout config c log)
    (hlog : log id = .held capacity rows) {layer : Nat} (hlayer : layer < layout.numLayers)
    (len : Nat) :
    if len ≤ min (rows layer).length capacity then
      ∃ view, c.readPrefix id layer len = .ok view ∧ view.len = len ∧
        view.Shows layout (((rows layer).rtake capacity).take len)
    else c.readPrefix id layer len =
      .error (.shape "kv read" [min (rows layer).length capacity] [len]) := by
  obtain ⟨l, hl, hholds, hfits⟩ := h.layer hlog hlayer
  rw [readPrefix, hl, h.layout_eq, ← hholds.len]
  split
  next hle =>
    refine ⟨⟨l.keys, l.values, len, layout.headDim⟩, ?_, rfl,
      CacheView.shows_of_holds hholds hfits hle⟩
    change (if l.len < len then _ else _) = _
    rw [if_neg (Nat.not_lt.mpr hle)]
    rfl
  next hgt =>
    change (if l.len < len then _ else _) = _
    rw [if_pos (Nat.lt_of_not_le hgt)]
    rfl

/-- A layer shows the latest rows that were written to it. -/
theorem Logged.read_eq (h : Logged layout config c log) (hlog : log id = .held capacity rows)
    {layer : Nat} (hlayer : layer < layout.numLayers) :
    ∃ view, c.read id layer = .ok view ∧ view.len = min (rows layer).length capacity ∧
      view.Shows layout ((rows layer).rtake capacity) := by
  have hall := h.readPrefix_eq hlog hlayer (min (rows layer).length capacity)
  rw [if_pos (Nat.le_refl _)] at hall
  obtain ⟨view, hview, hlen, hshows⟩ := hall
  refine ⟨view, ?_, hlen, ?_⟩
  · rw [Cache.read, h.cursor_eq hlog hlayer]
    exact hview
  · rwa [← length_rtake, List.take_length] at hshows

theorem Logged.nextPosition_eq (h : Logged layout config c log)
    (hlog : log id = .held capacity rows) : c.nextPosition id =
      .ok (((List.range layout.numLayers).map fun layer => (rows layer).length).min?.getD 0) := by
  obtain ⟨s, hs, hholds⟩ := h.held hlog
  have hcounts : s.layers.map LayerStore.appended =
      (List.range layout.numLayers).map fun layer => (rows layer).length := by
    apply List.ext_getElem
    · rw [List.length_map, List.length_map, List.length_range, hholds.numLayers]
    · intro layer hlt hlt'
      rw [List.length_map] at hlt
      rw [List.getElem_map, List.getElem_map, List.getElem_range]
      exact (hholds.layers layer _ (List.getElem?_eq_getElem hlt)).appended
  rw [nextPosition_of_slot? hs, ← hcounts]
  rfl

/-- A slot that was just allocated was not live, and shows nothing, whoever had its id before. -/
theorem Logged.allocated (h : Logged layout config c log) {owner : RequestId}
    (hexec : Action.exec (allocate owner capacity) c = (.ok id, c')) :
    c.slot? id = none ∧ c'.nextPosition id = .ok 0 ∧
      ∀ layer < layout.numLayers, ∃ view, c'.read id layer = .ok view ∧ view.Shows layout [] := by
  have hid : id = c.nextId := by
    rw [exec_allocate] at hexec
    split at hexec
    · cases hexec
    · cases hexec
      rfl
  have hnext := h.call (.allocate owner capacity)
  rw [Call.run, Action.exec_map, hexec] at hnext
  have hlog : Function.update log id (.held capacity fun _ => []) id =
      .held capacity fun _ => [] := Function.update_self ..
  refine ⟨hid ▸ h.sound.nextId_fresh, ?_, fun layer hlayer => ?_⟩
  · have hpos := hnext.nextPosition_eq hlog
    rw [hpos]
    cases hn : layout.numLayers with
    | zero => rfl
    | succ n => simp [List.map_const']
  · obtain ⟨view, hview, -, hshows⟩ := hnext.read_eq hlog hlayer
    rw [List.rtake_nil] at hshows
    exact ⟨view, hview, hshows⟩

/-- What the cache answers is what its log tells: every live slot shows the latest rows of each of
its layers, as many as it has capacity for, counts the rows it ever got, and shares nothing with
other slots, with other layers or with who had its id before. -/
theorem Logged.refines (h : Logged layout config c log) :
    (∀ id, (c.slot? id).isSome = true ↔ ∃ capacity rows, log id = .held capacity rows) ∧
    (∀ id capacity rows, log id = .held capacity rows →
      c.capacity id = .ok capacity ∧
      c.nextPosition id =
        .ok (((List.range layout.numLayers).map fun layer => (rows layer).length).min?.getD 0) ∧
      ∀ layer < layout.numLayers,
        c.cursor id layer = .ok (min (rows layer).length capacity) ∧
        (∃ view, c.read id layer = .ok view ∧ view.len = min (rows layer).length capacity ∧
          view.Shows layout ((rows layer).rtake capacity)) ∧
        ∀ len, if len ≤ min (rows layer).length capacity then
            ∃ view, c.readPrefix id layer len = .ok view ∧ view.len = len ∧
              view.Shows layout (((rows layer).rtake capacity).take len)
          else c.readPrefix id layer len =
            .error (.shape "kv read" [min (rows layer).length capacity] [len])) ∧
    (∀ (call : Call) slot layer, ¬ call.Touches (Action.exec call.run c).1 slot layer →
      (Action.exec call.run c).2.read slot layer = c.read slot layer ∧
      ∀ len, (Action.exec call.run c).2.readPrefix slot layer len =
        c.readPrefix slot layer len) ∧
    (∀ owner capacity id c', Action.exec (allocate owner capacity) c = (.ok id, c') →
      c.slot? id = none ∧ c'.nextPosition id = .ok 0 ∧
      ∀ layer < layout.numLayers,
        ∃ view, c'.read id layer = .ok view ∧ view.Shows layout []) := by
  refine ⟨h.live_iff, fun id capacity rows hlog => ⟨?_, h.nextPosition_eq hlog, ?_⟩, ?_, ?_⟩
  · obtain ⟨s, hs, hholds⟩ := h.held hlog
    rw [Cache.capacity, slot_of_slot? hs, ← hholds.capacity_eq]
    rfl
  · intro layer hlayer
    exact ⟨h.cursor_eq hlog hlayer, h.read_eq hlog hlayer, h.readPrefix_eq hlog hlayer⟩
  · intro call slot layer ht
    have heffect := effect_run c call
    have hlayer := heffect.layer_eq h.sound ht
    have hlayout := heffect.limits.layout
    exact ⟨read_congr hlayout hlayer, readPrefix_congr hlayout hlayer⟩
  · intro owner capacity id c' hexec
    exact h.allocated hexec

/-- A window of two positions after three rows, read by the second of two heads. -/
theorem latest_two_of_three : ∃ c log view,
    Logged ⟨1, 2, 2, 1⟩ { overflowPolicy := .slidingWindow } c log ∧
      c.nextPosition 0 = .ok 3 ∧ c.read 0 0 = .ok view ∧ view.len = 2 ∧
      view.keys 1 = [4, 6] ∧ view.values 1 = [40, 60] := by
  have h : Logged ⟨1, 2, 2, 1⟩ { overflowPolicy := .slidingWindow } _ _ :=
    .call (.call (.call (.call .new (.allocate 7 2)) (.append 0 0 [1, 2] [10, 20]))
      (.append 0 0 [3, 4] [30, 40])) (.append 0 0 [5, 6] [50, 60])
  obtain ⟨-, hheld, -, -⟩ := Logged.refines h
  obtain ⟨-, hnext, hlayers⟩ := hheld 0 2 _ (by rfl)
  obtain ⟨-, ⟨view, hread, hlen, hshows⟩, -⟩ := hlayers 0 (by decide)
  exact ⟨_, _, view, h, hnext, hread, hlen, hshows.keys 1 (by decide), hshows.values 1 (by decide)⟩

end Cache

end CausalServe
