import CausalServe.Proofs.Model.Assembled
import CausalServe.Proofs.Model.Progress

/-! Batches and splits do not show. What an entry of a batch gets, and what its slot then holds, is
what it would get alone from the same cache, and what it would get if its tokens were fed in two
passes. -/

namespace CausalServe

/-- A slot that shows the same and counts the same in two caches. -/
structure Cache.SameSlot (c c' : Cache) (id : SlotId) : Prop where
  read : ∀ layer, c.read id layer = c'.read id layer
  nextPosition : c.nextPosition id = c'.nextPosition id

theorem Cache.sameSlot_of_layers {c c' : Cache} {id : SlotId} {m : SlotLimits}
    (hc : c.Hosts id m) (hc' : c'.Hosts id m) (h : ∀ j, c.layer id j = c'.layer id j) :
    c.SameSlot c' id where
  read := fun j => Cache.read_congr (hc.layout.trans hc'.layout.symm) (h j)
  nextPosition := hc'.nextPosition_congr hc h

/-! ## Lanes of a batch -/

theorem lastOf_ownRows (slot : SlotId) (ps : List PlacedRow) :
    lastOf slot (ownRows slot ps) = lastOf slot ps := by
  have hown : ∀ p ∈ ownRows slot ps, p.slot = slot := by
    intro p hp
    exact of_decide_eq_true (List.mem_filter.mp hp).2
  rw [lastOf, ownRows_eq_self hown, lastOf]

theorem lastOf_eq {slot : SlotId} {ps : List PlacedRow} (h : ∀ p ∈ ps, p.slot = slot) :
    lastOf slot ps = ((ps.map PlacedRow.row).getLast?).getD [] := by
  rw [lastOf, ownRows_eq_self h, List.getLast?_map]

/-- Rows of the slot that are behind others hide them. -/
theorem lastOf_append {slot : SlotId} {us vs vs' : List PlacedRow} (hus : ∀ p ∈ us, p.slot = slot)
    (hvs : ∀ p ∈ vs, p.slot = slot) (hvs' : ∀ p ∈ vs', p.slot = slot) (hne : vs ≠ [])
    (h : vs'.map PlacedRow.row = vs.map PlacedRow.row) :
    lastOf slot (us ++ vs) = lastOf slot vs' := by
  have hrows : vs.map PlacedRow.row ≠ [] := fun hnil => hne (List.map_eq_nil_iff.mp hnil)
  rw [lastOf_eq (List.forall_mem_append.mpr ⟨hus, hvs⟩), lastOf_eq hvs', h, List.map_append,
    List.getLast?_append_of_ne_nil _ hrows]

namespace Transformer

variable {t : Transformer} {c c' : Cache} {m : SlotLimits} {target : Nat}
  {before after : Nat → Except Error LayerStore}

abbrev Runs (t : Transformer) (m : SlotLimits) (before after : Nat → Except Error LayerStore)
    (ps out : List PlacedRow) : Prop :=
  DecoderLayer.Runs t.kernels t.kernels t.rotary m before after t.layers ps out

/-- Where no product is a small one, a row goes by the same kernels in every batch. -/
theorem exec_forward_of_tiny (htiny : t.kernels.config.tinyWorkThreshold = 0) (ht : t.Shaped)
    (hf : t.Fits) {entries : List BatchEntry} {rows : List (List Float32)} (hne : entries ≠ [])
    (hnodup : (entries.map BatchEntry.slot).Nodup) :
    Action.exec (t.forward entries) c = (.ok rows, c') ↔ ∃ lanes ps,
      entries.mapM (t.lane c) = .ok lanes ∧
      Action.exec (DecoderLayer.walk t.kernels t.kernels t.rotary t.layers
        (lanes.flatMap Lane.placed)) c = (.ok ps, c') ∧
      rows = lanes.map fun lane => t.logits t.kernels (lastOf lane.slot ps) := by
  rw [exec_forward_eq_ok ht hf hne hnodup]
  have hrow : ∀ lanes, (t.context lanes).rowKernels = t.kernels :=
    fun _ => Dispatcher.inBatch_of_tiny htiny _
  simp only [hrow, Dispatcher.inBatch_of_tiny htiny]

/-- Where its slot has headroom, an entry runs alone. -/
theorem forward_alone (htiny : t.kernels.config.tinyWorkThreshold = 0) (ht : t.Shaped)
    (hf : t.Fits) {e : BatchEntry} {lane : Lane} (hlane : t.lane c e = .ok lane)
    {out : List PlacedRow} (hruns : t.Runs m before after lane.placed out)
    (hc : c.Hosts e.slot m) (hspare : c.Spare e.slot target)
    (hbefore : ∀ l ∈ t.layers, c.layer e.slot l.place = before l.place)
    (hafter : ∀ l ∈ t.layers, ∀ store, after l.place = .ok store → store.len ≤ target) :
    ∃ c', Action.exec (t.forward [e]) c = (.ok [t.logits t.kernels (lastOf e.slot out)], c') ∧
      c.Grew c' ∧ c'.Spare e.slot target ∧ (∀ l ∈ t.layers, c'.layer e.slot l.place = after l.place) ∧
      ∀ j, j ∉ t.layers.map DecoderLayer.place → c'.layer e.slot j = c.layer e.slot j := by
  have hslot : lane.slot = e.slot := (lane_eq_ok.mp hlane).2.2.2
  have hown : ∀ p ∈ lane.placed, p.slot = e.slot := fun p hp =>
    (lane.slot_of_mem_placed p hp).trans hslot
  obtain ⟨c', hwalk, hgrew, hspare', hlayers, hframe⟩ := DecoderLayer.walk_of_runs
    (places_nodup ht) hruns hown hc hspare hbefore hafter
  have hlanes : [e].mapM (t.lane c) = .ok [lane] :=
    mapM_cons_eq_ok.mpr ⟨lane, [], hlane, rfl, rfl⟩
  refine ⟨c', ?_, hgrew, hspare', hlayers, hframe⟩
  refine (exec_forward_of_tiny htiny ht hf (List.cons_ne_nil e [])
    (List.nodup_singleton e.slot)).mpr ⟨[lane], out, hlanes, ?_, ?_⟩
  · rwa [List.flatMap_singleton]
  · rw [List.map_singleton, hslot]

/-- Where its layers have room, an entry runs alone. -/
theorem forward_ran (htiny : t.kernels.config.tinyWorkThreshold = 0) (ht : t.Shaped) (hf : t.Fits)
    (hm : ∀ l ∈ t.layers, l.attention.Matches m.layout) {e : BatchEntry} {lane : Lane}
    (hlane : t.lane c e = .ok lane) (hc : c.Hosts e.slot m)
    (hroom : ∀ l ∈ t.layers, c.HasRoom e.slot l.place lane.rows.length) :
    ∃ row c' out, Action.exec (t.forward [e]) c = (.ok [row], c') ∧ c.Grew c' ∧
      t.Runs m (c.layer e.slot) (c'.layer e.slot) lane.placed out ∧
      ∀ j, j ∉ t.layers.map DecoderLayer.place → c'.layer e.slot j = c.layer e.slot j := by
  have hslot : lane.slot = e.slot := (lane_eq_ok.mp hlane).2.2.2
  have hlanes : [e].mapM (t.lane c) = .ok [lane] :=
    mapM_cons_eq_ok.mpr ⟨lane, [], hlane, rfl, rfl⟩
  have hnodup : ([e].map BatchEntry.slot).Nodup := List.nodup_singleton e.slot
  obtain ⟨rows, c', hforward, -⟩ := forward_of_room ht hf hc.sound (hc.layout ▸ hm) hnodup hlanes
    fun lane' hlane' => by
      obtain rfl := List.mem_singleton.mp hlane'
      exact hslot ▸ hroom
  obtain ⟨lanes, ps, hsame, hwalk, rfl⟩ :=
    (exec_forward_of_tiny htiny ht hf (List.cons_ne_nil e []) hnodup).mp hforward
  cases hlanes.symm.trans hsame
  rw [List.flatMap_singleton] at hwalk
  have hne : lane.placed ≠ [] := fun hnil => (rows_of_lane ht hlane).1
    (List.length_eq_zero_iff.mp (lane.length_placed ▸ congrArg List.length hnil))
  obtain ⟨hruns, hgrew, hframe⟩ := DecoderLayer.runs_of_walk (places_nodup ht) hwalk hne hc
  rw [ownRows_eq_self fun p hp => (lane.slot_of_mem_placed p hp).trans hslot] at hruns
  exact ⟨_, c', _, hforward, hgrew, hruns, hframe⟩

/-- A slot counts by the layer that got the fewest rows. Beside a layer of the cache that gets none,
the only layer of a model places every entry from zero on. -/
theorem forward_beside_idle (htiny : t.kernels.config.tinyWorkThreshold = 0) (ht : t.Shaped)
    (hf : t.Fits) {l : DecoderLayer} (hlayers : t.layers = [l]) {i : Nat} (hplace : l.place = i)
    (hm : l.attention.Matches m.layout) {slot : SlotId} {tokens : List Token}
    {rows : List (List Float32)} (hrows : t.embed tokens = .ok rows) (hne : tokens ≠ [])
    (hc : c.Hosts slot m) {store idle : LayerStore} (hstore : c.layer slot i = .ok store)
    (hroom : c.HasRoom slot i rows.length) {j : Nat} (hj : j ≠ i)
    (hidle : c.layer slot j = .ok idle) (hzero : idle.appended = 0) :
    ∃ row c', Action.exec (t.forward [⟨slot, tokens⟩]) c = (.ok [row], c') ∧ c.Grew c' ∧
      c'.layer slot i = .ok (l.stored t.kernels t.rotary m (rowsFrom slot 0 rows) store) ∧
      c'.layer slot j = .ok idle := by
  subst hplace
  have hlane : t.lane c ⟨slot, tokens⟩ = .ok ⟨slot, 0, rows⟩ :=
    lane_eq_ok.mpr ⟨hne, hrows, Cache.nextPosition_of_idle hidle hzero, rfl⟩
  have hall : ∀ {P : DecoderLayer → Prop}, P l → ∀ l' ∈ t.layers, P l' := fun hp l' hl' => by
    rw [hlayers] at hl'
    exact List.mem_singleton.mp hl' ▸ hp
  obtain ⟨row, c', out, hforward, hgrew, hruns, hframe⟩ :=
    forward_ran htiny ht hf (hall hm) hlane hc (hall hroom)
  rw [Runs, hlayers] at hruns
  obtain ⟨old, new, _, hold, hnew, hfed, -⟩ := hruns
  cases hstore.symm.trans hold
  rw [hfed.store_eq] at hnew
  refine ⟨row, c', hforward, hgrew, hnew, (hframe j ?_).trans hidle⟩
  rw [hlayers]
  exact fun hmem => hj (List.mem_singleton.mp hmem)

/-- The lane of an entry starts with that of its first tokens. -/
theorem lane_append {slot : SlotId} {u v : List Token} {lane : Lane}
    (h : t.lane c ⟨slot, u ++ v⟩ = .ok lane) (hu : u ≠ []) :
    ∃ xs ys, t.lane c ⟨slot, u⟩ = .ok ⟨slot, lane.start, xs⟩ ∧ t.embed v = .ok ys ∧
      lane.placed = rowsFrom slot lane.start xs ++
        rowsFrom slot (lane.start + xs.length) ys := by
  obtain ⟨-, hrows, hstart, hslot⟩ := lane_eq_ok.mp h
  unfold embed at hrows
  rw [List.mapM_append] at hrows
  obtain ⟨xs, hxs, hrows⟩ := bind_eq_ok.mp hrows
  obtain ⟨ys, hys, hrows⟩ := bind_eq_ok.mp hrows
  have hsplit : lane.rows = xs ++ ys := (Except.ok.inj hrows).symm
  refine ⟨xs, ys, lane_eq_ok.mpr ⟨hu, hxs, hstart, rfl⟩, hys, ?_⟩
  rw [Lane.placed, hslot, hsplit, rowsFrom_append]

theorem mem_places (ht : t.Shaped) {j : Nat} (hj : j < t.config.numLayers) :
    ∃ l ∈ t.layers, l.place = j := by
  have hmem : j ∈ t.layers.map fun l => l.attention.layer :=
    ht.layer ▸ List.mem_range.mpr hj
  obtain ⟨l, hl, he⟩ := List.mem_map.mp hmem
  exact ⟨l, hl, he⟩

/-- After a run of all layers of its slot, a sequence goes on right behind its rows. -/
theorem nextPosition_of_runs (ht : t.Shaped) (hnum : m.layout.numLayers ≤ t.config.numLayers)
    (hlayers : t.layers ≠ []) {slot : SlotId} (hc : c.Hosts slot m) (hc' : c'.Hosts slot m)
    {ps out : List PlacedRow} (hruns : t.Runs m (c.layer slot) after ps out)
    (hafter : ∀ l ∈ t.layers, c'.layer slot l.place = after l.place) {position : Nat}
    (h : c.nextPosition slot = .ok position) :
    c'.nextPosition slot = .ok (position + ps.length) := by
  have hpos : 0 < m.layout.numLayers := by
    obtain ⟨l, hl⟩ := List.exists_mem_of_ne_nil _ hlayers
    obtain ⟨store, -, hstore, -⟩ := hruns.appended l hl
    exact hc.layout ▸ Nat.zero_lt_of_lt (hc.sound.lt_of_layer hstore)
  refine hc.nextPosition_add hc' hpos (fun j hj => ?_) h
  obtain ⟨l, hl, rfl⟩ := mem_places ht (hj.trans_le hnum)
  obtain ⟨store, store', hstore, hstore', happended⟩ := hruns.appended l hl
  exact ⟨store, store', hstore, (hafter l hl).trans hstore', happended⟩

/-- Rows that follow those of a first pass go on where that pass has left the slot. Without layers
the slot has no positions, and none are looked at. -/
theorem runs_behind (ht : t.Shaped) (hnum : m.layout.numLayers ≤ t.config.numLayers)
    {slot : SlotId} (hc : c.Hosts slot m) (hc' : c'.Hosts slot m) {mid : Nat → Except Error LayerStore}
    {us us' vs : List PlacedRow} (hu : t.Runs m (c.layer slot) mid us us')
    (hmid : ∀ l ∈ t.layers, c'.layer slot l.place = mid l.place) {start : Nat}
    (hstart : c.nextPosition slot = .ok start) {ys : List (List Float32)}
    (hv : t.Runs m mid after (rowsFrom slot (start + us.length) ys) vs) :
    ∃ next vs', c'.nextPosition slot = .ok next ∧
      t.Runs m mid after (rowsFrom slot next ys) vs' ∧
      vs'.map PlacedRow.row = vs.map PlacedRow.row := by
  by_cases hnil : t.layers = []
  · obtain ⟨s, hs, -⟩ := hc'.slot
    refine ⟨s.nextPosition, rowsFrom slot s.nextPosition ys, Cache.nextPosition_of_slot? hs, ?_, ?_⟩
    · rw [Runs, hnil]
      rfl
    · rw [Runs, hnil] at hv
      rw [show vs = _ from hv, map_row_rowsFrom, map_row_rowsFrom]
  · exact ⟨_, vs, nextPosition_of_runs ht hnum hnil hc hc' hu hmid hstart, hv, rfl⟩

theorem slot_of_runs {slot : SlotId} {position : Nat} {xs : List (List Float32)}
    {out : List PlacedRow} (h : t.Runs m before after (rowsFrom slot position xs) out) :
    ∀ p ∈ out, p.slot = slot :=
  PlacedRow.forall_slot h.outline (P := (· = slot)) slot_of_mem_rowsFrom

/-- Where its slot has headroom, an entry runs in two passes. -/
theorem forward_twice (htiny : t.kernels.config.tinyWorkThreshold = 0) (ht : t.Shaped)
    (hf : t.Fits) (hnum : m.layout.numLayers ≤ t.config.numLayers) {slot : SlotId}
    {u v : List Token} {lane : Lane} (hlane : t.lane c ⟨slot, u ++ v⟩ = .ok lane) (hu : u ≠ [])
    (hv : v ≠ []) {out : List PlacedRow} (hruns : t.Runs m (c.layer slot) after lane.placed out)
    (hc : c.Hosts slot m) (hspare : c.Spare slot target)
    (hafter : ∀ l ∈ t.layers, ∀ store, after l.place = .ok store → store.len ≤ target) :
    ∃ first c₁ c₂, Action.exec (t.forward [⟨slot, u⟩]) c = (.ok [first], c₁) ∧
      Action.exec (t.forward [⟨slot, v⟩]) c₁ =
        (.ok [t.logits t.kernels (lastOf slot out)], c₂) ∧
      c.Grew c₂ ∧ (∀ l ∈ t.layers, c₂.layer slot l.place = after l.place) ∧
      ∀ j, j ∉ t.layers.map DecoderLayer.place → c₂.layer slot j = c.layer slot j := by
  obtain ⟨xs, ys, hlaneu, hys, hplaced⟩ := lane_append hlane hu
  rw [hplaced] at hruns
  obtain ⟨mid, us, vs, rfl, hrunu, hrunv⟩ := hruns.append (places_nodup ht)
  obtain ⟨c₁, hfirst, hgrew₁, hspare₁, hlayers₁, hframe₁⟩ := forward_alone htiny ht hf hlaneu hrunu
    hc hspare (fun _ _ => rfl) fun l hl store hstore => by
      obtain ⟨store', hstore', hle⟩ := hrunv.len_le l hl store hstore
      exact hle.trans (hafter l hl store' hstore')
  have hc₁ := hgrew₁.hosts hc
  have hbehind := hrunv
  rw [← length_rowsFrom slot lane.start xs] at hbehind
  obtain ⟨next, vs', hnext, hrunv', hrows⟩ := runs_behind ht hnum hc hc₁ hrunu hlayers₁
    (lane_eq_ok.mp hlane).2.2.1 hbehind
  have hlanev : t.lane c₁ ⟨slot, v⟩ = .ok ⟨slot, next, ys⟩ := lane_eq_ok.mpr ⟨hv, hys, hnext, rfl⟩
  obtain ⟨c₂, hlast, hgrew₂, -, hlayers₂, hframe₂⟩ := forward_alone htiny ht hf hlanev hrunv' hc₁
    hspare₁ hlayers₁ hafter
  have hne : vs ≠ [] := by
    rintro rfl
    have hlen := congrArg List.length hrunv.outline
    rw [List.length_map, List.length_map, length_rowsFrom, length_of_mapM_eq_ok hys] at hlen
    exact hv (List.length_eq_zero_iff.mp hlen.symm)
  refine ⟨_, c₁, c₂, hfirst, ?_, hgrew₁.trans hgrew₂, hlayers₂,
    fun j hj => (hframe₂ j hj).trans (hframe₁ j hj)⟩
  rw [lastOf_append (slot_of_runs hrunu) (slot_of_runs hrunv) (slot_of_runs hrunv') hne hrows]
  exact hlast

/-- A row of a batch belongs to the lane of its entry. -/
theorem lane_of_mem_zip {entries : List BatchEntry} {lanes : List Lane}
    (h : entries.mapM (t.lane c) = .ok lanes) (f : Lane → List Float32) {e : BatchEntry}
    {row : List Float32} (hmem : (e, row) ∈ entries.zip (lanes.map f)) :
    ∃ lane ∈ lanes, t.lane c e = .ok lane ∧ row = f lane := by
  induction entries generalizing lanes with
  | nil => cases hmem
  | cons first rest ih =>
    obtain ⟨lane, lanes, hlane, hlanes, rfl⟩ := mapM_cons_eq_ok.mp h
    rcases List.mem_cons.mp hmem with hmem | hmem
    · cases hmem
      exact ⟨lane, List.mem_cons_self, hlane, rfl⟩
    · obtain ⟨found, hfound, hrest⟩ := ih hlanes hmem
      exact ⟨found, List.mem_cons_of_mem _ hfound, hrest⟩

/-- Neither the other entries of a batch, nor their order, nor a split of the tokens of an entry
into two passes shows in its logits or in what its slot holds, whatever functions the rotations are
made of. A slot counts by the layer that got the fewest rows: a cache with layers beyond those of
the model would give the second part of a split the positions of the first, so the split asks for a
cache without such layers. Sizes are 64-bit words. -/
theorem batching_invisible [Elementary] {ds : List TensorDescriptor} {weights : ModelWeights}
    {config : ModelConfig} {kernels : Dispatcher} {dequantize : Bool} {layout : Layout}
    {cacheConfig : CacheConfig} {log : Cache.Log} {entries : List BatchEntry}
    {rows : List (List Float32)} (hweights : ModelWeights.ofDescriptors ds = .ok weights)
    (ht : ofWeights config weights kernels dequantize = .ok t)
    (hsize : config.hiddenSize < wordSize) (htiny : kernels.config.tinyWorkThreshold = 0)
    (hcache : Cache.Logged layout cacheConfig c log)
    (hslots : (entries.map BatchEntry.slot).Nodup)
    (h : Action.exec (t.forward entries) c = (.ok rows, c')) :
    rows.length = entries.length ∧ ∀ e row, (e, row) ∈ entries.zip rows →
      (∃ c₁, Action.exec (t.forward [e]) c = (.ok [row], c₁) ∧ c₁.SameSlot c' e.slot) ∧
      ∀ u v, e.tokens = u ++ v → u ≠ [] → v ≠ [] → layout.numLayers ≤ config.numLayers →
        ∃ first c₁ c₂, Action.exec (t.forward [⟨e.slot, u⟩]) c = (.ok [first], c₁) ∧
          Action.exec (t.forward [⟨e.slot, v⟩]) c₁ = (.ok [row], c₂) ∧ c₂.SameSlot c' e.slot := by
  obtain ⟨hshaped, -, rfl, rfl⟩ :=
    ofWeights_ok (ModelWeights.decoded_of_descriptors hweights) hsize ht
  by_cases hne : entries = []
  · subst hne
    cases h
    exact ⟨rfl, fun e row hmem => nomatch hmem⟩
  have hfits := fits_of_forward hshaped hne h
  obtain ⟨lanes, ps, hlanes, hwalk, rfl⟩ :=
    (exec_forward_of_tiny htiny hshaped hfits hne hslots).mp h
  refine ⟨(List.length_map ..).trans (length_of_mapM_eq_ok hlanes), fun e row hpair => ?_⟩
  obtain ⟨lane, hmem, hlane, rfl⟩ := lane_of_mem_zip hlanes _ hpair
  obtain ⟨-, -, hstart, hslot⟩ := lane_eq_ok.mp hlane
  obtain ⟨m, hc⟩ := hosts_of_nextPosition hcache.sound hstart
  have hm : m.layout = layout := hc.layout.symm.trans hcache.layout_eq
  have hplaced : lanes.flatMap Lane.placed ≠ [] := by
    intro hnil
    have hempty := List.flatMap_eq_nil_iff.mp hnil lane hmem
    rw [← List.length_eq_zero_iff, lane.length_placed, List.length_eq_zero_iff] at hempty
    exact (rows_of_lane hshaped hlane).1 hempty
  obtain ⟨hruns, hgrew, hframe⟩ :=
    DecoderLayer.runs_of_walk (places_nodup hshaped) hwalk hplaced hc
  rw [← hslot, ownRows_placed ((slots_of_lanes hlanes).symm ▸ hslots) hmem, hslot] at hruns
  -- the charge that the slot ended up with in the batch is what every other run can fall back on
  obtain ⟨s, hs, -⟩ := hc.slot
  obtain ⟨s', hs', -⟩ := hgrew.slot e.slot s hs
  have hspare := hgrew.spare hs hs'
  have hafter : ∀ l ∈ t.layers, ∀ store, c'.layer e.slot l.place = .ok store →
      store.len ≤ s'.allocated := fun l _ store hstore => hgrew.sound.len_le_of_layer hs' hstore
  have hsame : ∀ {c₁ : Cache}, c.Grew c₁ →
      (∀ l ∈ t.layers, c₁.layer e.slot l.place = c'.layer e.slot l.place) →
      (∀ j, j ∉ t.layers.map DecoderLayer.place → c₁.layer e.slot j = c.layer e.slot j) →
      c₁.SameSlot c' e.slot := by
    intro c₁ hgrew₁ hlayers hothers
    refine Cache.sameSlot_of_layers (hgrew₁.hosts hc) (hgrew.hosts hc) fun j => ?_
    by_cases hj : j ∈ t.layers.map DecoderLayer.place
    · obtain ⟨l, hl, rfl⟩ := List.mem_map.mp hj
      exact hlayers l hl
    · exact (hothers j hj).trans (hframe j hj).symm
  rw [hslot, ← lastOf_ownRows]
  constructor
  · obtain ⟨c₁, halone, hgrew₁, -, hlayers, hothers⟩ := forward_alone htiny hshaped hfits hlane
      hruns hc hspare (fun _ _ => rfl) hafter
    exact ⟨c₁, halone, hsame hgrew₁ hlayers hothers⟩
  · intro u v htokens hu hv hnum
    have hsplit : e = ⟨e.slot, u ++ v⟩ := by rw [← htokens]
    rw [hsplit] at hlane
    obtain ⟨first, c₁, c₂, hfirst, hlast, hgrew₂, hlayers, hothers⟩ := forward_twice htiny hshaped
      hfits (hm ▸ hnum) hlane hu hv hruns hc hspare hafter
    exact ⟨first, c₁, c₂, hfirst, hlast, hsame hgrew₂ hlayers hothers⟩

end Transformer

/-- One layer with one head, over two tokens. -/
def ModelConfig.least : ModelConfig :=
  { vocabSize := 2, hiddenSize := 2, intermediateSize := 1, numLayers := 1, numHeads := 1
    numKvHeads := 1 }

def ModelConfig.filled (c : ModelConfig) (word : UInt32) : List TensorDescriptor :=
  c.inventory.map fun entry =>
    .ofFloats entry.name entry.shape (List.replicate (elementCount entry.shape) word)

def ModelConfig.zeros (c : ModelConfig) : List TensorDescriptor := c.filled 0

theorem ModelConfig.sized_least : least.Sized where
  intermediate_pos := by decide
  hidden := by decide
  intermediate := by decide
  vocab := by decide

namespace Transformer

/-- The window of a slot slides beside an entry of another slot. -/
theorem window_slides_beside_another : ∃ weights t c log c' a b,
    ModelWeights.ofDescriptors ModelConfig.least.zeros = .ok weights ∧
    ofWeights .least weights { kernel := .scalar, config := { tinyWorkThreshold := 0 } } false =
      .ok t ∧
    Cache.Logged (.ofModel .least) { overflowPolicy := .slidingWindow } c log ∧
    Action.exec (t.forward [⟨0, [1, 0]⟩, ⟨1, [1]⟩]) c = (.ok [a, b], c') ∧
    (∃ c₁, Action.exec (t.forward [⟨0, [1, 0]⟩]) c = (.ok [a], c₁) ∧ c₁.SameSlot c' 0) ∧
    ∃ first c₁ c₂, Action.exec (t.forward [⟨0, [1]⟩]) c = (.ok [first], c₁) ∧
      Action.exec (t.forward [⟨0, [0]⟩]) c₁ = (.ok [a], c₂) ∧ c₂.SameSlot c' 0 := by
  obtain ⟨weights, t, xs, ys, hweights, ht, hxs, hys⟩ : ∃ weights t xs ys,
      ModelWeights.ofDescriptors ModelConfig.least.zeros = .ok weights ∧
      ofWeights .least weights { kernel := .scalar, config := { tinyWorkThreshold := 0 } } false =
        .ok t ∧
      t.embed [1, 0] = .ok xs ∧ t.embed [1] = .ok ys :=
    ⟨_, _, _, _, rfl, rfl, rfl, rfl⟩
  obtain ⟨c, log, hcache, hnext, hnext', hroom, hroom'⟩ : ∃ c log,
      Cache.Logged (.ofModel .least) { overflowPolicy := .slidingWindow } c log ∧
      c.nextPosition 0 = .ok 0 ∧ c.nextPosition 1 = .ok 0 ∧
      c.HasRoom 0 0 2 ∧ c.HasRoom 1 0 1 :=
    ⟨_, _, .call (.call (.call (.call .new (.allocate 7 1)) (.allocate 8 1)) (.reserve 0 1))
      (.reserve 1 1), rfl, rfl, ⟨_, _, rfl, rfl, Nat.le_refl 1, nofun⟩,
      ⟨_, _, rfl, rfl, Nat.le_refl 1, nofun⟩⟩
  obtain ⟨hshaped, hfits, hconfig, -⟩ :=
    ofWeights_ok (ModelWeights.decoded_of_descriptors hweights) (by decide) ht
  have hmatches : ∀ l ∈ t.layers, l.attention.Matches c.layout :=
    hshaped.matches_layout (by rw [hcache.layout_eq, hconfig]; rfl)
      (by rw [hcache.layout_eq, hconfig]; rfl)
  have hplace : ∀ l ∈ t.layers, l.place = 0 := fun l hl => by
    have hmem : l.place ∈ t.layers.map fun l => l.attention.layer := List.mem_map_of_mem hl
    rw [hshaped.layer, hconfig] at hmem
    exact Nat.lt_one_iff.mp (List.mem_range.mp hmem)
  have hlanes : [⟨0, [1, 0]⟩, ⟨1, [1]⟩].mapM (t.lane c) = .ok [⟨0, 0, xs⟩, ⟨1, 0, ys⟩] :=
    mapM_cons_eq_ok.mpr ⟨_, _, lane_eq_ok.mpr ⟨nofun, hxs, hnext, rfl⟩,
      mapM_cons_eq_ok.mpr ⟨_, [], lane_eq_ok.mpr ⟨nofun, hys, hnext', rfl⟩, rfl, rfl⟩, rfl⟩
  have hrooms : ∀ lane ∈ [(⟨0, 0, xs⟩ : Lane), ⟨1, 0, ys⟩], ∀ l ∈ t.layers,
      c.HasRoom lane.slot l.place lane.rows.length := by
    intro lane hlane l hl
    rw [hplace l hl]
    rcases List.mem_pair.mp hlane with rfl | rfl
    · exact length_of_mapM_eq_ok hxs ▸ hroom
    · exact length_of_mapM_eq_ok hys ▸ hroom'
  obtain ⟨rows, c', hforward, -, -⟩ := forward_of_room hshaped (hfits ModelConfig.sized_least)
    hcache.sound hmatches (by decide) hlanes hrooms
  obtain ⟨hlen, hentries⟩ := batching_invisible hweights ht (by decide) rfl hcache (by decide)
    hforward
  obtain ⟨a, b, rfl⟩ := List.length_eq_two.mp hlen
  obtain ⟨halone, hsplit⟩ := hentries ⟨0, [1, 0]⟩ a List.mem_cons_self
  exact ⟨weights, t, c, log, c', a, b, hweights, ht, hcache, hforward, halone,
    hsplit [1] [0] rfl nofun nofun (Nat.le_refl 1)⟩

end Transformer

/-! ## Layers that no layer of the model belongs to -/

/-- Rounding, cosine and sine as they are at one, and at zero and one. -/
abbrev Elementary.upToOne : Elementary where
  narrow _ := 1
  cos x := if x == 0 then 1 else .ofBits 0x3F0A5140
  sin x := if x == 0 then 0 else .ofBits 0x3F576AA4

/-- The least model, with a norm and turns that ask for no other values. -/
def ModelConfig.brief : ModelConfig := { least with normEps := 1, maxPositions := 2 }

/-- A layout with a layer more than a model has. -/
def Layout.beyond (c : ModelConfig) : Layout :=
  { Layout.ofModel c with numLayers := c.numLayers + 1 }

namespace Transformer

/-- A split shows in a cache with a layer more than the model. That layer gets no rows, so that the
second part is rotated as if it were the first, and leaves other keys than the whole does. -/
theorem split_shows_beside_idle_layer : ∃ weights t c log row first second c' c₁ c₂,
    ModelWeights.ofDescriptors (ModelConfig.brief.filled 0x3F800000) = .ok weights ∧
    @ofWeights .upToOne .brief weights
      { kernel := .scalar, config := { tinyWorkThreshold := 0 } } false = .ok t ∧
    Cache.Logged (.beyond .brief) {} c log ∧
    Action.exec (t.forward [⟨0, [1, 0]⟩]) c = (.ok [row], c') ∧
    Action.exec (t.forward [⟨0, [1]⟩]) c = (.ok [first], c₁) ∧ c₁.nextPosition 0 = .ok 0 ∧
    Action.exec (t.forward [⟨0, [0]⟩]) c₁ = (.ok [second], c₂) ∧ ¬ c₂.SameSlot c' 0 := by
  let m : SlotLimits := ⟨.beyond .brief, .reject, 2⟩
  let _ : Elementary := .upToOne
  obtain ⟨weights, t, l, x, y, hweights, ht, hlayers, hplace, hxy, hx, hy, hkeys⟩ :
      ∃ weights t l x y,
      ModelWeights.ofDescriptors (ModelConfig.brief.filled 0x3F800000) = .ok weights ∧
      @ofWeights .upToOne .brief weights
        { kernel := .scalar, config := { tinyWorkThreshold := 0 } } false = .ok t ∧
      t.layers = [l] ∧ l.place = 0 ∧
      t.embed [1, 0] = .ok [x, y] ∧ t.embed [1] = .ok [x] ∧ t.embed [0] = .ok [y] ∧
      (l.stored t.kernels t.rotary m [⟨0, 0, x⟩, ⟨0, 0, y⟩] (.empty 1)).keys ≠
        (l.stored t.kernels t.rotary m [⟨0, 0, x⟩, ⟨0, 1, y⟩] (.empty 1)).keys := by
    refine ⟨_, _, _, _, _, rfl, rfl, rfl, rfl, rfl, rfl, rfl, ?_⟩
    decide +kernel
  obtain ⟨c, log, hcache, hhosts, hstore, hidle, hroom⟩ : ∃ c log,
      Cache.Logged (.beyond .brief) {} c log ∧ (c.Sound → c.Hosts 0 m) ∧
      c.layer 0 0 = .ok (.empty 1) ∧ c.layer 0 1 = .ok (.empty 1) ∧ c.HasRoom 0 0 (1 + 1) :=
    ⟨_, _, .call (.call .new (.allocate 7 2)) (.reserve 0 2), fun h => ⟨h, rfl, rfl, _, rfl, rfl⟩,
      rfl, rfl, ⟨_, _, rfl, rfl, by decide, fun _ => by decide⟩⟩
  have hc := hhosts hcache.sound
  obtain ⟨hshaped, hfits, hconfig, hkernels⟩ :=
    ofWeights_ok (ModelWeights.decoded_of_descriptors hweights) (by decide) ht
  have hmatches : l.attention.Matches m.layout := hshaped.matches_layout (by rw [hconfig]; rfl)
    (by rw [hconfig]; rfl) l (hlayers ▸ List.mem_singleton_self l)
  have hfits := hfits ⟨by decide, by decide, by decide, by decide⟩
  have htiny : t.kernels.config.tinyWorkThreshold = 0 := by rw [hkernels]
  obtain ⟨row, c', hwhole, hgrew, hstored, -⟩ := forward_beside_idle htiny hshaped hfits hlayers
    hplace hmatches hxy nofun hc hstore hroom (by decide) hidle rfl
  obtain ⟨first, c₁, hfirst, hgrew₁, hstored₁, hidle₁⟩ := forward_beside_idle htiny hshaped hfits
    hlayers hplace hmatches hx nofun hc hstore (hroom.mono (Nat.le_succ 1)) (by decide) hidle rfl
  have hc₁ := hgrew₁.hosts hc
  have hroom₁ := hgrew₁.hasRoom hroom hstore hstored₁ (DecoderLayer.len_stored_le _ _)
  obtain ⟨second, c₂, hsecond, hgrew₂, hstored₂, -⟩ := forward_beside_idle htiny hshaped hfits
    hlayers hplace hmatches hy nofun hc₁ hstored₁ hroom₁ (by decide) hidle₁ rfl
  refine ⟨weights, t, c, log, row, first, second, c', c₁, c₂, hweights, ht, hcache, hwhole, hfirst,
    Cache.nextPosition_of_idle hidle₁ rfl, hsecond, fun hsame => ?_⟩
  have hread := hsame.read 0
  rw [(hgrew₂.hosts hc₁).read_eq hstored₂, (hgrew.hosts hc).read_eq hstored] at hread
  exact hkeys (congrArg CacheView.keyBuffers (Except.ok.inj hread))

end Transformer

end CausalServe
