import CausalServe.Proofs.Cache.Backing
import CausalServe.Proofs.Model.Sequence

/-! Batches that do not fail. Where the weights have their sizes and the budget backs the rows of a
batch, all its rows go through all layers, and each layer of a slot then holds those of the slot
besides what it held. -/

namespace CausalServe

/-! ## Attention over a layer of the cache -/

theorem length_softmax (xs : List Float32) : (softmax xs).length = xs.length := by
  unfold softmax
  simp only
  split <;> simp only [List.length_map]

theorem Dispatcher.attend_ok (d : Dispatcher) {q keys values out : List Float32}
    {headDim len : Nat} (hpos : 0 < headDim) (hq : q.length = headDim)
    (hkeys : keys.length = len * headDim) (hvalues : values.length = len * headDim)
    (hout : out.length = headDim) : ∃ r, d.attend q keys values headDim out = .ok r := by
  have hlen : keys.length / headDim = len := by rw [hkeys, Nat.mul_div_cancel _ hpos]
  have hscores : d.attentionScoresInto q keys headDim len =
      .ok ((pieces headDim keys).map (d.kernel.dot q)) := by
    unfold attentionScoresInto
    rw [if_neg (not_or.mpr ⟨hpos.ne', not_not.mpr hq⟩), if_neg (not_not.mpr hkeys)]
    rfl
  unfold attend
  simp only [hlen, hscores]
  rw [if_neg (not_not.mpr (hkeys.trans hvalues.symm)), if_neg (not_not.mpr hout)]
  split
  next => exact ⟨_, rfl⟩
  next =>
    have hmixed := fun scale : Float32 => d.matmulInto_eq_ok.mpr
      ⟨show (softmax (((pieces headDim keys).map (d.kernel.dot q)).map (· * scale))).length =
          1 * len by rw [length_softmax, List.length_map, List.length_map, length_pieces, hlen,
            Nat.one_mul],
        hvalues, hout.trans (Nat.one_mul _).symm, rfl⟩
    exact ⟨_, bind_eq_ok.mpr ⟨_, rfl, bind_eq_ok.mpr ⟨_, hmixed _, rfl⟩⟩⟩

/-- A head of a layer whose buffers are filled. -/
theorem SlotLimits.head_view {m : SlotLimits} {l : LayerStore}
    (hl : l.Filled m.layout.numKvHeads m.layout.headDim) {h : Nat}
    (hh : h < m.layout.numKvHeads) : ∃ keys values, (m.view l).head? h = some (keys, values) ∧
      keys.length = l.len * m.layout.headDim ∧ values.length = l.len * m.layout.headDim := by
  have hcut : ∀ {buffers : List (List Float32)}, (∀ buffer ∈ buffers, buffer ∈ l.keys ++ l.values) →
      buffers.length = m.layout.numKvHeads →
      ((m.view l).cut buffers h).length = l.len * m.layout.headDim := by
    intro buffers hmem hlen
    have hlt : h < buffers.length := hlen.symm ▸ hh
    have hbuffer := hl.buffers _ (hmem _ (List.getElem_mem hlt))
    rw [CacheView.cut, List.getD_eq_getElem?_getD, List.getElem?_eq_getElem hlt, Option.getD_some,
      List.length_take, List.length_reverse, hbuffer]
    exact Nat.min_self _
  refine ⟨_, _, if_pos ?_, hcut (fun _ => List.mem_append_left _) hl.keys,
    hcut (fun _ => List.mem_append_right _) hl.values⟩
  change h < l.keys.length
  rwa [hl.keys]

namespace Attention

/-- The heads are those that the cache is laid out for. -/
structure Matches (a : Attention) (layout : Layout) : Prop where
  numKvHeads : layout.numKvHeads = a.numKvHeads
  headDim : layout.headDim = a.headDim

variable {a : Attention} {hidden : Nat} {m : SlotLimits}

/-- Every query head finds the head of keys and values that it shares. -/
theorem kvHead_lt (ha : a.Shaped hidden) {h : Nat} (hh : h < a.numHeads) :
    h / a.groupSize < a.numKvHeads := by
  obtain ⟨group, hgroup⟩ := ha.groups
  have hpos : 0 < group := by
    refine Nat.pos_of_ne_zero fun hz => ?_
    rw [hz, Nat.mul_zero] at hgroup
    exact absurd hgroup (Nat.pos_iff_ne_zero.mp ha.heads_pos)
  have hsize : a.groupSize = group := by
    rw [groupSize, hgroup, Nat.mul_div_cancel_left _ ha.kvHeads_pos, Nat.max_eq_left hpos]
  rw [hsize, Nat.div_lt_iff_lt_mul hpos, ← hgroup]
  exact hh

theorem attendHeads_ok (ha : a.Shaped hidden) (hm : a.Matches m.layout) {l : LayerStore}
    (hl : l.Filled m.layout.numKvHeads m.layout.headDim) (d : Dispatcher) {query : List Float32}
    (hq : query.length = a.queryWidth) : ∃ out, a.attendHeads d (m.view l) query = .ok out := by
  have hheads : (pieces a.headDim query).length = a.numHeads := by
    rw [length_pieces, hq, queryWidth, Nat.mul_div_cancel _ ha.headDim_pos]
  refine ⟨_, bind_eq_ok.mpr ⟨_, (exists_mapM_eq_ok ?_).choose_spec, rfl⟩⟩
  rintro ⟨head, h⟩ hmem
  have hlt : h < a.numHeads := hheads ▸ (List.mem_zipIdx' hmem).1
  obtain ⟨keys, values, hhead, hkeys, hvalues⟩ :=
    SlotLimits.head_view hl (hm.numKvHeads.symm ▸ kvHead_lt ha hlt)
  rw [hm.headDim] at hkeys hvalues
  have hwidth : head.length = a.headDim :=
    length_of_mem_pieces (List.fst_mem_of_mem_zipIdx hmem)
  have hout : (List.replicate a.headDim (0 : Float32)).length = a.headDim := List.length_replicate
  obtain ⟨r, hr⟩ := d.attend_ok ha.headDim_pos hwidth hkeys hvalues hout
  simp only [hhead, hr]
  exact ⟨_, rfl⟩

end Attention

/-! ## Rows with room -/

theorem length_ownRows_congr {ps ps' : List PlacedRow}
    (h : ps'.map PlacedRow.outline = ps.map PlacedRow.outline) (slot : SlotId) :
    (ownRows slot ps').length = (ownRows slot ps).length := by
  have hcount : ∀ qs : List PlacedRow, (ownRows slot qs).length =
      (qs.map PlacedRow.outline).countP fun o => decide (o.1 = slot) := by
    intro qs
    rw [List.countP_map, ownRows, ← List.countP_eq_length_filter]
    rfl
  rw [hcount, hcount, h]

namespace DecoderLayer

variable {l : DecoderLayer} {ls : List DecoderLayer} {hidden : Nat} {d e : Dispatcher}
  {r : Rotary} {c : Cache} {p : PlacedRow} {ps : List PlacedRow}

/-- How many rows a batch brings to each layer of each slot. -/
def brings (ls : List DecoderLayer) (ps : List PlacedRow) (id : SlotId) (j : Nat) : Nat :=
  if j ∈ ls.map place then (ownRows id ps).length else 0

theorem brings_place (hl : l ∈ ls) (ps : List PlacedRow) (id : SlotId) :
    brings ls ps id l.place = (ownRows id ps).length :=
  if_pos (List.mem_map_of_mem hl)

theorem brings_cons_row (ls : List DecoderLayer) (p : PlacedRow) (ps : List PlacedRow) :
    brings ls (p :: ps) = fun id j => brings ls [p] id j + brings ls ps id j := by
  funext id j
  have happend := ownRows_append id [p] ps
  rw [List.singleton_append] at happend
  unfold brings
  rw [happend, List.length_append]
  split <;> rfl

def write (l : DecoderLayer) (e : Dispatcher) (r : Rotary) (p : PlacedRow) : RowWrite :=
  ⟨p.slot, l.place, l.keyOf e r p, l.valueOf e p⟩

theorem count_write (l : DecoderLayer) (e : Dispatcher) (r : Rotary) (p : PlacedRow) :
    RowWrite.count [l.write e r p] = brings [l] [p] := by
  funext id j
  rcases eq_or_ne j l.place with rfl | hplace
  · by_cases hslot : p.slot = id <;> simp [RowWrite.count, brings, write, ownRows, hslot]
  · simp [RowWrite.count, brings, write, hplace, hplace.symm]

theorem length_projected (hl : l.Shaped hidden) (hf : l.Fits) (hp : p.row.length = hidden) :
    (l.keyOf e r p).length = l.attention.kvWidth ∧
      (l.valueOf e p).length = l.attention.kvWidth ∧
      (l.queryOf e r p).length = l.attention.queryWidth := by
  have hnormed := length_normed hl hp
  have ha := hl.attention
  refine ⟨?_, ?_, ?_⟩
  · rw [keyOf, Attention.keyOf, Rotary.length_applyHeads,
      Linear.length_row hf.attention.key (hnormed.trans ha.key_in.symm), ha.key_out]
  · rw [valueOf, Linear.length_row hf.attention.value (hnormed.trans ha.value_in.symm),
      ha.value_out]
  · rw [queryOf, Attention.queryOf, Rotary.length_applyHeads,
      Linear.length_row hf.attention.query (hnormed.trans ha.query_in.symm), ha.query_out]

variable {ids : List SlotId} {target : SlotId → Nat}

/-- Where its layer has room for a row, it goes through. -/
theorem visit_ok (hl : l.Shaped hidden) (hf : l.Fits) (hm : l.attention.Matches c.layout)
    (hp : p.row.length = hidden) (hc : c.Sound) (hb : c.Backs target ids) (hid : p.slot ∈ ids)
    (hroom : c.RoomTo target p.slot l.place 1) :
    ∃ p' c', Action.exec (l.visit d e r p) c = (.ok p', c') ∧ c'.Backs target ids ∧
      c.Advanced ids (brings [l] [p]) c' := by
  obtain ⟨hkey, hvalue, hquery⟩ := length_projected (e := e) (r := r) hl hf hp
  have hwidth : c.layout.kvWidth = l.attention.kvWidth := by
    rw [Layout.kvWidth, hm.numKvHeads, hm.headDim, Attention.kvWidth]
  obtain ⟨c', happend, hb'⟩ := hb.append hc (w := l.write e r p) hid
    ⟨hkey.trans hwidth.symm, hvalue.trans hwidth.symm⟩ hroom
  have hadvanced := hc.append_advanced (w := l.write e r p) hid happend
  obtain ⟨s, store, hs, hstore, -⟩ := hroom
  obtain ⟨s', hs', hslot⟩ := hadvanced.rows.live p.slot s hs
  obtain ⟨store', hstore', -⟩ := hslot.layers l.place store hstore
  have hc' := hadvanced.grew.sound
  have hhosts : c'.Hosts p.slot ⟨c'.layout, c'.overflowPolicy, s'.capacity⟩ :=
    ⟨hc', rfl, rfl, s', hs', rfl⟩
  have hlayer : c'.layer p.slot l.place = .ok store' := by
    rw [Cache.layer_of_slot? hs', hstore']
  have hview := hhosts.read_eq hlayer
  have hfilled := (hc'.slots _ s' hs').filled store' (List.mem_of_getElem? hstore')
  obtain ⟨out, hout⟩ := Attention.attendHeads_ok hl.attention
    (m := ⟨c'.layout, c'.overflowPolicy, s'.capacity⟩) (hadvanced.grew.limits.layout ▸ hm) hfilled
    d hquery
  exact ⟨_, c', exec_visit_eq_ok.mpr ⟨happend, _, out, hview, hout, rfl⟩, hb',
    count_write l e r p ▸ hadvanced⟩

theorem visits_ok (hl : l.Shaped hidden) (hf : l.Fits) (hm : l.attention.Matches c.layout)
    (hw : ∀ p ∈ ps, p.row.length = hidden) (hc : c.Sound) (hb : c.Backs target ids)
    (hids : ∀ p ∈ ps, p.slot ∈ ids)
    (hroom : ∀ p ∈ ps, c.RoomTo target p.slot l.place (ownRows p.slot ps).length) :
    ∃ ps' c', Action.exec (ps.mapM (l.visit d e r)) c = (.ok ps', c') ∧ c'.Backs target ids ∧
      c.Advanced ids (brings [l] ps) c' := by
  induction ps generalizing c with
  | nil =>
    have hnone : brings [l] [] = fun _ _ => 0 := by
      funext id j
      exact ite_self 0
    exact ⟨[], c, rfl, hb, hnone ▸ hc.advanced_refl ids⟩
  | cons p ps ih =>
    have hlater : ∀ slot, brings [l] [p] slot l.place + (ownRows slot ps).length =
        (ownRows slot (p :: ps)).length := by
      intro slot
      have hmem : l ∈ [l] := List.mem_singleton.mpr rfl
      rw [← brings_place hmem, ← brings_place hmem, brings_cons_row [l] p ps]
    have hself : 1 ≤ (ownRows p.slot (p :: ps)).length :=
      List.length_pos_of_mem (List.mem_filter.mpr ⟨List.mem_cons_self, decide_eq_true rfl⟩)
    obtain ⟨p', c₁, hp, hb₁, hadvanced⟩ := visit_ok (d := d) (e := e) (r := r) hl hf hm
      (hw p List.mem_cons_self) hc hb (hids p List.mem_cons_self)
      ((hroom p List.mem_cons_self).mono hself)
    obtain ⟨rest, c', hrest, hb', hadvanced'⟩ := ih (hadvanced.grew.limits.layout ▸ hm)
      (fun q hq => hw q (List.mem_cons_of_mem _ hq)) hadvanced.grew.sound hb₁
      (fun q hq => hids q (List.mem_cons_of_mem _ hq))
      fun q hq => hadvanced.roomTo (by rw [hlater]; exact hroom q (List.mem_cons_of_mem _ hq))
    refine ⟨p' :: rest, c', Action.exec_mapM_cons_eq_ok.mpr ⟨p', c₁, rest, hp, hrest, rfl⟩, hb', ?_⟩
    rw [brings_cons_row]
    exact hadvanced.trans hadvanced'

/-- Where all layers have room for the rows of a batch, it goes through them. -/
theorem walk_ok (hnodup : (ls.map place).Nodup) (hls : ∀ l ∈ ls, l.Shaped hidden)
    (hf : ∀ l ∈ ls, l.Fits) (hm : ∀ l ∈ ls, l.attention.Matches c.layout)
    (hw : ∀ p ∈ ps, p.row.length = hidden) (hc : c.Sound) (hb : c.Backs target ids)
    (hids : ∀ p ∈ ps, p.slot ∈ ids)
    (hroom : ∀ p ∈ ps, ∀ l ∈ ls, c.RoomTo target p.slot l.place (ownRows p.slot ps).length) :
    ∃ ps' c', Action.exec (walk d e r ls ps) c = (.ok ps', c') ∧ c.Advanced ids (brings ls ps) c' := by
  induction ls generalizing c ps with
  | nil => exact ⟨ps, c, rfl, hc.advanced_refl ids⟩
  | cons l ls ih =>
    obtain ⟨hfresh, hnodup⟩ := List.nodup_cons.mp hnodup
    obtain ⟨mid, c₁, hmid, hb₁, hadvanced⟩ := visits_ok (d := d) (e := e) (r := r)
      (hls l List.mem_cons_self) (hf l List.mem_cons_self) (hm l List.mem_cons_self) hw hc hb hids
      fun p hp => hroom p hp l List.mem_cons_self
    have houtline := outline_visits hmid
    have hcount := length_ownRows_congr houtline
    -- the first layer leaves the room of the others as it is
    have hother : ∀ l' ∈ ls, ∀ slot, brings [l] ps slot l'.place = 0 := fun l' hl' slot =>
      if_neg fun he => place_ne hfresh l' hl' (List.mem_singleton.mp he)
    have hroom₁ : ∀ p ∈ mid, ∀ l' ∈ ls,
        c₁.RoomTo target p.slot l'.place (ownRows p.slot mid).length := by
      refine PlacedRow.forall_slot houtline
        (P := fun slot => ∀ l' ∈ ls, c₁.RoomTo target slot l'.place (ownRows slot mid).length) ?_
      intro p hp l' hl'
      refine hadvanced.roomTo ?_
      rw [hother l' hl', hcount, Nat.zero_add]
      exact hroom p hp l' (List.mem_cons_of_mem _ hl')
    obtain ⟨ps', c', hps', hadvanced'⟩ := ih hnodup (fun l hl => hls l (List.mem_cons_of_mem _ hl))
      (fun l hl => hf l (List.mem_cons_of_mem _ hl))
      (fun l hl => hadvanced.grew.limits.layout ▸ hm l (List.mem_cons_of_mem _ hl))
      (PlacedRow.forall_width houtline hw) hadvanced.grew.sound hb₁
      (PlacedRow.forall_slot houtline (P := (· ∈ ids)) hids) hroom₁
    refine ⟨ps', c', exec_walk_cons.mpr ⟨mid, c₁, hmid, hps'⟩, ?_⟩
    have hsum : brings (l :: ls) ps = fun id j => brings [l] ps id j + brings ls mid id j := by
      funext id j
      unfold brings
      rw [hcount id]
      by_cases hj : j = l.place
      · subst hj
        simp [hfresh]
      · simp [hj]
    rw [hsum]
    exact hadvanced.trans hadvanced'

end DecoderLayer

namespace Transformer

variable {t : Transformer} {c : Cache} {entries : List BatchEntry} {lanes : List Lane}
  {target : SlotId → Nat}

theorem places_nodup (ht : t.Shaped) : (t.layers.map DecoderLayer.place).Nodup := by
  change (t.layers.map fun l => l.attention.layer).Nodup
  rw [ht.layer]
  exact List.nodup_range

theorem Shaped.matches_layout (ht : t.Shaped) {layout : Layout}
    (hheads : layout.numKvHeads = t.config.numKvHeads) (hdim : layout.headDim = t.config.headDim) :
    ∀ l ∈ t.layers, l.attention.Matches layout := fun l hl => by
  obtain ⟨hheads', hdim'⟩ := ht.heads l hl
  exact ⟨hheads.trans hheads'.symm, hdim.trans hdim'.symm⟩

/-- A batch whose lanes all are backed goes through, and brings each layer of a slot the rows of its
lane. -/
theorem forward_of_backs (ht : t.Shaped) (hf : t.Fits) (hc : c.Sound)
    (hm : ∀ l ∈ t.layers, l.attention.Matches c.layout)
    (hnodup : (entries.map BatchEntry.slot).Nodup) (hlanes : entries.mapM (t.lane c) = .ok lanes)
    (hb : c.Backs target (entries.map BatchEntry.slot))
    (hroom : ∀ lane ∈ lanes, ∀ l ∈ t.layers,
      c.RoomTo target lane.slot l.place lane.rows.length) :
    ∃ rows c', Action.exec (t.forward entries) c = (.ok rows, c') ∧
      c.Advanced (entries.map BatchEntry.slot)
        (DecoderLayer.brings t.layers (lanes.flatMap Lane.placed)) c' := by
  by_cases hne : entries = []
  · subst hne
    cases hlanes
    have hnone : DecoderLayer.brings t.layers [] = fun _ _ => 0 := by
      funext id j
      exact ite_self 0
    exact ⟨[], c, rfl, hnone ▸ hc.advanced_refl _⟩
  have hw := forall_of_mapM_eq_ok hlanes fun e _ lane h => rows_of_lane ht h
  have hslots : lanes.map Lane.slot = entries.map BatchEntry.slot := slots_of_lanes hlanes
  have hlane : ∀ p ∈ lanes.flatMap Lane.placed, ∃ lane ∈ lanes, p.slot = lane.slot := by
    intro p hp
    obtain ⟨lane, hlane, hp⟩ := List.mem_flatMap.mp hp
    exact ⟨lane, hlane, lane.slot_of_mem_placed p hp⟩
  have hids : ∀ p ∈ lanes.flatMap Lane.placed, p.slot ∈ entries.map BatchEntry.slot := by
    intro p hp
    obtain ⟨lane, hlane, he⟩ := hlane p hp
    rw [he, ← hslots]
    exact List.mem_map_of_mem hlane
  have hplaced : ∀ p ∈ lanes.flatMap Lane.placed, ∀ l ∈ t.layers,
      c.RoomTo target p.slot l.place (ownRows p.slot (lanes.flatMap Lane.placed)).length := by
    intro p hp l hl
    obtain ⟨lane, hlane, he⟩ := hlane p hp
    rw [he, ownRows_placed (hslots ▸ hnodup) hlane, lane.length_placed]
    exact hroom lane hlane l hl
  obtain ⟨ps, c', hwalk, hadvanced⟩ := DecoderLayer.walk_ok (places_nodup ht) ht.layers hf.layers hm
    (forall_placed fun lane hlane => (hw lane hlane).2) hc hb hids hplaced
  exact ⟨_, c', (exec_forward_eq_ok ht hf hne hnodup).mpr ⟨lanes, ps, hlanes, hwalk, rfl⟩,
    hadvanced⟩

theorem hosts_of_nextPosition {slot : SlotId} {position : Nat} (hc : c.Sound)
    (h : c.nextPosition slot = .ok position) : ∃ m, c.Hosts slot m := by
  cases hs : c.slot? slot with
  | none =>
    rw [Cache.nextPosition, Cache.slot_of_none hs] at h
    cases h
  | some s => exact ⟨⟨c.layout, c.overflowPolicy, s.capacity⟩, hc, rfl, rfl, s, hs, rfl⟩

/-- A batch whose rows all are charged for already goes through. -/
theorem forward_of_room (ht : t.Shaped) (hf : t.Fits) (hc : c.Sound)
    (hm : ∀ l ∈ t.layers, l.attention.Matches c.layout)
    (hnodup : (entries.map BatchEntry.slot).Nodup) (hlanes : entries.mapM (t.lane c) = .ok lanes)
    (hroom : ∀ lane ∈ lanes, ∀ l ∈ t.layers, c.HasRoom lane.slot l.place lane.rows.length) :
    ∃ rows c', Action.exec (t.forward entries) c = (.ok rows, c') ∧
      c.Advanced (entries.map BatchEntry.slot)
        (DecoderLayer.brings t.layers (lanes.flatMap Lane.placed)) c' := by
  have hlive : ∀ id ∈ entries.map BatchEntry.slot, ∃ s, c.slot? id = some s := by
    intro id hid
    obtain ⟨e, he, rfl⟩ := List.mem_map.mp hid
    obtain ⟨lane, -, hlane⟩ := exists_of_mapM_eq_ok hlanes he
    obtain ⟨m, hhosts⟩ := hosts_of_nextPosition hc (lane_eq_ok.mp hlane).2.2.1
    obtain ⟨s, hs, -⟩ := hhosts.slot
    exact ⟨s, hs⟩
  exact forward_of_backs ht hf hc hm hnodup hlanes (hc.backs_charged hlive) fun lane hlane l hl =>
    (hroom lane hlane l hl).roomTo fun s hs => (Cache.charge_of_slot? hs).ge

end Transformer

end CausalServe
