import CausalServe.Proofs.Model.Batching

/-! Passes that cannot fail. A transformer that was assembled from stored tensors takes every batch
of tokens of its vocabulary through, whatever its sizes and its batch are, where the slots of the
batch have room: no width disagrees with another on the way, each sequence gets a row of logits, and
each layer of its slot a row for each token. This asks for stored tensors whose elements a word can
count, since the payload of any other is checked against a count that has wrapped. -/

namespace CausalServe

namespace Cache

/-- Bytes that the slot of an entry still is to be charged with for its tokens. -/
def growthFor (c : Cache) (e : BatchEntry) : Nat :=
  ((c.slot? e.slot).map fun s => c.growth s (s.len + e.tokens.length)).getD 0

/-- The slots of a batch are in use and have layers of one length each, the budget covers the tokens
of all of them, and a slot that refuses what exceeds its capacity has the tokens of its entry within
it. -/
structure RoomFor (c : Cache) (entries : List BatchEntry) : Prop where
  slots : ∀ e ∈ entries, ∃ s, c.slot? e.slot = some s ∧ s.Level ∧
    (c.overflowPolicy = .reject → s.len + e.tokens.length ≤ s.capacity)
  budget : c.affords (total c.growthFor entries) = true

/-- Positions that a slot is charged with when it has got its tokens of a batch. -/
def chargeAfter (c : Cache) (entries : List BatchEntry) (id : SlotId) : Nat :=
  ((c.slot? id).map fun s =>
    c.target s (s.len + (BatchEntry.tokensOf entries id).length)).getD 0

/-- A slot got a number of rows for each of its layers, and counts on by them. -/
structure Received (c : Cache) (id : SlotId) (n : Nat) (c' : Cache) : Prop where
  rows : ∃ s s', c.slot? id = some s ∧ c'.slot? id = some s' ∧ s.GrewBy (fun _ => n) s'
  position : 0 < c.layout.numLayers → ∃ p, c.nextPosition id = .ok p ∧
    c'.nextPosition id = .ok (p + n)

variable {c c' : Cache} {entries : List BatchEntry} {e : BatchEntry}

theorem chargeAfter_of_mem (hnodup : (entries.map BatchEntry.slot).Nodup) (he : e ∈ entries)
    {s : Slot} (hs : c.slot? e.slot = some s) :
    c.chargeAfter entries e.slot = c.target s (s.len + e.tokens.length) := by
  rw [chargeAfter, hs, BatchEntry.tokensOf_mem hnodup he]
  rfl

/-- The slots of a batch that there is room for can be charged together. -/
theorem RoomFor.backs (h : c.RoomFor entries) (hnodup : (entries.map BatchEntry.slot).Nodup) :
    c.Backs (c.chargeAfter entries) (entries.map BatchEntry.slot) where
  slots := by
    intro id hid
    obtain ⟨e, he, rfl⟩ := List.mem_map.mp hid
    obtain ⟨s, hs, -⟩ := h.slots e he
    rw [chargeAfter_of_mem hnodup he hs]
    exact ⟨s, hs, Nat.min_le_right _ _, target_blocks c s _⟩
  budget := by
    have hlack : ∀ e ∈ entries, c.lack (c.chargeAfter entries) e.slot = c.growthFor e := by
      intro e he
      obtain ⟨s, hs, -⟩ := h.slots e he
      rw [lack, chargeAfter_of_mem hnodup he hs, charge_of_slot? hs, growthFor, hs]
      rfl
    rw [total_map, total_congr hlack]
    exact h.budget

theorem RoomFor.roomTo (h : c.RoomFor entries) (hc : c.Sound)
    (hnodup : (entries.map BatchEntry.slot).Nodup) (he : e ∈ entries) {layer : Nat}
    (hlayer : layer < c.layout.numLayers) :
    c.RoomTo (c.chargeAfter entries) e.slot layer e.tokens.length := by
  obtain ⟨s, hs, hlevel, hrej⟩ := h.slots e he
  have hlt : layer < s.layers.length := (hc.slots _ s hs).layers.symm ▸ hlayer
  have hlen := hlevel _ (List.getElem_mem hlt)
  refine ⟨s, _, hs, List.getElem?_eq_getElem hlt, ?_, hlen.symm ▸ hrej⟩
  rw [chargeAfter_of_mem hnodup he hs, hlen]
  exact le_target hc.block_pos s _

/-- A slot whose layers got equally many rows counts on by them. -/
theorem Advanced.received {ids : List SlotId} {k : SlotId → Nat → Nat} (h : c.Advanced ids k c')
    (hc : c.Sound) {id : SlotId} {s : Slot} (hs : c.slot? id = some s) {n : Nat}
    (hk : ∀ j < c.layout.numLayers, k id j = n) : c.Received id n c' := by
  obtain ⟨s', hs', hgrew⟩ := h.rows.live id s hs
  have hlayers := (hc.slots id s hs).layers
  have hrows : s.GrewBy (fun _ => n) s' := by
    refine ⟨hgrew.capacity, hgrew.numLayers, fun j l hl => ?_⟩
    have hj : j < c.layout.numLayers := hlayers ▸ (List.getElem?_eq_some_iff.mp hl).1
    have hgot := hgrew.layers j l hl
    rwa [hk j hj] at hgot
  refine ⟨⟨s, s', hs, hs', hrows⟩, fun hpos => ?_⟩
  have hhosts : c.Hosts id ⟨c.layout, c.overflowPolicy, s.capacity⟩ := ⟨hc, rfl, rfl, s, hs, rfl⟩
  have hposition := nextPosition_of_slot? hs
  refine ⟨_, hposition, hhosts.nextPosition_add (h.grew.hosts hhosts) hpos (fun j hj => ?_)
    hposition⟩
  obtain ⟨l, hl⟩ := hhosts.layer_of_lt hj
  obtain ⟨t, ht, htl⟩ := layer_eq_ok.mp hl
  cases hs.symm.trans ht
  obtain ⟨l', hl', -, happended⟩ := hrows.layers j l htl
  exact ⟨l, l', hl, layer_eq_ok.mpr ⟨s', hs', hl'⟩, happended⟩

end Cache

namespace Transformer

variable {t : Transformer} {c c' : Cache} {entries : List BatchEntry} {lanes : List Lane}

/-- Where the embedding has a row for each token, tokens of the vocabulary have theirs. -/
theorem embed_ok (ht : t.embedding.length = t.config.vocabSize) {tokens : List Token}
    (h : ∀ token ∈ tokens, token < t.config.vocabSize) : ∃ rows, t.embed tokens = .ok rows := by
  refine exists_mapM_eq_ok fun token htoken => ?_
  have hlt := h token htoken
  rw [if_neg (Nat.not_le.mpr hlt), List.getElem?_eq_getElem (ht.symm ▸ hlt)]
  exact ⟨_, rfl⟩

/-- Tokens of the vocabulary enter on slots in use. -/
theorem lanes_ok (ht : t.embedding.length = t.config.vocabSize)
    (htokens : ∀ e ∈ entries, e.tokens ≠ [] ∧ ∀ token ∈ e.tokens, token < t.config.vocabSize)
    (hlive : ∀ e ∈ entries, ∃ s, c.slot? e.slot = some s) :
    ∃ lanes, entries.mapM (t.lane c) = .ok lanes := by
  refine exists_mapM_eq_ok fun e he => ?_
  obtain ⟨hne, hvocab⟩ := htokens e he
  obtain ⟨rows, hrows⟩ := embed_ok ht hvocab
  obtain ⟨s, hs⟩ := hlive e he
  exact ⟨⟨e.slot, s.nextPosition, rows⟩,
    lane_eq_ok.mpr ⟨hne, hrows, Cache.nextPosition_of_slot? hs, rfl⟩⟩

/-- A pass gives a row of logits for each entry. -/
theorem lengths_of_forward (ht : t.Shaped) (hf : t.Fits)
    (hnodup : (entries.map BatchEntry.slot).Nodup) {rows : List (List Float32)}
    (h : Action.exec (t.forward entries) c = (.ok rows, c')) :
    rows.length = entries.length ∧ ∀ row ∈ rows, row.length = t.config.vocabSize := by
  by_cases hne : entries = []
  · subst hne
    cases h
    exact ⟨rfl, nofun⟩
  constructor
  · obtain ⟨lanes, ps, hlanes, -, rfl⟩ := (exec_forward_eq_ok ht hf hne hnodup).mp h
    exact (List.length_map ..).trans (length_of_mapM_eq_ok hlanes)
  · obtain ⟨lanes, hidden, -, -, hconclude⟩ := (exec_forward_iff hne).mp h
    obtain ⟨normed, -, hconclude⟩ := bind_eq_ok.mp hconclude
    obtain ⟨logits, -, hconclude⟩ := bind_eq_ok.mp hconclude
    cases hconclude
    exact fun row hrow => length_of_mem_pieces hrow

theorem place_lt (ht : t.Shaped) {l : DecoderLayer} (hl : l ∈ t.layers) :
    l.place < t.config.numLayers := by
  have hmem : l.place ∈ t.layers.map fun l => l.attention.layer := List.mem_map_of_mem hl
  rw [ht.layer] at hmem
  exact List.mem_range.mp hmem

/-- A batch brings each layer of the slot of an entry as many rows as the entry has tokens. -/
theorem brings_of_mem (ht : t.Shaped) (hnodup : (entries.map BatchEntry.slot).Nodup)
    (hlanes : entries.mapM (t.lane c) = .ok lanes) {e : BatchEntry} (he : e ∈ entries) {j : Nat}
    (hj : j < t.config.numLayers) :
    DecoderLayer.brings t.layers (lanes.flatMap Lane.placed) e.slot j = e.tokens.length := by
  obtain ⟨l, hl, rfl⟩ := mem_places ht hj
  obtain ⟨lane, hmem, hlane⟩ := exists_of_mapM_eq_ok hlanes he
  obtain ⟨-, hrows, -, hslot⟩ := lane_eq_ok.mp hlane
  rw [DecoderLayer.brings_place hl, ← hslot,
    ownRows_placed ((slots_of_lanes hlanes).symm ▸ hnodup) hmem, lane.length_placed]
  exact length_of_mapM_eq_ok hrows

/-- Every batch of tokens of the vocabulary on slots with room goes through a transformer that was
assembled for the configuration of the cache, whatever its projections are stored as. Each entry gets
one row with a logit for each token, each layer of its slot a row for each of its tokens, and no other
slot changes. -/
theorem batch_goes_through {ds : List TensorDescriptor} {weights : ModelWeights}
    {config : ModelConfig} {kernels : Dispatcher} {dequantize : Bool} {cacheConfig : CacheConfig}
    {log : Cache.Log} (hweights : ModelWeights.ofDescriptors ds = .ok weights)
    (hwords : ∀ d ∈ ds, d.shape.prod < wordSize)
    (ht : ofWeights config weights kernels dequantize = .ok t)
    (hinner : 1 ≤ config.intermediateSize)
    (hcache : Cache.Logged (.ofModel config) cacheConfig c log)
    (hslots : (entries.map BatchEntry.slot).Nodup)
    (htokens : ∀ e ∈ entries, e.tokens ≠ [] ∧ ∀ token ∈ e.tokens, token < config.vocabSize)
    (hroom : c.RoomFor entries) :
    ∃ rows c', Action.exec (t.forward entries) c = (.ok rows, c') ∧
      rows.length = entries.length ∧ (∀ row ∈ rows, row.length = config.vocabSize) ∧
      (∀ e ∈ entries, c.Received e.slot e.tokens.length c') ∧
      ∀ id, id ∉ entries.map BatchEntry.slot → c'.slot? id = c.slot? id := by
  obtain ⟨hbuilt, hfits, hembedding⟩ :=
    ofWeights_fits (ModelWeights.decoded_of_descriptors hweights) hwords hinner ht
  have hshaped := hbuilt.shaped
  obtain rfl := hbuilt.config
  have hc := hcache.sound
  have hnum : c.layout.numLayers = t.config.numLayers := congrArg Layout.numLayers hcache.layout_eq
  have hmatches : ∀ l ∈ t.layers, l.attention.Matches c.layout := hshaped.matches_layout
    (congrArg Layout.numKvHeads hcache.layout_eq) (congrArg Layout.headDim hcache.layout_eq)
  obtain ⟨lanes, hlanes⟩ := lanes_ok hembedding htokens fun e he => by
    obtain ⟨s, hs, -⟩ := hroom.slots e he
    exact ⟨s, hs⟩
  have hrooms : ∀ lane ∈ lanes, ∀ l ∈ t.layers,
      c.RoomTo (c.chargeAfter entries) lane.slot l.place lane.rows.length := by
    refine forall_of_mapM_eq_ok hlanes fun e he lane hlane l hl => ?_
    obtain ⟨-, hrows, -, hslot⟩ := lane_eq_ok.mp hlane
    rw [hslot, length_of_mapM_eq_ok hrows]
    exact hroom.roomTo hc hslots he (hnum.symm ▸ place_lt hshaped hl)
  obtain ⟨rows, c', hforward, hadvanced⟩ := forward_of_backs hshaped hfits hc hmatches hslots hlanes
    (hroom.backs hslots) hrooms
  obtain ⟨hlength, hwidth⟩ := lengths_of_forward hshaped hfits hslots hforward
  refine ⟨rows, c', hforward, hlength, hwidth, fun e he => ?_, hadvanced.others⟩
  obtain ⟨s, hs, -⟩ := hroom.slots e he
  exact hadvanced.received hc hs fun j hj => brings_of_mem hshaped hslots hlanes he (hnum ▸ hj)

/-- Two entries on fresh slots go through on a budget that both of them together use up. -/
theorem two_entries_go_through : ∃ weights t c log rows c',
    ModelWeights.ofDescriptors ModelConfig.least.zeros = .ok weights ∧
    (∀ d ∈ ModelConfig.least.zeros, d.shape.prod < wordSize) ∧
    ofWeights .least weights { kernel := .scalar, config := {} } false = .ok t ∧
    Cache.Logged (.ofModel .least) { blockSize := 2, memoryBudget := some 64 } c log ∧
    c.RoomFor [⟨0, [1, 0]⟩, ⟨1, [1]⟩] ∧
    Action.exec (t.forward [⟨0, [1, 0]⟩, ⟨1, [1]⟩]) c = (.ok rows, c') ∧
    rows.length = 2 ∧ (∀ row ∈ rows, row.length = 2) ∧
    c.Received 0 2 c' ∧ c.Received 1 1 c' := by
  have hwords : ∀ d ∈ ModelConfig.least.zeros, d.shape.prod < wordSize := by decide
  obtain ⟨weights, t, hweights, ht⟩ : ∃ weights t,
      ModelWeights.ofDescriptors ModelConfig.least.zeros = .ok weights ∧
      ofWeights .least weights { kernel := .scalar, config := {} } false = .ok t :=
    ⟨_, _, rfl, rfl⟩
  obtain ⟨c, log, hcache, hroom⟩ : ∃ c log,
      Cache.Logged (.ofModel .least) { blockSize := 2, memoryBudget := some 64 } c log ∧
      c.RoomFor [⟨0, [1, 0]⟩, ⟨1, [1]⟩] := by
    refine ⟨_, _, .call (.call .new (.allocate 7 2)) (.allocate 8 4), ?_, rfl⟩
    intro e he
    rcases List.mem_pair.mp he with rfl | rfl
    · exact ⟨_, rfl, fun l hl => List.mem_singleton.mp hl ▸ rfl, fun _ => by decide⟩
    · exact ⟨_, rfl, fun l hl => List.mem_singleton.mp hl ▸ rfl, fun _ => by decide⟩
  obtain ⟨rows, c', hforward, hlength, hwidth, hreceived, -⟩ := batch_goes_through hweights hwords
    ht (by decide) hcache (by decide) (by decide) hroom
  exact ⟨weights, t, c, log, rows, c', hweights, hwords, ht, hcache, hroom, hforward, hlength,
    hwidth, hreceived _ List.mem_cons_self,
    hreceived _ (List.mem_cons_of_mem _ List.mem_cons_self)⟩

end Transformer

/-- A vocabulary whose embedding has as many elements as there are words. -/
def ModelConfig.vast : ModelConfig :=
  { vocabSize := 0x800000000000000, hiddenSize := 32, intermediateSize := 1, numLayers := 0
    numHeads := 1, numKvHeads := 1 }

/-- An embedding and a head that are stored without any elements. -/
def ModelConfig.hollow (c : ModelConfig) : List TensorDescriptor :=
  [ { name := "embed_tokens", shape := [c.vocabSize, c.hiddenSize], elementType := .f32
      data := [] },
    .ofFloats "norm" [c.hiddenSize] (List.replicate c.hiddenSize 0),
    { name := "lm_head", shape := [c.vocabSize, c.hiddenSize], elementType := .quantized .q8
      data := [] } ]

namespace Transformer

set_option maxRecDepth 4000 in
/-- A count of elements that wraps to zero lets a model without an embedding pass all checks, and its
first token then finds no row. -/
theorem hollow_model_fails : ∃ weights t c log,
    ModelWeights.ofDescriptors ModelConfig.vast.hollow = .ok weights ∧
    ofWeights .vast weights { kernel := .scalar, config := {} } false = .ok t ∧
    1 ≤ ModelConfig.vast.intermediateSize ∧ Cache.Logged (.ofModel .vast) {} c log ∧
    0 < ModelConfig.vast.vocabSize ∧ c.RoomFor [⟨0, [0]⟩] ∧
    Action.exec (t.forward [⟨0, [0]⟩]) c =
      (.error (.contract "an embedding without a row for each token"), c) := by
  refine ⟨_, _, _, _, rfl, rfl, by decide, .call .new (.allocate 7 4), by decide, ⟨?_, rfl⟩, rfl⟩
  intro e he
  cases List.mem_singleton.mp he
  exact ⟨_, rfl, fun l hl => absurd hl List.not_mem_nil, fun _ => by decide⟩

end Transformer

end CausalServe
