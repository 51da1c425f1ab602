import CausalServe.Model.Transformer
import CausalServe.Proofs.Model.Visits

/-! A whole pass of a transformer. Each entry enters with its embedded tokens as rows that follow
what its slot holds; the layers visit the rows of all entries; and the logits of an entry are those
of the last row of its slot. -/

namespace CausalServe

/-! ## Through the layers -/

namespace PlacedRow

/-- All of a placed row but its entries. -/
def outline (p : PlacedRow) : SlotId × Nat × Nat := (p.slot, p.position, p.row.length)

theorem forall_outline {ps ps' : List PlacedRow} (h : ps'.map outline = ps.map outline)
    {P : SlotId × Nat × Nat → Prop} (hP : ∀ p ∈ ps, P p.outline) : ∀ p ∈ ps', P p.outline := by
  intro p hp
  have hmem : p.outline ∈ ps.map outline := h ▸ List.mem_map_of_mem hp
  obtain ⟨q, hq, he⟩ := List.mem_map.mp hmem
  exact he ▸ hP q hq

theorem forall_width {ps ps' : List PlacedRow} (h : ps'.map outline = ps.map outline) {width : Nat}
    (hw : ∀ p ∈ ps, p.row.length = width) : ∀ p ∈ ps', p.row.length = width :=
  forall_outline h (P := fun o => o.2.2 = width) hw

theorem forall_slot {ps ps' : List PlacedRow} (h : ps'.map outline = ps.map outline)
    {P : SlotId → Prop} (hP : ∀ p ∈ ps, P p.slot) : ∀ p ∈ ps', P p.slot :=
  forall_outline h (P := fun o => P o.1) hP

end PlacedRow

open PlacedRow (outline)

theorem placesFrom_congr {ps ps' : List PlacedRow} (h : ps'.map outline = ps.map outline)
    (n : Nat) : placesFrom n ps' = placesFrom n ps := by
  induction ps generalizing ps' n with
  | nil =>
    obtain rfl := List.map_eq_nil_iff.mp h
    rfl
  | cons p ps ih =>
    cases ps' with
    | nil => cases h
    | cons p' ps' =>
      obtain ⟨hhead, htail⟩ := List.cons.inj h
      have hslot : p'.slot = p.slot := congrArg (fun o => o.1) hhead
      have hposition : p'.position = p.position := congrArg (fun o => o.2.1) hhead
      change ⟨p'.slot, n, p'.position⟩ :: placesFrom (n + 1) ps' =
        ⟨p.slot, n, p.position⟩ :: placesFrom (n + 1) ps
      rw [hslot, hposition, ih htail]

theorem BatchContext.Lists.congr {ctx : BatchContext} {ps ps' : List PlacedRow}
    (h : ctx.Lists ps) (he : ps'.map outline = ps.map outline) : ctx.Lists ps' where
  places := h.places.trans (placesFrom_congr he 0).symm
  rows := by
    have hlen := congrArg List.length he
    rw [List.length_map, List.length_map] at hlen
    rw [h.rows, hlen]

namespace DecoderLayer

variable {d e : Dispatcher} {r : Rotary} {c c' : Cache}

/-- Takes rows through layers, the rows of a batch one after another in each layer. -/
def walk (d e : Dispatcher) (r : Rotary) (layers : List DecoderLayer) (ps : List PlacedRow) :
    Action Cache (List PlacedRow) :=
  layers.foldlM (fun ps l => ps.mapM (l.visit d e r)) ps

theorem outline_visit {l : DecoderLayer} {p p' : PlacedRow}
    (h : Action.exec (l.visit d e r p) c = (.ok p', c')) : p'.outline = p.outline := by
  obtain ⟨out, -, rfl⟩ := Action.exec_map_eq_ok.mp h
  rw [outline, length_finish]
  rfl

theorem outline_visits {l : DecoderLayer} {ps ps' : List PlacedRow}
    (h : Action.exec (ps.mapM (l.visit d e r)) c = (.ok ps', c')) :
    ps'.map outline = ps.map outline := by
  induction ps generalizing c ps' with
  | nil => cases h; rfl
  | cons p ps ih =>
    obtain ⟨p', _, rest, hp, hrest, rfl⟩ := Action.exec_mapM_cons_eq_ok.mp h
    rw [List.map_cons, List.map_cons, outline_visit hp, ih hrest]

theorem exec_walk_cons {l : DecoderLayer} {ls : List DecoderLayer} {ps ps' : List PlacedRow} :
    Action.exec (walk d e r (l :: ls) ps) c = (.ok ps', c') ↔
      ∃ mid c₁, Action.exec (ps.mapM (l.visit d e r)) c = (.ok mid, c₁) ∧
        Action.exec (walk d e r ls mid) c₁ = (.ok ps', c') :=
  Action.exec_bind_eq_ok

theorem outline_walk {ls : List DecoderLayer} {ps ps' : List PlacedRow}
    (h : Action.exec (walk d e r ls ps) c = (.ok ps', c')) : ps'.map outline = ps.map outline := by
  induction ls generalizing c ps with
  | nil => cases h; rfl
  | cons l ls ih =>
    obtain ⟨mid, c₁, hl, hrest⟩ := exec_walk_cons.mp h
    exact (ih hrest).trans (outline_visits hl)

variable {ctx : BatchContext} {hidden : Nat} {ls : List DecoderLayer} {ps : List PlacedRow}
  {y : List Float32}

/-- Where the weights fit, a batch goes through the layers row by row. -/
theorem exec_layers_eq_ok (hls : ∀ l ∈ ls, l.Shaped hidden) (hf : ∀ l ∈ ls, l.Fits)
    (hw : ∀ p ∈ ps, p.row.length = hidden) (hctx : ctx.Lists ps) :
    Action.exec (ls.foldlM (fun hidden l => l.forward ctx hidden)
        (ps.map PlacedRow.row).flatten) c = (.ok y, c') ↔
      ∃ ps', Action.exec (walk ctx.kernels ctx.rowKernels ctx.rotary ls ps) c = (.ok ps', c') ∧
        y = (ps'.map PlacedRow.row).flatten := by
  induction ls generalizing c ps with
  | nil =>
    constructor
    · intro h
      cases h
      exact ⟨ps, rfl, rfl⟩
    · rintro ⟨ps', h, rfl⟩
      cases h
      rfl
  | cons l ls ih =>
    have hl := hls l List.mem_cons_self
    have hfl := hf l List.mem_cons_self
    -- what comes out of the first layer goes on as a batch of the same outline
    have hrest : ∀ {mid c₁},
        Action.exec (ps.mapM (l.visit ctx.kernels ctx.rowKernels ctx.rotary)) c = (.ok mid, c₁) →
        (Action.exec (ls.foldlM (fun hidden l => l.forward ctx hidden)
            (mid.map PlacedRow.row).flatten) c₁ = (.ok y, c') ↔
          ∃ ps', Action.exec (walk ctx.kernels ctx.rowKernels ctx.rotary ls mid) c₁ =
            (.ok ps', c') ∧ y = (ps'.map PlacedRow.row).flatten) :=
      fun hmid => ih (fun l hl => hls l (List.mem_cons_of_mem _ hl))
        (fun l hl => hf l (List.mem_cons_of_mem _ hl))
        (PlacedRow.forall_width (outline_visits hmid) hw) (hctx.congr (outline_visits hmid))
    rw [List.foldlM_cons, Action.exec_bind_eq_ok]
    constructor
    · rintro ⟨_, c₁, hforward, h⟩
      obtain ⟨mid, hmid, rfl⟩ := (exec_forward_eq_ok hl hfl hw hctx).mp hforward
      obtain ⟨ps', hps', rfl⟩ := (hrest hmid).mp h
      exact ⟨ps', exec_walk_cons.mpr ⟨mid, c₁, hmid, hps'⟩, rfl⟩
    · rintro ⟨ps', h, rfl⟩
      obtain ⟨mid, c₁, hmid, hps'⟩ := exec_walk_cons.mp h
      exact ⟨_, c₁, (exec_forward_eq_ok hl hfl hw hctx).mpr ⟨mid, hmid, rfl⟩,
        (hrest hmid).mpr ⟨ps', hps', rfl⟩⟩

/-- A batch with a row only goes through layers whose weights fit. -/
theorem fits_of_layers (hls : ∀ l ∈ ls, l.Shaped hidden) (hw : ∀ p ∈ ps, p.row.length = hidden)
    (hctx : ctx.Lists ps) (hne : ps ≠ [])
    (h : Action.exec (ls.foldlM (fun hidden l => l.forward ctx hidden)
      (ps.map PlacedRow.row).flatten) c = (.ok y, c')) : ∀ l ∈ ls, l.Fits := by
  induction ls generalizing c ps with
  | nil => exact fun l hl => absurd hl List.not_mem_nil
  | cons l ls ih =>
    obtain ⟨_, c₁, hl, h⟩ := Action.exec_bind_eq_ok.mp h
    have hrows : ctx.rows ≠ 0 := by
      rw [hctx.rows]
      exact fun hz => hne (List.length_eq_zero_iff.mp hz)
    have hfits := fits_of_forward hrows hl
    obtain ⟨mid, hmid, rfl⟩ :=
      (exec_forward_eq_ok (hls l List.mem_cons_self) hfits hw hctx).mp hl
    have houtline := outline_visits hmid
    have hmidne : mid ≠ [] := by
      rintro rfl
      exact hne (List.map_eq_nil_iff.mp houtline.symm)
    intro l' hl'
    rcases List.mem_cons.mp hl' with rfl | hl'
    · exact hfits
    · exact ih (fun l hl => hls l (List.mem_cons_of_mem _ hl))
        (PlacedRow.forall_width houtline hw) (hctx.congr houtline) hmidne h l' hl'

end DecoderLayer

/-! ## Entering -/

structure Lane where
  slot : SlotId
  /-- The position of the first row. -/
  start : Nat
  rows : List (List Float32)

/-- Rows of one sequence at positions that follow one another. -/
def rowsFrom (slot : SlotId) : Nat → List (List Float32) → List PlacedRow
  | _, [] => []
  | position, x :: xs => ⟨slot, position, x⟩ :: rowsFrom slot (position + 1) xs

theorem rowsFrom_append (slot : SlotId) (position : Nat) (xs ys : List (List Float32)) :
    rowsFrom slot position (xs ++ ys) =
      rowsFrom slot position xs ++ rowsFrom slot (position + xs.length) ys := by
  induction xs generalizing position with
  | nil => rfl
  | cons x xs ih =>
    rw [List.cons_append, rowsFrom, rowsFrom, ih, List.length_cons, List.cons_append]
    congr 3
    omega

theorem map_row_rowsFrom (slot : SlotId) (position : Nat) (xs : List (List Float32)) :
    (rowsFrom slot position xs).map PlacedRow.row = xs := by
  induction xs generalizing position with
  | nil => rfl
  | cons x xs ih => rw [rowsFrom, List.map_cons, ih]

theorem length_rowsFrom (slot : SlotId) (position : Nat) (xs : List (List Float32)) :
    (rowsFrom slot position xs).length = xs.length := by
  rw [← List.length_map PlacedRow.row, map_row_rowsFrom]

theorem slot_of_mem_rowsFrom {slot : SlotId} {position : Nat} {xs : List (List Float32)} :
    ∀ p ∈ rowsFrom slot position xs, p.slot = slot := by
  induction xs generalizing position with
  | nil => exact fun p hp => absurd hp List.not_mem_nil
  | cons x xs ih =>
    intro p hp
    rcases List.mem_cons.mp hp with rfl | hp
    · rfl
    · exact ih p hp

namespace Lane

def placed (lane : Lane) : List PlacedRow := rowsFrom lane.slot lane.start lane.rows

theorem length_placed (lane : Lane) : lane.placed.length = lane.rows.length :=
  length_rowsFrom ..

theorem slot_of_mem_placed (lane : Lane) : ∀ p ∈ lane.placed, p.slot = lane.slot :=
  slot_of_mem_rowsFrom

end Lane

/-- The spans of lanes that stand in a batch one after another, the first one from row `n`. -/
def spansFrom : Nat → List Lane → List RowSpan
  | _, [] => []
  | n, lane :: rest =>
    ⟨lane.slot, n, lane.rows.length, lane.start⟩ :: spansFrom (n + lane.rows.length) rest

theorem length_spansFrom (n : Nat) (lanes : List Lane) :
    (spansFrom n lanes).length = lanes.length := by
  induction lanes generalizing n with
  | nil => rfl
  | cons lane rest ih => rw [spansFrom, List.length_cons, List.length_cons, ih]

theorem placesFrom_append (n : Nat) (ps qs : List PlacedRow) :
    placesFrom n (ps ++ qs) = placesFrom n ps ++ placesFrom (n + ps.length) qs := by
  rw [placesFrom, List.zipIdx_append, List.map_append]
  rfl

theorem places_rowsFrom (slot : SlotId) (n position : Nat) (xs : List (List Float32)) :
    RowSpan.places ⟨slot, n, xs.length, position⟩ = placesFrom n (rowsFrom slot position xs) := by
  induction xs generalizing n position with
  | nil => rfl
  | cons x xs ih =>
    have hrest := ih (n + 1) (position + 1)
    unfold RowSpan.places at hrest ⊢
    rw [List.length_cons, List.range_succ_eq_map, List.map_cons, List.map_map]
    change _ = (⟨slot, n, position⟩ : RowPlace) ::
      placesFrom (n + 1) (rowsFrom slot (position + 1) xs)
    rw [← hrest]
    congr 1
    refine List.map_congr_left fun t _ => ?_
    simp only [Function.comp_apply, RowPlace.mk.injEq, true_and]
    omega

theorem places_spansFrom (n : Nat) (lanes : List Lane) :
    (spansFrom n lanes).flatMap RowSpan.places = placesFrom n (lanes.flatMap Lane.placed) := by
  induction lanes generalizing n with
  | nil => rfl
  | cons lane rest ih =>
    rw [spansFrom, List.flatMap_cons, List.flatMap_cons, placesFrom_append, places_rowsFrom, ih,
      lane.length_placed]
    rfl

def ownRows (slot : SlotId) (ps : List PlacedRow) : List PlacedRow :=
  ps.filter fun p => p.slot = slot

theorem ownRows_eq_self {slot : SlotId} {ps : List PlacedRow} (h : ∀ p ∈ ps, p.slot = slot) :
    ownRows slot ps = ps :=
  List.filter_eq_self.mpr fun p hp => decide_eq_true (h p hp)

theorem ownRows_eq_nil {slot : SlotId} {ps : List PlacedRow} (h : ∀ p ∈ ps, p.slot ≠ slot) :
    ownRows slot ps = [] :=
  List.filter_eq_nil_iff.mpr fun p hp => by simpa using h p hp

theorem ownRows_append (slot : SlotId) (ps qs : List PlacedRow) :
    ownRows slot (ps ++ qs) = ownRows slot ps ++ ownRows slot qs :=
  List.filter_append ..

/-- In a batch of lanes with a slot each, the rows of a slot are those of its lane. -/
theorem ownRows_placed {lanes : List Lane} (hnodup : (lanes.map Lane.slot).Nodup) {lane : Lane}
    (h : lane ∈ lanes) : ownRows lane.slot (lanes.flatMap Lane.placed) = lane.placed := by
  induction lanes with
  | nil => exact absurd h List.not_mem_nil
  | cons first rest ih =>
    obtain ⟨hfresh, hrest⟩ := List.nodup_cons.mp hnodup
    rw [List.flatMap_cons, ownRows_append]
    rcases List.mem_cons.mp h with rfl | h
    · have hothers : ownRows lane.slot (rest.flatMap Lane.placed) = [] := by
        refine ownRows_eq_nil fun p hp he => hfresh ?_
        obtain ⟨other, hother, hp⟩ := List.mem_flatMap.mp hp
        exact he ▸ other.slot_of_mem_placed p hp ▸ List.mem_map_of_mem hother
      rw [ownRows_eq_self lane.slot_of_mem_placed, hothers, List.append_nil]
    · have hfirst : ownRows lane.slot first.placed = [] := by
        refine ownRows_eq_nil fun p hp he => hfresh ?_
        exact first.slot_of_mem_placed p hp ▸ he ▸ List.mem_map_of_mem h
      rw [hfirst, List.nil_append, ih hrest h]

def lastOf (slot : SlotId) (ps : List PlacedRow) : List Float32 :=
  ((ownRows slot ps).getLast?.map PlacedRow.row).getD []

/-- The rows that go to the head are the last ones of the slots. -/
theorem lastRows_spansFrom {lanes : List Lane} (hnodup : (lanes.map Lane.slot).Nodup)
    (hne : ∀ lane ∈ lanes, lane.rows ≠ []) {ps : List PlacedRow}
    (h : ps.map outline = (lanes.flatMap Lane.placed).map outline) (before : List (List Float32)) :
    Transformer.lastRows (before ++ ps.map PlacedRow.row) (spansFrom before.length lanes) =
      (lanes.map fun lane => lastOf lane.slot ps).flatten := by
  induction lanes generalizing ps before with
  | nil => rfl
  | cons lane rest ih =>
    rw [List.flatMap_cons, List.map_append] at h
    obtain ⟨seg, tail, rfl, hseg, htail⟩ := List.map_eq_append_iff.mp h
    obtain ⟨hfresh, hrest⟩ := List.nodup_cons.mp hnodup
    have hown : ∀ p ∈ seg, p.slot = lane.slot :=
      PlacedRow.forall_slot hseg (P := (· = lane.slot)) slot_of_mem_rowsFrom
    have hother : ∀ p ∈ tail, p.slot ∈ rest.map Lane.slot := by
      refine PlacedRow.forall_slot htail (P := (· ∈ rest.map Lane.slot)) fun p hp => ?_
      obtain ⟨other, hmem, hp⟩ := List.mem_flatMap.mp hp
      exact slot_of_mem_rowsFrom p hp ▸ List.mem_map_of_mem hmem
    have hnot : ∀ p ∈ tail, p.slot ≠ lane.slot := fun p hp he => hfresh (he ▸ hother p hp)
    have hlen : (seg.map PlacedRow.row).length = lane.rows.length := by
      have h := congrArg List.length hseg
      rwa [List.length_map, List.length_map, lane.length_placed, ← List.length_map] at h
    have hpos := List.length_pos_iff.mpr (hne lane List.mem_cons_self)
    have hfirst : (before ++ (seg ++ tail).map PlacedRow.row).getD
        (before.length + lane.rows.length - 1) [] = lastOf lane.slot (seg ++ tail) := by
      rw [lastOf, ownRows_append, ownRows_eq_self hown, ownRows_eq_nil hnot, List.append_nil,
        ← List.getLast?_map, List.getLast?_eq_getElem?, hlen, List.getD_eq_getElem?_getD,
        List.map_append, List.getElem?_append_right (by omega), List.getElem?_append_left (by omega)]
      congr 2
      omega
    have hothers : (rest.map fun other => lastOf other.slot (seg ++ tail)) =
        rest.map fun other => lastOf other.slot tail := by
      refine List.map_congr_left fun other hmem => ?_
      have hne : other.slot ≠ lane.slot := fun he => hfresh (he ▸ List.mem_map_of_mem hmem)
      rw [lastOf, ownRows_append, ownRows_eq_nil fun p hp => hown p hp ▸ hne.symm]
      rfl
    have hih := ih hrest (fun other ho => hne other (List.mem_cons_of_mem _ ho)) htail
      (before ++ seg.map PlacedRow.row)
    rw [List.length_append, hlen, List.append_assoc, ← List.map_append] at hih
    rw [List.map_cons, List.flatten_cons, hothers, ← hih, ← hfirst]
    rfl

namespace Transformer

/-- The rows with which an entry enters the layers. -/
def lane (t : Transformer) (cache : Cache) (e : BatchEntry) : Except Error Lane := do
  if e.tokens = [] then throw (.invalidRequest (.emptyEntry e.slot))
  let rows ← t.embed e.tokens
  return ⟨e.slot, ← cache.nextPosition e.slot, rows⟩

theorem lane_eq_ok {t : Transformer} {cache : Cache} {e : BatchEntry} {lane : Lane} :
    t.lane cache e = .ok lane ↔ e.tokens ≠ [] ∧ t.embed e.tokens = .ok lane.rows ∧
      cache.nextPosition e.slot = .ok lane.start ∧ lane.slot = e.slot := by
  unfold Transformer.lane
  by_cases h : e.tokens = []
  · rw [if_pos h]
    exact ⟨nofun, fun ⟨hne, _⟩ => absurd h hne⟩
  · rw [if_neg h, bind_eq_ok]
    constructor
    · rintro ⟨rows, hrows, hlane⟩
      obtain ⟨start, hstart, hlane⟩ := bind_eq_ok.mp hlane
      cases hlane
      exact ⟨h, hrows, hstart, rfl⟩
    · rintro ⟨-, hrows, hstart, hslot⟩
      refine ⟨_, hrows, bind_eq_ok.mpr ⟨_, hstart, ?_⟩⟩
      rw [← hslot]
      rfl

theorem prepare_eq_ok {t : Transformer} {cache : Cache} {n : Nat} {entries : List BatchEntry}
    {spans : List RowSpan} {rows : List (List Float32)} :
    t.prepare cache n entries = .ok (spans, rows) ↔
      ∃ lanes, entries.mapM (t.lane cache) = .ok lanes ∧ spans = spansFrom n lanes ∧
        rows = lanes.flatMap Lane.rows := by
  induction entries generalizing n spans rows with
  | nil =>
    constructor
    · intro h
      cases h
      exact ⟨[], rfl, rfl, rfl⟩
    · rintro ⟨lanes, h, rfl, rfl⟩
      cases h
      rfl
  | cons e rest ih =>
    rw [prepare]
    constructor
    · intro h
      split at h
      next => cases h
      next hne =>
        obtain ⟨embedded, hembedded, h⟩ := bind_eq_ok.mp h
        obtain ⟨start, hstart, h⟩ := bind_eq_ok.mp h
        obtain ⟨⟨spans, rows⟩, hrest, h⟩ := bind_eq_ok.mp h
        cases h
        have hlen : embedded.length = e.tokens.length := length_of_mapM_eq_ok hembedded
        rw [← hlen] at hrest ⊢
        obtain ⟨lanes, hlanes, rfl, rfl⟩ := ih.mp hrest
        have hlane : t.lane cache e = .ok ⟨e.slot, start, embedded⟩ :=
          lane_eq_ok.mpr ⟨hne, hembedded, hstart, rfl⟩
        exact ⟨_, mapM_cons_eq_ok.mpr ⟨_, lanes, hlane, hlanes, rfl⟩, rfl, rfl⟩
    · rintro ⟨_, h, rfl, rfl⟩
      obtain ⟨lane, lanes, hlane, hlanes, rfl⟩ := mapM_cons_eq_ok.mp h
      obtain ⟨hne, hembedded, hstart, hslot⟩ := lane_eq_ok.mp hlane
      have hlen : lane.rows.length = e.tokens.length := length_of_mapM_eq_ok hembedded
      rw [if_neg hne]
      refine bind_eq_ok.mpr ⟨_, hembedded, bind_eq_ok.mpr ⟨_, hstart, bind_eq_ok.mpr
        ⟨(spansFrom (n + lane.rows.length) lanes, lanes.flatMap Lane.rows), ?_, ?_⟩⟩⟩
      · rw [← hlen]
        exact ih.mpr ⟨lanes, hlanes, rfl, rfl⟩
      · rw [← hlen, ← hslot]
        rfl

/-! ## A whole pass -/

/-- The parts of a transformer have the widths that its configuration asks for, and the layers count
those of the cache. -/
structure Shaped (t : Transformer) : Prop where
  vocab_pos : 0 < t.config.vocabSize
  hidden_pos : 0 < t.config.hiddenSize
  embedding : ∀ row ∈ t.embedding, row.length = t.config.hiddenSize
  layers : ∀ l ∈ t.layers, l.Shaped t.config.hiddenSize
  heads : ∀ l ∈ t.layers, l.attention.numKvHeads = t.config.numKvHeads ∧
    l.attention.headDim = t.config.headDim
  layer : t.layers.map (fun l => l.attention.layer) = List.range t.config.numLayers
  norm : t.norm.weight.length = t.config.hiddenSize
  head_in : t.head.inFeatures = t.config.hiddenSize
  head_out : t.head.outFeatures = t.config.vocabSize

structure Fits (t : Transformer) : Prop where
  layers : ∀ l ∈ t.layers, l.Fits
  head : t.head.Fits

/-- The logits that follow a last row, where `e` projects it. -/
def logits (t : Transformer) (e : Dispatcher) (x : List Float32) : List Float32 :=
  t.head.row e (t.norm.row x)

def context (t : Transformer) (lanes : List Lane) : BatchContext :=
  { kernels := t.kernels, rotary := t.rotary, spans := spansFrom 0 lanes
    rows := (lanes.flatMap Lane.rows).length }

def conclude (t : Transformer) (lanes : List Lane) (hidden : List Float32) :
    Except Error (List (List Float32)) := do
  let normed ← t.norm.forward
    (lastRows (pieces t.config.hiddenSize hidden) (spansFrom 0 lanes))
  return pieces t.config.vocabSize (← t.head.forward t.kernels normed lanes.length)

variable {t : Transformer} {c c' : Cache} {entries : List BatchEntry}
  {rows : List (List Float32)} {lanes : List Lane}

theorem map_row_placed (lanes : List Lane) :
    (lanes.flatMap Lane.placed).map PlacedRow.row = lanes.flatMap Lane.rows := by
  rw [List.map_flatMap]
  congr 1
  funext lane
  exact map_row_rowsFrom _ _ _

theorem context_lists (t : Transformer) (lanes : List Lane) :
    (t.context lanes).Lists (lanes.flatMap Lane.placed) where
  places := places_spansFrom 0 lanes
  rows := by rw [context, ← map_row_placed, List.length_map]

/-- A pass prepares its lanes, goes through the layers, and concludes. -/
theorem exec_forward_iff (hne : entries ≠ []) :
    Action.exec (t.forward entries) c = (.ok rows, c') ↔ ∃ lanes hidden,
      entries.mapM (t.lane c) = .ok lanes ∧
      Action.exec (t.layers.foldlM (fun hidden l => l.forward (t.context lanes) hidden)
        (lanes.flatMap Lane.rows).flatten) c = (.ok hidden, c') ∧
      t.conclude lanes hidden = .ok rows := by
  have hprepared : ∀ lanes,
      t.prepare c 0 entries = .ok (spansFrom 0 lanes, lanes.flatMap Lane.rows) →
      Action.exec (t.forward entries) c = Action.exec (t.layers.foldlM (fun hidden l =>
        l.forward (t.context lanes) hidden) (lanes.flatMap Lane.rows).flatten >>= fun hidden =>
          Action.ofExcept (t.conclude lanes hidden)) c := by
    intro lanes h
    unfold forward conclude
    simp only [Action.ofExcept_bind]
    rw [if_neg hne, Action.exec_bind_ok (Action.exec_get _), h,
      Action.exec_bind_ok (Action.exec_ofExcept _ _), length_spansFrom]
    rfl
  constructor
  · intro h
    cases hprepare : t.prepare c 0 entries with
    | error e =>
      unfold forward at h
      rw [if_neg hne, Action.exec_bind_ok (Action.exec_get _), hprepare] at h
      cases h
    | ok prepared =>
      obtain ⟨lanes, hlanes, hspans, hrows⟩ := prepare_eq_ok.mp hprepare
      rw [hprepared lanes (by rw [hprepare, ← hspans, ← hrows]), Action.exec_bind_eq_ok] at h
      obtain ⟨hidden, _, hhidden, h⟩ := h
      cases hconclude : t.conclude lanes hidden <;> rw [hconclude] at h <;> cases h
      exact ⟨lanes, hidden, hlanes, hhidden, hconclude⟩
  · rintro ⟨lanes, hidden, hlanes, hhidden, hconclude⟩
    have hprepare : t.prepare c 0 entries = .ok (spansFrom 0 lanes, lanes.flatMap Lane.rows) :=
      prepare_eq_ok.mpr ⟨lanes, hlanes, rfl, rfl⟩
    rw [hprepared lanes hprepare, Action.exec_bind_ok hhidden, Action.exec_ofExcept, hconclude]

/-- Lanes of embedded tokens have rows, and these have the hidden width. -/
theorem rows_of_lane (ht : t.Shaped) {e : BatchEntry} {lane : Lane}
    (h : t.lane c e = .ok lane) :
    lane.rows ≠ [] ∧ ∀ x ∈ lane.rows, x.length = t.config.hiddenSize := by
  obtain ⟨hne, hrows, -, -⟩ := lane_eq_ok.mp h
  constructor
  · intro hnil
    have hlen := length_of_mapM_eq_ok hrows
    rw [hnil] at hlen
    exact hne (List.length_eq_zero_iff.mp hlen.symm)
  · refine forall_of_mapM_eq_ok hrows fun token _ x hx => ?_
    split at hx
    next => cases hx
    next =>
      split at hx
      next row hrow =>
        cases hx
        exact ht.embedding _ (List.mem_of_getElem? hrow)
      next => cases hx

/-- The rows of a batch have the hidden width. -/
theorem forall_placed (hw : ∀ lane ∈ lanes, ∀ x ∈ lane.rows, x.length = t.config.hiddenSize) :
    ∀ p ∈ lanes.flatMap Lane.placed, p.row.length = t.config.hiddenSize := by
  intro p hp
  have hmem : p.row ∈ lanes.flatMap Lane.rows := map_row_placed lanes ▸ List.mem_map_of_mem hp
  obtain ⟨lane, hlane, hx⟩ := List.mem_flatMap.mp hmem
  exact hw lane hlane _ hx

theorem mem_of_lastOf {slot : SlotId} {ps : List PlacedRow} {p : PlacedRow} (hp : p ∈ ps)
    (hslot : p.slot = slot) : ∃ q ∈ ps, lastOf slot ps = q.row := by
  have hmem : p ∈ ownRows slot ps :=
    List.mem_filter.mpr ⟨hp, decide_eq_true hslot⟩
  have hlast := List.getLast?_eq_some_getLast (List.ne_nil_of_mem hmem)
  refine ⟨_, List.mem_of_mem_filter (List.getLast_mem (List.ne_nil_of_mem hmem)), ?_⟩
  rw [lastOf, hlast]
  rfl

/-- The logits of a batch are those of the last rows of its slots. -/
theorem conclude_eq (ht : t.Shaped) (hf : t.head.Fits) (hnodup : (lanes.map Lane.slot).Nodup)
    (hrows : ∀ lane ∈ lanes, lane.rows ≠ [] ∧ ∀ x ∈ lane.rows, x.length = t.config.hiddenSize)
    {ps : List PlacedRow} (h : ps.map outline = (lanes.flatMap Lane.placed).map outline) :
    t.conclude lanes (ps.map PlacedRow.row).flatten =
      .ok (lanes.map fun lane =>
        t.logits (t.kernels.inBatch lanes.length) (lastOf lane.slot ps)) := by
  have hw := PlacedRow.forall_width h (forall_placed fun lane hlane => (hrows lane hlane).2)
  have hlast : ∀ lane ∈ lanes, (lastOf lane.slot ps).length = t.config.hiddenSize := by
    intro lane hlane
    obtain ⟨x, hx⟩ := List.exists_mem_of_ne_nil _ (hrows lane hlane).1
    have hplaced : x ∈ lane.placed.map PlacedRow.row := (map_row_rowsFrom _ _ _).symm ▸ hx
    obtain ⟨q, hq, -⟩ := List.mem_map.mp hplaced
    have hmem : q.outline ∈ ps.map outline :=
      h ▸ List.mem_map_of_mem (List.mem_flatMap.mpr ⟨lane, hlane, hq⟩)
    obtain ⟨p, hp, he⟩ := List.mem_map.mp hmem
    have hslot : p.slot = lane.slot :=
      (congrArg (fun o => o.1) he).trans (slot_of_mem_rowsFrom q hq)
    obtain ⟨p', hp', hlast⟩ := mem_of_lastOf hp hslot
    exact hlast ▸ hw p' hp'
  have hpieces : pieces t.config.hiddenSize (ps.map PlacedRow.row).flatten =
      ps.map PlacedRow.row := pieces_flatten ht.hidden_pos (List.forall_mem_map.mpr hw)
  have hrowsOf := lastRows_spansFrom hnodup (fun lane hlane => (hrows lane hlane).1) h []
  have hpos : 0 < t.norm.weight.length := ht.norm ▸ ht.hidden_pos
  have hlastWidth : ∀ x ∈ lanes.map fun lane => lastOf lane.slot ps,
      x.length = t.norm.weight.length :=
    List.forall_mem_map.mpr fun lane hlane => (hlast lane hlane).trans ht.norm.symm
  have hnorm := RmsNorm.forward_flatten hpos hlastWidth
  have hwidth : ∀ x ∈ lanes.map fun lane => t.norm.row (lastOf lane.slot ps),
      x.length = t.head.inFeatures := by
    intro x hx
    obtain ⟨lane, hlane, rfl⟩ := List.mem_map.mp hx
    rw [RmsNorm.length_row ((hlast lane hlane).trans ht.norm.symm), ht.norm, ht.head_in]
  have hhead := Linear.forward_flatten (d := t.kernels) hf hwidth
  have hlogits : pieces t.config.vocabSize (lanes.map fun lane =>
        t.logits (t.kernels.inBatch lanes.length) (lastOf lane.slot ps)).flatten =
      lanes.map fun lane => t.logits (t.kernels.inBatch lanes.length) (lastOf lane.slot ps) := by
    refine pieces_flatten ht.vocab_pos fun x hx => ?_
    obtain ⟨lane, hlane, rfl⟩ := List.mem_map.mp hx
    exact (Linear.length_row hf (hwidth _ (List.mem_map_of_mem hlane))).trans ht.head_out
  rw [List.nil_append, List.length_nil] at hrowsOf
  rw [List.map_map] at hnorm
  rw [List.length_map, List.map_map] at hhead
  unfold conclude
  rw [hpieces, hrowsOf]
  exact bind_eq_ok.mpr ⟨_, hnorm, bind_eq_ok.mpr ⟨_, hhead, congrArg Except.ok hlogits⟩⟩

theorem slots_of_lanes (h : entries.mapM (t.lane c) = .ok lanes) :
    lanes.map Lane.slot = entries.map BatchEntry.slot := by
  induction entries generalizing lanes with
  | nil => cases h; rfl
  | cons e rest ih =>
    obtain ⟨lane, lanes, hlane, hlanes, rfl⟩ := mapM_cons_eq_ok.mp h
    rw [List.map_cons, List.map_cons, ih hlanes, (lane_eq_ok.mp hlane).2.2.2]

/-- Where the weights fit, a pass visits the rows of its lanes layer by layer. -/
theorem exec_forward_eq_ok (ht : t.Shaped) (hf : t.Fits) (hne : entries ≠ [])
    (hnodup : (entries.map BatchEntry.slot).Nodup) :
    Action.exec (t.forward entries) c = (.ok rows, c') ↔ ∃ lanes ps,
      entries.mapM (t.lane c) = .ok lanes ∧
      Action.exec (DecoderLayer.walk t.kernels (t.context lanes).rowKernels t.rotary t.layers
        (lanes.flatMap Lane.placed)) c = (.ok ps, c') ∧
      rows = lanes.map fun lane =>
        t.logits (t.kernels.inBatch lanes.length) (lastOf lane.slot ps) := by
  have hlanesOf : ∀ {lanes}, entries.mapM (t.lane c) = .ok lanes →
      (∀ lane ∈ lanes, lane.rows ≠ [] ∧ ∀ x ∈ lane.rows, x.length = t.config.hiddenSize) ∧
      (lanes.map Lane.slot).Nodup := by
    intro lanes hlanes
    exact ⟨forall_of_mapM_eq_ok hlanes fun e _ lane h => rows_of_lane ht h,
      (slots_of_lanes hlanes).symm ▸ hnodup⟩
  have hlayers : ∀ {lanes : List Lane} {hidden},
      (∀ lane ∈ lanes, lane.rows ≠ [] ∧ ∀ x ∈ lane.rows, x.length = t.config.hiddenSize) →
      (Action.exec (t.layers.foldlM (fun hidden l => l.forward (t.context lanes) hidden)
          ((lanes.flatMap Lane.placed).map PlacedRow.row).flatten) c = (.ok hidden, c') ↔
        ∃ ps, Action.exec (DecoderLayer.walk t.kernels (t.context lanes).rowKernels t.rotary
          t.layers (lanes.flatMap Lane.placed)) c = (.ok ps, c') ∧
          hidden = (ps.map PlacedRow.row).flatten) := by
    intro lanes hidden hw
    exact DecoderLayer.exec_layers_eq_ok ht.layers hf.layers
      (forall_placed fun lane hlane => (hw lane hlane).2) (context_lists t lanes)
  rw [exec_forward_iff hne]
  constructor
  · rintro ⟨lanes, hidden, hlanes, hhidden, hconclude⟩
    obtain ⟨hw, hslots⟩ := hlanesOf hlanes
    rw [← map_row_placed] at hhidden
    obtain ⟨ps, hps, rfl⟩ := (hlayers hw).mp hhidden
    rw [conclude_eq ht hf.head hslots hw (DecoderLayer.outline_walk hps)] at hconclude
    cases hconclude
    exact ⟨lanes, ps, hlanes, hps, rfl⟩
  · rintro ⟨lanes, ps, hlanes, hps, rfl⟩
    obtain ⟨hw, hslots⟩ := hlanesOf hlanes
    refine ⟨lanes, _, hlanes, ?_, conclude_eq ht hf.head hslots hw
      (DecoderLayer.outline_walk hps)⟩
    rw [← map_row_placed]
    exact (hlayers hw).mpr ⟨ps, hps, rfl⟩

/-- A pass with an entry only goes through a transformer whose weights fit. -/
theorem fits_of_forward (ht : t.Shaped) (hne : entries ≠ [])
    (h : Action.exec (t.forward entries) c = (.ok rows, c')) : t.Fits := by
  obtain ⟨lanes, hidden, hlanes, hhidden, hconclude⟩ := (exec_forward_iff hne).mp h
  have hw := forall_of_mapM_eq_ok hlanes fun e _ lane h => rows_of_lane ht h
  have hlanesne : lanes.length ≠ 0 := by
    rw [length_of_mapM_eq_ok hlanes]
    exact fun hz => hne (List.length_eq_zero_iff.mp hz)
  have hplaced : lanes.flatMap Lane.placed ≠ [] := by
    obtain ⟨lane, hlane⟩ := List.exists_mem_of_length_pos (Nat.pos_of_ne_zero hlanesne)
    intro hnil
    have hmap := map_row_placed lanes
    rw [hnil] at hmap
    exact (hw lane hlane).1 (List.flatMap_eq_nil_iff.mp hmap.symm lane hlane)
  rw [← map_row_placed] at hhidden
  obtain ⟨normed, -, hconclude⟩ := bind_eq_ok.mp hconclude
  obtain ⟨logits, hhead, -⟩ := bind_eq_ok.mp hconclude
  exact {
    layers := DecoderLayer.fits_of_layers ht.layers
      (forall_placed fun lane hlane => (hw lane hlane).2) (context_lists t lanes) hplaced hhidden
    head := Linear.fits_of_forward hlanesne hhead }

end Transformer

end CausalServe
