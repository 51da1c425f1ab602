import CausalServe.Model.Decoder
import CausalServe.Proofs.Model.Rowwise

/-! A layer as a walk over the rows of a batch. What it does for all rows at once it does for each
of them alone, so that a pass through it is the same as visiting its rows one after another: a visit
puts keys and values of the row into its slot, attends over what the slot then holds, and finishes
the row. -/

namespace CausalServe

/-! ## Lengths of what attention yields -/

theorem Dispatcher.length_attend {d : Dispatcher} {q keys values out : List Float32} {headDim : Nat}
    {r : Attended} (h : d.attend q keys values headDim out = .ok r) : r.out.length = headDim := by
  unfold attend at h
  simp only at h
  split at h
  next => cases h
  next =>
    split at h
    next => cases h
    next hout =>
      rw [not_not] at hout
      split at h
      next =>
        cases h
        exact List.length_replicate.trans hout
      next =>
        obtain ⟨scores, -, h⟩ := bind_eq_ok.mp h
        obtain ⟨mixed, hmixed, h⟩ := bind_eq_ok.mp h
        cases h
        obtain ⟨hlen, -, -, rfl⟩ := d.matmulInto_eq_ok.mp hmixed
        rw [d.length_product values hlen, Nat.one_mul]

theorem Attention.length_attendHeads {a : Attention} {d : Dispatcher} {view : CacheView}
    {query out : List Float32} (h : a.attendHeads d view query = .ok out) :
    out.length = query.length / a.headDim * a.headDim := by
  obtain ⟨heads, hheads, hout⟩ := bind_eq_ok.mp h
  cases hout
  have hwidth : ∀ head ∈ heads, head.length = a.headDim := by
    refine forall_of_mapM_eq_ok hheads ?_
    rintro ⟨head, h⟩ - y hy
    simp only at hy
    split at hy
    next => cases hy
    next keys values _ =>
      cases hattend : d.attend head keys values a.headDim (List.replicate a.headDim 0) with
      | error e => rw [hattend] at hy; cases hy
      | ok attended =>
        rw [hattend] at hy
        cases hy
        exact Dispatcher.length_attend hattend
  rw [length_flatten_of_width hwidth, length_of_mapM_eq_ok hheads, List.length_zipIdx,
    length_pieces]

/-! ## Rows with their places -/

/-- A row of activations, the slot of its sequence, and its place in the sequence. -/
structure PlacedRow where
  slot : SlotId
  position : Nat
  row : List Float32

/-- The places of rows that stand in a batch one after another, the first one in row `n`. -/
def placesFrom (n : Nat) (ps : List PlacedRow) : List RowPlace :=
  (ps.zipIdx n).map fun (p, i) => ⟨p.slot, i, p.position⟩

/-- A batch with these rows, and with no other. -/
structure BatchContext.Lists (ctx : BatchContext) (ps : List PlacedRow) : Prop where
  places : ctx.places = placesFrom 0 ps
  rows : ctx.rows = ps.length

/-- The kernels as one row of the batch meets them. -/
def BatchContext.rowKernels (ctx : BatchContext) : Dispatcher := ctx.kernels.inBatch ctx.rows

/-! ## Attention -/

namespace Attention

/-- The projections have the widths that the heads ask for. -/
structure Shaped (a : Attention) (hidden : Nat) : Prop where
  query_in : a.query.inFeatures = hidden
  query_out : a.query.outFeatures = a.queryWidth
  key_in : a.key.inFeatures = hidden
  key_out : a.key.outFeatures = a.kvWidth
  value_in : a.value.inFeatures = hidden
  value_out : a.value.outFeatures = a.kvWidth
  output_in : a.output.inFeatures = a.queryWidth
  output_out : a.output.outFeatures = hidden
  heads_pos : 0 < a.numHeads
  kvHeads_pos : 0 < a.numKvHeads
  headDim_pos : 0 < a.headDim
  groups : a.numKvHeads ∣ a.numHeads

structure Fits (a : Attention) : Prop where
  query : a.query.Fits
  key : a.key.Fits
  value : a.value.Fits
  output : a.output.Fits

/-- What is written to the cache for a row, and what it then attends with. -/
def keyOf (a : Attention) (d : Dispatcher) (r : Rotary) (p : PlacedRow) : List Float32 :=
  r.applyHeads (a.key.row d p.row) p.position

def queryOf (a : Attention) (d : Dispatcher) (r : Rotary) (p : PlacedRow) : List Float32 :=
  r.applyHeads (a.query.row d p.row) p.position

/-- Writes one row to its slot, and attends over the slot. The row is projected by `e`, and attends
by `d`. -/
def visit (a : Attention) (d e : Dispatcher) (r : Rotary) (p : PlacedRow) :
    Action Cache (List Float32) := do
  Cache.append p.slot a.layer (a.keyOf e r p) (a.value.row e p.row)
  let view ← Action.ofExcept ((← get).read p.slot a.layer)
  Action.ofExcept (a.attendHeads d view (a.queryOf e r p))

theorem attendRow_eq (a : Attention) {ctx : BatchContext} {e : Dispatcher} {rows : AttentionRows}
    {p : PlacedRow} {i : Nat} (hq : rows.queries[i]? = some (a.query.row e p.row))
    (hk : rows.keys[i]? = some (a.key.row e p.row))
    (hv : rows.values[i]? = some (a.value.row e p.row)) :
    a.attendRow ctx rows ⟨p.slot, i, p.position⟩ =
      (fun out => { rows with
        queries := rows.queries.set i (a.queryOf e ctx.rotary p)
        keys := rows.keys.set i (a.keyOf e ctx.rotary p)
        outs := rows.outs.set i out }) <$> a.visit ctx.kernels e ctx.rotary p := by
  unfold attendRow visit
  simp only [hq, hk, hv, map_eq_pure_bind, bind_assoc]
  rfl

/-- The rows of a batch from where attention has not come to yet, behind those that are done. -/
theorem outs_foldlM (a : Attention) (ctx : BatchContext) (e : Dispatcher) (ps : List PlacedRow)
    {queries keys values done : List (List Float32)} (hq : queries.length = done.length)
    (hk : keys.length = done.length) (hv : values.length = done.length) :
    AttentionRows.outs <$> (placesFrom done.length ps).foldlM (a.attendRow ctx)
      { queries := queries ++ ps.map fun p => a.query.row e p.row
        keys := keys ++ ps.map fun p => a.key.row e p.row
        values := values ++ ps.map fun p => a.value.row e p.row
        outs := done ++ List.replicate ps.length (List.replicate a.queryWidth 0) } =
      (done ++ ·) <$> ps.mapM (a.visit ctx.kernels e ctx.rotary) := by
  induction ps generalizing queries keys values done with
  | nil => simp [placesFrom]
  | cons p ps ih =>
    have hget : ∀ {before : List (List Float32)} (x : List Float32) (after : List (List Float32)),
        before.length = done.length → (before ++ x :: after)[done.length]? = some x := by
      intro before x after h
      rw [← h, List.getElem?_append_right (Nat.le_refl _), Nat.sub_self]
      rfl
    have hset : ∀ {before : List (List Float32)} (x y : List Float32) (after : List (List Float32)),
        before.length = done.length →
        (before ++ x :: after).set done.length y = (before ++ [y]) ++ after := by
      intro before x y after h
      rw [← h, List.set_append_right _ _ (Nat.le_refl _), Nat.sub_self, List.set_cons_zero,
        List.append_assoc, List.singleton_append]
    have hlen : ∀ {before : List (List Float32)} (x y : List Float32),
        before.length = done.length → (before ++ [x]).length = (done ++ [y]).length := by
      intro before x y h
      rw [List.length_append, List.length_append, h]
      rfl
    have hplaces : placesFrom done.length (p :: ps) =
        ⟨p.slot, done.length, p.position⟩ :: placesFrom (done.length + 1) ps := rfl
    rw [hplaces, List.foldlM_cons, attendRow_eq a (hget _ _ hq) (hget _ _ hk) (hget _ _ hv),
      List.mapM_cons]
    simp only [map_bind, bind_map_left]
    congr 1
    funext out
    have hrest := ih (hlen (a.queryOf e ctx.rotary p) out hq)
      (hlen (a.keyOf e ctx.rotary p) out hk) (hlen (a.value.row e p.row) out hv)
    simp only [List.map_cons, List.length_cons, List.replicate_succ, hset _ _ _ hq, hset _ _ _ hk,
      hset _ _ _ rfl]
    rw [List.length_append, List.length_singleton] at hrest
    simp only [List.append_assoc, List.singleton_append] at hrest ⊢
    rw [hrest]
    simp

theorem queryWidth_pos {a : Attention} {hidden : Nat} (ha : a.Shaped hidden) :
    0 < a.queryWidth :=
  Nat.mul_pos ha.heads_pos ha.headDim_pos

theorem kvWidth_pos {a : Attention} {hidden : Nat} (ha : a.Shaped hidden) : 0 < a.kvWidth :=
  Nat.mul_pos ha.kvHeads_pos ha.headDim_pos

/-- A visit yields what the output projection takes. -/
theorem length_visit {a : Attention} {d e : Dispatcher} {r : Rotary} {hidden : Nat}
    (ha : a.Shaped hidden) (hf : a.Fits) {p : PlacedRow} (hp : p.row.length = hidden) {c c' : Cache}
    {out : List Float32} (h : Action.exec (a.visit d e r p) c = (.ok out, c')) :
    out.length = a.output.inFeatures := by
  obtain ⟨_, _, -, h⟩ := Action.exec_bind_eq_ok.mp h
  obtain ⟨_, _, -, h⟩ := Action.exec_bind_eq_ok.mp h
  obtain ⟨view, _, -, h⟩ := Action.exec_bind_eq_ok.mp h
  have hattend : a.attendHeads d view (a.queryOf e r p) = .ok out := congrArg Prod.fst h
  rw [length_attendHeads hattend, queryOf, Rotary.length_applyHeads,
    Linear.length_row hf.query (hp.trans ha.query_in.symm), ha.query_out, ha.output_in,
    queryWidth, Nat.mul_div_cancel _ ha.headDim_pos]

/-- Projections of a batch of rows, cut into rows again. -/
theorem pieces_forward {l : Linear Float32} {d : Dispatcher} (hl : l.Fits) {ps : List PlacedRow}
    (hw : ∀ p ∈ ps, p.row.length = l.inFeatures) :
    l.forward d (ps.map PlacedRow.row).flatten ps.length =
        .ok (ps.map fun p => l.row (d.inBatch ps.length) p.row).flatten ∧
      ∀ width, l.outFeatures = width → 0 < width →
        pieces width (ps.map fun p => l.row (d.inBatch ps.length) p.row).flatten =
          ps.map fun p => l.row (d.inBatch ps.length) p.row := by
  constructor
  · have hrows : ∀ x ∈ ps.map PlacedRow.row, x.length = l.inFeatures :=
      List.forall_mem_map.mpr hw
    have h := Linear.forward_flatten (d := d) hl hrows
    rw [List.length_map, List.map_map] at h
    exact h
  · rintro width rfl hpos
    exact pieces_flatten hpos (List.forall_mem_map.mpr fun p hp => Linear.length_row hl (hw p hp))

/-- Attention over a batch visits its rows one after another. -/
theorem exec_forward_eq_ok {a : Attention} {ctx : BatchContext} {hidden : Nat}
    (ha : a.Shaped hidden) (hf : a.Fits) {ps : List PlacedRow}
    (hw : ∀ p ∈ ps, p.row.length = hidden) (hctx : ctx.Lists ps) {c c' : Cache}
    {y : List Float32} :
    Action.exec (a.forward ctx (ps.map PlacedRow.row).flatten) c = (.ok y, c') ↔
      ∃ outs, Action.exec (ps.mapM (a.visit ctx.kernels ctx.rowKernels ctx.rotary)) c =
        (.ok outs, c') ∧ y = (outs.map (a.output.row ctx.rowKernels)).flatten := by
  have hrow : ctx.rowKernels = ctx.kernels.inBatch ps.length := by
    rw [BatchContext.rowKernels, hctx.rows]
  obtain ⟨hquery, hqueries⟩ := pieces_forward (d := ctx.kernels) hf.query
    fun p hp => (hw p hp).trans ha.query_in.symm
  obtain ⟨hkey, hkeys⟩ := pieces_forward (d := ctx.kernels) hf.key
    fun p hp => (hw p hp).trans ha.key_in.symm
  obtain ⟨hvalue, hvalues⟩ := pieces_forward (d := ctx.kernels) hf.value
    fun p hp => (hw p hp).trans ha.value_in.symm
  rw [← hrow] at hquery hqueries hkey hkeys hvalue hvalues
  have hwalk := @outs_foldlM a ctx ctx.rowKernels ps [] [] [] [] rfl rfl rfl
  have hforward : Action.exec (a.forward ctx (ps.map PlacedRow.row).flatten) c =
      Action.exec (ps.mapM (a.visit ctx.kernels ctx.rowKernels ctx.rotary) >>= fun outs =>
        Action.ofExcept (a.output.forward ctx.kernels outs.flatten ps.length)) c := by
    unfold forward
    rw [hctx.rows, hctx.places, hquery, hkey, hvalue]
    simp only [Action.exec_bind_ok (Action.exec_ofExcept _ _)]
    rw [hqueries _ ha.query_out (queryWidth_pos ha), hkeys _ ha.key_out (kvWidth_pos ha),
      hvalues _ ha.value_out (kvWidth_pos ha)]
    simp only [List.nil_append, List.length_nil, id_map'] at hwalk
    rw [← hwalk, bind_map_left]
  have houtput : ∀ {outs c₁},
      Action.exec (ps.mapM (a.visit ctx.kernels ctx.rowKernels ctx.rotary)) c = (.ok outs, c₁) →
      a.output.forward ctx.kernels outs.flatten ps.length =
        .ok (outs.map (a.output.row ctx.rowKernels)).flatten := by
    intro outs c₁ houts
    have hwidth := Action.forall_of_exec_mapM houts fun p hp out s t h =>
      length_visit ha hf (hw p hp) h
    rw [hrow, ← Action.length_of_exec_mapM houts]
    exact Linear.forward_flatten hf.output hwidth
  rw [hforward, Action.exec_bind_eq_ok]
  constructor
  · rintro ⟨outs, c₁, houts, h⟩
    rw [Action.exec_ofExcept, houtput houts] at h
    cases h
    exact ⟨outs, houts, rfl⟩
  · rintro ⟨outs, houts, rfl⟩
    exact ⟨outs, c', houts, by rw [Action.exec_ofExcept, houtput houts]⟩

theorem fits_of_forward {a : Attention} {ctx : BatchContext} (hrows : ctx.rows ≠ 0)
    {x y : List Float32} {c c' : Cache} (h : Action.exec (a.forward ctx x) c = (.ok y, c')) :
    a.Fits := by
  obtain ⟨queries, _, hquery, h⟩ := Action.exec_bind_eq_ok.mp h
  obtain ⟨keys, _, hkey, h⟩ := Action.exec_bind_eq_ok.mp h
  obtain ⟨values, _, hvalue, h⟩ := Action.exec_bind_eq_ok.mp h
  obtain ⟨rows, _, -, houtput⟩ := Action.exec_bind_eq_ok.mp h
  exact {
    query := Linear.fits_of_forward hrows (congrArg Prod.fst hquery)
    key := Linear.fits_of_forward hrows (congrArg Prod.fst hkey)
    value := Linear.fits_of_forward hrows (congrArg Prod.fst hvalue)
    output := Linear.fits_of_forward hrows (congrArg Prod.fst houtput) }

end Attention

/-! ## Layers -/

namespace DecoderLayer

structure Shaped (l : DecoderLayer) (hidden : Nat) : Prop where
  hidden_pos : 0 < hidden
  inputNorm : l.inputNorm.weight.length = hidden
  attention : l.attention.Shaped hidden
  postNorm : l.postNorm.weight.length = hidden
  feedForward : l.feedForward.Chained hidden

structure Fits (l : DecoderLayer) : Prop where
  attention : l.attention.Fits
  feedForward : l.feedForward.Fits

def normed (l : DecoderLayer) (p : PlacedRow) : PlacedRow :=
  { p with row := l.inputNorm.row p.row }

def mixed (l : DecoderLayer) (d : Dispatcher) (x out : List Float32) : List Float32 :=
  zipOnto (· + ·) x (l.attention.output.row d out)

/-- What the layer makes of a row and of what attention gave for it. -/
def finish (l : DecoderLayer) (d : Dispatcher) (x out : List Float32) : List Float32 :=
  zipOnto (· + ·) (l.mixed d x out) (l.feedForward.row d (l.postNorm.row (l.mixed d x out)))

def visit (l : DecoderLayer) (d e : Dispatcher) (r : Rotary) (p : PlacedRow) :
    Action Cache PlacedRow :=
  (fun out => { p with row := l.finish e p.row out }) <$> l.attention.visit d e r (l.normed p)

theorem length_finish (l : DecoderLayer) (d : Dispatcher) (x out : List Float32) :
    (l.finish d x out).length = x.length := by
  rw [finish, length_zipOnto, mixed, length_zipOnto]

variable {l : DecoderLayer} {hidden : Nat}

theorem lists_normed {ctx : BatchContext} {ps : List PlacedRow} (h : ctx.Lists ps)
    (l : DecoderLayer) : ctx.Lists (ps.map l.normed) where
  places := by
    rw [h.places, placesFrom, placesFrom, List.zipIdx_map, List.map_map]
    rfl
  rows := by rw [h.rows, List.length_map]

theorem length_normed (hl : l.Shaped hidden) {p : PlacedRow} (hp : p.row.length = hidden) :
    (l.normed p).row.length = hidden :=
  (RmsNorm.length_row (hp.trans hl.inputNorm.symm)).trans hl.inputNorm

theorem length_mixed (hl : l.Shaped hidden) (hf : l.Fits) {d : Dispatcher}
    {x out : List Float32} (hx : x.length = hidden)
    (hout : out.length = l.attention.output.inFeatures) :
    x.length = (l.attention.output.row d out).length ∧ (l.mixed d x out).length = hidden ∧
      (l.feedForward.row d (l.postNorm.row (l.mixed d x out))).length = hidden := by
  have hmixed : (l.mixed d x out).length = hidden := (length_zipOnto ..).trans hx
  refine ⟨?_, hmixed, FeedForward.length_row hf.feedForward hl.feedForward ?_⟩
  · rw [Linear.length_row hf.attention.output hout, hl.attention.output_out, hx]
  · rw [RmsNorm.length_row (hmixed.trans hl.postNorm.symm), hl.postNorm]

def settle (l : DecoderLayer) (ctx : BatchContext) (hidden attended : List Float32) :
    Except Error (List Float32) := do
  let mixed := zipOnto (· + ·) hidden attended
  let fed ← l.feedForward.forward ctx.kernels (← l.postNorm.forward mixed) ctx.rows
  return zipOnto (· + ·) mixed fed

theorem forward_eq (l : DecoderLayer) (ctx : BatchContext) {hidden normed : List Float32}
    (h : l.inputNorm.forward hidden = .ok normed) :
    l.forward ctx hidden = l.attention.forward ctx normed >>= fun attended =>
      Action.ofExcept (l.settle ctx hidden attended) := by
  unfold forward settle
  simp only [Action.ofExcept_bind]
  rw [h]
  rfl

/-- What follows attention goes row by row. -/
theorem settle_flatten {ctx : BatchContext} (hl : l.Shaped hidden) (hf : l.Fits)
    {pairs : List (PlacedRow × List Float32)} (hrows : ctx.rows = pairs.length)
    (hw : ∀ it ∈ pairs, it.1.row.length = hidden ∧
      it.2.length = l.attention.output.inFeatures) :
    l.settle ctx (pairs.map fun it => it.1.row).flatten
        (pairs.map fun it => l.attention.output.row ctx.rowKernels it.2).flatten =
      .ok (pairs.map fun it => l.finish ctx.rowKernels it.1.row it.2).flatten := by
  have hlen := fun it hit => length_mixed (d := ctx.rowKernels) hl hf (hw it hit).1 (hw it hit).2
  have hmixed := zipOnto_flatten (· + ·) pairs fun it hit => (hlen it hit).1
  have hpos : 0 < l.postNorm.weight.length := hl.postNorm ▸ hl.hidden_pos
  have hmixedWidth : ∀ x ∈ pairs.map fun it => l.mixed ctx.rowKernels it.1.row it.2,
      x.length = l.postNorm.weight.length :=
    List.forall_mem_map.mpr fun it hit => (hlen it hit).2.1.trans hl.postNorm.symm
  have hnormWidth : ∀ x ∈ pairs.map fun it => l.postNorm.row (l.mixed ctx.rowKernels it.1.row it.2),
      x.length = hidden :=
    List.forall_mem_map.mpr fun it hit =>
      (RmsNorm.length_row ((hlen it hit).2.1.trans hl.postNorm.symm)).trans hl.postNorm
  have hnorm := RmsNorm.forward_flatten hpos hmixedWidth
  have hfed := FeedForward.forward_flatten (d := ctx.kernels) hf.feedForward hl.feedForward
    hnormWidth
  have hsum := zipOnto_flatten (· + ·) pairs fun it hit =>
    (hlen it hit).2.1.trans (hlen it hit).2.2.symm
  rw [List.map_map] at hnorm
  rw [List.length_map, List.map_map] at hfed
  refine bind_eq_ok.mpr ⟨_, (congrArg l.postNorm.forward hmixed).trans hnorm, ?_⟩
  refine bind_eq_ok.mpr ⟨_, hrows.symm ▸ hfed, congrArg Except.ok ?_⟩
  exact (congrArg (zipOnto (· + ·) · _) hmixed).trans hsum

/-- A layer takes a batch through it row by row. -/
theorem exec_forward_eq_ok {ctx : BatchContext} (hl : l.Shaped hidden) (hf : l.Fits)
    {ps : List PlacedRow} (hw : ∀ p ∈ ps, p.row.length = hidden) (hctx : ctx.Lists ps)
    {c c' : Cache} {y : List Float32} :
    Action.exec (l.forward ctx (ps.map PlacedRow.row).flatten) c = (.ok y, c') ↔
      ∃ ps', Action.exec (ps.mapM (l.visit ctx.kernels ctx.rowKernels ctx.rotary)) c =
        (.ok ps', c') ∧ y = (ps'.map PlacedRow.row).flatten := by
  have hpos : 0 < l.inputNorm.weight.length := hl.inputNorm ▸ hl.hidden_pos
  have hwidth : ∀ x ∈ ps.map PlacedRow.row, x.length = l.inputNorm.weight.length :=
    List.forall_mem_map.mpr fun p hp => (hw p hp).trans hl.inputNorm.symm
  have hnorm := RmsNorm.forward_flatten hpos hwidth
  have hflat : ((ps.map PlacedRow.row).map l.inputNorm.row).flatten =
      ((ps.map l.normed).map PlacedRow.row).flatten := by
    rw [List.map_map, List.map_map]
    rfl
  have hnormed : ∀ p ∈ ps.map l.normed, p.row.length = hidden :=
    List.forall_mem_map.mpr fun p hp => length_normed hl (hw p hp)
  have hvisits : (ps.map l.normed).mapM (l.attention.visit ctx.kernels ctx.rowKernels ctx.rotary) =
      ps.mapM fun p => l.attention.visit ctx.kernels ctx.rowKernels ctx.rotary (l.normed p) :=
    List.mapM_map
  -- whatever attention gives for the rows, the rest of the layer finishes them
  have hsettle : ∀ {outs c₁}, Action.exec (ps.mapM fun p =>
      l.attention.visit ctx.kernels ctx.rowKernels ctx.rotary (l.normed p)) c = (.ok outs, c₁) →
      l.settle ctx (ps.map PlacedRow.row).flatten
          (outs.map (l.attention.output.row ctx.rowKernels)).flatten =
        .ok ((ps.zip outs).map fun it => l.finish ctx.rowKernels it.1.row it.2).flatten := by
    intro outs c₁ houts
    have hlen := Action.length_of_exec_mapM houts
    have hwidth := Action.forall_of_exec_mapM houts fun p hp out s t h =>
      Attention.length_visit hl.attention hf.attention (length_normed hl (hw p hp)) h
    have hrows : ctx.rows = (ps.zip outs).length := by
      rw [hctx.rows, List.length_zip, hlen, Nat.min_self]
    have hpairs := settle_flatten hl hf hrows fun it hit =>
      ⟨hw _ (List.of_mem_zip hit).1, hwidth _ (List.of_mem_zip hit).2⟩
    have hfst : (ps.zip outs).map (fun it => it.1.row) = ps.map PlacedRow.row := by
      conv_rhs => rw [← List.map_fst_zip hlen.ge, List.map_map]
      rfl
    have hsnd : (ps.zip outs).map (fun it => l.attention.output.row ctx.rowKernels it.2) =
        outs.map (l.attention.output.row ctx.rowKernels) := by
      conv_rhs => rw [← List.map_snd_zip hlen.le, List.map_map]
      rfl
    rwa [hfst, hsnd] at hpairs
  rw [forward_eq l ctx hnorm, hflat, Action.exec_bind_eq_ok]
  simp only [Attention.exec_forward_eq_ok hl.attention hf.attention hnormed
    (lists_normed hctx l), hvisits]
  unfold visit
  simp only [Action.exec_mapM_map_eq_ok]
  constructor
  · rintro ⟨_, c₁, ⟨outs, houts, rfl⟩, h⟩
    rw [Action.exec_ofExcept, hsettle houts] at h
    cases h
    exact ⟨_, ⟨outs, houts, rfl⟩, by rw [List.map_map]; rfl⟩
  · rintro ⟨_, ⟨outs, houts, rfl⟩, rfl⟩
    refine ⟨_, c', ⟨outs, houts, rfl⟩, ?_⟩
    rw [Action.exec_ofExcept, hsettle houts, List.map_map]
    rfl

theorem fits_of_forward {ctx : BatchContext} (hrows : ctx.rows ≠ 0) {x y : List Float32}
    {c c' : Cache} (h : Action.exec (l.forward ctx x) c = (.ok y, c')) : l.Fits := by
  obtain ⟨normed, _, -, h⟩ := Action.exec_bind_eq_ok.mp h
  obtain ⟨attended, _, hattention, h⟩ := Action.exec_bind_eq_ok.mp h
  obtain ⟨normed, _, -, h⟩ := Action.exec_bind_eq_ok.mp h
  obtain ⟨fed, _, hfed, -⟩ := Action.exec_bind_eq_ok.mp h
  exact ⟨Attention.fits_of_forward hrows hattention,
    FeedForward.fits_of_forward hrows (congrArg Prod.fst hfed)⟩

end DecoderLayer

end CausalServe
