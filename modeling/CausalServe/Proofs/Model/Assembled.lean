import CausalServe.Proofs.Model.Passes
import CausalServe.Proofs.Tensor.Payload

/-! Assembled models. Tensors are decoded from what is stored, and taken out of the weights by name
and shape; what a transformer is assembled from has the widths that its configuration tells. -/

namespace CausalServe

/-! ## Decoded tensors -/

/-- A stored matrix of codes holds every one of its rows. -/
theorem whole_of_decoded {d : TensorDescriptor} {t : Tensor Float32} {q : QuantizedMatrix Float32}
    (h : Tensor.ofDescriptor d = .ok t) (hq : t.data = .quantized q) {rows cols : Nat}
    (hshape : t.shape = [rows, cols]) (hpos : 0 < cols) (hsize : rows * cols < wordSize) :
    q.rows = rows ∧ q.cols = cols ∧ q.Whole := by
  rw [shape_of_decoded h] at hshape
  rcases ofDescriptor_eq_ok h with ⟨_, -, rfl⟩ | ⟨e, rows', cols', q', hdims, hraw, rfl⟩
  · cases hq
  · obtain ⟨-, -, -, rfl⟩ := QuantizedMatrix.ofRaw_eq_ok hraw
    cases hq
    rw [hshape] at hdims
    rcases hdims with ⟨hone, -⟩ | hdims
    · cases hone
    cases hdims
    refine ⟨rfl, rfl, fun _ => ⟨hpos.ne', fun r hr => ?_⟩⟩
    exact (QuantizedMatrix.complete_of_ofRaw hsize hraw).length_row hr

/-- The elements of a transposed matrix are as many as its shape says. -/
theorem length_transpose {t u : Tensor Float32} {rows cols : Nat} (hshape : t.shape = [rows, cols])
    (h : t.transpose = .ok u) : u.toList.length = cols * rows := by
  obtain ⟨⟨rows', cols'⟩, hdims, h⟩ := bind_eq_ok.mp h
  unfold Tensor.dims2 at hdims
  rw [hshape] at hdims
  cases hdims
  obtain ⟨hlen, h⟩ := ok_of_guard h
  obtain ⟨-, h⟩ := ok_of_guard h
  cases h
  rw [not_not] at hlen
  change (interleave cols (pieces cols t.toList)).length = _
  rw [length_interleave fun row => length_of_mem_pieces, length_pieces, hlen]
  rcases Nat.eq_zero_or_pos cols with rfl | hpos
  · rw [Nat.zero_mul, Nat.zero_mul]
  · rw [Nat.mul_div_cancel _ hpos]

/-! ## Taking tensors -/

namespace ModelWeights

def DecodedFrom (w : ModelWeights) (ds : List TensorDescriptor) : Prop :=
  ∀ entry ∈ w.tensors, ∃ d ∈ ds, Tensor.ofDescriptor d = .ok entry.2

variable {ds : List TensorDescriptor} {w w' : ModelWeights}

theorem decoded_of_insert {d : TensorDescriptor} (hw : w.DecodedFrom ds) (hd : d ∈ ds)
    (h : w.insert d = .ok w') : w'.DecodedFrom ds := by
  obtain ⟨t, ht, h⟩ := bind_eq_ok.mp h
  split at h
  next => cases h
  next =>
    cases h
    have hdecode : Tensor.ofDescriptor d = .ok t := by
      unfold decode at ht
      split at ht
      next => cases ht
      next => exact ht
    intro entry hentry
    rcases List.mem_append.mp hentry with hentry | hentry
    · exact hw entry hentry
    · cases List.mem_singleton.mp hentry
      exact ⟨d, hd, hdecode⟩

theorem decoded_of_descriptors (h : ofDescriptors ds = .ok w) : w.DecodedFrom ds := by
  have hfold : ∀ {rest : List TensorDescriptor} {start : ModelWeights}, (∀ d ∈ rest, d ∈ ds) →
      start.DecodedFrom ds → rest.foldlM insert start = .ok w → w.DecodedFrom ds := by
    clear h
    intro rest
    induction rest with
    | nil =>
      intro start _ hstart h
      cases h
      exact hstart
    | cons d rest ih =>
      intro start hrest hstart h
      obtain ⟨next, hnext, h⟩ := bind_eq_ok.mp h
      obtain ⟨hd, hrest⟩ := List.forall_mem_cons.mp hrest
      exact ih hrest (decoded_of_insert hstart hd hnext) h
  have hempty : DecodedFrom {} ds := fun entry hentry => absurd hentry List.not_mem_nil
  exact hfold (fun _ hd => hd) hempty h

theorem DecodedFrom.of_get? {name : String} {t : Tensor Float32} (hw : w.DecodedFrom ds)
    (h : w.get? name = some t) : ∃ d ∈ ds, Tensor.ofDescriptor d = .ok t := by
  obtain ⟨before, after, hsplit, -⟩ := List.lookup_eq_some_iff.mp h
  exact hw (name, t) (by simp [hsplit])

theorem DecodedFrom.erase (hw : w.DecodedFrom ds) (name : String) : (w.erase name).DecodedFrom ds :=
  fun entry hentry => hw entry (List.mem_of_mem_filter hentry)

theorem exec_take (w : ModelWeights) (name : String) (shape : List Nat) :
    Action.exec (take name shape) w = match w.get? name with
      | none => (.error (.load (.missing name)), w)
      | some t =>
        if shapeFits t.shape shape then (.ok t, w.erase name)
        else (.error (.load (.shape name t.shape shape)), w.erase name) := by
  unfold take
  rw [Action.exec_bind_ok (Action.exec_get w), Action.exec_bind, Action.exec_ofExcept, find]
  cases w.get? name with
  | none => rfl
  | some t =>
    change Action.exec (modify (·.erase name) >>= fun _ => _) w = _
    rw [Action.exec_bind_ok (Action.exec_modify _ w)]
    cases hfits : shapeFits t.shape shape with
    | false =>
      simp only [hfits]
      rfl
    | true =>
      simp only [hfits]
      rfl

/-- A tensor that was taken out has the shape that was asked for, and the others stay decoded. -/
theorem take_ok {name : String} {shape : List Nat} {t : Tensor Float32} (hw : w.DecodedFrom ds)
    (h : Action.exec (take name shape) w = (.ok t, w')) :
    w'.DecodedFrom ds ∧ (∃ d ∈ ds, Tensor.ofDescriptor d = .ok t) ∧
      shapeFits t.shape shape = true := by
  rw [exec_take] at h
  split at h
  next => cases h
  next hget =>
    split at h
    next hfits =>
      cases h
      exact ⟨hw.erase name, hw.of_get? hget, hfits⟩
    next => cases h

end ModelWeights

theorem shapeFits_matrix {shape : List Nat} {rows cols : Nat}
    (h : ModelWeights.shapeFits shape [rows, cols] = true) : shape = [rows, cols] := by
  simpa [ModelWeights.shapeFits] using h

theorem shapeFits_vector {shape : List Nat} {n : Nat}
    (h : ModelWeights.shapeFits shape [n] = true) : shape = [n] ∨ shape = [1, n] := by
  simpa [ModelWeights.shapeFits] using h

/-- A projection takes as many inputs as its tensor has columns, and gives an output for each row.
Its weights fit, if codes that are kept do. -/
theorem Linear.ofTensor_ok {t : Tensor Float32} {dequantize : Bool} {l : Linear Float32}
    {outputs inputs : Nat} (hshape : t.shape = [outputs, inputs])
    (h : Linear.ofTensor t dequantize = .ok l) :
    l.inFeatures = inputs ∧ l.outFeatures = outputs ∧
      ((∀ q, t.data = .quantized q → q.rows = outputs ∧ q.cols = inputs ∧ q.Whole) → l.Fits) := by
  obtain ⟨⟨rows, cols⟩, hdims, h⟩ := bind_eq_ok.mp h
  unfold Tensor.dims2 at hdims
  rw [hshape] at hdims
  cases hdims
  simp only at h
  have hdense : ∀ {u : Tensor Float32}, t.transpose = .ok u →
      (⟨.dense u.toList, inputs, outputs⟩ : Linear Float32).Fits := length_transpose hshape
  split at h
  next q hq =>
    split at h
    next =>
      obtain ⟨_, hweight, h⟩ := bind_eq_ok.mp h
      obtain ⟨u, hu, hweight⟩ := bind_eq_ok.mp hweight
      cases hweight
      cases h
      exact ⟨rfl, rfl, fun _ => hdense hu⟩
    next =>
      cases h
      refine ⟨rfl, rfl, fun hcodes => ?_⟩
      obtain ⟨hrows, hcols, hwhole⟩ := hcodes q hq
      exact ⟨hcols, hrows, hwhole⟩
  next =>
    obtain ⟨_, hweight, h⟩ := bind_eq_ok.mp h
    obtain ⟨u, hu, hweight⟩ := bind_eq_ok.mp hweight
    cases hweight
    cases h
    exact ⟨rfl, rfl, fun _ => hdense hu⟩

/-- All projections have inputs, and as many weights as a 64-bit word can tell. -/
structure ModelConfig.Sized (c : ModelConfig) : Prop where
  intermediate_pos : 0 < c.intermediateSize
  hidden : c.hiddenSize * c.hiddenSize < wordSize
  intermediate : c.intermediateSize * c.hiddenSize < wordSize
  vocab : c.vocabSize * c.hiddenSize < wordSize

/-- A layer as it is assembled from stored tensors. -/
structure DecoderLayer.BuiltFrom (l : DecoderLayer) (c : ModelConfig)
    (ds : List TensorDescriptor) : Prop where
  shaped : l.Shaped c.hiddenSize
  numKvHeads : l.attention.numKvHeads = c.numKvHeads
  headDim : l.attention.headDim = c.headDim
  query : ∃ d ∈ ds, d.shape = [c.queryWidth, c.hiddenSize]
  gate : ∃ d ∈ ds, d.shape = [c.intermediateSize, c.hiddenSize]
  fits : c.Sized → l.Fits

namespace Transformer

variable {ds : List TensorDescriptor} {w w' : ModelWeights} {dequantize : Bool} {name : String}
  {config : ModelConfig}

theorem takeLinear_ok {outputs inputs : Nat} {l : Linear Float32} (hw : w.DecodedFrom ds)
    (h : Action.exec (takeLinear dequantize name outputs inputs) w = (.ok l, w')) :
    w'.DecodedFrom ds ∧ (∃ d ∈ ds, d.shape = [outputs, inputs]) ∧ l.inFeatures = inputs ∧
      l.outFeatures = outputs ∧ (0 < inputs → outputs * inputs < wordSize → l.Fits) := by
  obtain ⟨t, w₁, ht, h⟩ := Action.exec_bind_eq_ok.mp h
  obtain ⟨hw₁, ⟨d, hd, hdecode⟩, hshape⟩ := ModelWeights.take_ok hw ht
  obtain ⟨hl, rfl⟩ := Prod.mk.inj h
  have hmatrix := shapeFits_matrix hshape
  obtain ⟨hin, hout, hfits⟩ := Linear.ofTensor_ok hmatrix hl
  exact ⟨hw₁, ⟨d, hd, (shape_of_decoded hdecode).symm.trans hmatrix⟩, hin, hout, fun hpos hsize =>
    hfits fun q hq => whole_of_decoded hdecode hq hmatrix hpos hsize⟩

theorem takeNorm_ok [Elementary] (hsize : config.hiddenSize < wordSize) {n : RmsNorm}
    (hw : w.DecodedFrom ds) (h : Action.exec (takeNorm config name) w = (.ok n, w')) :
    w'.DecodedFrom ds ∧ n.weight.length = config.hiddenSize := by
  obtain ⟨values, w₁, hvalues, h⟩ := Action.exec_bind_eq_ok.mp h
  obtain ⟨t, w₂, ht, hvalues⟩ := Action.exec_bind_eq_ok.mp hvalues
  obtain ⟨hw₂, ⟨d, -, hd⟩, hshape⟩ := ModelWeights.take_ok hw ht
  cases hvalues
  cases h
  have hprod : d.shape.prod = config.hiddenSize := by
    rw [← shape_of_decoded hd]
    rcases shapeFits_vector hshape with hs | hs
    · rw [hs, List.prod_singleton]
    · rw [hs, prod_matrix, Nat.one_mul]
  exact ⟨hw₂, (length_of_decoded hd (hprod ▸ hsize)).trans hprod⟩

/-- What a valid configuration promises of its sizes. -/
theorem sizes_of_valid (h : config.validate = .ok ()) :
    0 < config.vocabSize ∧ 0 < config.hiddenSize ∧ 0 < config.numHeads ∧
      0 < config.numKvHeads ∧ 0 < config.headDim ∧ config.numKvHeads ∣ config.numHeads := by
  obtain ⟨hsizes, h⟩ := ok_of_guard h
  obtain ⟨hheads, h⟩ := ok_of_guard h
  obtain ⟨heven, h⟩ := ok_of_guard h
  obtain ⟨hgroups, -⟩ := ok_of_guard h
  have hdim : 0 < config.headDim :=
    Nat.div_pos (Nat.le_of_dvd (by omega) (Nat.dvd_of_mod_eq_zero (not_not.mp heven))) (by omega)
  refine ⟨?_, ?_, ?_, ?_, hdim, Nat.dvd_of_mod_eq_zero (not_not.mp hgroups)⟩ <;> omega

/-- The heads of a valid configuration share all of the hidden width. -/
theorem queryWidth_of_valid (h : config.validate = .ok ()) :
    config.queryWidth = config.hiddenSize := by
  obtain ⟨-, h⟩ := ok_of_guard h
  obtain ⟨-, h⟩ := ok_of_guard h
  obtain ⟨heven, -⟩ := ok_of_guard h
  exact Nat.mul_div_cancel' (Nat.dvd_of_mod_eq_zero (not_not.mp heven))

theorem takeLayer_ok [Elementary] (hvalid : config.validate = .ok ())
    (hsize : config.hiddenSize < wordSize) {i : Nat} {l : DecoderLayer} (hw : w.DecodedFrom ds)
    (h : Action.exec (takeLayer config dequantize i) w = (.ok l, w')) :
    w'.DecodedFrom ds ∧ l.BuiltFrom config ds ∧ l.attention.layer = i := by
  obtain ⟨query, _, hquery, h⟩ := Action.exec_bind_eq_ok.mp h
  obtain ⟨key, _, hkey, h⟩ := Action.exec_bind_eq_ok.mp h
  obtain ⟨value, _, hvalue, h⟩ := Action.exec_bind_eq_ok.mp h
  obtain ⟨output, _, houtput, h⟩ := Action.exec_bind_eq_ok.mp h
  obtain ⟨gate, _, hgate, h⟩ := Action.exec_bind_eq_ok.mp h
  obtain ⟨up, _, hup, h⟩ := Action.exec_bind_eq_ok.mp h
  obtain ⟨down, _, hdown, h⟩ := Action.exec_bind_eq_ok.mp h
  obtain ⟨inputNorm, _, hinput, h⟩ := Action.exec_bind_eq_ok.mp h
  obtain ⟨postNorm, _, hpost, h⟩ := Action.exec_bind_eq_ok.mp h
  cases h
  obtain ⟨hw, hqueryStored, hqueryIn, hqueryOut, hqueryFits⟩ := takeLinear_ok hw hquery
  obtain ⟨hw, -, hkeyIn, hkeyOut, hkeyFits⟩ := takeLinear_ok hw hkey
  obtain ⟨hw, -, hvalueIn, hvalueOut, hvalueFits⟩ := takeLinear_ok hw hvalue
  obtain ⟨hw, -, houtputIn, houtputOut, houtputFits⟩ := takeLinear_ok hw houtput
  obtain ⟨hw, hgateStored, hgateIn, hgateOut, hgateFits⟩ := takeLinear_ok hw hgate
  obtain ⟨hw, -, hupIn, hupOut, hupFits⟩ := takeLinear_ok hw hup
  obtain ⟨hw, -, hdownIn, hdownOut, hdownFits⟩ := takeLinear_ok hw hdown
  obtain ⟨hw, hinput⟩ := takeNorm_ok hsize hw hinput
  obtain ⟨hw, hpost⟩ := takeNorm_ok hsize hw hpost
  obtain ⟨-, hhidden, hheads, hkvHeads, hheadDim, hgroups⟩ := sizes_of_valid hvalid
  have hattention : Attention.Shaped
      { query := query, key := key, value := value, output := output, numHeads := config.numHeads
        numKvHeads := config.numKvHeads, headDim := config.headDim, layer := i }
      config.hiddenSize :=
    ⟨hqueryIn, hqueryOut, hkeyIn, hkeyOut, hvalueIn, hvalueOut, houtputIn, houtputOut, hheads,
      hkvHeads, hheadDim, hgroups⟩
  have hfeedForward : FeedForward.Chained ⟨gate, up, down⟩ config.hiddenSize :=
    ⟨hgateIn, hupIn, hupOut.trans hgateOut.symm, hdownIn.trans hgateOut.symm, hdownOut⟩
  refine ⟨hw, ⟨⟨hhidden, hinput, hattention, hpost, hfeedForward⟩, rfl, rfl, hqueryStored,
    hgateStored, fun hsized => ?_⟩, rfl⟩
  have hquery : config.queryWidth ≤ config.hiddenSize := Nat.mul_div_le _ _
  have hkv : config.kvWidth ≤ config.hiddenSize :=
    (Nat.mul_le_mul_right _ (Nat.le_of_dvd hheads hgroups)).trans hquery
  have hwidth : ∀ {width}, width ≤ config.hiddenSize →
      width * config.hiddenSize < wordSize := fun hle =>
    (Nat.mul_le_mul_right _ hle).trans_lt hsized.hidden
  have hqueryPos : 0 < config.queryWidth := Nat.mul_pos hheads hheadDim
  constructor
  · exact ⟨hqueryFits hhidden (hwidth hquery), hkeyFits hhidden (hwidth hkv),
      hvalueFits hhidden (hwidth hkv),
      houtputFits hqueryPos (Nat.mul_comm config.hiddenSize _ ▸ hwidth hquery)⟩
  · exact ⟨hgateFits hhidden hsized.intermediate, hupFits hhidden hsized.intermediate,
      hdownFits hsized.intermediate_pos (Nat.mul_comm config.hiddenSize _ ▸ hsized.intermediate)⟩

theorem takeHead_ok {embedding : List Float32} {l : Linear Float32} (hw : w.DecodedFrom ds)
    (h : Action.exec (takeHead config dequantize embedding) w = (.ok l, w')) :
    l.inFeatures = config.hiddenSize ∧ l.outFeatures = config.vocabSize ∧
      (0 < config.hiddenSize → config.vocabSize * config.hiddenSize < wordSize → l.Fits) := by
  obtain ⟨_, _, hget, h⟩ := Action.exec_bind_eq_ok.mp h
  cases hget
  split at h
  next => exact (takeLinear_ok hw h).2.2
  next =>
    obtain ⟨t, _, ht, h⟩ := Action.exec_bind_eq_ok.mp h
    obtain ⟨-, hlist⟩ := ok_of_guard (congrArg Prod.fst ht)
    cases hlist
    have hl : Linear.ofTensor _ true = .ok l := congrArg Prod.fst h
    obtain ⟨hin, hout, hfits⟩ := Linear.ofTensor_ok rfl hl
    exact ⟨hin, hout, fun _ _ => hfits fun q hq => nomatch hq⟩

theorem layers_of_forall₂ {is : List Nat} {ls : List DecoderLayer} {P : DecoderLayer → Prop}
    (h : List.Forall₂ (fun i l => P l ∧ l.attention.layer = i) is ls) :
    (∀ l ∈ ls, P l) ∧ ls.map (fun l => l.attention.layer) = is := by
  induction h with
  | nil => exact ⟨fun l hl => absurd hl List.not_mem_nil, rfl⟩
  | cons hfirst hrest ih =>
    exact ⟨List.forall_mem_cons.mpr ⟨hfirst.1, ih.1⟩, by rw [List.map_cons, hfirst.2, ih.2]⟩

structure BuiltFrom (t : Transformer) (c : ModelConfig) (ds : List TensorDescriptor)
    (kernels : Dispatcher) : Prop where
  shaped : t.Shaped
  config : t.config = c
  kernels : t.kernels = kernels
  layers : ∀ l ∈ t.layers, l.BuiltFrom c ds
  head : c.vocabSize * c.hiddenSize < wordSize → t.head.Fits
  embedding : c.vocabSize * c.hiddenSize < wordSize → t.embedding.length = c.vocabSize

variable {kernels : Dispatcher} {t : Transformer}

/-- What is taken out of the weights for a transformer, and in which order. -/
theorem ofWeights_eq_ok [Elementary] (h : ofWeights config w kernels dequantize = .ok t) :
    config.validate = .ok () ∧ ∃ table layers norm head w₁ w₂ w₃ w₄,
      Action.exec (ModelWeights.take "embed_tokens" [config.vocabSize, config.hiddenSize]) w =
        (.ok table, w₁) ∧
      Action.exec ((List.range config.numLayers).mapM (takeLayer config dequantize)) w₁ =
        (.ok layers, w₂) ∧
      Action.exec (takeNorm config "norm") w₂ = (.ok norm, w₃) ∧
      Action.exec (takeHead config dequantize table.toList) w₃ = (.ok head, w₄) ∧
      t = { config := config, kernels := kernels, layers := layers, norm := norm, head := head
            embedding := pieces config.hiddenSize table.toList
            rotary := .new config.headDim config.maxPositions config.ropeTheta } := by
  rcases hexec : Action.exec (assemble config kernels dequantize) w with ⟨result, w'⟩
  have hresult : result = .ok t := by rwa [ofWeights, hexec] at h
  rw [hresult] at hexec
  obtain ⟨_, _, hcheck, hexec⟩ := Action.exec_bind_eq_ok.mp hexec
  obtain ⟨hvalid, rfl⟩ := Prod.mk.inj hcheck
  obtain ⟨embedding, w₁, hembedding, hexec⟩ := Action.exec_bind_eq_ok.mp hexec
  obtain ⟨table, _, htable, hembedding⟩ := Action.exec_bind_eq_ok.mp hembedding
  cases hembedding
  obtain ⟨layers, w₂, hlayers, hexec⟩ := Action.exec_bind_eq_ok.mp hexec
  obtain ⟨norm, w₃, hnorm, hexec⟩ := Action.exec_bind_eq_ok.mp hexec
  obtain ⟨head, w₄, hhead, hexec⟩ := Action.exec_bind_eq_ok.mp hexec
  cases hexec
  exact ⟨hvalid, table, layers, norm, head, w₁, w₂, w₃, _, htable, hlayers, hnorm, hhead, rfl⟩

/-- The sizes that a configuration tells of its embedding are those of a stored tensor. -/
theorem embedding_stored [Elementary] (hw : w.DecodedFrom ds)
    (h : ofWeights config w kernels dequantize = .ok t) :
    ∃ d ∈ ds, d.shape = [config.vocabSize, config.hiddenSize] := by
  obtain ⟨-, table, _, _, _, _, _, _, _, htable, -⟩ := ofWeights_eq_ok h
  obtain ⟨-, ⟨d, hd, hdecode⟩, hshape⟩ := ModelWeights.take_ok hw htable
  exact ⟨d, hd, (shape_of_decoded hdecode).symm.trans (shapeFits_matrix hshape)⟩

theorem ofWeights_built [Elementary] (hw : w.DecodedFrom ds)
    (hsize : config.hiddenSize < wordSize) (h : ofWeights config w kernels dequantize = .ok t) :
    t.BuiltFrom config ds kernels := by
  obtain ⟨hvalid, table, layers, norm, head, w₁, w₂, w₃, w₄, htable, hlayers, hnorm, hhead, rfl⟩ :=
    ofWeights_eq_ok h
  obtain ⟨hw, ⟨d, -, hdecode⟩, hshape⟩ := ModelWeights.take_ok hw htable
  obtain ⟨hw, hlayers⟩ := Action.exec_mapM_keep (I := fun w => w.DecodedFrom ds)
    (P := fun i l => l.BuiltFrom config ds ∧ l.attention.layer = i) hlayers hw
    fun i _ l s s' hs hl => takeLayer_ok hvalid hsize hs hl
  obtain ⟨hlayers, hplaces⟩ := layers_of_forall₂ hlayers
  obtain ⟨hw, hnorm⟩ := takeNorm_ok hsize hw hnorm
  obtain ⟨hheadIn, hheadOut, hheadFits⟩ := takeHead_ok hw hhead
  obtain ⟨hvocab, hhidden, -⟩ := sizes_of_valid hvalid
  refine ⟨?_, rfl, rfl, hlayers, hheadFits hhidden, fun hwords => ?_⟩
  · exact {
      vocab_pos := hvocab
      hidden_pos := hhidden
      embedding := fun row hrow => length_of_mem_pieces hrow
      layers := fun l hl => (hlayers l hl).shaped
      heads := fun l hl => ⟨(hlayers l hl).numKvHeads, (hlayers l hl).headDim⟩
      layer := hplaces
      norm := hnorm
      head_in := hheadIn
      head_out := hheadOut }
  · have hprod : d.shape.prod = config.vocabSize * config.hiddenSize := by
      rw [← shape_of_decoded hdecode, shapeFits_matrix hshape, prod_matrix]
    change (pieces config.hiddenSize table.toList).length = _
    rw [length_pieces, length_of_decoded hdecode (hprod ▸ hwords), hprod,
      Nat.mul_div_cancel _ hhidden]

/-- An assembled transformer has the shape that its configuration tells, and weights that fit. -/
theorem ofWeights_ok [Elementary] (hw : w.DecodedFrom ds) (hsize : config.hiddenSize < wordSize)
    (h : ofWeights config w kernels dequantize = .ok t) :
    t.Shaped ∧ (config.Sized → t.Fits) ∧ t.config = config ∧ t.kernels = kernels := by
  have hbuilt := ofWeights_built hw hsize h
  exact ⟨hbuilt.shaped, fun hsized => ⟨fun l hl => (hbuilt.layers l hl).fits hsized,
    hbuilt.head hsized.vocab⟩, hbuilt.config, hbuilt.kernels⟩

/-- Where the sizes of all stored tensors are words, so are those of every layer, and nothing is
missing of any tensor. -/
theorem ofWeights_fits [Elementary] (hw : w.DecodedFrom ds)
    (hwords : ∀ d ∈ ds, d.shape.prod < wordSize) (hpos : 0 < config.intermediateSize)
    (h : ofWeights config w kernels dequantize = .ok t) :
    t.BuiltFrom config ds kernels ∧ t.Fits ∧ t.embedding.length = config.vocabSize := by
  have hstored : ∀ {rows cols}, (∃ d ∈ ds, d.shape = [rows, cols]) → rows * cols < wordSize := by
    rintro rows cols ⟨d, hd, hshape⟩
    have hsize := hwords d hd
    rwa [hshape, prod_matrix] at hsize
  obtain ⟨hvalid, -⟩ := ofWeights_eq_ok h
  obtain ⟨hvocab, -⟩ := sizes_of_valid hvalid
  have hvocabSize := hstored (embedding_stored hw h)
  have hbuilt := ofWeights_built hw
    ((Nat.le_mul_of_pos_left config.hiddenSize hvocab).trans_lt hvocabSize) h
  refine ⟨hbuilt, ⟨fun l hl => ?_, hbuilt.head hvocabSize⟩, hbuilt.embedding hvocabSize⟩
  have hlayer := hbuilt.layers l hl
  have hquery := hstored hlayer.query
  rw [queryWidth_of_valid hvalid] at hquery
  exact hlayer.fits ⟨hpos, hquery, hstored hlayer.gate, hvocabSize⟩

end Transformer

end CausalServe
