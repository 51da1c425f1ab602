import CausalServe.Proofs.Cache.Accounting

/-! Room for rows. A slot that covers what is to be written takes the rows of all its layers in any
order: no append fails, and none is charged. What a slot holds afterwards depends only on how many
rows each layer got. -/

namespace CausalServe

structure RowWrite where
  slot : SlotId
  layer : Nat
  key : List Float32
  value : List Float32

namespace RowWrite

def count (ws : List RowWrite) (id : SlotId) (layer : Nat) : Nat :=
  ws.countP fun w => w.slot = id ∧ w.layer = layer

theorem count_cons (w : RowWrite) (ws : List RowWrite) (id : SlotId) (layer : Nat) :
    count (w :: ws) id layer = count [w] id layer + count ws id layer := by
  simp only [count, List.countP_cons, List.countP_nil]
  omega

theorem count_cons_eq (w : RowWrite) (ws : List RowWrite) :
    count (w :: ws) = fun id i => count [w] id i + count ws id i := by
  funext id i
  exact count_cons w ws id i

theorem count_self (w : RowWrite) : count [w] w.slot w.layer = 1 := by simp [count]

end RowWrite

structure Slot.FedTo (s : Slot) (n : Nat → Nat) (s' : Slot) : Prop where
  owner : s'.owner = s.owner
  capacity : s'.capacity = s.capacity
  allocated : s'.allocated = s.allocated
  numLayers : s'.layers.length = s.layers.length
  layers : ∀ i l, s.layers[i]? = some l → ∃ l', s'.layers[i]? = some l' ∧
    l'.len = min (l.len + n i) s.capacity ∧ l'.appended = l.appended + n i

theorem Slot.FedTo.trans {s t u : Slot} {m n : Nat → Nat} (h : s.FedTo m t) (h' : t.FedTo n u) :
    s.FedTo (fun i => m i + n i) u where
  owner := h'.owner.trans h.owner
  capacity := h'.capacity.trans h.capacity
  allocated := h'.allocated.trans h.allocated
  numLayers := h'.numLayers.trans h.numLayers
  layers := fun i l hl => by
    obtain ⟨l₁, hl₁, hlen₁, happ₁⟩ := h.layers i l hl
    obtain ⟨l₂, hl₂, hlen₂, happ₂⟩ := h'.layers i l₁ hl₁
    rw [h.capacity] at hlen₂
    exact ⟨l₂, hl₂, by omega, by omega⟩

def Slot.Level (s : Slot) : Prop := ∀ l ∈ s.layers, l.len = s.len

theorem Slot.len_of_forall {s : Slot} {n : Nat} (h : ∀ l ∈ s.layers, l.len = n)
    (hne : s.layers ≠ []) : s.len = n := by
  rw [Slot.len, List.map_eq_replicate_iff.mpr h,
    List.min?_replicate_of_pos (List.length_pos_iff.mpr hne), Option.getD_some]

theorem Slot.level_of_forall {s : Slot} {n : Nat} (h : ∀ l ∈ s.layers, l.len = n) : s.Level :=
  fun l hl => (h l hl).trans (s.len_of_forall h (List.ne_nil_of_mem hl)).symm

/-- A slot whose layers were equally long still is so when they all got as many rows. -/
theorem Slot.FedTo.len {s s' : Slot} {n : Nat → Nat} (h : s.FedTo n s') (hs : s.Level) {k : Nat}
    (hn : ∀ i < s.layers.length, n i = k) {l' : LayerStore} (hl' : l' ∈ s'.layers) :
    l'.len = min (s.len + k) s.capacity := by
  obtain ⟨i, hi⟩ := List.mem_iff_getElem?.mp hl'
  have hlt : i < s.layers.length := h.numLayers ▸ (List.getElem?_eq_some_iff.mp hi).1
  obtain ⟨m, hm, hlen, -⟩ := h.layers i _ (List.getElem?_eq_getElem hlt)
  cases hm.symm.trans hi
  rw [hlen, hn i hlt, hs _ (List.getElem_mem hlt)]

namespace Cache

def AllLevel (c : Cache) : Prop := ∀ id s, c.slot? id = some s → s.Level

def writeAll : List RowWrite → Action Cache Unit
  | [] => pure ()
  | w :: ws => do
    append w.slot w.layer w.key w.value
    writeAll ws

/-- A layer takes a number of rows without a charge, and without a refusal. -/
def HasRoom (c : Cache) (id : SlotId) (layer n : Nat) : Prop :=
  ∃ s l, c.slot? id = some s ∧ s.layers[layer]? = some l ∧ s.Covers (l.len + n) ∧
    (c.overflowPolicy = .reject → l.len + n ≤ s.capacity)

theorem HasRoom.mono {c : Cache} {id : SlotId} {layer m n : Nat} (h : c.HasRoom id layer n)
    (hmn : m ≤ n) : c.HasRoom id layer m := by
  obtain ⟨s, l, hs, hl, hcov, hrej⟩ := h
  refine ⟨s, l, hs, hl, ?_, fun hp => ?_⟩
  · unfold Slot.Covers at hcov ⊢
    omega
  · have := hrej hp
    omega

/-- A cache after its slots got a number of rows for each layer, and no other change. -/
structure FedTo (c : Cache) (n : SlotId → Nat → Nat) (c' : Cache) : Prop where
  limits : SameLimits c c'
  used : c'.used = c.used
  gauge : c'.gauge = c.gauge
  free : c'.free = c.free
  dead : ∀ id, c.slot? id = none → c'.slot? id = none
  live : ∀ id s, c.slot? id = some s → ∃ s', c'.slot? id = some s' ∧ s.FedTo (n id) s'

theorem FedTo.trans {a b c : Cache} {m n : SlotId → Nat → Nat} (h : a.FedTo m b)
    (h' : b.FedTo n c) : a.FedTo (fun id i => m id i + n id i) c where
  limits := h.limits.trans h'.limits
  used := h'.used.trans h.used
  gauge := h'.gauge.trans h.gauge
  free := h'.free.trans h.free
  dead := fun id hd => h'.dead id (h.dead id hd)
  live := fun id s hs => by
    obtain ⟨t, ht, hst⟩ := h.live id s hs
    obtain ⟨u, hu, htu⟩ := h'.live id t ht
    exact ⟨u, hu, hst.trans htu⟩

theorem Sound.fedTo_refl {c : Cache} (hc : c.Sound) : c.FedTo (fun _ _ => 0) c where
  limits := .refl c
  used := rfl
  gauge := rfl
  free := rfl
  dead := fun _ h => h
  live := fun id s h => by
    have hs := hc.slots id s h
    refine ⟨s, h, rfl, rfl, rfl, rfl, fun i l hl => ⟨l, hl, ?_, rfl⟩⟩
    have := hs.len_le l (List.mem_of_getElem? hl)
    have := hs.allocated_le
    omega

/-- Rows written take up room, and no other. -/
theorem FedTo.hasRoom {c c' : Cache} {n : SlotId → Nat → Nat} (h : c.FedTo n c') {id : SlotId}
    {layer k : Nat} (hr : c.HasRoom id layer (n id layer + k)) : c'.HasRoom id layer k := by
  obtain ⟨s, l, hs, hl, hcov, hrej⟩ := hr
  obtain ⟨s', hs', hfed⟩ := h.live id s hs
  obtain ⟨l', hl', hlen, -⟩ := hfed.layers layer l hl
  refine ⟨s', l', hs', hl', ?_, fun hp => ?_⟩
  · unfold Slot.Covers at hcov ⊢
    rw [hfed.capacity, hfed.allocated]
    omega
  · have := hrej (h.limits.overflowPolicy ▸ hp)
    rw [hfed.capacity]
    omega

theorem pushed_fedTo {c : Cache} {w : RowWrite} {s : Slot} {l : LayerStore} {slide : Bool}
    (hc : c.Sound) (hs : c.slot? w.slot = some s) (hl : s.layers[w.layer]? = some l)
    (hslide : slide = decide (s.capacity ≤ l.len)) :
    c.FedTo (RowWrite.count [w]) (c.pushed w.slot s w.layer slide w.key w.value) where
  limits := ⟨rfl, rfl, rfl, rfl⟩
  used := rfl
  gauge := rfl
  free := rfl
  dead := fun id hd => by
    rw [slot?_pushed hs]
    split
    next he => rw [he, hs] at hd; cases hd
    next => exact hd
  live := fun id t ht => by
    rw [slot?_pushed hs]
    by_cases he : id = w.slot
    · subst he
      cases hs.symm.trans ht
      refine ⟨_, if_pos rfl, rfl, rfl, rfl, List.length_modify .., fun i m hm => ?_⟩
      have hlen := (hc.slots _ s hs).len_le m (List.mem_of_getElem? hm)
      have hcap := (hc.slots _ s hs).allocated_le
      rw [List.getElem?_modify, hm]
      by_cases hi : w.layer = i
      · subst hi
        cases hl.symm.trans hm
        refine ⟨LayerStore.push c.layout.headDim slide w.key w.value l, by simp, ?_,
          by simp [LayerStore.push, RowWrite.count]⟩
        subst hslide
        simp only [LayerStore.push, RowWrite.count_self]
        split
        next h => simp only [decide_eq_true_eq] at h; omega
        next h => simp only [decide_eq_true_eq] at h; omega
      · refine ⟨m, by simp [hi], ?_, by simp [RowWrite.count, hi]⟩
        simp only [RowWrite.count, hi, and_false, decide_false, List.countP_cons, List.countP_nil]
        simp
        omega
    · obtain ⟨t', ht', hfed⟩ := hc.fedTo_refl.live id t ht
      refine ⟨t', by rw [if_neg he]; exact ht', ?_⟩
      have hz : RowWrite.count [w] id = fun _ => 0 := by
        funext i
        simp [RowWrite.count, Ne.symm he]
      rw [hz]
      exact hfed

/-- Where there is room, an append succeeds and is not charged. -/
theorem Sound.append_of_room {c : Cache} (hc : c.Sound) {w : RowWrite}
    (hw : c.RowFits w.key w.value) (hr : c.HasRoom w.slot w.layer 1) :
    ∃ c', Action.exec (Cache.append w.slot w.layer w.key w.value) c = (.ok (), c') ∧ c'.Sound ∧
      c.FedTo (RowWrite.count [w]) c' := by
  obtain ⟨s, l, hs, hl, hcov, hrej⟩ := hr
  unfold Slot.Covers at hcov
  have hfull : s.capacity ≤ l.len → c.overflowPolicy ≠ .reject := fun h hp => by
    have := hrej hp
    omega
  have hfit : l.len < s.capacity → l.len + 1 ≤ s.allocated := fun h => by omega
  refine ⟨_, exec_append hw hs hl hfull hfit, ?_, pushed_fedTo hc hs hl rfl⟩
  exact hc.pushed hs hl hw (fun h => of_decide_eq_true h)
    fun h => hfit (Nat.lt_of_not_le (of_decide_eq_false h))

/-- Rows that all have room are written, in any order, without a failure or a charge. -/
theorem Sound.writeAll_of_room {c : Cache} (hc : c.Sound) {ws : List RowWrite}
    (hw : ∀ w ∈ ws, c.RowFits w.key w.value)
    (hr : ∀ w ∈ ws, c.HasRoom w.slot w.layer (RowWrite.count ws w.slot w.layer)) :
    ∃ c', Action.exec (writeAll ws) c = (.ok (), c') ∧ c'.Sound ∧
      c.FedTo (RowWrite.count ws) c' := by
  induction ws generalizing c with
  | nil => exact ⟨c, rfl, hc, hc.fedTo_refl⟩
  | cons w ws ih =>
    have hfirst : c.HasRoom w.slot w.layer 1 := (hr w (by simp)).mono (by
      rw [RowWrite.count_cons, RowWrite.count_self]
      omega)
    obtain ⟨c₁, he, hc₁, hfed⟩ := hc.append_of_room (hw w (by simp)) hfirst
    have hw₁ : ∀ v ∈ ws, c₁.RowFits v.key v.value := fun v hv => by
      have := hw v (List.mem_cons_of_mem _ hv)
      unfold RowFits at this ⊢
      rwa [hfed.limits.layout]
    have hr₁ : ∀ v ∈ ws, c₁.HasRoom v.slot v.layer (RowWrite.count ws v.slot v.layer) :=
      fun v hv => hfed.hasRoom (by
        rw [← RowWrite.count_cons]; exact hr v (List.mem_cons_of_mem _ hv))
    obtain ⟨c', he', hc', hfed'⟩ := ih hc₁ hw₁ hr₁
    refine ⟨c', by rw [writeAll, Action.exec_bind_ok he]; exact he', hc', ?_⟩
    rw [RowWrite.count_cons_eq]
    exact hfed.trans hfed'

end Cache

end CausalServe
