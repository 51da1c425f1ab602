import CausalServe.Model.LanguageModel
import CausalServe.Proofs.Cache.Room

/-! What a model does to the cache. All it may do is append rows; a model that serves every batch
appends one row to every layer for each token, and what it answers depends on nothing but the tokens
that a slot was fed since it was allocated. -/

namespace CausalServe

/-- A cache after rows were appended, or refused. -/
inductive Cache.Appended (c : Cache) : Cache → Prop
  | refl : Appended c c
  | append {c' : Cache} (h : Appended c c') (slot : SlotId) (layer : Nat)
      (key value : List Float32) : Appended c (Action.exec (append slot layer key value) c').2

/-- All that a model does to the cache is to append rows, whatever it is asked and whether it
answers or fails. -/
def LanguageModel.AppendsOnly (model : LanguageModel) : Prop :=
  ∀ entries c, Cache.Appended c (Action.exec (model.forward entries) c).2

theorem Cache.Appended.limits {c c' : Cache} (h : Appended c c') : SameLimits c c' := by
  induction h with
  | refl => exact .refl c
  | append _ slot layer key value ih => exact ih.trans (append_limits _ slot layer key value)

theorem Cache.Appended.writeAll {c c' : Cache} (h : Appended c c') (ws : List RowWrite) :
    Appended c (Action.exec (writeAll ws) c').2 := by
  induction ws generalizing c' with
  | nil => exact h
  | cons w ws ih =>
    have hnext := h.append w.slot w.layer w.key w.value
    rw [Cache.writeAll, Action.exec_bind]
    rcases hexec : Action.exec (Cache.append w.slot w.layer w.key w.value) c' with ⟨outcome, c₁⟩
    rw [hexec] at hnext
    cases outcome with
    | error => exact hnext
    | ok => exact ih hnext

/-! ## The tokens that slots were fed -/

/-- The tokens that a batch feeds to a slot. -/
def BatchEntry.tokensOf (entries : List BatchEntry) (slot : SlotId) : List Token :=
  (entries.filter fun entry => entry.slot = slot).flatMap BatchEntry.tokens

/-- Where a key tells the members of a list apart, one of them has it. -/
theorem filter_eq_singleton {α β : Type} [DecidableEq β] {f : α → β} {xs : List α}
    (h : (xs.map f).Nodup) {a : α} (ha : a ∈ xs) : xs.filter (fun x => f x = f a) = [a] := by
  induction xs with
  | nil => cases ha
  | cons x xs ih =>
    rw [List.map_cons, List.nodup_cons] at h
    rcases List.mem_cons.mp ha with rfl | ha
    · have hnone : xs.filter (fun x => f x = f a) = [] := List.filter_eq_nil_iff.mpr fun x hx he =>
        h.1 (List.mem_map.mpr ⟨x, hx, by simpa using he⟩)
      rw [List.filter_cons_of_pos (by simp), hnone]
    · have hne : f x ≠ f a := fun he => h.1 (List.mem_map.mpr ⟨a, ha, he.symm⟩)
      rw [List.filter_cons_of_neg (by simpa using hne)]
      exact ih h.2 ha

theorem BatchEntry.tokensOf_mem {entries : List BatchEntry}
    (h : (entries.map BatchEntry.slot).Nodup) {entry : BatchEntry} (hm : entry ∈ entries) :
    tokensOf entries entry.slot = entry.tokens := by
  rw [tokensOf, filter_eq_singleton h hm]
  exact List.append_nil _

theorem BatchEntry.tokensOf_not_mem {entries : List BatchEntry} {slot : SlotId}
    (h : ∀ entry ∈ entries, entry.slot ≠ slot) : tokensOf entries slot = [] := by
  have hnone : entries.filter (fun entry => entry.slot = slot) = [] :=
    List.filter_eq_nil_iff.mpr fun entry he hs => h entry he (by simpa using hs)
  rw [tokensOf, hnone]
  rfl

/-- A batch that feeds something to each of its slots, and no slot twice, and that there is room
for. -/
structure Cache.Batchable (c : Cache) (entries : List BatchEntry) : Prop where
  distinct : (entries.map BatchEntry.slot).Nodup
  nonempty : ∀ entry ∈ entries, entry.tokens ≠ []
  room : ∀ entry ∈ entries, ∃ st, c.slot? entry.slot = some st ∧
    st.Covers (st.len + entry.tokens.length) ∧
    (c.overflowPolicy = .reject → st.len + entry.tokens.length ≤ st.capacity)

/-- A cache that a model has served batches from, with the tokens that each slot was fed since it
was last allocated. -/
inductive Cache.History (model : LanguageModel) (config : CacheConfig) :
    Cache → (SlotId → List Token) → Prop
  | new : History model config (.new (.ofModel model.config) config) fun _ => []
  | allocate {c c' : Cache} {fed : SlotId → List Token} (h : History model config c fed)
      {owner : RequestId} {slot : SlotId}
      (hexec : Action.exec (Cache.allocate owner config.maxContext) c = (.ok slot, c')) :
      History model config c' (Function.update fed slot [])
  | evict {c : Cache} {fed : SlotId → List Token} (h : History model config c fed)
      (slot : SlotId) : History model config (Action.exec (Cache.evict slot) c).2 fed
  | reserve {c : Cache} {fed : SlotId → List Token} (h : History model config c fed)
      (slot : SlotId) (positions : Nat) :
      History model config (Action.exec (Cache.reserve slot positions) c).2 fed
  | forward {c : Cache} {fed : SlotId → List Token} (h : History model config c fed)
      {entries : List BatchEntry} (hbatch : c.Batchable entries) :
      History model config (Action.exec (model.forward entries) c).2
        fun slot => fed slot ++ BatchEntry.tokensOf entries slot

/-- Rows that feed a batch: every layer of its slots gets one for each token, and no other slot gets
any. -/
structure Cache.RowsFor (c : Cache) (layers : Nat) (entries : List BatchEntry)
    (rows : List RowWrite) : Prop where
  fits : ∀ w ∈ rows, c.RowFits w.key w.value ∧ w.layer < layers ∧
    ∃ entry ∈ entries, entry.slot = w.slot
  count : ∀ entry ∈ entries, ∀ layer < layers,
    RowWrite.count rows entry.slot layer = entry.tokens.length

/-- A model that never fails where there is room: it appends one row to every layer for each token
that it is fed, and answers with a function of all tokens that the slot was fed. -/
structure LanguageModel.Serves (model : LanguageModel) (config : CacheConfig)
    (logits : List Token → List Float32) : Prop where
  layered : 0 < model.config.numLayers
  forward : ∀ {c : Cache} {fed : SlotId → List Token} {entries : List BatchEntry},
    c.History model config fed → c.Batchable entries →
      ∃ rows, c.RowsFor model.config.numLayers entries rows ∧
        Action.exec (model.forward entries) c =
          (.ok (entries.map fun entry => logits (fed entry.slot ++ entry.tokens)),
            (Action.exec (Cache.writeAll rows) c).2)

variable {model : LanguageModel} {config : CacheConfig} {logits : List Token → List Float32}
  {c : Cache} {fed : SlotId → List Token} {entries : List BatchEntry}

/-- What holds of every cache with a history. -/
structure Cache.Kept (model : LanguageModel) (config : CacheConfig) (c : Cache) : Prop where
  sound : c.Sound
  limits : Cache.SameLimits (.new (.ofModel model.config) config) c
  level : c.AllLevel

theorem Cache.Kept.numLayers (h : c.Kept model config) {slot : SlotId} {st : Slot}
    (hst : c.slot? slot = some st) : st.layers.length = model.config.numLayers := by
  rw [(h.sound.slots slot st hst).layers, h.limits.layout]
  rfl

theorem Cache.Kept.layers_ne (h : c.Kept model config) (hlayers : 0 < model.config.numLayers)
    {slot : SlotId} {st : Slot} (hst : c.slot? slot = some st) : st.layers ≠ [] :=
  List.ne_nil_of_length_pos (by rw [h.numLayers hst]; exact hlayers)

/-- The rows of a batch are all written where there is room for the batch. -/
theorem Cache.Kept.written (h : c.Kept model config) (hbatch : c.Batchable entries)
    {rows : List RowWrite} (hrows : c.RowsFor model.config.numLayers entries rows) :
    ∃ c' n, Action.exec (Cache.writeAll rows) c = (.ok (), c') ∧ c'.Sound ∧ c.FedTo n c' ∧
      ∀ slot, ∀ layer < model.config.numLayers,
        n slot layer = (BatchEntry.tokensOf entries slot).length := by
  have htokens : ∀ slot, ∀ layer < model.config.numLayers,
      RowWrite.count rows slot layer = (BatchEntry.tokensOf entries slot).length := by
    intro slot layer hlayer
    by_cases hm : ∃ entry ∈ entries, entry.slot = slot
    · obtain ⟨entry, he, rfl⟩ := hm
      rw [BatchEntry.tokensOf_mem hbatch.distinct he]
      exact hrows.count entry he layer hlayer
    · have hnot : ∀ entry ∈ entries, entry.slot ≠ slot := fun entry he hs => hm ⟨entry, he, hs⟩
      rw [BatchEntry.tokensOf_not_mem hnot, List.length_nil]
      refine List.countP_eq_zero.mpr fun w hw hp => ?_
      obtain ⟨-, -, entry, he, hs⟩ := hrows.fits w hw
      simp only [decide_eq_true_eq] at hp
      exact hnot entry he (hs.trans hp.1)
  obtain ⟨c', hwrite, hsound, hfed⟩ := h.sound.writeAll_of_room (fun w hw => (hrows.fits w hw).1)
    fun w hw => by
      obtain ⟨-, hlayer, entry, he, hs⟩ := hrows.fits w hw
      obtain ⟨st, hst, hcov, hrej⟩ := hbatch.room entry he
      have hlt : w.layer < st.layers.length := by rw [h.numLayers hst]; exact hlayer
      have hl := List.getElem?_eq_getElem hlt
      have hlen := h.level entry.slot st hst _ (List.getElem_mem hlt)
      refine ⟨st, _, hs ▸ hst, hl, ?_, ?_⟩ <;> rw [hlen, ← hs, hrows.count entry he w.layer hlayer]
      · exact hcov
      · exact hrej
  exact ⟨c', _, hwrite, hsound, hfed, htokens⟩

/-- A batch that there is room for is served: every layer of its slots gets a row for each token. -/
theorem LanguageModel.Serves.fedTo (hserves : model.Serves config logits)
    (h : c.History model config fed) (hkept : c.Kept model config) (hbatch : c.Batchable entries) :
    ∃ c' n, Action.exec (model.forward entries) c =
        (.ok (entries.map fun entry => logits (fed entry.slot ++ entry.tokens)), c') ∧
      Cache.Appended c c' ∧ c'.Sound ∧ c.FedTo n c' ∧
      ∀ slot, ∀ layer < model.config.numLayers,
        n slot layer = (BatchEntry.tokensOf entries slot).length := by
  obtain ⟨rows, hrows, hexec⟩ := hserves.forward h hbatch
  obtain ⟨c', n, hwrite, hsound, hfed, hn⟩ := hkept.written hbatch hrows
  have happended := Cache.Appended.refl.writeAll (c := c) rows
  rw [hwrite] at hexec happended
  exact ⟨c', n, hexec, happended, hsound, hfed, hn⟩

/-- What a layer holds after its slot was fed. -/
theorem Cache.FedTo.len {n : SlotId → Nat → Nat} {c' : Cache} (hfed : c.FedTo n c')
    (hkept : c.Kept model config) {slot : SlotId} {k : Nat}
    (hn : ∀ layer < model.config.numLayers, n slot layer = k) {st : Slot}
    (hst : c.slot? slot = some st) : ∃ st', c'.slot? slot = some st' ∧ st.FedTo (n slot) st' ∧
      ∀ l ∈ st'.layers, l.len = min (st.len + k) st.capacity := by
  obtain ⟨st', hst', hslot⟩ := hfed.live slot st hst
  exact ⟨st', hst', hslot, fun l hl => hslot.len (hkept.level slot st hst)
    (fun i hi => hn i (by rw [← hkept.numLayers hst]; exact hi)) hl⟩

theorem Cache.Kept.fedTo (hkept : c.Kept model config) {c' : Cache} {n : SlotId → Nat → Nat}
    (hsound : c'.Sound) (hfed : c.FedTo n c') (hn : ∀ slot, ∀ layer < model.config.numLayers,
      n slot layer = (BatchEntry.tokensOf entries slot).length) : c'.Kept model config where
  sound := hsound
  limits := hkept.limits.trans hfed.limits
  level := fun slot st' hst' => by
    cases hold : c.slot? slot with
    | none => rw [hfed.dead slot hold] at hst'; cases hst'
    | some st =>
      obtain ⟨st₁, hst₁, -, hlen⟩ := hfed.len hkept (hn slot) hold
      cases hst₁.symm.trans hst'
      exact Slot.level_of_forall hlen

/-- What holds of a cache when its batches are run holds of it ever after. -/
theorem Cache.History.keep (hforward : ∀ {c : Cache} {fed : SlotId → List Token}
      {entries : List BatchEntry}, c.History model config fed → c.Kept model config →
        c.Batchable entries → (Action.exec (model.forward entries) c).2.Kept model config)
    (h : c.History model config fed) : c.Kept model config := by
  induction h with
  | new => exact ⟨.new _ _, .refl _, fun slot st hst => by simp [Cache.new, Cache.slot?] at hst⟩
  | @allocate c c' fed h owner slot hexec ih =>
    have hsound := ih.sound.allocate owner config.maxContext
    have hlimits := ih.limits.trans (Cache.allocate_limits c owner config.maxContext)
    rw [hexec] at hsound hlimits
    refine ⟨hsound, hlimits, fun other st hst => ?_⟩
    rw [Cache.exec_allocate] at hexec
    split at hexec
    · cases hexec
    next hpos =>
      cases hexec
      rw [ih.sound.slot?_opened] at hst
      split at hst
      · cases hst
        exact Slot.level_of_forall (n := 0) fun l hl => by rw [List.eq_of_mem_replicate hl]; rfl
      · exact ih.level other st hst
  | @evict c fed h slot ih =>
    refine ⟨ih.sound.evict slot, ih.limits.trans (Cache.evict_limits c slot), fun other st hst => ?_⟩
    rw [Cache.exec_evict] at hst
    split at hst
    next s hs =>
      rw [Cache.slot?_closed hs] at hst
      split at hst
      · cases hst
      · exact ih.level other st hst
    next => exact ih.level other st hst
  | @reserve c fed h slot positions ih =>
    refine ⟨ih.sound.reserve slot positions,
      ih.limits.trans (Cache.reserve_limits c slot positions), fun other st hst => ?_⟩
    cases hs : c.slot? slot with
    | none =>
      rw [Cache.exec_reserve_none hs] at hst
      exact ih.level other st hst
    | some s =>
      rcases hres : Action.exec (Cache.reserve slot positions) c with ⟨_ | _, c'⟩ <;>
        rw [hres] at hst
      · rw [Cache.reserve_error hres] at hst
        exact ih.level other st hst
      · rcases Cache.reserve_ok hs hres with ⟨-, rfl⟩ | ⟨-, -, rfl⟩
        · exact ih.level other st hst
        · change (c.grown slot s positions).slot? other = some st at hst
          rw [Cache.slot?_grown hs] at hst
          split at hst
          · cases hst
            exact ih.level slot s hs
          · exact ih.level other st hst
  | forward h hbatch ih => exact hforward h ih hbatch

theorem Cache.History.kept (hserves : model.Serves config logits)
    (h : c.History model config fed) : c.Kept model config := by
  refine h.keep fun hc hkept hbatch => ?_
  obtain ⟨c', n, hexec, -, hsound, hfed, hn⟩ := hserves.fedTo hc hkept hbatch
  rw [hexec]
  exact hkept.fedTo hsound hfed hn

end CausalServe
