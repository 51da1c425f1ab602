import CausalServe.Proofs.Scheduler.Reachable

/-! A scheduler whose batches are run: after a tick was planned, every request of the batch is fed
its pending tokens in all layers and then makes its step or fails. The rows of a batch may be
written in any order. None of them is ever refused or charged, because what a tick reserves is what
its batch still has to write. -/

namespace CausalServe

theorem Round.Move.allLevel {now : Nat} {a b : Round} (hm : Move now a b) (h : a.scheduler.Owned)
    (hl : a.scheduler.cache.AllLevel) : b.scheduler.cache.AllLevel := by
  intro id s hs
  obtain ⟨old, charge, rfl, hold | ⟨-, owner, rfl⟩⟩ := hm.slots h hs
  · exact hl id old hold
  · exact Slot.level_of_forall (n := 0) fun l hl => by rw [List.eq_of_mem_replicate hl]; rfl

theorem Round.Moves.allLevel {now : Nat} {a b : Round} (hm : Moves now a b)
    (h : a.scheduler.Owned) (hl : a.scheduler.cache.AllLevel) : b.scheduler.cache.AllLevel :=
  (hm.keep (P := fun x => x.scheduler.Owned ∧ x.scheduler.cache.AllLevel) ⟨h, hl⟩
    fun _ _ hmove hp => ⟨hmove.owned hp.1, hmove.allLevel hp.1 hp.2⟩).2

/-- A slot with rows yet to be written: they fit what is charged, and after them all layers are
equally long. -/
structure Slot.Owes (s : Slot) (policy : OverflowPolicy) (owed : Nat → Nat) : Prop where
  level : ∃ n, ∀ i l, s.layers[i]? = some l → min (l.len + owed i) s.capacity = n
  covers : ∀ i l, s.layers[i]? = some l → s.Covers (l.len + owed i)
  fits : ∀ i l, s.layers[i]? = some l → policy = .reject → l.len + owed i ≤ s.capacity

theorem Slot.Owes.congr {s : Slot} {policy : OverflowPolicy} {owed owed' : Nat → Nat}
    (h : s.Owes policy owed) (he : ∀ i < s.layers.length, owed' i = owed i) :
    s.Owes policy owed' := by
  have hlt : ∀ {i l}, s.layers[i]? = some l → owed' i = owed i := fun hl =>
    he _ (List.getElem?_eq_some_iff.mp hl).1
  obtain ⟨n, hn⟩ := h.level
  exact ⟨⟨n, fun i l hl => by rw [hlt hl]; exact hn i l hl⟩,
    fun i l hl => by rw [hlt hl]; exact h.covers i l hl,
    fun i l hl => by rw [hlt hl]; exact h.fits i l hl⟩

theorem Slot.Owes.isLevel {s : Slot} {policy : OverflowPolicy} {c : Cache}
    (h : s.Owes policy fun _ => 0) (hs : s.Sound c) : s.Level := by
  obtain ⟨n, hn⟩ := h.level
  refine Slot.level_of_forall (n := n) fun l hl => ?_
  obtain ⟨i, hi⟩ := List.mem_iff_getElem?.mp hl
  have := hn i l hi
  have := hs.len_le l hl
  have := hs.allocated_le
  omega

/-- Rows that were owed are written. -/
theorem Slot.Owes.fed {s s' : Slot} {policy : OverflowPolicy} {owed n : Nat → Nat}
    (h : s.Owes policy owed) (hn : ∀ i, n i ≤ owed i) (hfed : s.FedTo n s') :
    s'.Owes policy fun i => owed i - n i := by
  have key : ∀ (i : Nat) (l' : LayerStore), s'.layers[i]? = some l' →
      ∃ l, s.layers[i]? = some l ∧ l'.len + (owed i - n i) ≤ l.len + owed i ∧
        min (l'.len + (owed i - n i)) s.capacity = min (l.len + owed i) s.capacity := by
    intro i l' hl'
    have hlt : i < s.layers.length := hfed.numLayers ▸ (List.getElem?_eq_some_iff.mp hl').1
    obtain ⟨m, hm, hlen, -⟩ := hfed.layers i _ (List.getElem?_eq_getElem hlt)
    cases hm.symm.trans hl'
    have := hn i
    exact ⟨_, List.getElem?_eq_getElem hlt, by omega, by omega⟩
  obtain ⟨k, hk⟩ := h.level
  refine ⟨⟨k, fun i l' hl' => ?_⟩, fun i l' hl' => ?_, fun i l' hl' hp => ?_⟩
  · obtain ⟨l, hl, -, he⟩ := key i l' hl'
    rw [hfed.capacity, he]
    exact hk i l hl
  · obtain ⟨l, hl, hle, -⟩ := key i l' hl'
    have := h.covers i l hl
    unfold Slot.Covers at this ⊢
    rw [hfed.capacity, hfed.allocated]
    omega
  · obtain ⟨l, hl, hle, -⟩ := key i l' hl'
    rw [hfed.capacity]
    exact Nat.le_trans hle (h.fits i l hl hp)

namespace Scheduler

/-- The states of a scheduler whose batches are run, with the requests of the current batch and how
many rows each of them has yet to write to each layer. -/
inductive Ticking (config : SchedulerConfig) (cacheConfig : CacheConfig) (layout : Layout) :
    Scheduler → List RequestId → (RequestId → Nat → Nat) → Prop
  | new : Ticking config cacheConfig layout (.new config cacheConfig layout) [] fun _ _ => 0
  | addRequest {s : Scheduler} {left : RequestId → Nat → Nat}
      (h : Ticking config cacheConfig layout s [] left) {r : Request} (hr : r.Fresh) :
      Ticking config cacheConfig layout (Action.exec (addRequest r) s).2 [] left
  | cancel {s : Scheduler} {batch : List RequestId} {left : RequestId → Nat → Nat}
      (h : Ticking config cacheConfig layout s batch left) (id : RequestId) :
      Ticking config cacheConfig layout (Action.exec (cancel id) s).2 batch left
  | removeRequest {s : Scheduler} {left : RequestId → Nat → Nat}
      (h : Ticking config cacheConfig layout s [] left) (id : RequestId) :
      Ticking config cacheConfig layout (s.removeRequest id).2 [] left
  | failRequest {s : Scheduler} {left : RequestId → Nat → Nat}
      (h : Ticking config cacheConfig layout s [] left) (id : RequestId) (e : Error) :
      Ticking config cacheConfig layout (Action.exec (failRequest id e) s).2 [] left
  | schedule {s : Scheduler} {left : RequestId → Nat → Nat}
      (h : Ticking config cacheConfig layout s [] left) (now : Nat) :
      Ticking config cacheConfig layout (s.schedule now).2 (s.schedule now).1.batch
        fun id _ => ((s.schedule now).2.request? id).elim 0 Request.pendingLen
  /-- A row of a request of the batch is written. -/
  | append {s : Scheduler} {batch : List RequestId} {left : RequestId → Nat → Nat}
      (h : Ticking config cacheConfig layout s batch left) {r : Request} {slot : SlotId}
      {layer : Nat} {key value : List Float32} (hr : r ∈ s.requests) (hid : r.id ∈ batch)
      (hslot : r.slot = some slot) (hlayer : layer < layout.numLayers)
      (hleft : 0 < left r.id layer)
      (hkey : key.length = layout.kvWidth) (hvalue : value.length = layout.kvWidth) :
      Ticking config cacheConfig layout
        { s with cache := (Action.exec (Cache.append slot layer key value) s.cache).2 } batch
        fun id i => if id = r.id ∧ i = layer then left id i - 1 else left id i
  /-- A request of the batch that has written all its rows makes its step. -/
  | completeStep {s : Scheduler} {batch : List RequestId} {left : RequestId → Nat → Nat}
      (h : Ticking config cacheConfig layout s batch left) {id : RequestId}
      (hdone : ∀ layer < layout.numLayers, left id layer = 0) (token : Token)
      (eos : Option Token) :
      Ticking config cacheConfig layout (Action.exec (completeStep id token eos) s).2
        (batch.erase id) left
  /-- A request of the batch fails, at any time. -/
  | failStep {s : Scheduler} {batch : List RequestId} {left : RequestId → Nat → Nat}
      (h : Ticking config cacheConfig layout s batch left) (id : RequestId) (e : Error) :
      Ticking config cacheConfig layout (Action.exec (failRequest id e) s).2 (batch.erase id) left

/-- The rows that a slot has yet to get while a batch runs. -/
def owed (batch : List RequestId) (left : RequestId → Nat → Nat) (owner : RequestId) (layer : Nat) :
    Nat :=
  if owner ∈ batch then left owner layer else 0

/-- The books are in order, and every live slot has room for the rows that it has yet to get. -/
structure Orderly (layout : Layout) (s : Scheduler) (batch : List RequestId)
    (left : RequestId → Nat → Nat) : Prop where
  owned : s.Owned
  layout_eq : s.cache.layout = layout
  owes : ∀ slot st, s.cache.slot? slot = some st →
    st.Owes s.cache.overflowPolicy (owed batch left st.owner)

variable {config : SchedulerConfig} {cacheConfig : CacheConfig} {layout : Layout} {s s' : Scheduler}
  {batch batch' : List RequestId} {left left' : RequestId → Nat → Nat}

/-- Slots may be given back, and requests may leave the batch that have written all their rows or
hold no slot. -/
theorem Orderly.of_slots (h : Orderly layout s batch left) (howned : s'.Owned)
    (hsettings : SameSettings s s')
    (hslots : ∀ slot st, s'.cache.slot? slot = some st → s.cache.slot? slot = some st)
    (howed : ∀ slot st, s'.cache.slot? slot = some st → ∀ i < layout.numLayers,
      owed batch' left' st.owner i = owed batch left st.owner i) :
    Orderly layout s' batch' left' where
  owned := howned
  layout_eq := hsettings.limits.layout.trans h.layout_eq
  owes := fun slot st hst => by
    have hold := hslots slot st hst
    have hlen := (h.owned.sound.slots slot st hold).layers
    rw [h.layout_eq] at hlen
    rw [hsettings.limits.overflowPolicy]
    exact (h.owes slot st hold).congr fun i hi => howed slot st hst i (hlen ▸ hi)

theorem slots_retire (s : Scheduler) (r : Request) {slot : SlotId} {st : Slot}
    (h : (s.retire r).cache.slot? slot = some st) : s.cache.slot? slot = some st := by
  rw [Scheduler.retire, release_eq] at h
  exact (Round.slot?_freed_some h).2

theorem slots_failRequest {s : Scheduler} {id : RequestId} {e : Error} {slot : SlotId} {st : Slot}
    (h : (Action.exec (Scheduler.failRequest id e) s).2.cache.slot? slot = some st) :
    s.cache.slot? slot = some st := by
  rcases failRequest_cases s id e with ⟨fault, he⟩ | ⟨r, -, -, he⟩ <;> rw [he] at h
  · exact h
  · exact slots_retire s _ h

theorem slots_completeStep {s : Scheduler} {id : RequestId} {token : Token} {eos : Option Token}
    {slot : SlotId} {st : Slot}
    (h : (Action.exec (Scheduler.completeStep id token eos) s).2.cache.slot? slot = some st) :
    s.cache.slot? slot = some st := by
  rcases completeStep_cases s id token eos with ⟨fault, he⟩ | ⟨r, hr, hrun⟩
  · rw [he] at h; exact h
  · rw [exec_completeStep hr hrun] at h
    split at h
    · exact h
    · exact slots_retire s _ h

/-- A request that was failed holds no slot. -/
theorem owner_ne_of_failRequest {s : Scheduler} (h : s.Owned) {id : RequestId} {e : Error}
    {slot : SlotId} {st : Slot}
    (hst : (Action.exec (Scheduler.failRequest id e) s).2.cache.slot? slot = some st) :
    st.owner ≠ id := by
  have ho := h.failRequest id e
  obtain ⟨r, hr, hid, hrs⟩ := (ho.holder_iff slot st.owner).mp
    (Cache.holder_eq_some.mpr ⟨st, hst, rfl⟩)
  have hlive := RequestState.isTerminal_of_isRunning (ho.running_of_slot hr hrs)
  intro he
  rcases failRequest_cases s id e with ⟨fault, hf⟩ | ⟨x, hx, hxlive, hf⟩
  · rw [hf] at hr
    have hfind : s.request? id = some r := by rw [← he, ← hid]; exact h.ids.request? hr
    rw [exec_failRequest hfind hlive] at hf
    cases (Prod.mk.inj hf).1
  · rw [hf] at hr
    rcases mem_update.mp hr with ⟨rfl, -⟩ | ⟨-, hne⟩
    · cases hlive
    · exact hne (hid.trans (he.trans (mem_of_request? hx).2.symm))

/-! ## What a tick reserves is what its batch writes -/

theorem Orderly.schedule (h : Orderly layout s [] left) (now : Nat) :
    Orderly layout (s.schedule now).2 (s.schedule now).1.batch
      fun id _ => ((s.schedule now).2.request? id).elim 0 Request.pendingLen := by
  have howned := h.owned.tick now
  have hsettings := (h.owned.moves_tick now).settings
  have hlevel : (s.tick now).scheduler.cache.AllLevel := by
    refine (h.owned.moves_tick now).allLevel h.owned fun id st hst => ?_
    exact (h.owes id st hst).isLevel (h.owned.sound.slots id st hst)
  rw [schedule_eq]
  refine ⟨howned, hsettings.limits.layout.trans h.layout_eq, fun slot st hst => ?_⟩
  -- a live slot is that of a running request, and those are ready
  obtain ⟨r, hr, hid, hrs⟩ := (howned.holder_iff slot st.owner).mp
    (Cache.holder_eq_some.mpr ⟨st, hst, rfl⟩)
  have hrun := howned.running_of_slot hr hrs
  have hbatch : st.owner ∈ (s.tick now).plan.batch := by
    rw [howned.batch_eq, ← hid]
    exact (howned.mem_running hr).mpr hrun
  obtain ⟨slot', st', hs', hst', hcov, hrej⟩ := h.owned.ready_of_tick hr hrun
  cases hs'.symm.trans hrs
  cases hst'.symm.trans hst
  have howed : owed (s.tick now).plan.batch
      (fun id _ => ((s.tick now).scheduler.request? id).elim 0 Request.pendingLen) st.owner =
        fun _ => r.pendingLen := by
    funext i
    rw [owed, if_pos hbatch, ← hid, howned.ids.request? hr]
    rfl
  rw [howed]
  have hlen : ∀ (i : Nat) (l : LayerStore), st.layers[i]? = some l → l.len = st.len := fun i l hl =>
    hlevel slot st hst l (List.mem_of_getElem? hl)
  exact {
    level := ⟨min (st.len + r.pendingLen) st.capacity, fun i l hl => by rw [hlen i l hl]⟩
    covers := fun i l hl => by rw [hlen i l hl]; exact hcov
    fits := fun i l hl hp => by rw [hlen i l hl]; exact hrej hp }

/-- The slot of a request of the batch, with the rows that it has yet to get. -/
theorem Orderly.seat (h : Orderly layout s batch left) {r : Request} {slot : SlotId}
    (hr : r ∈ s.requests) (hid : r.id ∈ batch) (hslot : r.slot = some slot) :
    ∃ st, s.cache.slot? slot = some st ∧ st.owner = r.id ∧ st.layers.length = layout.numLayers ∧
      st.Owes s.cache.overflowPolicy (left r.id) := by
  obtain ⟨st, hst, hown⟩ := Cache.holder_eq_some.mp
    ((h.owned.holder_iff slot r.id).mpr ⟨r, hr, rfl, hslot⟩)
  have howed : owed batch left r.id = left r.id := by
    funext i
    rw [owed, if_pos hid]
  have howes := h.owes slot st hst
  rw [hown, howed] at howes
  exact ⟨st, hst, hown, (h.owned.sound.slots slot st hst).layers.trans (by rw [h.layout_eq]), howes⟩

/-- The row of a request of the batch is never refused. -/
theorem Orderly.exec_append (h : Orderly layout s batch left) {r : Request} {slot : SlotId}
    {layer : Nat} {key value : List Float32} (hr : r ∈ s.requests) (hid : r.id ∈ batch)
    (hslot : r.slot = some slot) (hlayer : layer < layout.numLayers) (hleft : 0 < left r.id layer)
    (hkey : key.length = layout.kvWidth) (hvalue : value.length = layout.kvWidth) :
    ∃ c, Action.exec (Cache.append slot layer key value) s.cache = (.ok (), c) ∧
      s.cache.FedTo (RowWrite.count [⟨slot, layer, key, value⟩]) c := by
  obtain ⟨st, hst, -, hlen, howes⟩ := h.seat hr hid hslot
  have hl := List.getElem?_eq_getElem (hlen.symm ▸ hlayer : layer < st.layers.length)
  have hroom : s.cache.HasRoom slot layer 1 :=
    Cache.HasRoom.mono ⟨st, _, hst, hl, howes.covers layer _ hl, howes.fits layer _ hl⟩ hleft
  obtain ⟨c, hexec, -, hfed⟩ := h.owned.sound.append_of_room (w := ⟨slot, layer, key, value⟩)
    (by unfold Cache.RowFits; rw [h.layout_eq]; exact ⟨hkey, hvalue⟩) hroom
  exact ⟨c, hexec, hfed⟩

/-- A row of a request of the batch goes to its slot. -/
theorem Orderly.append (h : Orderly layout s batch left) {r : Request} {slot : SlotId}
    {layer : Nat} {key value : List Float32} (hr : r ∈ s.requests) (hid : r.id ∈ batch)
    (hslot : r.slot = some slot) (hlayer : layer < layout.numLayers) (hleft : 0 < left r.id layer)
    (hkey : key.length = layout.kvWidth) (hvalue : value.length = layout.kvWidth) :
    Orderly layout { s with cache := (Action.exec (Cache.append slot layer key value) s.cache).2 }
      batch fun id i => if id = r.id ∧ i = layer then left id i - 1 else left id i := by
  obtain ⟨st, hst, hown, -, howes⟩ := h.seat hr hid hslot
  obtain ⟨c, hexec, hfed⟩ := h.exec_append hr hid hslot hlayer hleft hkey hvalue
  have howned := h.owned.append slot layer key value
  rw [hexec] at howned ⊢
  refine ⟨howned, hfed.limits.layout.trans h.layout_eq, fun other st' hst' => ?_⟩
  change c.slot? other = some st' at hst'
  change st'.Owes c.overflowPolicy _
  rw [hfed.limits.overflowPolicy]
  cases hold : s.cache.slot? other with
  | none => rw [hfed.dead other hold] at hst'; cases hst'
  | some old =>
    obtain ⟨st₁, hst₁, hfed₁⟩ := hfed.live other old hold
    cases hst₁.symm.trans hst'
    by_cases he : other = slot
    · subst he
      cases hold.symm.trans hst
      have hcount : RowWrite.count [⟨other, layer, key, value⟩] other =
          fun i => if i = layer then 1 else 0 := by
        funext i
        by_cases hi : i = layer <;> simp [RowWrite.count, hi, eq_comm]
      rw [hcount] at hfed₁
      refine (howes.fed (fun i => ?_) hfed₁).congr fun i _ => ?_
      · split
        next hi => subst hi; exact hleft
        next => exact Nat.zero_le _
      · rw [owed, hfed₁.owner, hown, if_pos hid]
        by_cases hi : i = layer <;> simp [hi]
    · -- the other slots are those of other requests
      have hne : old.owner ≠ r.id := fun ho => he (by
        obtain ⟨x, hx, hxid, hxs⟩ := (h.owned.holder_iff other old.owner).mp
          (Cache.holder_eq_some.mpr ⟨old, hold, rfl⟩)
        rw [h.owned.ids.eq hx hr (hxid.trans ho), hslot] at hxs
        exact (Option.some.inj hxs).symm)
      have hcount : RowWrite.count [⟨slot, layer, key, value⟩] other = fun _ => 0 := by
        funext i
        simp [RowWrite.count, Ne.symm he]
      rw [hcount] at hfed₁
      have hsame : owed batch
          (fun id i => if id = r.id ∧ i = layer then left id i - 1 else left id i) st'.owner =
            owed batch left old.owner := by
        funext i
        simp [owed, hfed₁.owner, hne]
      rw [hsame]
      exact (h.owes other old hold).fed (fun _ => Nat.zero_le _) hfed₁

theorem Ticking.orderly (h : Ticking config cacheConfig layout s batch left) :
    Orderly layout s batch left := by
  induction h with
  | new => exact ⟨.new config cacheConfig layout, rfl, fun slot st hst => by
      simp [Scheduler.new, Cache.new, Cache.slot?] at hst⟩
  | @addRequest s _ _ r hr ih =>
    refine ih.of_slots (ih.owned.addRequest hr.slot) (addRequest_calls s r).settings ?_ fun _ _ _ _ _ => rfl
    rcases addRequest_cases s r with ⟨e, he⟩ | ⟨-, -, he⟩ <;> rw [he] <;> exact fun _ _ => id
  | @cancel s _ _ _ id ih =>
    refine ih.of_slots (ih.owned.cancel id) (cancel_calls s id).settings ?_ fun _ _ _ _ _ => rfl
    rw [exec_cancel]
    cases s.request? id <;> exact fun _ _ h => h
  | @removeRequest s _ _ id ih =>
    refine ih.of_slots (ih.owned.removeRequest id) (removeRequest_calls s id).settings ?_
      fun _ _ _ _ _ => rfl
    intro slot st hst
    cases hr : s.request? id with
    | none => rw [removeRequest_of_none hr] at hst; exact hst
    | some r =>
      rw [removeRequest_of_some hr, release_eq] at hst
      exact (Round.slot?_freed_some hst).2
  | @failRequest s _ _ id e ih =>
    exact ih.of_slots (ih.owned.failRequest id e) (failRequest_calls s id e).settings
      (fun _ _ => slots_failRequest) fun _ _ _ _ _ => rfl
  | schedule _ now ih => exact ih.schedule now
  | append _ hr hid hslot hlayer hleft hkey hvalue ih =>
    exact ih.append hr hid hslot hlayer hleft hkey hvalue
  | @completeStep s batch left _ id hdone token eos ih =>
    refine ih.of_slots (ih.owned.completeStep id token eos) (completeStep_calls s id token eos).settings
      (fun _ _ => slots_completeStep) fun slot st _ i hi => ?_
    by_cases he : st.owner = id
    · have hz := hdone i hi
      unfold owed
      rw [he, hz]
      split <;> split <;> rfl
    · simp [owed, List.mem_erase_of_ne he]
  | @failStep s batch left _ id e ih =>
    refine ih.of_slots (ih.owned.failRequest id e) (failRequest_calls s id e).settings
      (fun _ _ => slots_failRequest) fun slot st hst i _ => ?_
    simp [owed, List.mem_erase_of_ne (owner_ne_of_failRequest ih.owned hst)]

theorem Ticking.settings (h : Ticking config cacheConfig layout s batch left) :
    SameSettings (.new config cacheConfig layout) s := by
  induction h with
  | new => exact .refl _
  | addRequest _ _ ih => exact ih.trans (addRequest_calls _ _).settings
  | cancel _ id ih => exact ih.trans (cancel_calls _ id).settings
  | removeRequest _ id ih => exact ih.trans (removeRequest_calls _ id).settings
  | failRequest _ id e ih => exact ih.trans (failRequest_calls _ id e).settings
  | schedule h now ih => exact ih.trans (h.orderly.owned.moves_tick now).settings
  | append _ _ _ _ _ _ _ _ ih => exact ih.trans ⟨rfl, rfl, Cache.append_limits _ _ _ _ _⟩
  | completeStep _ _ token eos ih => exact ih.trans (completeStep_calls _ _ token eos).settings
  | failStep _ id e ih => exact ih.trans (failRequest_calls _ id e).settings

/-! ## A batch fits the cache -/

/-- Right after a tick was planned, the rows of its batch are all written, in whatever order they
come and as far as they get, and none of them is charged. -/
theorem Ticking.batch_fits (h : Ticking config cacheConfig layout s [] left) (now : Nat) :
    (∀ id ∈ (s.schedule now).1.batch, ∃ r slot st, (s.schedule now).2.request? id = some r ∧
      r.slot = some slot ∧ (s.schedule now).2.cache.slot? slot = some st ∧
        st.layers.length = layout.numLayers) ∧
    ∀ rows : List RowWrite,
      (∀ w ∈ rows, w.key.length = layout.kvWidth ∧ w.value.length = layout.kvWidth) →
      (∀ w ∈ rows, w.layer < layout.numLayers ∧ ∃ r ∈ (s.schedule now).2.requests,
        r.id ∈ (s.schedule now).1.batch ∧ r.slot = some w.slot ∧
          RowWrite.count rows w.slot w.layer ≤ r.pendingLen) →
      ∃ cache, Action.exec (Cache.writeAll rows) (s.schedule now).2.cache = (.ok (), cache) ∧
        cache.used = (s.schedule now).2.cache.used ∧
        cache.gauge = (s.schedule now).2.cache.gauge := by
  have ho := h.orderly.schedule now
  refine ⟨fun id hid => ?_, fun rows hwidth hrows => ?_⟩
  · rw [schedule_eq, ((h.orderly.owned.tick now).batch_eq)] at hid
    obtain ⟨r, hr, rfl, hrun⟩ := (ho.owned.running_iff id).mp hid
    obtain ⟨slot, st, hslot, hst, -⟩ := ho.owned.slot_of_running hr hrun
    exact ⟨r, slot, st, ho.owned.ids.request? hr, hslot, hst,
      by rw [(ho.owned.sound.slots slot st hst).layers, ho.layout_eq]⟩
  · obtain ⟨cache, hexec, -, hfed⟩ := ho.owned.sound.writeAll_of_room
      (fun w (hw : w ∈ rows) => by unfold Cache.RowFits; rw [ho.layout_eq]; exact hwidth w hw)
      fun w hw => by
        obtain ⟨hlayer, r, hr, hid, hslot, hcount⟩ := hrows w hw
        obtain ⟨st, hst, hown⟩ := Cache.holder_eq_some.mp
          ((ho.owned.holder_iff w.slot r.id).mpr ⟨r, hr, rfl, hslot⟩)
        have howes := ho.owes w.slot st hst
        have hlt : w.layer < st.layers.length := by
          rw [(ho.owned.sound.slots w.slot st hst).layers, ho.layout_eq]
          exact hlayer
        have hl := List.getElem?_eq_getElem hlt
        have hroom : (s.schedule now).2.cache.HasRoom w.slot w.layer _ :=
          ⟨st, _, hst, hl, howes.covers w.layer _ hl, howes.fits w.layer _ hl⟩
        refine hroom.mono ?_
        rw [owed, hown, if_pos hid, ho.owned.ids.request? hr]
        exact hcount
    exact ⟨cache, hexec, hfed.used, hfed.gauge⟩

/-- A prompt of two tokens, written to two layers in turn. -/
theorem two_tokens_fit_two_layers : ∃ (s : Scheduler) (cache : Cache),
    (s.schedule 0).1.batch = [1] ∧
    Action.exec (Cache.writeAll [⟨0, 0, [1], [2]⟩, ⟨0, 1, [3], [4]⟩, ⟨0, 1, [5], [6]⟩,
      ⟨0, 0, [7], [8]⟩]) (s.schedule 0).2.cache = (.ok (), cache) ∧
    cache.used = (s.schedule 0).2.cache.used := by
  have hs : Ticking {} { memoryBudget := some 4096 } ⟨2, 1, 1, 1⟩ _ [] _ :=
    .addRequest .new (Request.Fresh.mk (r := Request.new 1 [5, 6] (.greedy 4)) rfl rfl)
  obtain ⟨hlive, hfits⟩ := Ticking.batch_fits hs 0
  obtain ⟨r, slot, st, hr, hslot, -, -⟩ := hlive 1 (List.mem_of_head? (by cbv))
  have hfound : (some r).map (fun r => (r.id, r.slot, r.pendingLen)) = some (1, some 0, 2) := by
    rw [← hr]
    cbv
  simp only [Option.map_some, Option.some.injEq, Prod.mk.injEq] at hfound
  obtain ⟨hid, hzero, hpending⟩ := hfound
  obtain ⟨cache, hexec, hused, -⟩ := hfits [⟨0, 0, [1], [2]⟩, ⟨0, 1, [3], [4]⟩, ⟨0, 1, [5], [6]⟩,
      ⟨0, 0, [7], [8]⟩] (by decide) fun w hw => by
    have hrows : ∀ w ∈ [(⟨0, 0, [1], [2]⟩ : RowWrite), ⟨0, 1, [3], [4]⟩, ⟨0, 1, [5], [6]⟩,
        ⟨0, 0, [7], [8]⟩], w.layer < 2 ∧ w.slot = 0 ∧
          RowWrite.count [⟨0, 0, [1], [2]⟩, ⟨0, 1, [3], [4]⟩, ⟨0, 1, [5], [6]⟩,
            ⟨0, 0, [7], [8]⟩] w.slot w.layer ≤ 2 := by decide
    obtain ⟨hlayer, hw₀, hcount⟩ := hrows w hw
    exact ⟨hlayer, r, (mem_of_request? hr).1, by rw [hid]; exact List.mem_of_head? (by cbv),
      by rw [hw₀, hzero], by rw [hpending]; exact hcount⟩
  exact ⟨_, cache, by cbv, hexec, hused⟩

end Scheduler

end CausalServe
