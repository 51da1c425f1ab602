import CausalServe.Proofs.Cache.Headroom
import CausalServe.Proofs.Model.Passes

/-! What one sequence sees of a pass. Its rows go through a layer in their order, each one written
to the layer of the cache before it attends, and neither rows of other sequences nor other layers
show in what comes out. A run of many rows is therefore a run of the first ones and then of the
others, and a run among other sequences is a run alone. -/

namespace CausalServe

namespace DecoderLayer

def place (l : DecoderLayer) : Nat := l.attention.layer

def keyOf (l : DecoderLayer) (d : Dispatcher) (r : Rotary) (p : PlacedRow) : List Float32 :=
  l.attention.keyOf d r (l.normed p)

def valueOf (l : DecoderLayer) (d : Dispatcher) (p : PlacedRow) : List Float32 :=
  l.attention.value.row d (l.normed p).row

def queryOf (l : DecoderLayer) (d : Dispatcher) (r : Rotary) (p : PlacedRow) : List Float32 :=
  l.attention.queryOf d r (l.normed p)

/-- The rows of one sequence go through a layer: what they become, and what the layer of the cache
becomes. -/
inductive Fed (l : DecoderLayer) (d e : Dispatcher) (r : Rotary) (m : SlotLimits) :
    List PlacedRow → LayerStore → List PlacedRow → LayerStore → Prop
  | nil (store : LayerStore) : Fed l d e r m [] store [] store
  | cons {p : PlacedRow} {ps ps' : List PlacedRow} {store store' : LayerStore}
      {out : List Float32} (htakes : m.Takes store (l.keyOf e r p) (l.valueOf e p))
      (hout : l.attention.attendHeads d (m.view (m.put store (l.keyOf e r p) (l.valueOf e p)))
        (l.queryOf e r p) = .ok out)
      (hrest : Fed l d e r m ps (m.put store (l.keyOf e r p) (l.valueOf e p)) ps' store') :
      Fed l d e r m (p :: ps) store ({ p with row := l.finish e p.row out } :: ps') store'

variable {l : DecoderLayer} {d e : Dispatcher} {r : Rotary} {m : SlotLimits} {id : SlotId}
  {p p' : PlacedRow} {ps ps' : List PlacedRow} {store store' : LayerStore} {c c' : Cache}

theorem Fed.len_le (h : l.Fed d e r m ps store ps' store') : store.len ≤ store'.len := by
  induction h with
  | nil => exact Nat.le_refl _
  | cons htakes hout hrest ih =>
    rw [m.len_put] at ih
    split at ih <;> omega

theorem Fed.appended (h : l.Fed d e r m ps store ps' store') :
    store'.appended = store.appended + ps.length := by
  induction h with
  | nil => rfl
  | cons htakes hout hrest ih =>
    rw [ih, m.appended_put, List.length_cons]
    omega

/-- A layer of the cache with the keys and the values of rows behind what it held. -/
def stored (l : DecoderLayer) (e : Dispatcher) (r : Rotary) (m : SlotLimits) (ps : List PlacedRow)
    (store : LayerStore) : LayerStore :=
  ps.foldl (fun store p => m.put store (l.keyOf e r p) (l.valueOf e p)) store

theorem len_stored_le (ps : List PlacedRow) (store : LayerStore) :
    (l.stored e r m ps store).len ≤ store.len + ps.length := by
  induction ps generalizing store with
  | nil => exact Nat.le_refl _
  | cons p ps ih =>
    refine (ih _).trans ?_
    rw [m.len_put, List.length_cons]
    split <;> omega

theorem Fed.store_eq (h : l.Fed d e r m ps store ps' store') :
    store' = l.stored e r m ps store := by
  induction h with
  | nil => rfl
  | cons htakes hout hrest ih => exact ih

theorem Fed.outline (h : l.Fed d e r m ps store ps' store') :
    ps'.map PlacedRow.outline = ps.map PlacedRow.outline := by
  induction h with
  | nil => rfl
  | cons htakes hout hrest ih =>
    rw [List.map_cons, List.map_cons, ih, PlacedRow.outline, length_finish]
    rfl

/-- The first rows go through a layer as if the others did not follow. -/
theorem Fed.append {us vs : List PlacedRow} (h : l.Fed d e r m (us ++ vs) store ps' store') :
    ∃ mid us' vs', ps' = us' ++ vs' ∧ l.Fed d e r m us store us' mid ∧
      l.Fed d e r m vs mid vs' store' := by
  induction us generalizing store ps' with
  | nil => exact ⟨store, [], ps', rfl, .nil store, h⟩
  | cons p us ih =>
    cases h with
    | cons htakes hout hrest =>
      obtain ⟨mid, us', vs', rfl, hu, hv⟩ := ih hrest
      exact ⟨mid, _, vs', rfl, .cons htakes hout hu, hv⟩

/-! ## Visits -/

theorem exec_visit_eq_ok : Action.exec (l.visit d e r p) c = (.ok p', c') ↔
    Action.exec (Cache.append p.slot l.place (l.keyOf e r p) (l.valueOf e p)) c = (.ok (), c') ∧
      ∃ view out, c'.read p.slot l.place = .ok view ∧
        l.attention.attendHeads d view (l.queryOf e r p) = .ok out ∧
        p' = { p with row := l.finish e p.row out } := by
  unfold visit
  rw [Action.exec_map_eq_ok]
  constructor
  · rintro ⟨out, h, rfl⟩
    obtain ⟨_, c₁, happend, h⟩ := Action.exec_bind_eq_ok.mp h
    obtain ⟨_, _, hget, h⟩ := Action.exec_bind_eq_ok.mp h
    cases hget
    obtain ⟨view, _, hread, h⟩ := Action.exec_bind_eq_ok.mp h
    obtain ⟨hview, rfl⟩ := Prod.mk.inj hread
    obtain ⟨hout, rfl⟩ := Prod.mk.inj h
    exact ⟨happend, view, out, hview, hout, rfl⟩
  · rintro ⟨happend, view, out, hview, hout, rfl⟩
    refine ⟨out, ?_, rfl⟩
    unfold Attention.visit
    change Action.exec (Cache.append p.slot l.place (l.keyOf e r p) (l.valueOf e p) >>= _) c = _
    rw [Action.exec_bind_ok happend, Action.exec_bind_ok (Action.exec_get c')]
    change Action.exec (Action.ofExcept (c'.read p.slot l.place) >>= _) c' = _
    rw [hview, Action.exec_bind_ok (Action.exec_ofExcept _ _)]
    exact congrArg (fun x => (x, c')) hout

/-- Visits of other rows leave all but their own layer as it is. -/
theorem frame_of_visits (hc : c.Sound)
    (h : Action.exec (ps.mapM (l.visit d e r)) c = (.ok ps', c')) :
    c.Grew c' ∧ ∀ id j, j ≠ l.place → c'.layer id j = c.layer id j := by
  induction ps generalizing c ps' with
  | nil =>
    cases h
    exact ⟨hc.grew_refl, fun _ _ _ => rfl⟩
  | cons p ps ih =>
    obtain ⟨p', c₁, rest, hp, hrest, rfl⟩ := Action.exec_mapM_cons_eq_ok.mp h
    have happend := (exec_visit_eq_ok.mp hp).1
    have hgrew := (hc.append_grew happend).1
    obtain ⟨hgrew', hframe⟩ := ih hgrew.sound hrest
    refine ⟨hgrew.trans hgrew', fun id j hj => (hframe id j hj).trans ?_⟩
    exact Cache.layer_of_append hc happend fun he => hj he.2

/-- In a batch, the rows of a slot go through a layer as they would alone. -/
theorem fed_of_visits (h : Action.exec (ps.mapM (l.visit d e r)) c = (.ok ps', c'))
    (hc : c.Hosts id m) (hstore : c.layer id l.place = .ok store) :
    ∃ store', c'.layer id l.place = .ok store' ∧
      l.Fed d e r m (ownRows id ps) store (ownRows id ps') store' := by
  induction ps generalizing c ps' store with
  | nil =>
    cases h
    exact ⟨store, hstore, .nil store⟩
  | cons p ps ih =>
    obtain ⟨p', c₁, rest, hp, hrest, rfl⟩ := Action.exec_mapM_cons_eq_ok.mp h
    obtain ⟨happend, view, out, hview, hout, rfl⟩ := exec_visit_eq_ok.mp hp
    have hc₁ := (hc.sound.append_grew happend).1.hosts hc
    by_cases he : p.slot = id
    · subst he
      obtain ⟨-, store₀, hstore₀, htakes, hput⟩ := hc.append happend
      cases hstore.symm.trans hstore₀
      rw [hc₁.read_eq hput] at hview
      cases hview
      obtain ⟨store', hstore', hfed⟩ := ih hrest hc₁ hput
      refine ⟨store', hstore', ?_⟩
      rw [ownRows, ownRows, List.filter_cons_of_pos (by simp), List.filter_cons_of_pos (by simp)]
      exact .cons htakes hout hfed
    · have hother : ¬ (id = p.slot ∧ l.place = l.place) := fun h => he h.1.symm
      have hsame := Cache.layer_of_append hc.sound happend hother
      obtain ⟨store', hstore', hfed⟩ := ih hrest hc₁ (hsame.trans hstore)
      refine ⟨store', hstore', ?_⟩
      rw [ownRows, ownRows, List.filter_cons_of_neg (by simpa using he),
        List.filter_cons_of_neg (by simpa using he)]
      exact hfed

/-- Where its slot has headroom, a sequence goes through a layer alone. -/
theorem visits_of_fed (h : l.Fed d e r m ps store ps' store') (hown : ∀ p ∈ ps, p.slot = id)
    (hc : c.Hosts id m) {target : Nat} (hspare : c.Spare id target)
    (hstore : c.layer id l.place = .ok store) (hlen : store'.len ≤ target) :
    ∃ c', Action.exec (ps.mapM (l.visit d e r)) c = (.ok ps', c') ∧
      c'.layer id l.place = .ok store' ∧ c'.Spare id target := by
  induction h generalizing c with
  | nil store => exact ⟨c, rfl, hstore, hspare⟩
  | @cons p ps ps' store store' out htakes hout hrest ih =>
    obtain rfl := hown p List.mem_cons_self
    have hput := hrest.len_le.trans hlen
    obtain ⟨c₁, happend, hspare₁⟩ := hc.append_of_spare hspare hstore htakes hput
    obtain ⟨hgrew, store₀, hstore₀, -, hstore₁⟩ := hc.append happend
    cases hstore.symm.trans hstore₀
    have hc₁ := hgrew.hosts hc
    obtain ⟨c', hvisits, hstore', hspare'⟩ :=
      ih (fun q hq => hown q (List.mem_cons_of_mem _ hq)) hc₁ hspare₁ hstore₁ hlen
    have hvisit : Action.exec (l.visit d e r p) c =
        (.ok { p with row := l.finish e p.row out }, c₁) :=
      exec_visit_eq_ok.mpr ⟨happend, _, out, hc₁.read_eq hstore₁, hout, rfl⟩
    exact ⟨c', Action.exec_mapM_cons_eq_ok.mpr ⟨_, c₁, ps', hvisit, hvisits, rfl⟩, hstore',
      hspare'⟩

/-! ## Layers on top of each other -/

/-- The rows of one sequence go through layers. Every layer has a place of its own in the cache,
which holds one thing before the run and another after it. -/
def Runs (d e : Dispatcher) (r : Rotary) (m : SlotLimits)
    (before after : Nat → Except Error LayerStore) :
    List DecoderLayer → List PlacedRow → List PlacedRow → Prop
  | [], ps, out => out = ps
  | l :: ls, ps, out => ∃ store store' mid, before l.place = .ok store ∧
      after l.place = .ok store' ∧ l.Fed d e r m ps store mid store' ∧
      Runs d e r m before after ls mid out

variable {before after : Nat → Except Error LayerStore} {ls : List DecoderLayer}
  {us vs out : List PlacedRow}

theorem place_ne (h : l.place ∉ ls.map place) : ∀ l' ∈ ls, l'.place ≠ l.place :=
  fun _ hl' he => h (he ▸ List.mem_map_of_mem hl')

theorem Runs.congr {before' after' : Nat → Except Error LayerStore}
    (h : Runs d e r m before after ls ps out) (hbefore : ∀ l ∈ ls, before' l.place = before l.place)
    (hafter : ∀ l ∈ ls, after' l.place = after l.place) :
    Runs d e r m before' after' ls ps out := by
  induction ls generalizing ps with
  | nil => exact h
  | cons l ls ih =>
    obtain ⟨store, store', mid, hstore, hstore', hfed, hrest⟩ := h
    exact ⟨store, store', mid, (hbefore l List.mem_cons_self).trans hstore,
      (hafter l List.mem_cons_self).trans hstore', hfed,
      ih hrest (fun l hl => hbefore l (List.mem_cons_of_mem _ hl))
        fun l hl => hafter l (List.mem_cons_of_mem _ hl)⟩

theorem Runs.outline (h : Runs d e r m before after ls ps out) :
    out.map PlacedRow.outline = ps.map PlacedRow.outline := by
  induction ls generalizing ps with
  | nil => rw [h]
  | cons l ls ih =>
    obtain ⟨store, store', mid, -, -, hfed, hrest⟩ := h
    exact (ih hrest).trans hfed.outline

/-- Every layer gets all rows. -/
theorem Runs.appended (h : Runs d e r m before after ls ps out) : ∀ l ∈ ls, ∃ store store',
    before l.place = .ok store ∧ after l.place = .ok store' ∧
      store'.appended = store.appended + ps.length := by
  induction ls generalizing ps with
  | nil => exact fun l hl => absurd hl List.not_mem_nil
  | cons l ls ih =>
    obtain ⟨store, store', mid, hstore, hstore', hfed, hrest⟩ := h
    intro l' hl'
    rcases List.mem_cons.mp hl' with rfl | hl'
    · exact ⟨store, store', hstore, hstore', hfed.appended⟩
    · obtain ⟨old, new, hold, hnew, happended⟩ := ih hrest l' hl'
      have hlen := congrArg List.length hfed.outline
      rw [List.length_map, List.length_map] at hlen
      exact ⟨old, new, hold, hnew, happended.trans (by rw [hlen])⟩

theorem Runs.len_le (h : Runs d e r m before after ls ps out) : ∀ l ∈ ls, ∀ store,
    before l.place = .ok store → ∃ store', after l.place = .ok store' ∧ store.len ≤ store'.len := by
  induction ls generalizing ps with
  | nil => exact fun l hl => absurd hl List.not_mem_nil
  | cons l ls ih =>
    obtain ⟨store, store', mid, hstore, hstore', hfed, hrest⟩ := h
    intro l' hl' old hold
    rcases List.mem_cons.mp hl' with rfl | hl'
    · cases hstore.symm.trans hold
      exact ⟨store', hstore', hfed.len_le⟩
    · exact ih hrest l' hl' old hold

/-- A run of many rows is a run of the first ones and then one of the others. -/
theorem Runs.append (hnodup : (ls.map place).Nodup)
    (h : Runs d e r m before after ls (us ++ vs) out) :
    ∃ mid us' vs', out = us' ++ vs' ∧ Runs d e r m before mid ls us us' ∧
      Runs d e r m mid after ls vs vs' := by
  induction ls generalizing us vs with
  | nil => exact ⟨before, us, vs, h, rfl, rfl⟩
  | cons l ls ih =>
    obtain ⟨store, store', both, hstore, hstore', hfed, hrest⟩ := h
    obtain ⟨between, us₁, vs₁, rfl, hu, hv⟩ := hfed.append
    obtain ⟨hfresh, hnodup⟩ := List.nodup_cons.mp hnodup
    obtain ⟨mid, us', vs', rfl, hrunu, hrunv⟩ := ih hnodup hrest
    have hother : ∀ l' ∈ ls, Function.update mid l.place (.ok between) l'.place = mid l'.place :=
      fun l' hl' => Function.update_of_ne (place_ne hfresh l' hl') _ _
    refine ⟨Function.update mid l.place (.ok between), us', vs', rfl, ?_, ?_⟩
    · exact ⟨store, between, us₁, hstore, Function.update_self .., hu,
        hrunu.congr (fun _ _ => rfl) hother⟩
    · exact ⟨between, store', vs₁, Function.update_self .., hstore', hv,
        hrunv.congr hother fun _ _ => rfl⟩

/-- In a batch, the rows of a slot go through the layers as they would alone, and the layers of the
cache that no layer of the model belongs to stay as they are. -/
theorem runs_of_walk (hnodup : (ls.map place).Nodup)
    (h : Action.exec (walk d e r ls ps) c = (.ok ps', c')) (hne : ps ≠ []) (hc : c.Hosts id m) :
    Runs d e r m (c.layer id) (c'.layer id) ls (ownRows id ps) (ownRows id ps') ∧ c.Grew c' ∧
      ∀ j, j ∉ ls.map place → c'.layer id j = c.layer id j := by
  induction ls generalizing c ps with
  | nil =>
    cases h
    exact ⟨rfl, hc.sound.grew_refl, fun _ _ => rfl⟩
  | cons l ls ih =>
    obtain ⟨mid, c₁, hvisits, hrest⟩ := exec_walk_cons.mp h
    obtain ⟨hfresh, hnodup⟩ := List.nodup_cons.mp hnodup
    obtain ⟨hgrew, hframe⟩ := frame_of_visits hc.sound hvisits
    -- the first row of the batch found the layer in its slot, so every slot has it
    have hplace : l.place < m.layout.numLayers := by
      obtain ⟨p, rest, rfl⟩ := List.exists_cons_of_ne_nil hne
      obtain ⟨_, _, _, hp, -⟩ := Action.exec_mapM_cons_eq_ok.mp hvisits
      obtain ⟨-, store, hstore⟩ := hc.sound.append_grew (exec_visit_eq_ok.mp hp).1
      exact hc.layout ▸ hc.sound.lt_of_layer hstore
    obtain ⟨store, hstore⟩ := hc.layer_of_lt hplace
    obtain ⟨store', hstore', hfed⟩ := fed_of_visits hvisits hc hstore
    have hmid : mid ≠ [] := by
      rintro rfl
      exact hne (List.map_eq_nil_iff.mp (outline_visits hvisits).symm)
    obtain ⟨hruns, hgrew', hframe'⟩ := ih hnodup hrest hmid (hgrew.hosts hc)
    refine ⟨⟨store, store', _, hstore, (hframe' _ hfresh).trans hstore', hfed,
      hruns.congr (fun l' hl' => ?_) fun _ _ => rfl⟩, hgrew.trans hgrew', fun j hj => ?_⟩
    · exact (hframe id _ (place_ne hfresh l' hl')).symm
    · obtain ⟨hne, hj⟩ := not_or.mp (mt List.mem_cons.mpr hj)
      exact (hframe' j hj).trans (hframe id j hne)

/-- Where its slot has headroom, a sequence goes through the layers alone. -/
theorem walk_of_runs (hnodup : (ls.map place).Nodup) (h : Runs d e r m before after ls ps out)
    (hown : ∀ p ∈ ps, p.slot = id) (hc : c.Hosts id m) {target : Nat} (hspare : c.Spare id target)
    (hbefore : ∀ l ∈ ls, c.layer id l.place = before l.place)
    (hafter : ∀ l ∈ ls, ∀ store, after l.place = .ok store → store.len ≤ target) :
    ∃ c', Action.exec (walk d e r ls ps) c = (.ok out, c') ∧ c.Grew c' ∧ c'.Spare id target ∧
      (∀ l ∈ ls, c'.layer id l.place = after l.place) ∧
      ∀ j, j ∉ ls.map place → c'.layer id j = c.layer id j := by
  induction ls generalizing c ps with
  | nil =>
    cases h
    exact ⟨c, rfl, hc.sound.grew_refl, hspare, fun l hl => absurd hl List.not_mem_nil,
      fun _ _ => rfl⟩
  | cons l ls ih =>
    obtain ⟨store, store', mid, hstore, hstore', hfed, hrest⟩ := h
    obtain ⟨hfresh, hnodup⟩ := List.nodup_cons.mp hnodup
    obtain ⟨c₁, hvisits, hlayer, hspare₁⟩ := visits_of_fed hfed hown hc hspare
      ((hbefore l List.mem_cons_self).trans hstore) (hafter l List.mem_cons_self store' hstore')
    obtain ⟨hgrew, hframe⟩ := frame_of_visits hc.sound hvisits
    obtain ⟨c', hwalk, hgrew', hspare', hlayers, hframe'⟩ := ih hnodup hrest
      (PlacedRow.forall_slot hfed.outline (P := (· = id)) hown) (hgrew.hosts hc) hspare₁
      (fun l' hl' => (hframe id _ (place_ne hfresh l' hl')).trans
        (hbefore l' (List.mem_cons_of_mem _ hl')))
      fun l' hl' => hafter l' (List.mem_cons_of_mem _ hl')
    refine ⟨c', exec_walk_cons.mpr ⟨mid, c₁, hvisits, hwalk⟩, hgrew.trans hgrew', hspare',
      fun l' hl' => ?_, fun j hj => ?_⟩
    · rcases List.mem_cons.mp hl' with rfl | hl'
      · rw [hframe' _ hfresh, hlayer, hstore']
      · exact hlayers l' hl'
    · obtain ⟨hne, hj⟩ := not_or.mp (mt List.mem_cons.mpr hj)
      exact (hframe' j hj).trans (hframe id j hne)

end DecoderLayer

end CausalServe
