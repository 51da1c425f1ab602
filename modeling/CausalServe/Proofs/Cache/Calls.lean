import CausalServe.Proofs.Cache.Window

/-! A cache in use: any calls in any order, whether they succeed or not, and beside the cache a log
of what was granted, returned and written. The log knows nothing of buffers, charges or windows. -/

namespace CausalServe

namespace Cache

inductive Call
  | allocate (owner : RequestId) (capacity : Nat)
  | evict (id : SlotId)
  | reserve (id : SlotId) (positions : Nat)
  | append (id : SlotId) (layer : Nat) (key value : List Float32)
  | read (id : SlotId) (layer : Nat)
  | readPrefix (id : SlotId) (layer len : Nat)

inductive Reply
  | done
  | slot (id : SlotId)
  | view (v : CacheView)

/-- What became of a slot id, with the rows of each layer since the id was last allocated. -/
inductive Tenure
  | unused
  | released
  | held (capacity : Nat) (rows : Nat → List KeyValue)

abbrev Log := SlotId → Tenure

namespace Call

def look (view : Cache → Except Error CacheView) : Action Cache Reply := do
  Reply.view <$> Action.ofExcept (view (← get))

def run : Call → Action Cache Reply
  | allocate owner capacity => Reply.slot <$> Cache.allocate owner capacity
  | evict id => (fun _ => Reply.done) <$> Cache.evict id
  | reserve id positions => (fun _ => Reply.done) <$> Cache.reserve id positions
  | append id layer key value => (fun _ => Reply.done) <$> Cache.append id layer key value
  | read id layer => look fun c => c.read id layer
  | readPrefix id layer len => look fun c => c.readPrefix id layer len

/-- The log after a call, as its answer has it. -/
def note : Call → Except Error Reply → Log → Log
  | allocate _ capacity, .ok (.slot id), log =>
    Function.update log id (.held capacity fun _ => [])
  | evict id, .ok _, log => Function.update log id .released
  | append id layer key value, .ok _, log => match log id with
    | .held capacity rows => Function.update log id
        (.held capacity (Function.update rows layer (rows layer ++ [(key, value)])))
    | _ => log
  | _, _, log => log

/-- The places that a call may write to, as its answer has them. -/
def Touches : Call → Except Error Reply → SlotId → Nat → Prop
  | allocate _ _, .ok (.slot id), slot, _ => slot = id
  | evict id, _, slot, _ => slot = id
  | append id layer _ _, _, slot, other => slot = id ∧ other = layer
  | _, _, _, _ => False

end Call

/-- The caches that calls lead to, each with its log. -/
inductive Logged (layout : Layout) (config : CacheConfig) : Cache → Log → Prop
  | new : Logged layout config (.new layout config) fun _ => .unused
  | call {c : Cache} {log : Log} (h : Logged layout config c log) (call : Call) :
      Logged layout config (Action.exec call.run c).2 (call.note (Action.exec call.run c).1 log)

/-! ## What a call does -/

/-- The cache that a call leaves with its answer, in one of five shapes. -/
inductive Effect (c : Cache) : Call → Except Error Reply → Cache → Prop
  /-- A call that was refused, that only looked, or whose claim was met before. -/
  | unchanged {call : Call} {reply : Except Error Reply} (h : ∀ log, call.note reply log = log) :
      Effect c call reply c
  | allocated {owner : RequestId} {capacity : Nat} (hpos : 0 < capacity) :
      Effect c (.allocate owner capacity) (.ok (.slot c.nextId)) (c.opened owner capacity)
  | evicted {id : SlotId} {s : Slot} (hs : c.slot? id = some s) :
      Effect c (.evict id) (.ok .done) (c.closed id s)
  | reserved {id : SlotId} {positions : Nat} {s : Slot} (hs : c.slot? id = some s)
      (hn : ¬ s.Covers positions) (ha : c.affords (c.growth s positions) = true) :
      Effect c (.reserve id positions) (.ok .done) (c.grown id s positions)
  | appended {id : SlotId} {layer : Nat} {key value : List Float32} {c₁ : Cache} {s : Slot}
      {l : LayerStore} (hw : c.RowFits key value)
      (hgrown : c₁ = c ∨ ∃ t n, c.slot? id = some t ∧ c₁ = c.grown id t n)
      (hs : c₁.slot? id = some s) (hl : s.layers[layer]? = some l) :
      Effect c (.append id layer key value) (.ok .done)
        (c₁.pushed id s layer (decide (s.capacity ≤ l.len)) key value)

theorem exec_look (view : Cache → Except Error CacheView) (c : Cache) :
    Action.exec (Call.look view) c = (Reply.view <$> view c, c) := by
  rw [Call.look, Action.exec_bind, Action.exec_get]
  change Action.exec (Reply.view <$> Action.ofExcept (view c)) c = _
  rw [Action.exec_map, Action.exec_ofExcept]
  cases view c <;> rfl

theorem effect_reserve (c : Cache) (id : SlotId) (positions : Nat) :
    Effect c (.reserve id positions) (Action.exec (Call.reserve id positions).run c).1
      (Action.exec (Call.reserve id positions).run c).2 := by
  rw [Call.run, Action.exec_map]
  rcases hr : Action.exec (Cache.reserve id positions) c with ⟨_ | _, c'⟩
  · obtain rfl := reserve_error hr
    exact .unchanged fun log => rfl
  · cases hs : c.slot? id with
    | none => rw [exec_reserve_none hs] at hr; cases hr
    | some s =>
      rcases reserve_ok hs hr with ⟨-, rfl⟩ | ⟨hn, ha, rfl⟩
      · exact .unchanged fun log => rfl
      · exact .reserved hs hn ha

theorem effect_append (c : Cache) (id : SlotId) (layer : Nat) (key value : List Float32) :
    Effect c (.append id layer key value) (Action.exec (Call.append id layer key value).run c).1
      (Action.exec (Call.append id layer key value).run c).2 := by
  rw [Call.run, Action.exec_map]
  rcases exec_append_cases c id layer key value with ⟨e, he⟩ |
    ⟨s, l, c₁, s₁, hw, hs, hl, hfull, hroom, hs₁, hr⟩
  · rw [he]
    exact .unchanged fun log => rfl
  · rw [hr]
    rcases Nat.lt_or_ge l.len s.capacity with hlt | hge
    · have hgrown : c₁ = c ∨ ∃ t n, c.slot? id = some t ∧ c₁ = c.grown id t n := by
        rcases reserve_ok hs (hroom hlt) with ⟨-, rfl⟩ | ⟨-, -, rfl⟩
        · exact .inl rfl
        · exact .inr ⟨s, _, hs, rfl⟩
      -- the charge leaves the layers and the capacity of the slot alone
      obtain ⟨n, hn⟩ := slot?_of_reserve_ok hs (hroom hlt)
      cases hn.symm.trans hs₁
      exact .appended hw hgrown hn hl
    · obtain ⟨-, rfl⟩ := hfull hge
      cases hs.symm.trans hs₁
      exact .appended hw (.inl rfl) hs hl

/-- Every call leaves the cache in one of these shapes. -/
theorem effect_run (c : Cache) (call : Call) :
    Effect c call (Action.exec call.run c).1 (Action.exec call.run c).2 := by
  cases call with
  | allocate owner capacity =>
    rw [Call.run, Action.exec_map, exec_allocate]
    by_cases hz : capacity = 0
    · rw [if_pos hz]
      exact .unchanged fun log => rfl
    · rw [if_neg hz]
      exact .allocated (Nat.pos_of_ne_zero hz)
  | evict id =>
    rw [Call.run, Action.exec_map, exec_evict]
    cases hs : c.slot? id with
    | none => exact .unchanged fun log => rfl
    | some s => exact .evicted hs
  | reserve id positions => exact effect_reserve c id positions
  | append id layer key value => exact effect_append c id layer key value
  | read id layer =>
    rw [Call.run, exec_look]
    exact .unchanged fun log => rfl
  | readPrefix id layer len =>
    rw [Call.run, exec_look]
    exact .unchanged fun log => rfl

theorem Effect.limits {c c' : Cache} {call : Call} {reply : Except Error Reply}
    (h : Effect c call reply c') : SameLimits c c' := by
  cases h with
  | unchanged h => exact .refl c
  | allocated hpos => exact ⟨rfl, rfl, rfl, rfl⟩
  | evicted hs => exact ⟨rfl, rfl, rfl, rfl⟩
  | reserved hs hn ha => exact ⟨rfl, rfl, rfl, rfl⟩
  | appended hw hgrown hs hl =>
    rcases hgrown with rfl | ⟨t, n, -, rfl⟩ <;> exact ⟨rfl, rfl, rfl, rfl⟩

theorem Sound.run {c : Cache} (hc : c.Sound) (call : Call) :
    (Action.exec call.run c).2.Sound := by
  have hanswer : ∀ {α : Type} (f : α → Reply) (a : Action Cache α),
      (Action.exec a c).2.Sound → (Action.exec (f <$> a) c).2.Sound := by
    intro α f a h
    rw [Action.exec_map]
    rcases hr : Action.exec a c with ⟨_ | _, c'⟩ <;> rwa [hr] at h
  cases call with
  | allocate owner capacity => exact hanswer _ _ (hc.allocate owner capacity)
  | evict id => exact hanswer _ _ (hc.evict id)
  | reserve id positions => exact hanswer _ _ (hc.reserve id positions)
  | append id layer key value => exact hanswer _ _ (hc.append id layer key value)
  | read id layer => rw [Call.run, exec_look]; exact hc
  | readPrefix id layer len => rw [Call.run, exec_look]; exact hc

variable {layout : Layout} {config : CacheConfig} {c : Cache} {log : Log}

theorem Logged.sound (h : Logged layout config c log) : c.Sound := by
  induction h with
  | new => exact .new layout config
  | call _ call ih => exact ih.run call

theorem Logged.limits (h : Logged layout config c log) : SameLimits (.new layout config) c := by
  induction h with
  | new => exact .refl _
  | @call c log _ call ih => exact ih.trans (effect_run c call).limits

theorem Logged.layout_eq (h : Logged layout config c log) : c.layout = layout := h.limits.layout

/-! ## Any number of calls -/

def Called : Cache → Cache → Prop :=
  Relation.ReflTransGen fun c c' => ∃ call : Call, c' = (Action.exec call.run c).2

theorem called_allocate (c : Cache) (owner : RequestId) (capacity : Nat) :
    Called c (Action.exec (allocate owner capacity) c).2 :=
  .single ⟨.allocate owner capacity, (Action.exec_map_snd _ _ c).symm⟩

theorem called_evict (c : Cache) (id : SlotId) : Called c (Action.exec (evict id) c).2 :=
  .single ⟨.evict id, (Action.exec_map_snd _ _ c).symm⟩

theorem called_reserve (c : Cache) (id : SlotId) (positions : Nat) :
    Called c (Action.exec (reserve id positions) c).2 :=
  .single ⟨.reserve id positions, (Action.exec_map_snd _ _ c).symm⟩

theorem Called.sound {c c' : Cache} (h : Called c c') (hc : c.Sound) : c'.Sound := by
  induction h with
  | refl => exact hc
  | tail _ hcall ih =>
    obtain ⟨call, rfl⟩ := hcall
    exact ih.run call

theorem Called.limits {c c' : Cache} (h : Called c c') : SameLimits c c' := by
  induction h with
  | refl => exact .refl c
  | tail _ hcall ih =>
    obtain ⟨call, rfl⟩ := hcall
    exact ih.trans (effect_run _ call).limits

end Cache

end CausalServe
