import CausalServe.Proofs.Scheduler.Enrolment

/-! The queue as a line. A request's place in it is decided once, by its priority and by its number
in the order of arrival, so the queue can be read off the stored requests at any time: it is the
queued ones, sorted. `Lined` is that the two agree, and every operation keeps it. -/

namespace CausalServe

namespace QueueEntry

/-! ## Entries in order -/

variable {a b c e : QueueEntry} {q q' : List QueueEntry}

theorem precedes_iff : a.precedes b = true ↔
    b.priority < a.priority ∨ a.priority = b.priority ∧ a.arrival < b.arrival := by
  simp [precedes]

theorem precedes_trans (h : a.precedes b = true) (h' : b.precedes c = true) :
    a.precedes c = true := by
  rw [precedes_iff] at *
  grind

theorem precedes_asymm (h : a.precedes b = true) : ¬ b.precedes a = true := by
  rw [precedes_iff] at *
  grind

theorem precedes_total (h : a.arrival ≠ b.arrival) :
    a.precedes b = true ∨ b.precedes a = true := by
  simp only [precedes_iff]
  grind

/-- Whoever is not overtaken by a second entry precedes what the second precedes. -/
theorem precedes_split (h : a.precedes c = true) : a.precedes b = true ∨ b.precedes c = true := by
  simp only [precedes_iff] at *
  grind

/-- The next entry to admit comes first, and so on. -/
def InOrder (q : List QueueEntry) : Prop := q.Pairwise fun a b => a.precedes b = true

/-- There is one way to put entries in order. -/
theorem InOrder.eq (h : InOrder q) (h' : InOrder q') (hp : q.Perm q') : q = q' :=
  hp.eq_of_pairwise (fun _ _ _ _ hab hba => absurd hba (precedes_asymm hab)) h h'

theorem InOrder.enqueue (h : InOrder q) (hne : ∀ x ∈ q, x.arrival ≠ e.arrival) :
    InOrder (e.enqueue q) := by
  induction q with
  | nil => exact List.pairwise_singleton _ _
  | cons head rest ih =>
    obtain ⟨hhead, hrest⟩ := List.pairwise_cons.mp h
    rw [QueueEntry.enqueue]
    split
    next hlt =>
      refine List.pairwise_cons.mpr ⟨fun x hx => ?_, h⟩
      rcases List.mem_cons.mp hx with rfl | hx
      · exact hlt
      · exact precedes_trans hlt (hhead x hx)
    next hlt =>
      have hfirst := (precedes_total (hne head (by simp))).resolve_right hlt
      refine List.pairwise_cons.mpr
        ⟨fun x hx => ?_, ih hrest fun x hx => hne x (List.mem_cons_of_mem _ hx)⟩
      rcases List.mem_cons.mp ((e.enqueue_perm rest).mem_iff.mp hx) with rfl | hx
      · exact hfirst
      · exact hhead x hx

def pushAll (pushed : List QueueEntry) (q : List QueueEntry) : List QueueEntry :=
  pushed.foldl (fun q e => e.enqueue q) q

theorem pushAll_perm (pushed q : List QueueEntry) : (pushAll pushed q).Perm (pushed ++ q) := by
  induction pushed generalizing q with
  | nil => exact .refl q
  | cons e rest ih =>
    have hmid : (rest ++ e.enqueue q).Perm (rest ++ e :: q) := (e.enqueue_perm q).append_left rest
    exact ((ih (e.enqueue q)).trans hmid).trans List.perm_middle

theorem InOrder.pushAll (pushed : List QueueEntry) (h : InOrder q)
    (hnd : ((pushed ++ q).map arrival).Nodup) : InOrder (pushAll pushed q) := by
  induction pushed generalizing q with
  | nil => exact h
  | cons e rest ih =>
    have hmoved : ((rest ++ e.enqueue q).map arrival).Nodup := by
      refine (List.Perm.nodup_iff ?_).mp hnd
      exact ((((e.enqueue_perm q).append_left rest).trans List.perm_middle).symm).map arrival
    refine ih (h.enqueue fun x hx he => ?_) hmoved
    rw [List.cons_append, List.map_cons, List.nodup_cons] at hnd
    exact hnd.1 (he ▸ List.mem_map_of_mem (List.mem_append_right _ hx))

/-- In which order entries are pushed does not show in the queue. -/
theorem InOrder.pushAll_eq (h : InOrder q) (hnd : (q.map arrival).Nodup)
    {pushed : List QueueEntry} (hp : pushed.Perm q) : QueueEntry.pushAll pushed [] = q := by
  have hnd' : ((pushed ++ []).map arrival).Nodup := by
    rw [List.append_nil]
    exact (hp.map arrival).nodup_iff.mpr hnd
  refine InOrder.eq (InOrder.pushAll pushed List.Pairwise.nil hnd') h ?_
  have := pushAll_perm pushed []
  rw [List.append_nil] at this
  exact this.trans hp

end QueueEntry

/-- What decides the place of a request in the line. -/
def Request.standing (r : Request) : RequestId × Priority × Nat := (r.id, r.priority, r.arrivalSeq)

namespace Scheduler

/-! ## The line -/

/-- Whether a request stands before another: the one of higher priority, where priorities count and
differ, and otherwise the one that arrived first. -/
def ahead (s : Scheduler) (a b : Request) : Bool :=
  if s.config.enablePriority && a.priority != b.priority then b.priority < a.priority
  else a.arrivalSeq < b.arrivalSeq

/-- The queued requests in the order in which their turns come. -/
def line (s : Scheduler) : List Request :=
  (s.requests.filter fun r => r.state = .queued).mergeSort fun a b => !s.ahead b a

theorem ahead_eq (s : Scheduler) (a b : Request) :
    s.ahead a b = (s.entry a).precedes (s.entry b) := by
  rw [Bool.eq_iff_iff, QueueEntry.precedes_iff]
  unfold ahead entry
  cases s.config.enablePriority with
  | false => simp
  | true =>
    by_cases hp : a.priority = b.priority <;> simp [hp]

theorem mem_line {s : Scheduler} {r : Request} :
    r ∈ s.line ↔ r ∈ s.requests ∧ r.state = .queued := by
  simp [line, List.mem_mergeSort]

theorem DistinctIds.line_ids {s : Scheduler} (h : s.DistinctIds) :
    (s.line.map Request.id).Nodup :=
  ((List.mergeSort_perm _ _).map Request.id).nodup_iff.mpr
    (h.sublist (List.filter_sublist.map Request.id))

theorem entry_congr {s s' : Scheduler} (hconfig : s'.config = s.config) {r r' : Request}
    (h : r'.standing = r.standing) : s'.entry r' = s.entry r := by
  simp only [Request.standing, Prod.mk.injEq] at h
  obtain ⟨hid, hpriority, harrival⟩ := h
  simp only [entry, hconfig, hid, hpriority, harrival]

/-! ## The books -/

/-- The queue is the line of the queued requests, of which no two arrived at once. -/
structure Lined (s : Scheduler) : Prop where
  enrolled : s.Enrolled
  entries : ∀ e ∈ s.waiting, ∃ r ∈ s.requests, e = s.entry r
  ordered : QueueEntry.InOrder s.waiting
  arrived : ∀ r ∈ s.requests, r.arrivalSeq < s.arrivals
  arrivals : (s.requests.map Request.arrivalSeq).Nodup

namespace Lined

variable {s s' : Scheduler}

theorem new (config : SchedulerConfig) (cacheConfig : CacheConfig) (layout : Layout) :
    (Scheduler.new config cacheConfig layout).Lined :=
  ⟨.new config cacheConfig layout, by simp [Scheduler.new], List.Pairwise.nil,
    by simp [Scheduler.new], List.nodup_nil⟩

theorem arrival_inj (h : s.Lined) {r r' : Request} (hr : r ∈ s.requests) (hr' : r' ∈ s.requests)
    (he : r.arrivalSeq = r'.arrivalSeq) : r = r' := List.inj_on_of_nodup_map h.arrivals hr hr' he

theorem mem_waiting (h : s.Lined) {e : QueueEntry} :
    e ∈ s.waiting ↔ ∃ r ∈ s.requests, r.state = .queued ∧ e = s.entry r := by
  constructor
  · intro he
    obtain ⟨r, hr, rfl⟩ := h.entries e he
    exact ⟨r, hr, (h.enrolled.mem_waiting hr).mp (List.mem_map_of_mem (f := QueueEntry.request) he),
      rfl⟩
  · rintro ⟨r, hr, hq, rfl⟩
    obtain ⟨e, he, hid⟩ := List.mem_map.mp ((h.enrolled.mem_waiting hr).mpr hq)
    obtain ⟨r', hr', rfl⟩ := h.entries e he
    rwa [← h.enrolled.ids.eq hr' hr hid]

/-- Two requests stand one before the other. -/
theorem ahead_total (h : s.Lined) {a b : Request} (ha : a ∈ s.requests) (hb : b ∈ s.requests)
    (hne : a ≠ b) : s.ahead a b = true ∨ s.ahead b a = true := by
  simp only [ahead_eq]
  exact QueueEntry.precedes_total fun he => hne (h.arrival_inj ha hb he)

theorem line_ordered (h : s.Lined) : s.line.Pairwise fun a b => s.ahead a b = true := by
  have hle : s.line.Pairwise fun a b => (!s.ahead b a) = true := by
    refine List.pairwise_mergeSort (fun a b c hab hbc => ?_) (fun a b => ?_) _
    · simp only [ahead_eq, Bool.not_eq_true', ← Bool.not_eq_true] at *
      exact fun hca => (QueueEntry.precedes_split hca).elim hbc hab
    · simp only [ahead_eq, Bool.or_eq_true, Bool.not_eq_true', ← Bool.not_eq_true]
      exact (em _).symm.imp_right QueueEntry.precedes_asymm
  refine (hle.and (List.Nodup.of_map _ h.enrolled.ids.line_ids)).imp_of_mem ?_
  rintro a b ha hb ⟨hab, hne⟩
  rcases h.ahead_total (mem_line.mp ha).1 (mem_line.mp hb).1 hne with hlt | hlt
  · exact hlt
  · rw [hlt] at hab
    cases hab

/-- The queue can be read off the requests. -/
theorem waiting_eq (h : s.Lined) : s.waiting = s.line.map s.entry := by
  have hline : QueueEntry.InOrder (s.line.map s.entry) := by
    refine List.pairwise_map.mpr (h.line_ordered.imp fun {a b} hab => ?_)
    rwa [ahead_eq] at hab
  have hnd : (s.line.map s.entry).Nodup := by
    refine List.Nodup.of_map QueueEntry.request ?_
    rw [List.map_map]
    exact h.enrolled.ids.line_ids
  refine h.ordered.eq hline ?_
  rw [List.perm_ext_iff_of_nodup (List.Nodup.of_map _ h.enrolled.waiting_nodup) hnd]
  intro e
  rw [h.mem_waiting, List.mem_map]
  simp only [mem_line]
  constructor
  · rintro ⟨r, hr, hq, rfl⟩
    exact ⟨r, ⟨hr, hq⟩, rfl⟩
  · rintro ⟨r, ⟨hr, hq⟩, rfl⟩
    exact ⟨r, hr, hq, rfl⟩

theorem waiting_arrivals (h : s.Lined) : (s.waiting.map QueueEntry.arrival).Nodup := by
  have hnd := List.Nodup.of_map _ h.enrolled.ids.line_ids
  rw [h.waiting_eq, List.map_map]
  refine List.Nodup.map_on (fun a ha b hb he => ?_) hnd
  exact h.arrival_inj (mem_line.mp ha).1 (mem_line.mp hb).1 he

/-- In which order the waiting requests were queued does not show. -/
theorem pushAll_eq (h : s.Lined) {pushed : List QueueEntry} (hp : pushed.Perm s.waiting) :
    QueueEntry.pushAll pushed [] = s.waiting := h.ordered.pushAll_eq h.waiting_arrivals hp

/-! ## The changes -/

/-- An entry that stays in the queue is still that of a stored request. -/
theorem entries_kept (h : s.Lined) (he' : s'.Enrolled) (hconfig : s'.config = s.config)
    (hstanding : (s'.requests.map Request.standing).Sublist (s.requests.map Request.standing))
    {e : QueueEntry} (he : e ∈ s.waiting) (hwait : e ∈ s'.waiting) :
    ∃ r ∈ s'.requests, e = s'.entry r := by
  obtain ⟨r, hr, rfl⟩ := h.entries e he
  obtain ⟨r', hr', hid, -⟩ :=
    (he'.waiting_iff r.id).mp (List.mem_map_of_mem (f := QueueEntry.request) hwait)
  obtain ⟨old, hold, hsame⟩ :=
    List.mem_map.mp (hstanding.subset (List.mem_map_of_mem (f := Request.standing) hr'))
  have holdid : old.id = r.id := (congrArg Prod.fst hsame).trans hid
  obtain rfl := h.enrolled.ids.eq hold hr holdid
  exact ⟨r', hr', (entry_congr hconfig hsame.symm).symm⟩

theorem arrivals_kept (h : s.Lined) (harrivals : s'.arrivals = s.arrivals)
    (hstanding : (s'.requests.map Request.standing).Sublist (s.requests.map Request.standing)) :
    (∀ r ∈ s'.requests, r.arrivalSeq < s'.arrivals) ∧
      (s'.requests.map Request.arrivalSeq).Nodup := by
  have hsub : (s'.requests.map Request.arrivalSeq).Sublist (s.requests.map Request.arrivalSeq) := by
    have := hstanding.map fun standing => standing.2.2
    rwa [List.map_map, List.map_map] at this
  refine ⟨fun r hr => ?_, h.arrivals.sublist hsub⟩
  obtain ⟨old, hold, he⟩ := List.mem_map.mp (hsub.subset (List.mem_map_of_mem hr))
  rw [harrivals, ← he]
  exact h.arrived old hold

/-- Requests leave the queue, and no request changes its standing. -/
theorem kept (h : s.Lined) (he : s'.Enrolled) (hconfig : s'.config = s.config)
    (harrivals : s'.arrivals = s.arrivals)
    (hstanding : (s'.requests.map Request.standing).Sublist (s.requests.map Request.standing))
    (hwait : s'.waiting.Sublist s.waiting) : s'.Lined where
  enrolled := he
  entries := fun _ hm => h.entries_kept he hconfig hstanding (hwait.subset hm) hm
  ordered := List.Pairwise.sublist hwait h.ordered
  arrived := (h.arrivals_kept harrivals hstanding).1
  arrivals := (h.arrivals_kept harrivals hstanding).2

/-- A request comes back to the place that its standing gives it. -/
theorem requeued (h : s.Lined) (he : s'.Enrolled) (hconfig : s'.config = s.config)
    (harrivals : s'.arrivals = s.arrivals)
    (hstanding : (s'.requests.map Request.standing).Sublist (s.requests.map Request.standing))
    {r : Request} (hr : r ∈ s'.requests) {q : List QueueEntry} (hq : q.Sublist s.waiting)
    (hwait : s'.waiting = (s'.entry r).enqueue q) : s'.Lined := by
  have hperm := (s'.entry r).enqueue_perm q
  obtain ⟨harrived, hnd⟩ := h.arrivals_kept harrivals hstanding
  have hold : ∀ e ∈ q, ∃ x ∈ s'.requests, e = s'.entry x := fun e hm => by
    refine h.entries_kept he hconfig hstanding (hq.subset hm) ?_
    rw [hwait, hperm.mem_iff]
    exact List.mem_cons_of_mem _ hm
  have hnew : (s'.entry r).request ∉ q.map QueueEntry.request := by
    have := he.waiting_nodup
    rw [hwait, (hperm.map _).nodup_iff, List.map_cons, List.nodup_cons] at this
    exact this.1
  exact {
    enrolled := he
    entries := fun e hm => by
      rw [hwait, hperm.mem_iff] at hm
      rcases List.mem_cons.mp hm with rfl | hm
      · exact ⟨r, hr, rfl⟩
      · exact hold e hm
    ordered := by
      rw [hwait]
      refine QueueEntry.InOrder.enqueue (List.Pairwise.sublist hq h.ordered) fun e hm hsame => ?_
      obtain ⟨x, hx, rfl⟩ := hold e hm
      obtain rfl := List.inj_on_of_nodup_map hnd hx hr hsame
      exact hnew (List.mem_map_of_mem hm)
    arrived := harrived
    arrivals := hnd }

end Lined

/-! ## What keeps the standings -/

theorem DistinctIds.map_update {s : Scheduler} (h : s.DistinctIds) {α : Type} (f : Request → α)
    {r r' : Request} (hr : r ∈ s.requests) (hid : r'.id = r.id) (hf : f r' = f r) :
    (s.update r').requests.map f = s.requests.map f := by
  simp only [Scheduler.update, List.map_map]
  refine List.map_congr_left fun old hold => ?_
  simp only [Function.comp_apply]
  split
  next he => rw [h.eq hold hr (he.trans hid), hf]
  next => rfl

variable {s : Scheduler} {r r' : Request}

theorem Lined.update (h : s.Lined) (hr : r ∈ s.requests) (hstanding : r'.standing = r.standing)
    (hq : r'.state = .queued ↔ r.state = .queued) (hrun : r'.state.isRunning = r.state.isRunning)
    (hslot : r'.slot = r.slot) : (s.update r').Lined := by
  have hid : r'.id = r.id := congrArg Prod.fst hstanding
  refine h.kept (h.enrolled.update hr hid hq hrun hslot) rfl rfl ?_ (.refl _)
  rw [h.enrolled.ids.map_update _ hr hid hstanding]

theorem Lined.withCache (h : s.Lined) (c : Cache) : { s with cache := c }.Lined :=
  h.kept (h.enrolled.withCache c) rfl rfl (.refl _) (.refl _)

theorem Lined.retire (h : s.Lined) {ended : Request} (hr : r ∈ s.requests)
    (hstanding : ended.standing = r.standing) (hend : ended.state.isTerminal = true) :
    (s.retire ended).Lined := by
  have hid : ended.id = r.id := congrArg Prod.fst hstanding
  have he := h.enrolled.retire hr hid hend
  rw [Scheduler.retire, release_eq] at *
  refine h.kept he rfl rfl ?_ List.filter_sublist
  have hsame : ({ ended with slot := none } : Request).standing = r.standing := hstanding
  change ((s.update { ended with slot := none }).requests.map Request.standing).Sublist _
  have hid' : ({ ended with slot := none } : Request).id = r.id := hid
  rw [h.enrolled.ids.map_update _ hr hid' hsame]

theorem Lined.enter (h : s.Lined) (hr : r ∈ s.requests) {entry : QueueEntry}
    {rest : List QueueEntry} (hw : s.waiting = entry :: rest) (hid : entry.request = r.id)
    (hlt : s.running.length < s.config.maxSeqs) (slot : SlotId) (c : Cache) :
    { s.update (r.startIn slot) with
      cache := c, waiting := rest, running := s.running ++ [r.id] }.Lined := by
  refine h.kept (h.enrolled.enter hr hw hid hlt slot c) rfl rfl ?_ ?_
  · have hsame : (r.startIn slot).standing = r.standing := rfl
    change ((s.update (r.startIn slot)).requests.map Request.standing).Sublist _
    rw [h.enrolled.ids.map_update _ hr (congrArg Prod.fst hsame) hsame]
  · rw [hw]
    exact List.sublist_cons_self entry rest

theorem Lined.preempt (h : s.Lined) (hr : r ∈ s.requests) (hstanding : r'.standing = r.standing)
    (hstate : r'.state = .queued) (hslot : r'.slot = none) :
    (((s.update r').release r.id r.slot).enqueue r').Lined := by
  have hid : r'.id = r.id := congrArg Prod.fst hstanding
  have he := h.enrolled.preempt hr hid hstate hslot
  rw [release_eq] at *
  refine h.requeued he rfl rfl ?_ (mem_update.mpr (.inl ⟨rfl, r, hr, hid.symm⟩))
    List.filter_sublist rfl
  change ((s.update r').requests.map Request.standing).Sublist _
  rw [h.enrolled.ids.map_update _ hr hid hstanding]

theorem Lined.add (h : s.Lined) (hnew : s.request? r.id = none) (hstate : r.state = .queued)
    (hslot : r.slot = none) (harrival : r.arrivalSeq = s.arrivals) :
    ({ s with requests := s.requests ++ [r], arrivals := s.arrivals + 1 }.enqueue r).Lined := by
  have he := h.enrolled.add hnew hstate hslot (s.arrivals + 1)
  have hperm := (s.entry r).enqueue_perm s.waiting
  have hlater : ∀ x ∈ s.requests, x.arrivalSeq ≠ r.arrivalSeq := fun x hx => by
    have := h.arrived x hx
    omega
  exact {
    enrolled := he
    entries := fun e hm => by
      rcases List.mem_cons.mp (hperm.mem_iff.mp hm) with rfl | hm
      · exact ⟨r, List.mem_append_right _ (List.mem_singleton.mpr rfl), rfl⟩
      · obtain ⟨x, hx, rfl⟩ := h.entries e hm
        exact ⟨x, List.mem_append_left _ hx, rfl⟩
    ordered := h.ordered.enqueue fun e hm => by
      obtain ⟨x, hx, rfl⟩ := h.entries e hm
      exact hlater x hx
    arrived := fun x hx => by
      change x.arrivalSeq < s.arrivals + 1
      rcases List.mem_append.mp hx with hx | hx
      · exact Nat.lt_succ_of_lt (h.arrived x hx)
      · rw [List.mem_singleton.mp hx, harrival]
        exact Nat.lt_succ_self _
    arrivals := by
      change ((s.requests ++ [r]).map Request.arrivalSeq).Nodup
      rw [List.map_append, List.map_singleton]
      refine List.nodup_append.mpr ⟨h.arrivals, List.nodup_singleton _, fun a ha b hb => ?_⟩
      obtain ⟨x, hx, rfl⟩ := List.mem_map.mp ha
      rw [List.mem_singleton.mp hb]
      exact hlater x hx }

theorem Lined.remove (h : s.Lined) (id : RequestId) (slot : Option SlotId) :
    ({ s with requests := s.requests.filter fun old => old.id ≠ id }.release id slot).Lined := by
  have he := h.enrolled.remove id slot
  rw [release_eq] at *
  exact h.kept he rfl rfl (List.filter_sublist.map _) List.filter_sublist

end Scheduler

end CausalServe
