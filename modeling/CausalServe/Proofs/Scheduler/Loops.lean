import CausalServe.Proofs.Scheduler.Tick

/-! The two loops of a tick, turn by turn and without a guard: each is given a number of turns and
has no answer if they do not do. The admission loop needs one turn for each entry of the queue and
one to see that it is empty, the loop for a request that grows one for each running request. -/

namespace CausalServe.Round

/-- The admission loop, on the scheduler's own queue: a turn takes the first entry out, and one that
must wait is put back before the loop ends. -/
def admitTurns : Nat → Round → Option Nat → Option Round
  | 0, _, _ => none
  | turns + 1, round, fed =>
    let s := round.scheduler
    match s.waiting with
    | [] => some round
    | entry :: rest =>
      if s.config.maxSeqs ≤ s.running.length then some round
      else
        let popped := round.withQueue rest
        match s.requests.find? fun r => r.id = entry.request && r.state == .queued with
        | none => admitTurns turns popped fed
        | some r => match s.admission fed r with
          | .refused r e => admitTurns turns (popped.refuse r e) fed
          | .postponed r cache =>
            some { round with scheduler := { s.update r with cache := cache } }
          | .admitted r cache => admitTurns turns
            { popped with
              scheduler := { popped.scheduler.update r with
                cache := cache, running := s.running ++ [r.id] } }
            (some (fed.getD 0 + r.pendingLen))

/-- The loop for a request that grows: a turn meets its claim, ends it, or frees the slot of another
request and goes round. -/
def growTurns : Nat → Round → RequestId → Option Round
  | 0, _, _ => none
  | turns + 1, round, id =>
    match round.scheduler.requests.find? fun r => r.id = id && r.state.isRunning with
    | none => some round
    | some r => match r.slot with
      | none => some round
      | some slot => match round.positionsNeeded r slot with
        | .error e => some (round.fail id e)
        | .ok needed =>
          match Action.exec (Cache.reserve slot needed) round.scheduler.cache with
          | (.ok (), cache) =>
            some { round with scheduler := { round.scheduler with cache := cache } }
          | (.error e, _) => match round.victim? slot with
            | none => some (round.fail id e)
            | some victim => growTurns turns (round.giveWay victim id) id

/-- Every turn of the admission loop takes an entry out of the queue. -/
theorem admitTurns_eq (queue : List QueueEntry) {round : Round}
    (hwait : round.scheduler.waiting = queue) (fed : Option Nat) {turns : Nat}
    (hturns : queue.length < turns) :
    admitTurns turns round fed = some (round.admitFrom fed queue) := by
  induction queue generalizing round fed turns with
  | nil =>
    obtain ⟨turns, rfl⟩ := Nat.exists_eq_add_of_lt hturns
    have he : round.admitFrom fed [] = round := by
      change round.withQueue [] = round
      rw [← hwait]
      rfl
    rw [he]
    simp [admitTurns, hwait]
  | cons entry rest ih =>
    obtain ⟨turns, rfl⟩ : ∃ n, turns = n + 1 := ⟨turns - 1, by
      rw [List.length_cons] at hturns
      omega⟩
    have hrest : rest.length < turns := by simpa using hturns
    unfold admitTurns admitFrom
    simp only [hwait]
    split
    · have he : round.withQueue (entry :: rest) = round := by rw [← hwait]; rfl
      rw [show Round.mk _ _ _ = _ from he]
    · cases round.scheduler.requests.find? fun r => r.id = entry.request && r.state == .queued with
      | none =>
        simp only
        rw [ih rfl fed hrest, admitFrom_withQueue]
      | some r =>
        simp only
        cases round.scheduler.admission fed r with
        | refused r e =>
          simp only
          rw [refuse_withQueue, ih rfl fed hrest, admitFrom_withQueue]
        | postponed r cache => simp only [Scheduler.update, hwait]
        | admitted r cache =>
          simp only
          rw [ih rfl _ hrest]
          exact congrArg some (admitFrom_withQueue { round with
            scheduler := { round.scheduler.update r with
              cache := cache, running := round.scheduler.running ++ [r.id] } } rest rest _)

/-- Every turn that goes round frees a slot. -/
theorem growTurns_eq {round : Round} (h : round.scheduler.Owned) (id : RequestId) {turns : Nat}
    (hturns : round.scheduler.running.length < turns) :
    growTurns turns round id = some (round.growOne id) := by
  induction grows h id generalizing turns with
  | @absent round id hid hgrown =>
    obtain ⟨turns, rfl⟩ := Nat.exists_eq_add_one_of_ne_zero (Nat.ne_zero_of_lt hturns)
    have hfind : (round.scheduler.requests.find? fun r => r.id = id && r.state.isRunning) = none :=
      List.find?_eq_none.mpr fun r hr hp =>
        hid ((h.running_iff id).mpr ⟨r, hr, by simpa using hp⟩)
    rw [hgrown, growTurns, hfind]
  | overgrown hr hrun hslot hneed hgrown =>
    obtain ⟨turns, rfl⟩ := Nat.exists_eq_add_one_of_ne_zero (Nat.ne_zero_of_lt hturns)
    rw [hgrown, growTurns, h.ids.find? hr hrun]
    simp only [hslot, hneed]
  | met hr hrun hslot hneed hres hgrown =>
    obtain ⟨turns, rfl⟩ := Nat.exists_eq_add_one_of_ne_zero (Nat.ne_zero_of_lt hturns)
    rw [hgrown, growTurns, h.ids.find? hr hrun]
    simp only [hslot, hneed, hres]
  | starved hr hrun hslot hneed hres hv hgrown =>
    obtain ⟨turns, rfl⟩ := Nat.exists_eq_add_one_of_ne_zero (Nat.ne_zero_of_lt hturns)
    rw [hgrown, growTurns, h.ids.find? hr hrun]
    simp only [hslot, hneed, hres, hv]
  | yielded hr hrun hslot hneed hres hv hvm hvrun hne hway hleaves hgrown _ ih =>
    obtain ⟨turns, rfl⟩ := Nat.exists_eq_add_one_of_ne_zero (Nat.ne_zero_of_lt hturns)
    have hlen := hleaves.length h hvm hvrun
    rw [hgrown, growTurns, h.ids.find? hr hrun]
    simp only [hslot, hneed, hres, hv]
    exact ih ((hway 0).owned h) (by omega)

end CausalServe.Round
