import StorageMarket.Proofs.Replay.Changes

/-!
# One update

An update gathers what happened and replays it. Gathering does not touch the tracker,
and a replay that fails leaves it as it was: of the ledger, the changes made so far are
rolled back, and everything else changes only in the end.

Between updates no undo log is open. Such a tracker is settled, and all reachable
trackers are.
-/

namespace StorageMarket.Tracker

variable {σ : Type}

/-- All that gathering can do. -/
theorem gather_cases (source : Source σ) (target : Instant) (world : σ) (tracker : Tracker) :
    (∃ e world', gather source target (world, tracker) = .error e (world', tracker)) ∨
      ∃ window batch told world', window.start = tracker.mark ∧ window.stop = target ∧
        source.fetch window world = .ok batch world' ∧
        Chronicle.ofBatch batch (some tracker.mark) = .ok told ∧
        gather source target (world, tracker) = .ok (window, told) (world', tracker) := by
  rw [gather]
  split
  · exact .inl ⟨_, _, rfl⟩
  · dsimp only
    split
    · exact .inl ⟨_, _, rfl⟩
    · next batch world' hfetch =>
        split
        · exact .inl ⟨_, _, rfl⟩
        · next told htold => exact .inr ⟨_, batch, told, world', rfl, rfl, hfetch, htold, rfl⟩

/-- An update fails as gathering does, or replays what was gathered. -/
theorem update_cases (source : Source σ) (oracle : Oracle σ) (target : Instant) (world : σ)
    (tracker : Tracker) :
    (∃ e world', gather source target (world, tracker) = .error e (world', tracker) ∧
        update source oracle target (world, tracker) = .error e (world', tracker)) ∨
      ∃ window told world', gather source target (world, tracker)
          = .ok (window, told) (world', tracker) ∧
        update source oracle target (world, tracker)
          = replay oracle window told (world', tracker) := by
  have hupdate : update source oracle target (world, tracker)
      = EStateM.bind (gather source target) (fun found => replay oracle found.1 found.2)
          (world, tracker) := rfl
  rw [hupdate, EStateM.bind]
  rcases gather_cases source target world tracker with
    ⟨e, world', hgather⟩ | ⟨window, batch, told, world', _, _, _, _, hgather⟩ <;> rw [hgather]
  · exact .inl ⟨e, world', rfl, rfl⟩
  · exact .inr ⟨window, told, world', rfl, rfl⟩

/-- What was gathered reaches up to the target, and an update replays it. -/
theorem update_of_gather {source : Source σ} {target : Instant} {world world' : σ}
    {tracker : Tracker} {window : Window} {told : Chronicle}
    (hgather : gather source target (world, tracker) = .ok (window, told) (world', tracker))
    (oracle : Oracle σ) :
    window.stop = target ∧ update source oracle target (world, tracker)
      = replay oracle window told (world', tracker) := by
  refine ⟨stop_of_gather hgather, ?_⟩
  show EStateM.bind (gather source target) (fun found => replay oracle found.1 found.2)
    (world, tracker) = _
  rw [EStateM.bind, hgather]

/-- An update that goes well replays what was gathered up to its target. -/
theorem exists_replay_of_update {source : Source σ} {oracle : Oracle σ} {target : Instant}
    {world : σ} {tracker : Tracker} {outcome : Outcome} {state : σ × Tracker}
    (hok : update source oracle target (world, tracker) = .ok outcome state) :
    ∃ window told world', window.stop = target ∧
      replay oracle window told (world', tracker) = .ok outcome state := by
  rcases update_cases source oracle target world tracker with
    ⟨e, world', _, hupdate⟩ | ⟨window, told, world', hgather, hupdate⟩
  · rw [hok] at hupdate
    exact nomatch hupdate
  · exact ⟨window, told, world', (update_of_gather hgather oracle).1, hupdate.symm.trans hok⟩

/-- The replay inside an update, run on the tracker's ledger under a new undo log. -/
def rerun (oracle : Oracle σ) (window : Window) (told : Chronicle) (tracker : Tracker)
    (world : σ) : EStateM.Result UpdateError (σ × Ledger) Staged :=
  Replay.run oracle tracker.audit told window.stop (told.lastBlock?.or tracker.latestBlock)
    (world, tracker.ledger.rollback.begin)

def outcomeOf (window : Window) (told : Chronicle) (staged : Staged) : Outcome where
  window := window
  blocks := told.stretch.map fun stretch => stretch.blocks
  events := told.events.length
  notices := staged.notices.toList
  reports := staged.reports.toList

/-- All that replaying can do. -/
theorem replay_cases (oracle : Oracle σ) (window : Window) (told : Chronicle) (world : σ)
    (tracker : Tracker) :
    (∃ e world' ledger, rerun oracle window told tracker world = .error e (world', ledger) ∧
        replay oracle window told (world, tracker)
          = .error e (world', { tracker with ledger := ledger.rollback })) ∨
      ∃ staged world' ledger, rerun oracle window told tracker world
          = .ok staged (world', ledger) ∧
        replay oracle window told (world, tracker)
          = .ok (outcomeOf window told staged) (world',
              tracker.accept window.stop (told.lastBlock?.or tracker.latestBlock) ledger
                staged) := by
  rw [replay]
  dsimp only
  rw [← rerun]
  cases rerun oracle window told tracker world with
  | error e state => exact .inl ⟨e, state.1, state.2, rfl, rfl⟩
  | ok staged state => exact .inr ⟨staged, state.1, state.2, rfl, rfl⟩

theorem replay_eq_ok_iff {oracle : Oracle σ} {window : Window} {told : Chronicle}
    {world : σ} {tracker : Tracker} {outcome : Outcome} {state : σ × Tracker} :
    replay oracle window told (world, tracker) = .ok outcome state ↔
      ∃ staged world' ledger, rerun oracle window told tracker world
          = .ok staged (world', ledger) ∧
        outcome = outcomeOf window told staged ∧
        state = (world', tracker.accept window.stop
          (told.lastBlock?.or tracker.latestBlock) ledger staged) := by
  rcases replay_cases oracle window told world tracker with
    ⟨e, world', ledger, hrun, hreplay⟩ | ⟨staged, world', ledger, hrun, hreplay⟩
  · rw [hreplay, hrun]
    constructor
    · intro h
      exact nomatch h
    · rintro ⟨_, _, _, h, _⟩
      exact nomatch h
  · rw [hreplay, hrun]
    constructor
    · intro h
      injection h with houtcome hstate
      exact ⟨staged, world', ledger, rfl, houtcome.symm, hstate.symm⟩
    · rintro ⟨_, _, _, h, rfl, rfl⟩
      injection h with hstaged hstate
      injection hstate with hworld hledger
      subst hstaged hworld hledger
      rfl

/-- A replay that goes well moves the mark to the end of its window, and counts the events it was
told. -/
theorem replay_eq_ok_mark {oracle : Oracle σ} {window : Window} {told : Chronicle} {world : σ}
    {tracker : Tracker} {outcome : Outcome} {state : σ × Tracker}
    (h : replay oracle window told (world, tracker) = .ok outcome state) :
    state.2.mark = window.stop ∧ outcome.events = told.events.length := by
  refine ⟨mark_of_replay h, ?_⟩
  obtain ⟨_, _, _, _, rfl, _⟩ := replay_eq_ok_iff.1 h
  rfl

/-- An update that goes well does not go back. -/
theorem mark_le_of_update {source : Source σ} {oracle : Oracle σ} {target : Instant}
    {tracker : Tracker} {world : σ} {outcome : Outcome} {state : σ × Tracker}
    (h : update source oracle target (world, tracker) = .ok outcome state) :
    tracker.mark ≤ target := by
  rcases update_cases source oracle target world tracker with
    ⟨e, world', _, hupdate⟩ | ⟨window, told, world', hgather, _⟩
  · rw [h] at hupdate
    exact nomatch hupdate
  · rcases gather_cases source target world tracker with
      ⟨e, _, hfail⟩ | ⟨found, _, _, _, hstart, hstop, _⟩
    · rw [hfail] at hgather
      exact nomatch hgather
    · rw [← hstart, ← hstop]
      exact found.ordered

/-! ## Settled trackers -/

/-- No undo log is open, and the ledger is sound. -/
structure Settled (tracker : Tracker) : Prop where
  sound : tracker.ledger.Sound
  closed : tracker.ledger.undo = none

theorem Settled.rollback {tracker : Tracker} (h : tracker.Settled) :
    tracker.ledger.rollback = tracker.ledger := by
  rw [Ledger.rollback, h.closed]

/-- The changes that replaying a chronicle up to a target makes to a tracker's ledger. -/
def changesTo (tracker : Tracker) (target : Instant) (told : Chronicle) : List Change :=
  Replay.changesUpTo target (told.lastBlock?.or tracker.latestBlock) told.blocks

/-- A replay on a settled tracker makes changes to its ledger. -/
theorem Settled.rerun {tracker : Tracker} (h : tracker.Settled) (oracle : Oracle σ)
    (window : Window) (told : Chronicle) (world : σ) :
    Replay.ComesFrom tracker.ledger.begin (tracker.changesTo window.stop told)
      (tracker.rerun oracle window told world) := by
  rw [Tracker.rerun, h.rollback]
  exact Replay.makes_run oracle tracker.audit told window.stop _ world tracker.ledger.begin

/-- A failed replay leaves no trace. -/
theorem Settled.replay_error {tracker : Tracker} (h : tracker.Settled) {oracle : Oracle σ}
    {window : Window} {told : Chronicle} {world : σ} {e : UpdateError} {state : σ × Tracker}
    (hfail : replay oracle window told (world, tracker) = .error e state) :
    state.2 = tracker := by
  rcases replay_cases oracle window told world tracker with
    ⟨e', world', ledger, hrun, hreplay⟩ | ⟨staged, world', ledger, _, hreplay⟩
  · have hmade := h.rerun oracle window told world
    rw [hrun] at hmade
    obtain ⟨made, _, hledger⟩ := hmade
    have hledger : ledger.rollback = tracker.ledger := by
      rw [hledger]
      exact Ledger.rollback_changeAll_begin h.sound h.closed made
    rw [hfail] at hreplay
    cases hreplay
    rw [hledger]
  · rw [hfail] at hreplay
    exact nomatch hreplay

/-- A failed update leaves no trace. -/
theorem Settled.update_error {tracker : Tracker} (h : tracker.Settled) {source : Source σ}
    {oracle : Oracle σ} {target : Instant} {world : σ} {e : UpdateError} {state : σ × Tracker}
    (hfail : update source oracle target (world, tracker) = .error e state) :
    state.2 = tracker := by
  rcases update_cases source oracle target world tracker with
    ⟨e', world', _, hupdate⟩ | ⟨window, told, world', _, hupdate⟩
  · rw [hfail] at hupdate
    cases hupdate
    rfl
  · rw [hupdate] at hfail
    exact h.replay_error hfail

/-- A replay that goes well leaves the tracker settled. -/
theorem Settled.replay_ok {tracker : Tracker} (h : tracker.Settled) {oracle : Oracle σ}
    {window : Window} {told : Chronicle} {world : σ} {outcome : Outcome} {state : σ × Tracker}
    (hok : replay oracle window told (world, tracker) = .ok outcome state) : state.2.Settled := by
  obtain ⟨staged, world', ledger, hrun, rfl, rfl⟩ := replay_eq_ok_iff.1 hok
  have hmade := h.rerun oracle window told world
  rw [hrun] at hmade
  have hledger : ledger = _ := hmade
  subst hledger
  exact ⟨(Ledger.closed_sound.changeAll h.sound.begin _).commit, rfl⟩

theorem Settled.update_ok {tracker : Tracker} (h : tracker.Settled) {source : Source σ}
    {oracle : Oracle σ} {target : Instant} {world : σ} {outcome : Outcome} {state : σ × Tracker}
    (hok : update source oracle target (world, tracker) = .ok outcome state) :
    state.2.Settled := by
  obtain ⟨window, told, world', _, hreplay⟩ := exists_replay_of_update hok
  exact h.replay_ok hreplay

/-! ## Reachable trackers -/

/-- The tracker that an update leaves, in success and in failure. -/
def leftBy : EStateM.Result UpdateError (σ × Tracker) Outcome → Tracker
  | .ok _ (_, tracker) => tracker
  | .error _ (_, tracker) => tracker

/-- The trackers that come from a new one by updates, over any chain, and by taking reports. -/
inductive Reachable : Tracker → Prop where
  | start (observer : Observer) (mark : Instant) : Reachable (start observer mark)
  | withAudit {tracker : Tracker} (h : Reachable tracker) (audit : Audit) :
      Reachable (tracker.withAudit audit)
  | update {tracker : Tracker} (h : Reachable tracker) {σ : Type} (source : Source σ)
      (oracle : Oracle σ) (target : Instant) (world : σ) :
      Reachable (leftBy (update source oracle target (world, tracker)))
  | drain {tracker : Tracker} (h : Reachable tracker) : Reachable tracker.drain.2

theorem Settled.drain {tracker : Tracker} (h : tracker.Settled) : tracker.drain.2.Settled := by
  rw [Tracker.drain]
  split
  · exact h
  · exact ⟨h.sound, h.closed⟩

theorem Settled.update {tracker : Tracker} (h : tracker.Settled) (source : Source σ)
    (oracle : Oracle σ) (target : Instant) (world : σ) :
    (leftBy (Tracker.update source oracle target (world, tracker))).Settled := by
  cases hresult : Tracker.update source oracle target (world, tracker) with
  | error e state =>
      show state.2.Settled
      rw [h.update_error hresult]
      exact h
  | ok outcome state => exact h.update_ok hresult

theorem Reachable.settled {tracker : Tracker} (h : tracker.Reachable) : tracker.Settled := by
  induction h with
  | start observer mark => exact ⟨Ledger.Sound.empty, rfl⟩
  | withAudit _ audit ih => exact ⟨ih.sound, ih.closed⟩
  | update _ source oracle target world ih => exact ih.update source oracle target world
  | drain _ ih => exact ih.drain

end StorageMarket.Tracker
