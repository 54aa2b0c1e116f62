import StorageMarket.Proofs.Replay.Success
import StorageMarket.Proofs.Tracker.Update

/-!
# What a successful update does

On a settled tracker the undo log plays no part in an update that succeeds. The update
makes the changes of its blocks and lets the time go on to its end; it tells the notices
of these changes, and writes the reports that the audit asked for.
-/

namespace StorageMarket

namespace Ledger

theorem accepts_begin {ledger : Ledger} (hclosed : ledger.undo = none) {changes : List Change} :
    ledger.begin.Accepts changes ↔ ledger.Accepts changes := by
  have hcommit := @accepts_commit ledger.begin changes
  rwa [show ledger.begin.commit = ledger from commit_of_closed hclosed, Iff.comm] at hcommit

theorem news_begin {ledger : Ledger} (hclosed : ledger.undo = none) (changes : List Change) :
    ledger.begin.news changes = ledger.news changes := by
  rw [← news_commit ledger.begin]
  show ledger.commit.news changes = _
  rw [commit_of_closed hclosed]

theorem commit_changeAll_begin {ledger : Ledger} (hclosed : ledger.undo = none)
    (changes : List Change) :
    (ledger.begin.changeAll changes).2.commit = (ledger.changeAll changes).2 := by
  have hsame := changeAll_commit ledger.begin changes
  have hbegin : ledger.begin.commit = ledger := commit_of_closed hclosed
  rw [hbegin] at hsame
  rw [hsame]

theorem sights_begin (ledger : Ledger) (blocks : List Block) :
    ledger.begin.sights blocks = ledger.sights blocks := by
  rw [← sights_commit ledger.begin, ← sights_commit ledger]
  rfl

end Ledger

namespace Tracker

variable {σ : Type}

/-- A tracker at the end of a window, after some changes of its ledger and some reports. -/
def moved (tracker : Tracker) (stop : Instant) (latestBlock : Option BlockNumber)
    (changes : List Change) (cursor : Option Cursor) (reports : List Report) : Tracker where
  ledger := (tracker.ledger.changeAll changes).2
  mark := stop
  latestBlock := latestBlock
  audit := tracker.audit.map fun audit => audit.commit cursor reports
  observer := tracker.observer.inform (tracker.ledger.news changes)

theorem Settled.rerun_eq_ok {tracker : Tracker} (h : tracker.Settled) {oracle : Oracle σ}
    {window : Window} {told : Chronicle} {world world' : σ} {staged : Staged} {ledger : Ledger} :
    tracker.rerun oracle window told world = .ok staged (world', ledger) ↔
      tracker.ledger.Accepts (tracker.changesTo window.stop told) ∧
      ledger = (tracker.ledger.begin.changeAll (tracker.changesTo window.stop told)).2 ∧
      ∃ cursor reports, Audit.watchAll oracle tracker.audit
          (tracker.audit.bind Audit.cursor) (tracker.ledger.sights told.blocks) world
            = .ok (cursor, reports) world' ∧
        staged = ⟨cursor, (tracker.ledger.news (tracker.changesTo window.stop told)).toArray,
          reports.toArray⟩ := by
  rw [Tracker.rerun, h.rollback, Replay.run_eq_ok, Ledger.accepts_begin h.closed,
    Ledger.news_begin h.closed, Ledger.sights_begin, changesTo]

/-- All that a successful replay does to a settled tracker. -/
theorem Settled.replay_eq_ok {tracker : Tracker} (h : tracker.Settled) {oracle : Oracle σ}
    {window : Window} {told : Chronicle} {world : σ} {outcome : Outcome} {state : σ × Tracker} :
    replay oracle window told (world, tracker) = .ok outcome state ↔
      tracker.ledger.Accepts (tracker.changesTo window.stop told) ∧
      ∃ cursor reports world', Audit.watchAll oracle tracker.audit
          (tracker.audit.bind Audit.cursor) (tracker.ledger.sights told.blocks) world
            = .ok (cursor, reports) world' ∧
        outcome = ⟨window, told.stretch.map fun stretch => stretch.blocks, told.events.length,
          tracker.ledger.news (tracker.changesTo window.stop told), reports⟩ ∧
        state = (world', tracker.moved window.stop (told.lastBlock?.or tracker.latestBlock)
          (tracker.changesTo window.stop told) cursor reports) := by
  rw [replay_eq_ok_iff]
  constructor
  · rintro ⟨staged, world', ledger, hok, rfl, rfl⟩
    obtain ⟨haccepts, rfl, cursor, reports, hwatch, rfl⟩ := h.rerun_eq_ok.1 hok
    refine ⟨haccepts, cursor, reports, world', hwatch, rfl, ?_⟩
    rw [accept, Ledger.commit_changeAll_begin h.closed, moved]
  · rintro ⟨haccepts, cursor, reports, world', hwatch, rfl, rfl⟩
    refine ⟨_, world', _, h.rerun_eq_ok.2 ⟨haccepts, rfl, cursor, reports, hwatch, rfl⟩, rfl, ?_⟩
    rw [accept, Ledger.commit_changeAll_begin h.closed, moved]

end Tracker

end StorageMarket
