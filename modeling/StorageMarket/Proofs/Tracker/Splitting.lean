import Mathlib.Algebra.GroupWithZero.Nat
import StorageMarket.Proofs.Replay.Absorption
import StorageMarket.Proofs.Tracker.Replay

/-!
# Stopping half way

Suppose the blocks of a chronicle are those of an early one and then those of a late one,
and a moment lies between them (`Splits`). Then replaying the whole chronicle and
replaying its two parts, with a stop at that moment, come to the same: one succeeds if
the other does, the tracker is the same afterwards, and in sum the two parts tell what
the whole tells.

The stop finishes deals that the next change would have finished anyway, and an audit
cannot tell whether it has happened. Everything else is only carried over.
-/

namespace StorageMarket

/-- What some updates did in sum. -/
structure Total where
  events : Nat
  notices : List Notice
  reports : List Report

namespace Total

def add (first second : Total) : Total where
  events := first.events + second.events
  notices := first.notices ++ second.notices
  reports := first.reports ++ second.reports

def single (outcome : Outcome) : Total := ⟨outcome.events, outcome.notices, outcome.reports⟩

def of (outcomes : List Outcome) : Total where
  events := (outcomes.map Outcome.events).sum
  notices := outcomes.flatMap Outcome.notices
  reports := outcomes.flatMap Outcome.reports

theorem of_cons (outcome : Outcome) (outcomes : List Outcome) :
    of (outcome :: outcomes) = (single outcome).add (of outcomes) := rfl

theorem of_singleton (outcome : Outcome) : of [outcome] = single outcome := by
  simp only [of, single, List.map_cons, List.map_nil, List.sum_cons, List.sum_nil, Nat.add_zero,
    List.flatMap_cons, List.flatMap_nil, List.append_nil]

end Total

/-- The chronicle is an early one and then a late one, whose blocks come after a moment. -/
structure Chronicle.Splits (told early late : Chronicle) (middle : Instant) : Prop where
  blocks : told.blocks = early.blocks ++ late.blocks
  events : told.events.length = early.events.length + late.events.length
  lastBlock : told.lastBlock? = late.lastBlock?.or early.lastBlock?
  later : ∀ block ∈ late.blocks, middle < block.time

namespace Audit

variable {σ : Type}

theorem commit_commit (audit : Audit) (cursor next : Option Cursor) (reports more : List Report) :
    (audit.commit cursor reports).commit next more = audit.commit next (reports ++ more) := by
  simp only [commit, List.append_assoc]

theorem watch_commit (oracle : Oracle σ) (audit : Option Audit) (cursor : Option Cursor)
    (reports : List Report) :
    watch oracle (audit.map fun audit => audit.commit cursor reports) = watch oracle audit := by
  cases audit with
  | none => rfl
  | some audit => rfl

/-- What an audit has written so far makes no difference to what it sees. -/
theorem watchAll_commit (oracle : Oracle σ) (audit : Option Audit) (cursor : Option Cursor)
    (reports : List Report) (current : Option Cursor) (sights : List (Block × List Deal)) :
    watchAll oracle (audit.map fun audit => audit.commit cursor reports) current sights
      = watchAll oracle audit current sights := by
  induction sights generalizing current with
  | nil => rfl
  | cons sight sights ih => simp only [watchAll, watch_commit, ih]

/-- Where there is no audit nothing is asked and nothing is reported. -/
theorem watchAll_none (oracle : Oracle σ) (cursor : Option Cursor)
    (sights : List (Block × List Deal)) (world : σ) :
    watchAll oracle none cursor sights world = .ok (cursor, []) world := by
  induction sights with
  | nil => rfl
  | cons sight sights ih =>
      exact watchAll_cons_eq_ok.2 ⟨cursor, [], world, [], rfl, ih, rfl⟩

theorem cursor_commit {oracle : Oracle σ} {audit : Option Audit} {next : Option Cursor}
    {sights : List (Block × List Deal)} {reports : List Report} {world world' : σ}
    (h : watchAll oracle audit (audit.bind cursor) sights world = .ok (next, reports) world') :
    (audit.map fun audit => audit.commit next reports).bind cursor = next := by
  cases audit with
  | none =>
      rw [watchAll_none] at h
      cases h
      rfl
  | some audit => rfl

end Audit

namespace Tracker

variable {σ : Type}

theorem moved_moved (tracker : Tracker) (middle stop : Instant) (before after : Option BlockNumber)
    (changes others : List Change) (cursor next : Option Cursor) (reports more : List Report) :
    (tracker.moved middle before changes cursor reports).moved stop after others next more
      = tracker.moved stop after (changes ++ others) next (reports ++ more) := by
  have haudit : (tracker.audit.map fun audit => audit.commit cursor reports).map
      (fun audit => audit.commit next more)
        = tracker.audit.map fun audit => audit.commit next (reports ++ more) := by
    rw [Option.map_map]
    refine congrArg (fun f => tracker.audit.map f) (funext fun audit => ?_)
    exact Audit.commit_commit ..
  simp only [moved, haudit, Ledger.changeAll_append, Ledger.news_append, Observer.inform_append]

theorem moved_congr {tracker : Tracker} {changes others : List Change}
    (h : tracker.ledger.Equivalent changes others) (stop : Instant)
    (latestBlock : Option BlockNumber) (cursor : Option Cursor) (reports : List Report) :
    tracker.moved stop latestBlock changes cursor reports
      = tracker.moved stop latestBlock others cursor reports := by
  rw [moved, moved, h.after, h.news]

/-! ## With and without the stop -/

theorem changesTo_eq (tracker : Tracker) (target : Instant) (told : Chronicle) :
    tracker.changesTo target told = told.blocks.flatMap Block.changes
      ++ Replay.closing target (told.lastBlock?.or tracker.latestBlock) := rfl

section

variable {told early late : Chronicle} {middle stop : Instant}
  (hsplits : told.Splits early late middle) (tracker : Tracker)
include hsplits

theorem lastBlock_or :
    late.lastBlock?.or (early.lastBlock?.or tracker.latestBlock)
      = told.lastBlock?.or tracker.latestBlock := by
  rw [hsplits.lastBlock, Option.or_assoc]

theorem changesTo_told :
    tracker.changesTo stop told = early.blocks.flatMap Block.changes
      ++ Replay.changesUpTo stop (told.lastBlock?.or tracker.latestBlock) late.blocks := by
  rw [changesTo_eq, hsplits.blocks, List.flatMap_append, List.append_assoc, Replay.changesUpTo]

theorem changesTo_late (changes : List Change) (cursor : Option Cursor) (reports : List Report) :
    (tracker.moved middle (early.lastBlock?.or tracker.latestBlock) changes cursor
        reports).changesTo stop late
      = Replay.changesUpTo stop (told.lastBlock?.or tracker.latestBlock) late.blocks := by
  rw [changesTo, moved, lastBlock_or hsplits]

theorem lastBlock_seen (h : (early.lastBlock?.or tracker.latestBlock).isSome = true) :
    (told.lastBlock?.or tracker.latestBlock).isSome = true := by
  rw [← lastBlock_or hsplits, Option.isSome_or, h, Bool.or_true]

/-- What the two parts do to the ledger comes to the same as what the whole does. -/
theorem equivalent_split (hstop : middle ≤ stop) :
    tracker.ledger.Equivalent
      (tracker.changesTo middle early
        ++ Replay.changesUpTo stop (told.lastBlock?.or tracker.latestBlock) late.blocks)
      (tracker.changesTo stop told) := by
  rw [changesTo_told hsplits, changesTo_eq, List.append_assoc]
  exact (Ledger.equivalent_closing hstop hsplits.later (lastBlock_seen hsplits tracker) _).append_left _

end

/-- The audit sees the late blocks after the stop as it would have seen them without it. -/
theorem Settled.watchAll_split {tracker : Tracker} (h : tracker.Settled)
    {told early late : Chronicle} {middle : Instant} (hsplits : told.Splits early late middle)
    (oracle : Oracle σ) (cursor : Option Cursor) :
    Audit.watchAll oracle tracker.audit cursor
        ((tracker.ledger.changeAll (tracker.changesTo middle early)).2.sights late.blocks)
      = Audit.watchAll oracle tracker.audit cursor
        ((tracker.ledger.changeAll (early.blocks.flatMap Block.changes)).2.sights late.blocks) := by
  rw [changesTo_eq, Ledger.changeAll_append]
  exact (Ledger.closed_sound.changeAll h.sound _).watchAll_closing hsplits.later _ oracle _ _

/-- The late part, replayed where the early one has left the tracker, brings it to where the whole
chronicle would have brought it. -/
theorem Settled.replay_late {tracker : Tracker} (h : tracker.Settled) {oracle : Oracle σ}
    {told early late : Chronicle} {middle : Instant} (hsplits : told.Splits early late middle)
    {second : Window} (hstop : middle ≤ second.stop) {next : Option Cursor}
    {before : List Report}
    (hsettled : (tracker.moved middle (early.lastBlock?.or tracker.latestBlock)
      (tracker.changesTo middle early) next before).Settled)
    (hcursor : (tracker.audit.map fun audit => audit.commit next before).bind Audit.cursor = next)
    {world : σ} {outcome : Outcome} {state : σ × Tracker} :
    replay oracle second late (world, tracker.moved middle (early.lastBlock?.or tracker.latestBlock)
        (tracker.changesTo middle early) next before) = .ok outcome state ↔
      (tracker.ledger.changeAll (tracker.changesTo middle early)).2.Accepts
          (Replay.changesUpTo second.stop (told.lastBlock?.or tracker.latestBlock) late.blocks) ∧
      ∃ cursor after world', Audit.watchAll oracle tracker.audit next
          ((tracker.ledger.changeAll (early.blocks.flatMap Block.changes)).2.sights late.blocks)
            world = .ok (cursor, after) world' ∧
        outcome = ⟨second, late.stretch.map fun stretch => stretch.blocks, late.events.length,
          (tracker.ledger.changeAll (tracker.changesTo middle early)).2.news
            (Replay.changesUpTo second.stop (told.lastBlock?.or tracker.latestBlock) late.blocks),
          after⟩ ∧
        state = (world', tracker.moved second.stop (told.lastBlock?.or tracker.latestBlock)
          (tracker.changesTo second.stop told) cursor (before ++ after)) := by
  -- all that is needed of the tracker in between: its ledger, its changes, its sights, where it ends
  generalize hbetween : tracker.moved middle (early.lastBlock?.or tracker.latestBlock)
    (tracker.changesTo middle early) next before = between at hsettled ⊢
  have hledger : between.ledger = (tracker.ledger.changeAll (tracker.changesTo middle early)).2 := by
    rw [← hbetween, moved]
  have hchanges : between.changesTo second.stop late
      = Replay.changesUpTo second.stop (told.lastBlock?.or tracker.latestBlock) late.blocks := by
    rw [← hbetween, changesTo_late hsplits]
  have hsees : Audit.watchAll oracle between.audit (between.audit.bind Audit.cursor)
        (between.ledger.sights late.blocks)
      = Audit.watchAll oracle tracker.audit next
        ((tracker.ledger.changeAll (early.blocks.flatMap Block.changes)).2.sights late.blocks) := by
    rw [hledger, ← hbetween, moved, hcursor, Audit.watchAll_commit, h.watchAll_split hsplits]
  have hmoved (cursor : Option Cursor) (after : List Report) :
      between.moved second.stop (late.lastBlock?.or between.latestBlock)
          (between.changesTo second.stop late) cursor after
        = tracker.moved second.stop (told.lastBlock?.or tracker.latestBlock)
          (tracker.changesTo second.stop told) cursor (before ++ after) := by
    rw [hchanges, ← hbetween, moved_moved]
    show tracker.moved _ (late.lastBlock?.or (early.lastBlock?.or tracker.latestBlock)) .. = _
    rw [lastBlock_or hsplits]
    exact moved_congr (equivalent_split hsplits tracker hstop) ..
  simp only [hsettled.replay_eq_ok, hmoved, hsees]
  rw [hchanges, hledger]

/-- Replaying a chronicle and replaying its two parts one after the other come to the same. -/
theorem Settled.replay_split {tracker : Tracker} (h : tracker.Settled) {oracle : Oracle σ}
    {told early late : Chronicle} (window first second : Window)
    (hsplits : told.Splits early late first.stop) (hlast : window.stop = second.stop)
    (hstop : first.stop ≤ second.stop) {world : σ} {total : Total} {state : σ × Tracker} :
    (∃ outcome, replay oracle window told (world, tracker) = .ok outcome state ∧
        total = .single outcome) ↔
      ∃ outcome between outcome', replay oracle first early (world, tracker) = .ok outcome between ∧
        replay oracle second late between = .ok outcome' state ∧
        total = (Total.single outcome).add (.single outcome') := by
  have hsame := equivalent_split hsplits tracker hstop
  have haccepts := hsame.accepts.symm.trans Ledger.accepts_append
  have hnews := hsame.news
  constructor
  -- one replay to two: the audit's run is cut where the early blocks end
  · rintro ⟨outcome, hok, rfl⟩
    obtain ⟨hall, cursor, reports, world', hsights, rfl, rfl⟩ := h.replay_eq_ok.1 hok
    rw [hlast] at hall
    obtain ⟨hearly, hlate⟩ := haccepts.1 hall
    rw [hsplits.blocks, Ledger.sights_append, Audit.watchAll_append_eq_ok] at hsights
    obtain ⟨next, before, world'', after, hbefore, hafter, rfl⟩ := hsights
    have hfirst := h.replay_eq_ok.2 ⟨hearly, next, before, world'', hbefore, rfl, rfl⟩
    refine ⟨_, _, _, hfirst, (h.replay_late hsplits hstop (h.replay_ok hfirst)
      (Audit.cursor_commit hbefore)).2 ⟨hlate, cursor, after, world', hafter, rfl, ?_⟩, ?_⟩
    · rw [hlast]
    · rw [hlast, ← hnews, Ledger.news_append, hsplits.events]
      rfl
  -- two replays to one: the audit's runs are joined
  · rintro ⟨outcome, between, outcome', hfirst, hsecond, rfl⟩
    have hsettled := h.replay_ok hfirst
    obtain ⟨hearly, next, before, world'', hbefore, rfl, rfl⟩ := h.replay_eq_ok.1 hfirst
    obtain ⟨hlate, cursor, after, world', hafter, rfl, rfl⟩ :=
      (h.replay_late hsplits hstop hsettled (Audit.cursor_commit hbefore)).1 hsecond
    rw [← hlast] at haccepts hlate
    refine ⟨_, h.replay_eq_ok.2 ⟨haccepts.2 ⟨hearly, hlate⟩, cursor, before ++ after, world',
      ?_, rfl, ?_⟩, ?_⟩
    · rw [hsplits.blocks, Ledger.sights_append, Audit.watchAll_append_eq_ok]
      exact ⟨next, before, world'', after, hbefore, hafter, rfl⟩
    · rw [hlast]
    · rw [hlast, ← hnews, Ledger.news_append, hsplits.events]
      rfl

end Tracker

end StorageMarket
