import Mathlib.Algebra.Module.Submodule.Lattice
import Mathlib.Computability.Primrec.List
import Mathlib.Data.List.Permutation
import StorageMarket.Proofs.Archive.Spacing
import StorageMarket.Proofs.Tracker.Advance
import StorageMarket.Proofs.Tracker.Splitting

/-!
# The size of the steps

Over an evenly spaced recording it does not matter in how many steps a tracker is brought
to a moment. One update succeeds exactly if the updates in steps all do, and then the
tracker is the same, the same notices are told in the same order, the same reports are
written, and the counts add up.

An update that is cut in two asks for two windows instead of one. Their chronicles put
together are the chronicle of the whole window only if a block is told with the same time
in either, and this is where the spacing comes in.
-/

namespace StorageMarket

variable {σ : Type}

/-- The chronicle of a window is made of those of its two parts. -/
theorem Archive.Tells.splits {archive : Archive} (h : archive.recording.InOrder) {gap : Nat}
    (hspaced : archive.recording.EvenlySpaced gap) {start middle stop : Instant}
    {hstart : start ≤ middle} {hstop : middle ≤ stop} {told early late : Chronicle}
    (htold : archive.Tells ⟨start, stop, Instant.le_trans hstart hstop⟩ told)
    (hearly : archive.Tells ⟨start, middle, hstart⟩ early)
    (hlate : archive.Tells ⟨middle, stop, hstop⟩ late) : told.Splits early late middle := by
  have hcut := archive.blocksIn_append hstart hstop
  have hblocks : told.blocks = early.blocks ++ late.blocks := by
    rw [htold.blocks_eq h hspaced, hearly.blocks_eq h hspaced, hlate.blocks_eq h hspaced,
      ← List.map_append, hcut]
  refine ⟨hblocks, ?_, ?_, ?_⟩
  · rw [← htold.orderly.flatMap_events_blocks, ← hearly.orderly.flatMap_events_blocks,
      ← hlate.orderly.flatMap_events_blocks, hblocks, List.flatMap_append, List.length_append]
  · rw [htold.lastBlock?_eq, hearly.lastBlock?_eq, hlate.lastBlock?_eq, ← hcut,
      List.getLast?_append, Option.map_or]
  · intro block hm
    rw [hlate.blocks_eq h hspaced] at hm
    obtain ⟨stamp, hstamp, rfl⟩ := List.mem_map.1 hm
    exact ((Archive.mem_blocksIn h).1 hstamp).2.1

namespace Tracker

/-- Over an archive an update replays what is told between the mark and the target. -/
theorem update_archive {archive : Archive} (h : archive.recording.InOrder) (oracle : Oracle σ)
    {mark target : Instant} (hle : mark ≤ target) :
    ∃ told, archive.Tells ⟨mark, target, hle⟩ told ∧
      ∀ (world : σ) (tracker : Tracker), tracker.mark = mark →
        update (archive.source σ) oracle target (world, tracker)
          = replay oracle ⟨mark, target, hle⟩ told (world, tracker) := by
  obtain ⟨told, htells, hgather⟩ := gather_archive (σ := σ) h hle
  refine ⟨told, htells, fun world tracker hmark => ?_⟩
  have hupdate : update (archive.source σ) oracle target (world, tracker)
      = EStateM.bind (gather (archive.source σ) target) (fun found => replay oracle found.1 found.2)
          (world, tracker) := rfl
  rw [hupdate, EStateM.bind, hgather world tracker hmark]

section

variable {archive : Archive} (h : archive.recording.InOrder) {gap : Nat}
  (hspaced : archive.recording.EvenlySpaced gap)
include h hspaced

theorem update_split {tracker : Tracker} (hsettled : tracker.Settled) {oracle : Oracle σ}
    {middle stop : Instant} (hstart : tracker.mark ≤ middle) (hstop : middle ≤ stop) {world : σ}
    {total : Total} {state : σ × Tracker} :
    (∃ outcome, update (archive.source σ) oracle stop (world, tracker) = .ok outcome state ∧
        total = .single outcome) ↔
      ∃ outcome between outcome',
        update (archive.source σ) oracle middle (world, tracker) = .ok outcome between ∧
        update (archive.source σ) oracle stop between = .ok outcome' state ∧
        total = (Total.single outcome).add (.single outcome') := by
  obtain ⟨told, htold, hwhole⟩ :=
    update_archive h oracle (Instant.le_trans hstart hstop)
  obtain ⟨early, hearly, hfirst⟩ := update_archive h oracle hstart
  obtain ⟨late, hlate, hsecond⟩ := update_archive h oracle hstop
  have hsplits := Archive.Tells.splits h hspaced htold hearly hlate
  rw [hwhole world tracker rfl, hfirst world tracker rfl,
    hsettled.replay_split ⟨tracker.mark, stop, _⟩ ⟨tracker.mark, middle, hstart⟩
      ⟨middle, stop, hstop⟩ hsplits rfl hstop]
  refine exists_congr fun outcome => exists_congr fun between => exists_congr fun outcome' => ?_
  refine and_congr_right fun hok => ?_
  rw [hsecond between.1 between.2 (replay_eq_ok_mark hok).1]

theorem update_steps {tracker : Tracker} (hsettled : tracker.Settled) (oracle : Oracle σ)
    {targets : List Instant} {target : Instant}
    (hsorted : (tracker.mark :: (targets ++ [target])).Pairwise (· ≤ ·)) (world : σ)
    (total : Total) (state : σ × Tracker) :
    (∃ outcome, update (archive.source σ) oracle target (world, tracker) = .ok outcome state ∧
        total = .single outcome) ↔
      ∃ outcomes, (targets ++ [target]).mapM (update (archive.source σ) oracle) (world, tracker)
          = .ok outcomes state ∧ total = .of outcomes := by
  induction targets generalizing tracker world total with
  | nil =>
      constructor
      · rintro ⟨outcome, hok, rfl⟩
        exact ⟨[outcome], mapM_cons_eq_ok.2 ⟨outcome, state, [], hok, rfl, rfl⟩,
          (Total.of_singleton outcome).symm⟩
      · rintro ⟨outcomes, hok, rfl⟩
        obtain ⟨outcome, last, rest, hok, hrest, rfl⟩ := mapM_cons_eq_ok.1 hok
        cases hrest
        exact ⟨outcome, hok, Total.of_singleton outcome⟩
  | cons middle targets ih =>
      rw [List.cons_append, List.pairwise_cons] at hsorted
      have hstart : tracker.mark ≤ middle := hsorted.1 middle List.mem_cons_self
      have hstop : middle ≤ target :=
        (List.pairwise_cons.1 hsorted.2).1 target (List.mem_append_right _ List.mem_cons_self)
      -- the rest of the steps start where the first of them has left the tracker
      have hrest {outcome : Outcome} {between : σ × Tracker}
          (hok : update (archive.source σ) oracle middle (world, tracker) = .ok outcome between)
          (total : Total) :
          (∃ outcome', update (archive.source σ) oracle target between = .ok outcome' state ∧
              total = .single outcome') ↔
            ∃ outcomes, (targets ++ [target]).mapM (update (archive.source σ) oracle) between
                = .ok outcomes state ∧ total = .of outcomes := by
        refine ih (hsettled.update_ok hok) ?_ between.1 total
        rw [update_mark hok]
        exact hsorted.2
      rw [update_split h hspaced hsettled hstart hstop]
      constructor
      · rintro ⟨outcome, between, outcome', hfirst, hsecond, rfl⟩
        obtain ⟨outcomes, hoks, htotal⟩ := (hrest hfirst _).1 ⟨outcome', hsecond, rfl⟩
        refine ⟨outcome :: outcomes, mapM_cons_eq_ok.2 ⟨_, _, _, hfirst, hoks, rfl⟩, ?_⟩
        rw [Total.of_cons, htotal]
      · rintro ⟨_, hall, rfl⟩
        obtain ⟨outcome, between, outcomes, hfirst, hoks, rfl⟩ := mapM_cons_eq_ok.1 hall
        obtain ⟨outcome', hsecond, htotal⟩ := (hrest hfirst _).2 ⟨outcomes, hoks, rfl⟩
        refine ⟨outcome, between, outcome', hfirst, hsecond, ?_⟩
        rw [Total.of_cons, htotal]

end

/-- Over an evenly spaced recording, one update of a reachable tracker succeeds if and only if
the updates to any moments on the way and then to the target all do. If so, both leave the same
tracker, the same notices are told and the same reports are written in the same order, and the
counts of events, notices and reports add up to those of the one update. -/
theorem step_size_makes_no_difference {recording : Recording} {archive : Archive}
    (harchive : Archive.ofRecording recording = .ok archive) {gap : Nat}
    (hspaced : recording.EvenlySpaced gap) (oracle : Oracle σ) {tracker : Tracker}
    (hreachable : tracker.Reachable) {targets : List Instant} {target : Instant}
    (hsorted : (tracker.mark :: (targets ++ [target])).Pairwise (· ≤ ·)) (world : σ) :
    ((∃ outcome last,
        update (archive.source σ) oracle target (world, tracker) = .ok outcome last) ↔
      ∃ outcomes last, (targets ++ [target]).mapM (update (archive.source σ) oracle)
        (world, tracker) = .ok outcomes last) ∧
    ∀ outcome last outcomes last',
      update (archive.source σ) oracle target (world, tracker) = .ok outcome last →
      (targets ++ [target]).mapM (update (archive.source σ) oracle) (world, tracker)
        = .ok outcomes last' →
      last' = last ∧
      outcomes.flatMap Outcome.notices = outcome.notices ∧
      outcomes.flatMap Outcome.reports = outcome.reports ∧
      (outcomes.map Outcome.events).sum = outcome.events ∧
      (outcomes.map fun outcome => outcome.notices.length).sum = outcome.notices.length ∧
      (outcomes.map fun outcome => outcome.reports.length).sum = outcome.reports.length := by
  obtain ⟨rfl, hinOrder⟩ := Archive.ofRecording_ok harchive
  have hsteps := update_steps hinOrder hspaced hreachable.settled oracle hsorted world
  constructor
  · constructor
    · rintro ⟨outcome, last, hok⟩
      obtain ⟨outcomes, hoks, _⟩ := (hsteps _ last).1 ⟨outcome, hok, rfl⟩
      exact ⟨outcomes, last, hoks⟩
    · rintro ⟨outcomes, last, hoks⟩
      obtain ⟨outcome, hok, _⟩ := (hsteps _ last).2 ⟨outcomes, hoks, rfl⟩
      exact ⟨outcome, last, hok⟩
  · intro outcome last outcomes last' hok hoks
    obtain ⟨outcomes', hoks', htotal⟩ := (hsteps _ last).1 ⟨outcome, hok, rfl⟩
    rw [hoks] at hoks'
    injection hoks' with houtcomes hlast
    subst houtcomes
    injection htotal with hevents hnotices hreports
    refine ⟨hlast, hnotices.symm, hreports.symm, hevents.symm, ?_, ?_⟩
    · rw [hnotices, List.length_flatMap]
    · rw [hreports, List.length_flatMap]

/-- Five blocks, one every thirty seconds. The deal of the second one ends between the third and
the fourth, and a period ends there too. -/
def steadyRecording : Recording where
  periodSeconds := 60
  blocks := [⟨1, ⟨1000, 0, by decide⟩⟩, ⟨2, ⟨1030, 0, by decide⟩⟩, ⟨3, ⟨1060, 0, by decide⟩⟩,
    ⟨4, ⟨1090, 0, by decide⟩⟩, ⟨5, ⟨1120, 0, by decide⟩⟩]
  events := [.fulfilled ⟨2, (Ledger.sampleRequest 1 2 45).id⟩,
    .published ⟨2, Ledger.sampleRequest 1 2 45⟩, .published ⟨4, Ledger.sampleRequest 2 1 60⟩]
  proofs := []

def steadyArchive : Archive :=
  ⟨steadyRecording, ⟨⟨1000, 0, by decide⟩, ⟨1120, 0, by decide⟩, by decide⟩⟩

def steadyTracker : Tracker := (start .silent ⟨1000, 0, by decide⟩).withAudit (.new 3)

/-- Stops before and after the deal ends, and one at a block. -/
def steadyStops : List Instant :=
  [⟨1070, 0, by decide⟩, ⟨1080, 0, by decide⟩, ⟨1090, 0, by decide⟩]

def steadyEnd : Instant := ⟨1500, 0, by decide⟩

def counts {τ : Type} : EStateM.Result UpdateError τ Outcome → Option (Nat × Nat)
  | .ok outcome _ => some (outcome.notices.length, outcome.reports.length)
  | .error _ _ => none

theorem step_size_makes_no_difference_steadyStops :
    Archive.ofRecording steadyRecording = .ok steadyArchive ∧
      steadyRecording.EvenlySpaced 30000 ∧ steadyTracker.Reachable ∧
      (steadyTracker.mark :: (steadyStops ++ [steadyEnd])).Pairwise (· ≤ ·) ∧
      ∃ outcomes last, (steadyStops ++ [steadyEnd]).mapM
          (update (steadyArchive.source Unit) (steadyArchive.oracle Unit)) ((), steadyTracker)
            = .ok outcomes last ∧
        (outcomes.flatMap Outcome.notices).length = 4 ∧
        (outcomes.flatMap Outcome.reports).length = 1 := by
  have harchive : Archive.ofRecording steadyRecording = .ok steadyArchive := rfl
  have hspaced : steadyRecording.EvenlySpaced 30000 :=
    Recording.Steady.evenlySpaced (by decide) (by decide)
  have hreachable : steadyTracker.Reachable := (Reachable.start _ _).withAudit _
  have hsorted : (steadyTracker.mark :: (steadyStops ++ [steadyEnd])).Pairwise (· ≤ ·) := by decide
  obtain ⟨hsucceeds, hsame⟩ := step_size_makes_no_difference harchive hspaced
    (steadyArchive.oracle Unit) hreachable hsorted ()
  have hcounts : counts (update (steadyArchive.source Unit) (steadyArchive.oracle Unit) steadyEnd
      ((), steadyTracker)) = some (4, 1) := by cbv
  refine ⟨harchive, hspaced, hreachable, hsorted, ?_⟩
  cases hupdate : update (steadyArchive.source Unit) (steadyArchive.oracle Unit) steadyEnd
      ((), steadyTracker) with
  | error e state =>
      rw [hupdate] at hcounts
      cases hcounts
  | ok outcome last =>
      rw [hupdate] at hcounts
      injection hcounts with hcounts
      injection hcounts with hnotices hreports
      obtain ⟨outcomes, last', hsteps⟩ := hsucceeds.1 ⟨outcome, last, hupdate⟩
      obtain ⟨_, hsame, hsame', _⟩ := hsame outcome last outcomes last' hupdate hsteps
      exact ⟨outcomes, last', hsteps, by rw [hsame, hnotices], by rw [hsame', hreports]⟩

/-! ## Leap seconds -/

/-- Three blocks, each 36001 seconds after the one before. The first one is inside a leap second,
and the last one comes earlier in its day, so the time between these two is a second short. -/
def leapRecording : Recording where
  periodSeconds := 60
  blocks := [⟨0, ⟨1577880059, 1500000000, by decide⟩⟩, ⟨1, ⟨1577916060, 500000000, by decide⟩⟩,
    ⟨2, ⟨1577952061, 500000000, by decide⟩⟩]
  events := [.published ⟨1, Ledger.sampleRequest 1 1 100⟩]
  proofs := []

def leapArchive : Archive :=
  ⟨leapRecording, ⟨⟨1577880059, 1500000000, by decide⟩, ⟨1577952061, 500000000, by decide⟩,
    by decide⟩⟩

def leapTracker : Tracker := start .silent ⟨1577880000, 0, by decide⟩

def datesOf {α : Type} : EStateM.Result UpdateError (Unit × Tracker) α → Option (List Instant)
  | .ok _ (_, tracker) => some (tracker.ledger.deals.map Deal.createdAt)
  | .error _ _ => none

/-- With a leap second it is not enough that neighbouring blocks are evenly spaced. Here an update
with a stop at the second block dates the deal at the recorded time, and a single update half a
second earlier. -/
theorem step_size_makes_a_difference_leapRecording :
    Archive.ofRecording leapRecording = .ok leapArchive ∧ leapRecording.Steady 36001000 ∧
      datesOf ([⟨1577916060, 500000000, by decide⟩, ⟨1577952061, 500000000, by decide⟩].mapM
          (update (leapArchive.source Unit) (leapArchive.oracle Unit)) ((), leapTracker))
        = some [⟨1577916060, 500000000, by decide⟩] ∧
      datesOf (update (leapArchive.source Unit) (leapArchive.oracle Unit)
          ⟨1577952061, 500000000, by decide⟩ ((), leapTracker))
        = some [⟨1577916060, 0, by decide⟩] := by
  refine ⟨rfl, by decide, ?_, ?_⟩
  · cbv
  · cbv

end Tracker

end StorageMarket
