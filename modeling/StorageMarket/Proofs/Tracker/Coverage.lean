import StorageMarket.Proofs.Archive.Start
import StorageMarket.Proofs.Tracker.EachEventOnce

/-!
# A replay from the start

A run of updates replays just those recorded blocks whose times come after its first mark
and not after its last. So a run from the start of an archive to its end replays all of
the recording, provided that the start comes before the first block. There is only one
reason why it may not: in the first millisecond of the calendar no moment is a whole
millisecond earlier.

What is replayed is applied: of the changes that a run makes to the ledger, those of the
events come in the order of the replayed events.
-/

namespace StorageMarket

/-- What comes after a window is cut off where the window ends. -/
theorem Window.between_iff (window : Window) {stop : Instant} (h : window.stop ≤ stop)
    {time : Instant} :
    ((window.start < time ∧ time ≤ window.stop) ∨ (window.stop < time ∧ time ≤ stop))
      ↔ window.start < time ∧ time ≤ stop := by
  have hordered := window.ordered
  simp only [Instant.lt_def, Instant.le_def] at *
  omega

namespace Archive

variable {archive : Archive}

theorem Tells.mem_numbers_iff (h : archive.recording.InOrder) {window : Window} {told : Chronicle}
    (htells : archive.Tells window told) {block : BlockStamp}
    (hm : block ∈ archive.recording.blocks) :
    block.number ∈ told.blocks.map Block.number
      ↔ window.start < block.time ∧ block.time ≤ window.stop := by
  rcases htells.stretch with ⟨hnone, hs⟩ | ⟨first, last, stretch, hfirst, hlast, hspans, hs⟩
  · have hout : block ∉ archive.blocksIn window := by
      rw [hnone]
      exact List.not_mem_nil
    rw [mem_blocksIn h] at hout
    rw [Chronicle.blocks, hs]
    exact ⟨fun h => absurd h List.not_mem_nil, fun htime => absurd ⟨hm, htime⟩ hout⟩
  · have hnumbers := htells.orderly.numbers_blocks hs
    have hnat : block.number.toNat ∈ (told.blocks.map fun b => b.number.toNat)
        ↔ block.number ∈ told.blocks.map Block.number := by
      rw [← List.mem_map_of_injective fun a b => UInt64.toNat_inj.1, List.map_map]
      rfl
    have hordered := UInt64.le_iff_toNat_le.1 stretch.blocks.ordered
    rw [← contains_number_iff h hfirst hlast hspans hm, ← hnat, hnumbers, List.mem_range'_1,
      BlockRange.contains_iff, UInt64.le_iff_toNat_le, UInt64.le_iff_toNat_le, BlockRange.size,
      BlockRange.gaps]
    omega

end Archive

namespace Tracker

variable {σ : Type}

theorem mark_advance {source : Source σ} {oracle : Oracle σ} {targets : List Instant}
    {state last : σ × Tracker} {steps : List Step}
    (hrun : advance source oracle targets state = .ok steps last) :
    last.2.mark = targets.getLast?.getD state.2.mark := by
  induction targets generalizing state steps with
  | nil =>
      cases hrun
      rfl
  | cons target targets ih =>
      obtain ⟨window, told, outcome, rest, gathered, replayed, hgather, hreplay, hrest, rfl⟩ :=
        advance_cons_eq_ok.1 hrun
      rw [ih hrest, mark_of_replay hreplay, stop_of_gather hgather, List.getLast?_cons,
        Option.getD_some]

/-- The changes that a run makes are accepted, and those of the events of all replayed blocks are
among them, in order. -/
theorem Settled.applied_advance {source : Source σ} {oracle : Oracle σ} {targets : List Instant}
    {world : σ} {tracker : Tracker} (h : tracker.Settled) {last : σ × Tracker} {steps : List Step}
    (hrun : advance source oracle targets (world, tracker) = .ok steps last) :
    ∃ changes, tracker.ledger.Accepts changes ∧
      last.2.ledger = (tracker.ledger.changeAll changes).2 ∧
      ((replayed steps).flatMap Block.applied).Sublist changes := by
  obtain ⟨haccepts, hledger⟩ := h.changesOf_advance hrun
  refine ⟨changesOf tracker.latestBlock steps, haccepts, hledger, ?_⟩
  rw [← filter_isOfEvent_changesOf tracker.latestBlock]
  exact List.filter_sublist

/-- A run over an archive replays the recorded blocks after its first mark and up to its last. -/
theorem mem_numbers_replayed_iff {archive : Archive} (h : archive.recording.InOrder)
    {oracle : Oracle σ} {targets : List Instant} {world : σ} {tracker : Tracker}
    {steps : List Step} {last : σ × Tracker}
    (hrun : advance (archive.source σ) oracle targets (world, tracker) = .ok steps last)
    {block : BlockStamp} (hm : block ∈ archive.recording.blocks) :
    block.number ∈ (replayed steps).map Block.number
      ↔ tracker.mark < block.time ∧ block.time ≤ targets.getLast?.getD tracker.mark := by
  induction targets generalizing world tracker steps with
  | nil =>
      cases hrun
      refine ⟨fun h => absurd h List.not_mem_nil, fun htime => ?_⟩
      exact absurd htime.1 (Instant.not_lt.2 htime.2)
  | cons target targets ih =>
      obtain ⟨window, told, outcome, rest, gathered, replayed, hgather, hreplay, hrest, rfl⟩ :=
        advance_cons_eq_ok.1 hrun
      obtain ⟨hstart, hstop, htells, rfl⟩ := gather_archive_eq_ok h hgather
      have hmark := (replay_eq_ok_mark hreplay).1
      obtain ⟨world', tracker'⟩ := replayed
      have hforward := (covers_advance h hrest).forward
      have ih := ih hrest
      have hlast : (target :: targets).getLast?.getD tracker.mark
          = targets.getLast?.getD window.stop := by
        rw [List.getLast?_cons, Option.getD_some, hstop]
      rw [hmark] at hforward ih
      rw [replayed_cons, List.map_append, List.mem_append, htells.mem_numbers_iff h hm, ih, hlast,
        ← hstart]
      exact window.between_iff hforward

/-- A run of updates over a recording from its start to its end, all of which succeed, replays just
the recorded blocks after the start, with their events, and applies these to the ledger one after
the other. If the start comes before the first block, these are all blocks and all events of the
recording. It does, unless the first block is in the first millisecond of the calendar: then the
start is the time of the first block, and no block of that time is replayed. -/
theorem replay_from_start_covers {recording : Recording} {archive : Archive}
    (harchive : Archive.ofRecording recording = .ok archive) {oracle : Oracle σ}
    {targets : List Instant} {world : σ} {tracker : Tracker} {steps : List Step}
    {last : σ × Tracker} (hsettled : tracker.Settled) (hstart : tracker.mark = archive.start)
    (hstop : targets.getLast?.getD tracker.mark = archive.times.stop)
    (hrun : advance (archive.source σ) oracle targets (world, tracker) = .ok steps last) :
    last.2.mark = archive.times.stop ∧
      (∀ block ∈ recording.blocks,
        block.number ∈ (replayed steps).map Block.number ↔ archive.start < block.time) ∧
      (replayed steps).flatMap Block.events
        = (recording.eventsBetween archive.start archive.times.stop).mergeSort Event.precedes ∧
      (∃ changes, tracker.ledger.Accepts changes ∧
        last.2.ledger = (tracker.ledger.changeAll changes).2 ∧
        ((replayed steps).flatMap Block.applied).Sublist changes) ∧
      (¬ archive.times.start.Primal → archive.start < archive.times.start ∧
        (∀ block ∈ recording.blocks, block.number ∈ (replayed steps).map Block.number) ∧
        (replayed steps).flatMap Block.events = recording.events.mergeSort Event.precedes) ∧
      (archive.times.start.Primal → archive.start = archive.times.start) := by
  obtain ⟨rfl, hinOrder⟩ := Archive.ofRecording_ok harchive
  have hcovers := covers_advance hinOrder hrun
  have hnumbers (block : BlockStamp) (hm : block ∈ archive.recording.blocks) :
      block.number ∈ (replayed steps).map Block.number ↔ archive.start < block.time := by
    rw [mem_numbers_replayed_iff hinOrder hrun hm, hstop, hstart]
    exact and_iff_left (Archive.time_bounds harchive hm).2
  have hevents := hcovers.events
  rw [hstop, hstart] at hevents
  refine ⟨(mark_advance hrun).trans hstop, hnumbers, hevents, hsettled.applied_advance hrun,
    fun hlate => ?_, archive.start_of_primal⟩
  have hlt := archive.start_lt_of_not_primal hlate
  refine ⟨hlt, fun block hm => ?_, ?_⟩
  · exact (hnumbers block hm).2 (Int.lt_of_lt_of_le hlt (Archive.time_bounds harchive hm).1)
  · rw [hevents, Archive.eventsBetween_eq_events harchive hlt]

/-- Updates from the start of the archive to its end, by way of two moments between blocks. -/
def sampleReplay : EStateM.Result UpdateError (Unit × Tracker) (List Step) :=
  advance (sampleArchive.source Unit) (sampleArchive.oracle Unit)
    [⟨105, 0, by decide⟩, ⟨120, 0, by decide⟩, sampleArchive.times.stop]
    ((), start .silent ⟨99, 999000000, by decide⟩)

theorem replay_from_start_covers_sampleReplay :
    Archive.ofRecording sampleRecording = .ok sampleArchive ∧
      sampleArchive.start = ⟨99, 999000000, by decide⟩ ∧
      ∃ steps last, sampleReplay = .ok steps last ∧
        (∀ number ∈ [1, 2, 5, 9], number ∈ (replayed steps).map Block.number) ∧
        (replayed steps).flatMap Block.events
          = sampleRecording.events.mergeSort Event.precedes := by
  have harchive : Archive.ofRecording sampleRecording = .ok sampleArchive := rfl
  have hstart : sampleArchive.start = ⟨99, 999000000, by decide⟩ := by decide
  have hok : isOk sampleReplay = true := by cbv
  refine ⟨harchive, hstart, ?_⟩
  cases hrun : sampleReplay with
  | error e state =>
      rw [hrun] at hok
      cases hok
  | ok steps last =>
      have hsettled := (Reachable.start .silent ⟨99, 999000000, by decide⟩).settled
      obtain ⟨_, _, _, _, hall, _⟩ :=
        replay_from_start_covers harchive hsettled hstart.symm rfl hrun
      obtain ⟨_, hnumbers, hevents⟩ := hall (by decide)
      exact ⟨steps, last, rfl, by simpa [sampleRecording] using hnumbers, hevents⟩

/-- The first block of this recording is half a millisecond after the start of the calendar. -/
def primalRecording : Recording where
  periodSeconds := 60
  blocks := [⟨1, ⟨-8334601228800, 500000, by decide⟩⟩, ⟨2, ⟨-8334601228740, 0, by decide⟩⟩]
  events := [.published ⟨1, Ledger.sampleRequest 1 2 100⟩]
  proofs := []

def primalArchive : Archive where
  recording := primalRecording
  times := ⟨⟨-8334601228800, 500000, by decide⟩, ⟨-8334601228740, 0, by decide⟩, by decide⟩

/-- What a run that went well has come to: its last mark, the numbers and the events of the blocks
that were replayed, and the deals. -/
def gist : EStateM.Result UpdateError (Unit × Tracker) (List Step) →
    Option (Instant × List BlockNumber × List Event × List Deal)
  | .ok steps last =>
      some (last.2.mark, (replayed steps).map Block.number,
        (replayed steps).flatMap Block.events, last.2.ledger.deals)
  | .error _ _ => none

/-- There are moments before the first block of this recording, but it is replayed from start to end
without that block, and without the request that is published there. -/
theorem first_block_is_missed_primalArchive :
    Archive.ofRecording primalRecording = .ok primalArchive ∧
      Instant.earliest < primalArchive.times.start ∧
      ∃ steps last, advance (primalArchive.source Unit) (primalArchive.oracle Unit)
          [primalArchive.times.stop] ((), start .silent primalArchive.start) = .ok steps last ∧
        last.2.mark = primalArchive.times.stop ∧
        (replayed steps).map Block.number = [2] ∧
        (replayed steps).flatMap Block.events = [] ∧ last.2.ledger.deals = [] := by
  have hstart : primalArchive.start = ⟨-8334601228800, 500000, by decide⟩ := by decide
  have hgist : gist (advance (primalArchive.source Unit) (primalArchive.oracle Unit)
      [primalArchive.times.stop] ((), start .silent ⟨-8334601228800, 500000, by decide⟩))
        = some (primalArchive.times.stop, [2], [], []) := by cbv
  refine ⟨rfl, by decide, ?_⟩
  rw [hstart]
  cases hrun : advance (primalArchive.source Unit) (primalArchive.oracle Unit)
      [primalArchive.times.stop] ((), start .silent ⟨-8334601228800, 500000, by decide⟩) with
  | error e state =>
      rw [hrun] at hgist
      cases hgist
  | ok steps last =>
      rw [hrun] at hgist
      injection hgist with hgist
      injection hgist with hmark hgist
      injection hgist with hnumbers hgist
      injection hgist with hevents hdeals
      exact ⟨steps, last, rfl, hmark, hnumbers, hevents, hdeals⟩

end Tracker

end StorageMarket
