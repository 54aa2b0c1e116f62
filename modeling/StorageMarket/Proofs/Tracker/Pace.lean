import StorageMarket.Proofs.Chronicle.Times
import StorageMarket.Proofs.Tracker.Advance

/-!
# Time that never goes back

An update replays blocks that lie after the mark, provided that no end of their stretch is
inside a leap second. They lie in the window that was asked for exactly if the stretch
ends in it. When the stretches of a run all do, the blocks of the run are replayed in the
order of their times, and those of one update after everything that an earlier one has
covered.
-/

namespace StorageMarket

/-- The blocks of a chronicle are told in the order of their times, after a moment and up to
another. -/
structure Chronicle.KeepsTo (told : Chronicle) (mark stop : Instant) : Prop where
  after : ∀ block ∈ told.blocks, mark < block.time
  upTo : ∀ block ∈ told.blocks, block.time ≤ stop
  sorted : told.blocks.Pairwise fun a b => a.time ≤ b.time

namespace Chronicle

variable {batch : Batch} {mark : Instant} {told : Chronicle} {stretch : Stretch}

theorem start_lt_of_ofBatch (h : ofBatch batch (some mark) = .ok told)
    (hs : told.stretch = some stretch) : mark < stretch.times.start := by
  obtain ⟨hstart, hstretch, _, rfl⟩ := ofBatch_eq_ok.1 h
  exact Int.lt_of_le_of_lt (hstart mark rfl) (hstretch stretch hs).1

theorem after_of_ofBatch (h : ofBatch batch (some mark) = .ok told) (hs : told.stretch = some stretch)
    (hregular : stretch.Regular) {block : Block} (hm : block ∈ told.blocks) :
    mark < block.time ∧ block.time ≤ stretch.times.stop := by
  obtain ⟨hlo, hhi⟩ := (orderly_of_ofBatch h).time_bounds hs hregular hm
  exact ⟨Int.lt_of_lt_of_le (start_lt_of_ofBatch h hs) hlo, hhi⟩

theorem stop_le_of_ofBatch (h : ofBatch batch (some mark) = .ok told)
    (hs : told.stretch = some stretch) : stretch.times.stop ≤ told.window.stop := by
  obtain ⟨_, hstretch, _, rfl⟩ := ofBatch_eq_ok.1 h
  exact (hstretch stretch hs).2

/-- The blocks of a chronicle lie up to a moment exactly if its stretch ends by then. -/
theorem upTo_iff (h : ofBatch batch (some mark) = .ok told) (hs : told.stretch = some stretch)
    (hregular : stretch.Regular) {stop : Instant} :
    (∀ block ∈ told.blocks, block.time ≤ stop) ↔ stretch.times.stop ≤ stop := by
  constructor
  · intro hall
    obtain ⟨block, hm, _, htime⟩ := (orderly_of_ofBatch h).exists_last hs
    rw [← htime]
    exact hall block hm
  · intro hle block hm
    exact Instant.le_trans (after_of_ofBatch h hs hregular hm).2 hle

theorem exists_stretch_of_mem {block : Block} (hm : block ∈ told.blocks) :
    ∃ stretch, told.stretch = some stretch := by
  cases hs : told.stretch with
  | none =>
      rw [blocks, hs] at hm
      exact absurd hm List.not_mem_nil
  | some stretch => exact ⟨stretch, rfl⟩

/-- It is enough to look at the ends of the stretch. -/
theorem Orderly.keepsTo (h : told.Orderly) {stop : Instant}
    (hends : ∀ stretch, told.stretch = some stretch →
      stretch.Regular ∧ mark < stretch.times.start ∧ stretch.times.stop ≤ stop) :
    told.KeepsTo mark stop := by
  constructor
  · intro block hm
    obtain ⟨stretch, hs⟩ := exists_stretch_of_mem hm
    obtain ⟨hregular, hstart, _⟩ := hends stretch hs
    exact Int.lt_of_lt_of_le hstart (h.time_bounds hs hregular hm).1
  · intro block hm
    obtain ⟨stretch, hs⟩ := exists_stretch_of_mem hm
    obtain ⟨hregular, _, hstop⟩ := hends stretch hs
    exact Instant.le_trans (h.time_bounds hs hregular hm).2 hstop
  · exact h.pairwise_times fun stretch hs => (hends stretch hs).1

theorem keepsTo_of_ofBatch (h : ofBatch batch (some mark) = .ok told) {stop : Instant}
    (hends : ∀ stretch, told.stretch = some stretch →
      stretch.Regular ∧ stretch.times.stop ≤ stop) : told.KeepsTo mark stop := by
  apply (orderly_of_ofBatch h).keepsTo
  intro stretch hs
  obtain ⟨hregular, hstop⟩ := hends stretch hs
  exact ⟨hregular, start_lt_of_ofBatch h hs, hstop⟩

end Chronicle

/-! ## Runs -/

/-- Each step takes up where the one before has ended, and keeps to its window. -/
def Paced : Instant → List Step → Prop
  | _, [] => True
  | mark, step :: steps =>
      mark ≤ step.outcome.window.stop ∧ step.told.KeepsTo mark step.outcome.window.stop ∧
        Paced step.outcome.window.stop steps

namespace Paced

variable {mark : Instant} {steps : List Step}

/-- All blocks of a run lie after the mark it starts from. -/
theorem after (h : Paced mark steps) {step : Step} (hm : step ∈ steps) {block : Block}
    (hblock : block ∈ step.told.blocks) : mark < block.time := by
  induction steps generalizing mark with
  | nil => exact absurd hm List.not_mem_nil
  | cons first steps ih =>
      obtain ⟨hle, hkeeps, hrest⟩ := h
      rcases List.mem_cons.1 hm with rfl | hm
      · exact hkeeps.after block hblock
      · exact Int.lt_of_le_of_lt hle (ih hrest hm)

/-- What one update has covered is not replayed again. -/
theorem apart (h : Paced mark steps) : steps.Pairwise fun earlier later =>
    ∀ block ∈ later.told.blocks, earlier.outcome.window.stop < block.time := by
  induction steps generalizing mark with
  | nil => exact List.Pairwise.nil
  | cons first steps ih =>
      obtain ⟨_, _, hrest⟩ := h
      exact List.pairwise_cons.2 ⟨fun later hm block hblock => hrest.after hm hblock, ih hrest⟩

/-- The blocks of a run are replayed in the order of their times. -/
theorem sorted (h : Paced mark steps) :
    (steps.flatMap fun step => step.told.blocks).Pairwise fun a b => a.time ≤ b.time := by
  induction steps generalizing mark with
  | nil => exact List.Pairwise.nil
  | cons first steps ih =>
      obtain ⟨_, hkeeps, hrest⟩ := h
      rw [List.flatMap_cons, List.pairwise_append]
      refine ⟨hkeeps.sorted, ih hrest, fun a ha b hb => ?_⟩
      obtain ⟨step, hstep, hblock⟩ := List.mem_flatMap.1 hb
      exact Int.le_of_lt (Int.lt_of_le_of_lt (hkeeps.upTo a ha) (hrest.after hstep hblock))

end Paced

/-! ## Over an archive -/

/-- The stretch of a window runs from one recorded block in the window to another one. -/
theorem Archive.Tells.keepsTo {archive : Archive} (h : archive.recording.InOrder)
    (hregular : ∀ stamp ∈ archive.recording.blocks, stamp.time.Regular) {window : Window}
    {told : Chronicle} (htells : archive.Tells window told) :
    told.KeepsTo window.start window.stop := by
  apply htells.orderly.keepsTo
  intro stretch hs
  rcases htells.stretch with ⟨_, hnone⟩ | ⟨first, last, found, hfirst, hlast, hspans, hsome⟩
  · rw [hs] at hnone
    exact nomatch hnone
  · rw [hs] at hsome
    cases hsome
    obtain ⟨hfirst, hstart, _⟩ := (mem_blocksIn h).1 (List.mem_of_head? hfirst)
    obtain ⟨hlast, _, hstop⟩ := (mem_blocksIn h).1 (List.mem_of_getLast? hlast)
    refine ⟨⟨?_, ?_⟩, ?_, ?_⟩
    · rw [hspans.firstTime]
      exact hregular first hfirst
    · rw [hspans.lastTime]
      exact hregular last hlast
    · rw [hspans.firstTime]
      exact hstart
    · rw [hspans.lastTime]
      exact hstop

/-- A run over an archive keeps its pace, if no recorded time is inside a leap second. -/
theorem Tracker.paced_advance {σ : Type} {archive : Archive} (h : archive.recording.InOrder)
    (hregular : ∀ stamp ∈ archive.recording.blocks, stamp.time.Regular) {oracle : Oracle σ}
    {targets : List Instant} {world : σ} {tracker : Tracker} {steps : List Step}
    {last : σ × Tracker}
    (hrun : advance (archive.source σ) oracle targets (world, tracker) = .ok steps last) :
    Paced tracker.mark steps := by
  induction targets generalizing world tracker steps with
  | nil =>
      cases hrun
      exact trivial
  | cons target targets ih =>
      obtain ⟨window, told, outcome, rest, gathered, replayed, hgather, hreplay, hrest, rfl⟩ :=
        advance_cons_eq_ok.1 hrun
      obtain ⟨hstart, _, htells, rfl⟩ := gather_archive_eq_ok h hgather
      obtain ⟨hmark, _⟩ := replay_eq_ok_mark hreplay
      have hpaced := ih hrest
      obtain ⟨_, _, _, _, rfl, _⟩ := replay_eq_ok_iff.1 hreplay
      rw [hmark] at hpaced
      rw [← hstart]
      exact ⟨window.ordered, htells.keepsTo h hregular, hpaced⟩

end StorageMarket
