import Mathlib.Data.List.Permutation
import StorageMarket.Proofs.Chronicle.Estimates

/-!
# Nothing is lost in a chronicle

A batch is accepted if it does not reach back behind what is known, and if its blocks are
inside of its window and its events inside of its blocks. Its chronicle then tells every
block once and every event once, each event in its own block, in the order of the places.

Every block has an estimated time, so none is left out for the lack of one. The blocks are
told in the order of these times as well, as long as no end of the stretch is inside a leap
second.
-/

namespace StorageMarket.Chronicle

variable {told : Chronicle} {stretch : Stretch}

theorem Orderly.timeOf_number (h : told.Orderly) (hs : told.stretch = some stretch) {block : Block}
    (hm : block ∈ told.blocks) : stretch.timeOf block.number = .ok block.time := by
  obtain ⟨hlast, htime⟩ := h.time_of_mem hs hm
  have hnumber : block.number.toNat ∈ told.blocks.map fun block => block.number.toNat :=
    List.mem_map_of_mem hm
  rw [h.numbers_blocks hs, List.mem_range'_1] at hnumber
  rw [Stretch.timeOf_eq_ok, BlockRange.contains_iff]
  exact ⟨⟨UInt64.le_iff_toNat_le.2 hnumber.1, hlast⟩, htime⟩

theorem Orderly.events_eq_filter (h : told.Orderly) {block : Block} (hm : block ∈ told.blocks) :
    block.events = told.events.filter fun e => e.block = block.number := by
  cases hs : told.stretch with
  | none =>
      rw [blocks, hs] at hm
      cases hm
  | some stretch =>
      rw [h.blocks_eq_map hs] at hm
      obtain ⟨n, _, rfl⟩ := List.mem_map.1 hm
      rfl

/-- The checks of a batch, for one without a stretch and for one that has a stretch. -/
theorem exists_ofBatch_ok {batch : Batch} {mark : Option Instant} :
    (∃ told, ofBatch batch mark = .ok told) ↔
      (∀ m ∈ mark, m ≤ batch.window.start) ∧
      ((batch.stretch = none ∧ batch.events = []) ∨
        ∃ stretch, batch.stretch = some stretch ∧
          batch.window.start < stretch.times.start ∧ stretch.times.stop ≤ batch.window.stop ∧
          ∀ e ∈ batch.events, stretch.blocks.contains e.block = true) := by
  simp only [ofBatch_eq_ok]
  cases hs : batch.stretch with
  | none =>
      constructor
      · rintro ⟨_, hstart, _, hevents, _⟩
        refine ⟨hstart, .inl ⟨rfl, List.eq_nil_iff_forall_not_mem.2 fun e he => ?_⟩⟩
        obtain ⟨_, hsome, _⟩ := hevents e he
        cases hsome
      · rintro ⟨hstart, ⟨_, hnone⟩ | ⟨_, hsome, _⟩⟩
        · refine ⟨_, hstart, fun _ hsome => ?_, fun e he => ?_, rfl⟩
          · cases hsome
          · rw [hnone] at he
            cases he
        · cases hsome
  | some stretch =>
      constructor
      · rintro ⟨_, hstart, hinside, hevents, _⟩
        obtain ⟨hfirst, hlast⟩ := hinside stretch rfl
        refine ⟨hstart, .inr ⟨stretch, rfl, hfirst, hlast, fun e he => ?_⟩⟩
        obtain ⟨_, hsome, hin⟩ := hevents e he
        cases hsome
        exact hin
      · rintro ⟨hstart, ⟨hnone, _⟩ | ⟨_, hsome, hfirst, hlast, hevents⟩⟩
        · cases hnone
        · cases hsome
          refine ⟨_, hstart, fun _ hsome => ?_, fun e he => ⟨stretch, rfl, hevents e he⟩, rfl⟩
          cases hsome
          exact ⟨hfirst, hlast⟩

/-- A batch makes a chronicle if and only if it starts no earlier than all that is known, and either
has neither a stretch nor an event, or a stretch inside of its window and all events inside of the
stretch. Every block of the stretch is then told once, in the order of the numbers, with the time
estimated for it and with its own events. All blocks together have the events of the batch in the
order of their places, events of one place as they came, and as many as the batch has. If no end
of the stretch is inside a leap second, no block is told with an earlier time than one before it. -/
theorem tells_all_blocks_and_events (batch : Batch) (mark : Option Instant) :
    ((∃ told, ofBatch batch mark = .ok told) ↔
      (∀ m ∈ mark, m ≤ batch.window.start) ∧
      ((batch.stretch = none ∧ batch.events = []) ∨
        ∃ stretch, batch.stretch = some stretch ∧
          batch.window.start < stretch.times.start ∧ stretch.times.stop ≤ batch.window.stop ∧
          ∀ e ∈ batch.events, stretch.blocks.contains e.block = true)) ∧
    ∀ told, ofBatch batch mark = .ok told →
      (batch.stretch = none → told.blocks = []) ∧
      (∀ stretch ∈ batch.stretch,
        told.blocks.map (fun block => block.number.toNat)
          = List.range' stretch.blocks.first.toNat stretch.blocks.size ∧
        ∀ block ∈ told.blocks, stretch.timeOf block.number = .ok block.time) ∧
      (∀ block ∈ told.blocks, ∀ e ∈ block.events, e.block = block.number) ∧
      told.blocks.flatMap Block.events = batch.events.mergeSort Event.precedes ∧
      told.events.length = batch.size ∧
      ((∀ stretch ∈ batch.stretch, stretch.Regular) →
        told.blocks.Pairwise fun a b => a.time ≤ b.time) := by
  refine ⟨exists_ofBatch_ok, fun told htold => ?_⟩
  have horderly := orderly_of_ofBatch htold
  obtain ⟨_, _, _, heq⟩ := ofBatch_eq_ok.1 htold
  have hstretch : told.stretch = batch.stretch := by rw [heq]
  have hevents : told.events = batch.events.mergeSort Event.precedes := by
    rw [heq, ← batch.mergeSort_events]
  refine ⟨?_, ?_, ?_, ?_, ?_, ?_⟩
  · intro hnone
    rw [blocks, hstretch, hnone]
  · intro stretch hs
    rw [← hstretch] at hs
    exact ⟨horderly.numbers_blocks hs, fun block hm => horderly.timeOf_number hs hm⟩
  · intro block hm e he
    rw [horderly.events_eq_filter hm, List.mem_filter, decide_eq_true_iff] at he
    exact he.2
  · rw [horderly.flatMap_events_blocks, hevents]
  · rw [hevents, List.length_mergeSort, Batch.length_events]
  · intro hregular
    rw [← hstretch] at hregular
    exact horderly.pairwise_times hregular

/-- The last three blocks that a word can number. Of the three events two are in one block, and the
one that is told first there came last. -/
def lastBlocks : Batch :=
  .ofEvents ⟨⟨700, 0, by decide⟩, ⟨800, 0, by decide⟩, by decide⟩
    (some ⟨⟨18446744073709551613, 18446744073709551615, by decide⟩,
      ⟨⟨710, 0, by decide⟩, ⟨730, 0, by decide⟩, by decide⟩⟩)
    [.failed ⟨18446744073709551615, ⟨List.replicate 32 5, List.length_replicate⟩⟩,
      .cancelled ⟨18446744073709551613, ⟨List.replicate 32 4, List.length_replicate⟩⟩,
      .fulfilled ⟨18446744073709551615, ⟨List.replicate 32 6, List.length_replicate⟩⟩]

theorem tells_all_blocks_and_events_lastBlocks :
    ∃ told, ofBatch lastBlocks (some ⟨700, 0, by decide⟩) = .ok told ∧
      told.blocks.map (fun block => block.number.toNat)
        = [18446744073709551613, 18446744073709551614, 18446744073709551615] ∧
      (told.blocks.flatMap Block.events).map (fun e => (e.block.toNat, e.kind))
        = [(18446744073709551613, .cancelled), (18446744073709551615, .fulfilled),
          (18446744073709551615, .failed)] ∧
      told.blocks.Pairwise fun a b => a.time ≤ b.time := by
  obtain ⟨hsucceeds, hcomplete⟩ :=
    tells_all_blocks_and_events lastBlocks (some ⟨700, 0, by decide⟩)
  obtain ⟨told, htold⟩ := hsucceeds.2 ⟨by decide, .inr ⟨_, rfl, by decide, by decide, by decide⟩⟩
  obtain ⟨_, hblocks, _, hevents, _, htimes⟩ := hcomplete told htold
  refine ⟨told, htold, (hblocks _ rfl).1, ?_, htimes ?_⟩
  · rw [hevents]
    cbv
  · intro stretch hs
    cases hs
    decide

/-! ## Leap seconds -/

/-- Four blocks on the last evening of a month, the last of them inside the leap second before
midnight. -/
def leapEvening : Batch :=
  .ofEvents ⟨⟨1435708740, 0, by decide⟩, ⟨1435708860, 0, by decide⟩, by decide⟩
    (some ⟨⟨7, 10, by decide⟩,
      ⟨⟨1435708799, 0, by decide⟩, ⟨1435708799, 1900000000, by decide⟩, by decide⟩⟩)
    [.cancelled ⟨9, ⟨List.replicate 32 1, List.length_replicate⟩⟩]

/-- When a stretch ends inside a leap second, its chronicle may go back in time. Here the third
block is told after midnight and the last one before. -/
theorem block_times_go_back_leapEvening :
    ∃ told, ofBatch leapEvening none = .ok told ∧
      ¬ told.blocks.Pairwise fun a b => a.time ≤ b.time := by
  refine ⟨_, rfl, ?_⟩
  decide +kernel

end StorageMarket.Chronicle
