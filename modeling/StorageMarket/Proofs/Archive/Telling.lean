import StorageMarket.Proofs.Archive.Order
import StorageMarket.Proofs.Chronicle.Blocks

/-!
# What an archive tells

The answer of an archive for a window always makes a chronicle, and one that tells the
events of the window in their order. Its stretch runs from the first block in the window
to the last.
-/

namespace StorageMarket.Archive

structure Tells (archive : Archive) (window : Window) (told : Chronicle) : Prop where
  orderly : told.Orderly
  events : told.events
    = (archive.recording.eventsBetween window.start window.stop).mergeSort Event.precedes
  stretch : (archive.blocksIn window = [] ∧ told.stretch = none) ∨
    ∃ first last stretch, (archive.blocksIn window).head? = some first ∧
      (archive.blocksIn window).getLast? = some last ∧ Spans stretch first last ∧
      told.stretch = some stretch

/-- The answer for a window makes a chronicle, if nothing after its start is known. -/
theorem tells_of_eventsIn {archive : Archive} (h : archive.recording.InOrder) (window : Window) :
    ∃ batch told, archive.eventsIn window = .ok batch ∧
      Chronicle.ofBatch batch (some window.start) = .ok told ∧ archive.Tells window told := by
  rcases eventsIn_cases h window with ⟨hnone, heq⟩ | ⟨first, last, stretch, hfirst, hlast, hspans, heq⟩
  · have hinside : ∀ s ∈ (none : Option Stretch),
        window.start < s.times.start ∧ s.times.stop ≤ window.stop := fun s hs => nomatch hs
    have hevents : ∀ e ∈ archive.recording.eventsBetween window.start window.stop,
        ∃ s : Stretch, none = some s ∧ s.blocks.contains e.block = true := by
      rw [eventsBetween_eq_nil h hnone]
      exact fun e he => absurd he List.not_mem_nil
    have htold := Chronicle.ofBatch_ofEvents hinside hevents
    exact ⟨_, _, heq, htold, Chronicle.orderly_of_ofBatch htold, rfl, .inl ⟨hnone, rfl⟩⟩
  · have hin := (mem_blocksIn h).1 (List.mem_of_head? hfirst)
    have hin' := (mem_blocksIn h).1 (List.mem_of_getLast? hlast)
    have hinside : ∀ s ∈ some stretch,
        window.start < s.times.start ∧ s.times.stop ≤ window.stop := by
      intro s hs
      cases hs
      rw [hspans.firstTime, hspans.lastTime]
      exact ⟨hin.2.1, hin'.2.2⟩
    have hevents : ∀ e ∈ archive.recording.eventsBetween window.start window.stop,
        ∃ s : Stretch, some stretch = some s ∧ s.blocks.contains e.block = true := by
      intro e he
      obtain ⟨_, block, hm, hblock, htime⟩ := h.mem_eventsBetween.1 he
      rw [← hblock]
      exact ⟨stretch, rfl, (contains_number_iff h hfirst hlast hspans hm).2 htime⟩
    have htold := Chronicle.ofBatch_ofEvents hinside hevents
    exact ⟨_, _, heq, htold, Chronicle.orderly_of_ofBatch htold, rfl,
      .inr ⟨first, last, stretch, hfirst, hlast, hspans, rfl⟩⟩

/-- The numbers of the blocks that are told lie between those of recorded blocks in the window. -/
theorem Tells.number_bounds {archive : Archive} (h : archive.recording.InOrder) {window : Window}
    {told : Chronicle} (htells : archive.Tells window told) {block : Block}
    (hblock : block ∈ told.blocks) :
    (∃ a ∈ archive.recording.blocks, window.start < a.time ∧ a.number ≤ block.number) ∧
      ∃ b ∈ archive.recording.blocks, b.time ≤ window.stop ∧ block.number ≤ b.number := by
  rcases htells.stretch with ⟨_, hs⟩ | ⟨first, last, stretch, hfirst, hlast, hspans, hs⟩
  · rw [Chronicle.blocks, hs] at hblock
    exact absurd hblock List.not_mem_nil
  · have hnumber : block.number.toNat ∈ told.blocks.map fun block => block.number.toNat :=
      List.mem_map_of_mem hblock
    rw [htells.orderly.numbers_blocks hs, List.mem_range'_1, BlockRange.size, BlockRange.gaps,
      hspans.firstNumber, hspans.lastNumber] at hnumber
    have hin := (mem_blocksIn h).1 (List.mem_of_head? hfirst)
    have hin' := (mem_blocksIn h).1 (List.mem_of_getLast? hlast)
    have horder := Recording.number_bounds (ordered_blocksIn h window) hfirst hlast
      (List.mem_of_getLast? hlast)
    have hle := UInt64.le_iff_toNat_le.1 horder.1
    refine ⟨⟨first, hin.1, hin.2.1, ?_⟩, last, hin'.1, hin'.2.2, ?_⟩
    · rw [UInt64.le_iff_toNat_le]
      omega
    · rw [UInt64.le_iff_toNat_le]
      omega

theorem Tells.lastBlock?_eq {archive : Archive} {window : Window} {told : Chronicle}
    (htells : archive.Tells window told) :
    told.lastBlock? = (archive.blocksIn window).getLast?.map BlockStamp.number := by
  rw [Chronicle.lastBlock?]
  rcases htells.stretch with ⟨hnone, hs⟩ | ⟨first, last, stretch, _, hlast, hspans, hs⟩
  · rw [hs, hnone]
    rfl
  · rw [hs, hlast, Option.map_some, Option.map_some, hspans.lastNumber]

end StorageMarket.Archive
