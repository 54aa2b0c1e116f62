import StorageMarket.Proofs.Chronicle.Blocks
import StorageMarket.Proofs.Instant.Line

/-!
# The times that a chronicle tells

Of a stretch whose ends are outside of leap seconds, the estimated times never go back as
the block numbers go up, and they lie between the two ends. So the blocks of a chronicle
are told in the order of their times, none before the start of its stretch and none after
its end, and the last one at that end.
-/

namespace StorageMarket

namespace Stretch

/-- Neither end is inside a leap second. -/
structure Regular (stretch : Stretch) : Prop where
  start : stretch.times.start.Regular
  stop : stretch.times.stop.Regular

instance (stretch : Stretch) : Decidable stretch.Regular :=
  decidable_of_iff (stretch.times.start.Regular ∧ stretch.times.stop.Regular)
    ⟨fun h => ⟨h.1, h.2⟩, fun h => ⟨h.start, h.stop⟩⟩

variable {stretch : Stretch}

/-- The whole milliseconds from the start lead to the end, or to just before it. -/
theorem Regular.millis_length (h : stretch.Regular) :
    0 ≤ stretch.times.length.millis ∧
      stretch.times.start.line + stretch.times.length.millis * 1000000
        ≤ stretch.times.stop.line := by
  have hle := (Instant.le_iff_line_le h.start h.stop).1 stretch.times.ordered
  have hmillis : stretch.times.length.millis
      = (stretch.times.stop.line - stretch.times.start.line) / 1000000 := by
    rw [Window.length, Instant.since_eq_line h.start h.stop]
    exact Int.tdiv_eq_ediv_of_nonneg (Int.sub_nonneg.2 hle)
  omega

/-! ## Offsets -/

theorem offsetMillis_eq (h : stretch.Regular) (block : BlockNumber) :
    stretch.offsetMillis block
      = stretch.times.length.millis * (block.toNat - stretch.blocks.first.toNat : Nat)
        / stretch.blocks.gaps :=
  Int.tdiv_eq_ediv_of_nonneg (Int.mul_nonneg h.millis_length.1 (Int.natCast_nonneg _))

theorem offsetMillis_nonneg (h : stretch.Regular) (block : BlockNumber) :
    0 ≤ stretch.offsetMillis block := by
  rw [offsetMillis_eq h]
  apply Int.ediv_nonneg
  · exact Int.mul_nonneg h.millis_length.1 (Int.natCast_nonneg _)
  · exact Int.natCast_nonneg _

theorem offsetMillis_mono (h : stretch.Regular) {block other : BlockNumber} (hle : block ≤ other) :
    stretch.offsetMillis block ≤ stretch.offsetMillis other := by
  have hle := UInt64.le_iff_toNat_le.1 hle
  have hsteps : ((block.toNat - stretch.blocks.first.toNat : Nat) : Int)
      ≤ (other.toNat - stretch.blocks.first.toNat : Nat) := by omega
  rw [offsetMillis_eq h, offsetMillis_eq h]
  rcases Nat.eq_zero_or_pos stretch.blocks.gaps with hzero | hpos
  · apply Int.le_of_eq
    rw [hzero, Int.natCast_zero, Int.ediv_zero, Int.ediv_zero]
  · apply Int.ediv_le_ediv (Int.natCast_pos.2 hpos)
    exact Int.mul_le_mul_of_nonneg_left hsteps h.millis_length.1

theorem offsetMillis_le (h : stretch.Regular) {block : BlockNumber}
    (hlast : block ≤ stretch.blocks.last) :
    stretch.offsetMillis block ≤ stretch.times.length.millis := by
  have hlast := UInt64.le_iff_toNat_le.1 hlast
  have hlength := h.millis_length.1
  have hsteps : ((block.toNat - stretch.blocks.first.toNat : Nat) : Int)
      ≤ stretch.blocks.gaps := by
    rw [BlockRange.gaps]
    omega
  rw [offsetMillis_eq h]
  rcases Nat.eq_zero_or_pos stretch.blocks.gaps with hzero | hpos
  · rw [hzero, Int.natCast_zero, Int.ediv_zero]
    exact hlength
  · apply Int.ediv_le_of_le_mul (Int.natCast_pos.2 hpos)
    exact Int.mul_le_mul_of_nonneg_left hsteps hlength

/-! ## Estimates -/

/-- A time that the offset of a block of the stretch leads to lies inside it. -/
theorem regular_offset (h : stretch.Regular) {block : BlockNumber}
    (hlast : block ≤ stretch.blocks.last) :
    (stretch.times.start.addOrLatest (.ofMillis (stretch.offsetMillis block))).Regular ∧
      (stretch.times.start.addOrLatest (.ofMillis (stretch.offsetMillis block))).line
        = stretch.times.start.line + stretch.offsetMillis block * 1000000 := by
  have hnonneg := offsetMillis_nonneg h block
  have hle := offsetMillis_le h hlast
  have hstop := h.millis_length.2
  have hnanos : (Duration.ofMillis (stretch.offsetMillis block)).nanos
      = stretch.offsetMillis block * 1000000 := rfl
  rw [← hnanos]
  apply Instant.addOrLatest_of_le h.start h.stop <;> omega

theorem estimate_bounds (h : stretch.Regular) {block : BlockNumber}
    (hlast : block ≤ stretch.blocks.last) :
    (stretch.estimate block).Regular ∧ stretch.times.start ≤ stretch.estimate block ∧
      stretch.estimate block ≤ stretch.times.stop := by
  rw [estimate]
  split
  · exact ⟨h.stop, stretch.times.ordered, Instant.le_refl _⟩
  · obtain ⟨hregular, hline⟩ := regular_offset h hlast
    have hnonneg := offsetMillis_nonneg h block
    have hle := offsetMillis_le h hlast
    have hstop := h.millis_length.2
    rw [Instant.le_iff_line_le h.start hregular, Instant.le_iff_line_le hregular h.stop]
    exact ⟨hregular, by omega, by omega⟩

theorem estimate_mono (h : stretch.Regular) {block other : BlockNumber} (hle : block ≤ other)
    (hlast : other ≤ stretch.blocks.last) : stretch.estimate block ≤ stretch.estimate other := by
  have hblock := UInt64.le_trans hle hlast
  by_cases hother : other = stretch.blocks.last
  · rw [show stretch.estimate other = stretch.times.stop by rw [estimate, if_pos hother]]
    exact (estimate_bounds h hblock).2.2
  · have hbefore : block ≠ stretch.blocks.last := by
      rintro rfl
      exact hother (UInt64.le_antisymm hlast hle)
    obtain ⟨hregular, hline⟩ := regular_offset h hblock
    obtain ⟨hregular', hline'⟩ := regular_offset h hlast
    have hoffset := offsetMillis_mono h hle
    rw [estimate, if_neg hbefore, estimate, if_neg hother,
      Instant.le_iff_line_le hregular hregular']
    omega

theorem estimate_last (stretch : Stretch) :
    stretch.estimate stretch.blocks.last = stretch.times.stop := by
  rw [estimate, if_pos rfl]

theorem estimate_first (h : stretch.blocks.first ≠ stretch.blocks.last) :
    stretch.estimate stretch.blocks.first = stretch.times.start := by
  have hoffset : stretch.offsetMillis stretch.blocks.first = 0 := by
    rw [offsetMillis, Nat.sub_self, Int.natCast_zero, Int.mul_zero, Int.zero_tdiv]
  rw [estimate, if_neg h, hoffset, Instant.addOrLatest_zero]

end Stretch

namespace Chronicle

variable {told : Chronicle} {stretch : Stretch}

theorem Orderly.time_of_mem (h : told.Orderly) (hs : told.stretch = some stretch) {block : Block}
    (hm : block ∈ told.blocks) :
    block.number ≤ stretch.blocks.last ∧ block.time = stretch.estimate block.number := by
  rw [h.blocks_eq_map hs] at hm
  obtain ⟨n, hn, rfl⟩ := List.mem_map.1 hm
  have hn := List.mem_range'_1.1 hn
  have hle := UInt64.le_iff_toNat_le.1 stretch.blocks.ordered
  have hfit := stretch.blocks.last.toNat_lt_size
  rw [BlockRange.size, BlockRange.gaps] at hn
  refine ⟨?_, rfl⟩
  show UInt64.ofNat n ≤ _
  rw [UInt64.le_iff_toNat_le, UInt64.toNat_ofNat_of_lt' (by omega)]
  omega

theorem Orderly.time_bounds (h : told.Orderly) (hs : told.stretch = some stretch)
    (hregular : stretch.Regular) {block : Block} (hm : block ∈ told.blocks) :
    stretch.times.start ≤ block.time ∧ block.time ≤ stretch.times.stop := by
  obtain ⟨hlast, htime⟩ := h.time_of_mem hs hm
  rw [htime]
  exact (Stretch.estimate_bounds hregular hlast).2

theorem Orderly.pairwise_times (h : told.Orderly)
    (hregular : ∀ stretch ∈ told.stretch, stretch.Regular) :
    told.blocks.Pairwise fun a b => a.time ≤ b.time := by
  cases hs : told.stretch with
  | none =>
      rw [blocks, hs]
      exact List.Pairwise.nil
  | some stretch =>
      refine h.pairwise_numbers.imp_of_mem fun {a b} ha hb hlt => ?_
      obtain ⟨_, hatime⟩ := h.time_of_mem hs ha
      obtain ⟨hlast, hbtime⟩ := h.time_of_mem hs hb
      rw [hatime, hbtime]
      exact Stretch.estimate_mono (hregular stretch hs) (UInt64.le_of_lt hlt) hlast

/-- The last block of a chronicle is told at the end of its stretch. -/
theorem Orderly.exists_last (h : told.Orderly) (hs : told.stretch = some stretch) :
    ∃ block ∈ told.blocks, block.number = stretch.blocks.last ∧
      block.time = stretch.times.stop := by
  have hle := UInt64.le_iff_toNat_le.1 stretch.blocks.ordered
  refine ⟨blockOf stretch told.events stretch.blocks.last.toNat, ?_, ?_, ?_⟩
  · rw [h.blocks_eq_map hs]
    apply List.mem_map_of_mem
    rw [List.mem_range'_1, BlockRange.size, BlockRange.gaps]
    omega
  · exact UInt64.ofNat_toNat
  · rw [blockOf, UInt64.ofNat_toNat, Stretch.estimate_last]

end Chronicle

end StorageMarket
