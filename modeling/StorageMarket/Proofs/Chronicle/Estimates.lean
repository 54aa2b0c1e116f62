import Mathlib.Algebra.Order.Ring.Rat
import Mathlib.Tactic.GCongr
import Mathlib.Tactic.Linarith
import Mathlib.Tactic.Ring
import StorageMarket.Proofs.Chronicle.FixedWidth

/-!
# How good estimated block times are

Outside of leap seconds an estimated time lies in its stretch, never goes back, and is
short of the evenly spaced time, exact to any fraction of a nanosecond, by less than two
milliseconds: one is lost when the length of the stretch is counted in whole milliseconds,
and one when a share of it is.

With an end inside a leap second none of this need hold. The time from a leap second to a
moment earlier in its day may be negative, and the blocks between the two ends are then
told before both.
-/

namespace StorageMarket

/-- A share counted in whole millions, of a number that is itself counted in whole millions, is
short by less than two of them. -/
theorem share_precision (whole : Int) {part parts : Nat} (h : part < parts) :
    whole / 1000000 * part / parts * 1000000 * parts ≤ whole * part ∧
      whole * part < (whole / 1000000 * part / parts * 1000000 + 2000000) * parts := by
  have hparts : (0 : Int) < parts := by omega
  have hpart : (part : Int) < parts := by omega
  have hcut : whole / 1000000 * 1000000 ≤ whole := by omega
  have hrest : whole ≤ whole / 1000000 * 1000000 + 1000000 := by omega
  have hshare : whole / 1000000 * part / parts * parts ≤ whole / 1000000 * part :=
    Int.ediv_mul_le _ (by omega)
  have hover : whole / 1000000 * part < (whole / 1000000 * part / parts + 1) * parts :=
    Int.lt_ediv_add_one_mul_self _ hparts
  constructor
  · calc whole / 1000000 * part / parts * 1000000 * parts
        = whole / 1000000 * part / parts * parts * 1000000 := by ring
      _ ≤ whole / 1000000 * part * 1000000 := by gcongr
      _ = whole / 1000000 * 1000000 * part := by ring
      _ ≤ whole * part := by gcongr
  · calc whole * part
        ≤ (whole / 1000000 * 1000000 + 1000000) * part := by gcongr
      _ = whole / 1000000 * part * 1000000 + 1000000 * part := by ring
      _ < (whole / 1000000 * part / parts + 1) * parts * 1000000 + 1000000 * parts := by gcongr
      _ = (whole / 1000000 * part / parts * 1000000 + 2000000) * parts := by ring

/-- An integer that is close to a quotient, seen from the multiples of the divisor. -/
theorem quotient_bounds {n excess whole parts : Int} (hparts : 0 < parts)
    (hle : n * parts ≤ whole) (hlt : whole < (n + excess) * parts) :
    (n : ℚ) ≤ (whole : ℚ) / parts ∧ (whole : ℚ) / parts < n + excess := by
  have hpos : (0 : ℚ) < parts := Int.cast_pos.2 hparts
  rw [le_div_iff₀ hpos, div_lt_iff₀ hpos]
  constructor
  · exact_mod_cast hle
  · exact_mod_cast hlt

namespace Stretch

variable {stretch : Stretch}

theorem Regular.length_nonneg (h : stretch.Regular) : 0 ≤ stretch.times.length.nanos := by
  rw [Window.length, Instant.since_eq_line h.start h.stop]
  exact Int.sub_nonneg.2 ((Instant.le_iff_line_le h.start h.stop).1 stretch.times.ordered)

/-- The share of the length of the stretch that would lie before a block if the blocks were evenly
spaced, in nanoseconds. -/
def evenOffset (stretch : Stretch) (block : BlockNumber) : ℚ :=
  stretch.times.length.nanos * ((block.toNat : ℚ) - stretch.blocks.first.toNat)
    / ((stretch.blocks.last.toNat : ℚ) - stretch.blocks.first.toNat)

def evenLine (stretch : Stretch) (block : BlockNumber) : ℚ :=
  stretch.times.start.line + stretch.evenOffset block

theorem evenOffset_eq {block : BlockNumber} (hfirst : stretch.blocks.first ≤ block) :
    stretch.evenOffset block
      = ((stretch.times.length.nanos * (block.toNat - stretch.blocks.first.toNat : Nat) : Int) : ℚ)
        / (stretch.blocks.gaps : Int) := by
  have hordered := UInt64.le_iff_toNat_le.1 stretch.blocks.ordered
  have hfirst := UInt64.le_iff_toNat_le.1 hfirst
  rw [evenOffset, BlockRange.gaps]
  push_cast [Nat.cast_sub hordered, Nat.cast_sub hfirst]
  rfl

theorem offsetMillis_precision (h : stretch.Regular) {block : BlockNumber}
    (hfirst : stretch.blocks.first ≤ block) (hlast : block < stretch.blocks.last) :
    (stretch.offsetMillis block * 1000000 : Int) ≤ stretch.evenOffset block ∧
      stretch.evenOffset block
        < (stretch.offsetMillis block * 1000000 : Int) + (2000000 : Int) := by
  have hparts : block.toNat - stretch.blocks.first.toNat < stretch.blocks.gaps := by
    rw [UInt64.lt_iff_toNat_lt] at hlast
    have hfirst := UInt64.le_iff_toNat_le.1 hfirst
    rw [BlockRange.gaps]
    omega
  have hoffset : stretch.offsetMillis block
      = stretch.times.length.nanos / 1000000
        * (block.toNat - stretch.blocks.first.toNat : Nat) / stretch.blocks.gaps := by
    rw [offsetMillis_eq h, Duration.millis, Int.tdiv_eq_ediv_of_nonneg h.length_nonneg]
  obtain ⟨hle, hlt⟩ := share_precision stretch.times.length.nanos hparts
  rw [← hoffset] at hle hlt
  rw [evenOffset_eq hfirst]
  exact quotient_bounds (by omega) hle hlt

/-- Before the last block an estimate is never late, and early by less than two milliseconds. -/
theorem estimate_precision (h : stretch.Regular) {block : BlockNumber}
    (hfirst : stretch.blocks.first ≤ block) (hlast : block < stretch.blocks.last) :
    ((stretch.estimate block).line : ℚ) ≤ stretch.evenLine block ∧
      stretch.evenLine block - 2000000 < (stretch.estimate block).line := by
  obtain ⟨_, hline⟩ := regular_offset h (UInt64.le_of_lt hlast)
  have hestimate : (stretch.estimate block).line
      = stretch.times.start.line + stretch.offsetMillis block * 1000000 := by
    rw [estimate, if_neg (UInt64.ne_of_lt hlast), hline]
  obtain ⟨hle, hlt⟩ := offsetMillis_precision h hfirst hlast
  rw [evenLine, hestimate, Int.cast_add]
  rw [Int.cast_ofNat] at hlt
  constructor
  · linarith
  · linarith

theorem timeOf_eq_ok {block : BlockNumber} {time : Instant} :
    stretch.timeOf block = .ok time
      ↔ stretch.blocks.contains block = true ∧ time = stretch.estimate block := by
  rw [timeOf]
  split
  · next h => simp [h, eq_comm]
  · next h => simp [h]

theorem exists_timeOf_error {block : BlockNumber} :
    (∃ fault, stretch.timeOf block = .error fault)
      ↔ block < stretch.blocks.first ∨ stretch.blocks.last < block := by
  rw [← UInt64.not_le, ← UInt64.not_le, ← not_and_or, ← BlockRange.contains_iff, timeOf]
  split
  · next h => simp [h]
  · next h => simp [h]

/-- A block has an estimated time unless it lies outside of the stretch, and all numbers on the way
to it fit. The last block has the time at which the stretch ends, and the first one of several that
at which it starts. If neither end is inside a leap second, all estimates lie between the two, no
block is told before an earlier one, and before the last block an estimate is never later than the
evenly spaced time and less than two milliseconds earlier. -/
theorem estimates_are_safe_and_precise {stretch : Stretch} (hsize : stretch.blocks.size < 2 ^ 64)
    (hlatest : stretch.times.stop ≤ .latest) :
    (∀ block, (∃ fault, stretch.timeOf block = .error fault)
      ↔ block < stretch.blocks.first ∨ stretch.blocks.last < block) ∧
    (∀ block time, stretch.timeOf block = .ok time →
      stretch.fixedEstimate? block = some time) ∧
    stretch.timeOf stretch.blocks.last = .ok stretch.times.stop ∧
    (stretch.blocks.first < stretch.blocks.last →
      stretch.timeOf stretch.blocks.first = .ok stretch.times.start) ∧
    (stretch.Regular →
      (∀ block time, stretch.timeOf block = .ok time →
        stretch.times.start ≤ time ∧ time ≤ stretch.times.stop ∧
        (block < stretch.blocks.last →
          (time.line : ℚ) ≤ stretch.evenLine block ∧
          stretch.evenLine block - 2000000 < time.line)) ∧
      ∀ block other time later, stretch.timeOf block = .ok time →
        stretch.timeOf other = .ok later → block ≤ other → time ≤ later) := by
  refine ⟨fun block => exists_timeOf_error, ?_, ?_, ?_, ?_⟩
  · intro block time htime
    obtain ⟨hin, rfl⟩ := timeOf_eq_ok.1 htime
    exact fixedEstimate?_eq hsize hlatest hin
  · refine timeOf_eq_ok.2 ⟨?_, (estimate_last stretch).symm⟩
    exact BlockRange.contains_iff.2 ⟨stretch.blocks.ordered, UInt64.le_refl _⟩
  · intro hlt
    refine timeOf_eq_ok.2 ⟨?_, (estimate_first (UInt64.ne_of_lt hlt)).symm⟩
    exact BlockRange.contains_iff.2 ⟨UInt64.le_refl _, stretch.blocks.ordered⟩
  · intro hregular
    constructor
    · intro block time htime
      obtain ⟨hin, rfl⟩ := timeOf_eq_ok.1 htime
      obtain ⟨hfirst, hlast⟩ := BlockRange.contains_iff.1 hin
      obtain ⟨_, hstart, hstop⟩ := estimate_bounds hregular hlast
      exact ⟨hstart, hstop, estimate_precision hregular hfirst⟩
    · intro block other time later htime hlater hle
      obtain ⟨_, rfl⟩ := timeOf_eq_ok.1 htime
      obtain ⟨hin, rfl⟩ := timeOf_eq_ok.1 hlater
      exact estimate_mono hregular hle (BlockRange.contains_iff.1 hin).2

/-- Four blocks in seven seconds, which three gaps do not divide. -/
def sevenSeconds : Stretch :=
  ⟨⟨10, 13, by decide⟩, ⟨⟨9500, 0, by decide⟩, ⟨9507, 0, by decide⟩, by decide⟩⟩

theorem estimates_are_safe_and_precise_sevenSeconds :
    sevenSeconds.blocks.size < 2 ^ 64 ∧ sevenSeconds.times.stop ≤ .latest ∧
      sevenSeconds.Regular ∧ sevenSeconds.timeOf 11 = .ok ⟨9502, 333000000, by decide⟩ ∧
      sevenSeconds.fixedEstimate? 11 = some ⟨9502, 333000000, by decide⟩ ∧
      (9502333000000 : ℚ) ≤ sevenSeconds.evenLine 11 ∧
      sevenSeconds.evenLine 11 - 2000000 < 9502333000000 := by
  have hsize : sevenSeconds.blocks.size < 2 ^ 64 := by decide
  have hlatest : sevenSeconds.times.stop ≤ .latest := by decide
  have hregular : sevenSeconds.Regular := by decide
  have htime : sevenSeconds.timeOf 11 = .ok ⟨9502, 333000000, by decide⟩ := by decide +kernel
  obtain ⟨_, hfixed, _, _, hprecise⟩ := estimates_are_safe_and_precise hsize hlatest
  obtain ⟨_, _, hclose⟩ := (hprecise hregular).1 11 _ htime
  obtain ⟨hle, hlt⟩ := hclose (by decide)
  have hline : Instant.line ⟨9502, 333000000, by decide⟩ = 9502333000000 := rfl
  rw [hline, Int.cast_ofNat] at hle hlt
  exact ⟨hsize, hlatest, hregular, htime, hfixed 11 _ htime, hle, hlt⟩

/-! ## Leap seconds -/

/-- Three blocks at the turn of a year, the first of them inside the leap second before midnight, a
fifth of a second before the last. -/
def leapNight : Stretch :=
  ⟨⟨0, 2, by decide⟩,
    ⟨⟨1483228799, 1900000000, by decide⟩, ⟨1483228800, 100000000, by decide⟩, by decide⟩⟩

/-- From a leap second to the next day estimates run backwards: the second block is told before the
first, and before the stretch starts. -/
theorem estimates_go_back_leapNight :
    leapNight.blocks.size < 2 ^ 64 ∧ .earliest ≤ leapNight.times.start ∧
      leapNight.times.stop ≤ .latest ∧
      ∃ first second, leapNight.timeOf 0 = .ok first ∧ leapNight.timeOf 1 = .ok second ∧
        second < first ∧ second < leapNight.times.start := by
  refine ⟨by decide, by decide, by decide, ⟨1483228799, 1900000000, by decide⟩,
    ⟨1483228799, 1500000000, by decide⟩, ?_, ?_, by decide, by decide⟩
  · decide +kernel
  · decide +kernel

end Stretch

end StorageMarket
