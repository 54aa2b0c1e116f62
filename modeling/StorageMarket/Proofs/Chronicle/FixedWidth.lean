import Mathlib.Algebra.Order.Ring.Int
import Mathlib.Tactic.Linarith
import StorageMarket.Proofs.Chronicle.Times

/-!
# Block times in numbers of fixed width

Estimates are worked out in numbers of any size. A machine counts blocks in words of 64
bits, holds a product in 128 bits and a number of milliseconds in 64, tells no duration
beyond the longest one apart, and has no moment off the calendar. `fixedEstimate?` takes
the same steps there and gives up at the first number that does not fit.

It never gives up, if a stretch has less than 2^64 blocks and ends by the last moment of
the calendar. That includes stretches that end inside a leap second: there the time from
one moment to a later one can be negative, but by less than a second, and any part of it
leads from the one to a moment of the calendar.
-/

namespace StorageMarket

/-! ## Numbers that fit -/

/-- A number, if it fits into a word: 64 bits without a sign. -/
def word? (n : Int) : Option Int := if 0 ≤ n ∧ n < 2 ^ 64 then some n else none

/-- A number, if it fits into so many bits, one of them for the sign. -/
def signed? (bits : Nat) (n : Int) : Option Int :=
  if -2 ^ (bits - 1) ≤ n ∧ n < 2 ^ (bits - 1) then some n else none

def Duration.held? (d : Duration) : Option Duration :=
  if -longest.nanos ≤ d.nanos ∧ d.nanos ≤ longest.nanos then some d else none

theorem word?_eq_some {n : Int} (hlo : 0 ≤ n) (hhi : n < 2 ^ 64) : word? n = some n :=
  if_pos ⟨hlo, hhi⟩

theorem signed?_eq_some {bits : Nat} {n : Int} (hlo : -2 ^ (bits - 1) ≤ n)
    (hhi : n < 2 ^ (bits - 1)) : signed? bits n = some n :=
  if_pos ⟨hlo, hhi⟩

theorem Duration.held?_eq_some {d : Duration} (hlo : -longest.nanos ≤ d.nanos)
    (hhi : d.nanos ≤ longest.nanos) : d.held? = some d :=
  if_pos ⟨hlo, hhi⟩

theorem word?_bind {α : Type} {next : Int → Option α} {n : Int} (hlo : 0 ≤ n) (hhi : n < 2 ^ 64) :
    (word? n).bind next = next n := by
  rw [word?_eq_some hlo hhi, Option.bind_some]

theorem signed?_bind {α : Type} {next : Int → Option α} {bits : Nat} {n : Int}
    (hlo : -2 ^ (bits - 1) ≤ n) (hhi : n < 2 ^ (bits - 1)) :
    (signed? bits n).bind next = next n := by
  rw [signed?_eq_some hlo hhi, Option.bind_some]

/-! ## Steps between two moments -/

namespace Instant

variable {t u : Instant}

/-- The time to a later moment can be told apart, and is no less than nothing by a second. -/
theorem since_bounds (h : t ≤ u) :
    -1000000000 < (u.since t).nanos ∧ (u.since t).nanos ≤ Duration.longest.nanos := by
  have ht := t.onCalendar
  have hu := u.onCalendar
  rw [le_def, rank, rank] at h
  rw [since, secondOfDay, secondOfDay, Duration.longest, Duration.ofMillis]
  dsimp only
  split_ifs <;> omega

/-- A part of the time from one moment to a later one leads to a moment. -/
theorem exists_add? (h : t ≤ u) (hu : u ≤ latest) {d : Duration}
    (hlo : min 0 (u.since t).nanos ≤ d.nanos) (hhi : d.nanos ≤ max 0 (u.since t).nanos) :
    ∃ v, t.add? d = some v := by
  have htcalendar := t.onCalendar
  have hucalendar := u.onCalendar
  have hu : u.rank ≤ 8210266876799 * 2000000000 + 999999999 := hu
  rw [le_def, rank, rank] at h
  rw [rank] at hu
  rw [since, secondOfDay, secondOfDay] at hlo hhi
  dsimp only at hlo hhi
  rw [add?, ofNanos?]
  -- by where the two moments lie in their days, and by how the leap second of the first is left
  split_ifs at hlo hhi <;> split_ifs <;> apply exists_of? <;> omega

end Instant

theorem Duration.millis_bounds (d : Duration) :
    min 0 d.nanos ≤ d.millis * 1000000 ∧ d.millis * 1000000 ≤ max 0 d.nanos := by
  rw [Duration.millis]
  rcases Int.le_total 0 d.nanos with hle | hle
  · rw [Int.tdiv_eq_ediv_of_nonneg hle]
    omega
  · have hneg : d.nanos.tdiv 1000000 = -(-d.nanos / 1000000) := by
      rw [← Int.tdiv_eq_ediv_of_nonneg (Int.neg_nonneg_of_nonpos hle), Int.neg_tdiv, Int.neg_neg]
    rw [hneg]
    omega

/-! ## Shares -/

theorem share_bounds (whole : Int) {part parts : Nat} (h : part ≤ parts) :
    min 0 whole ≤ (whole * part).tdiv parts ∧ (whole * part).tdiv parts ≤ max 0 whole := by
  have hnonneg {n : Int} (hn : 0 ≤ n) :
      0 ≤ (n * part).tdiv parts ∧ (n * part).tdiv parts ≤ n := by
    have hproduct : 0 ≤ n * part := Int.mul_nonneg hn (Int.natCast_nonneg _)
    rw [Int.tdiv_eq_ediv_of_nonneg hproduct]
    refine ⟨Int.ediv_nonneg hproduct (Int.natCast_nonneg _), ?_⟩
    rcases Nat.eq_zero_or_pos parts with rfl | hpos
    · rw [Int.natCast_zero, Int.ediv_zero]
      exact hn
    · apply Int.ediv_le_of_le_mul (Int.natCast_pos.2 hpos)
      exact Int.mul_le_mul_of_nonneg_left (Int.ofNat_le.2 h) hn
  rcases Int.le_total 0 whole with hle | hle
  · have hbounds := hnonneg hle
    omega
  · have hbounds := hnonneg (Int.neg_nonneg_of_nonpos hle)
    rw [Int.neg_mul, Int.neg_tdiv] at hbounds
    omega

/-! ## Estimates -/

def BlockRange.fixedGaps? (range : BlockRange) : Option Int := do
  let difference ← word? (range.last.toNat - range.first.toNat)
  let size ← word? (difference + 1)
  word? (size - 1)

def fixedShare? (whole part parts : Int) : Option Int := do
  let product ← signed? 128 (whole * part)
  if parts = 0 then none else signed? 128 (product.tdiv parts)

theorem BlockRange.fixedGaps?_eq {range : BlockRange} (h : range.size < 2 ^ 64) :
    range.fixedGaps? = some (range.gaps : Int) := by
  have hordered := UInt64.le_iff_toNat_le.1 range.ordered
  rw [size] at h
  have hgaps : (range.last.toNat - range.first.toNat : Int) = range.gaps := by
    rw [gaps]
    omega
  simp only [fixedGaps?, Option.bind_eq_bind]
  rw [hgaps, word?_bind (by omega) (by omega), word?_bind (by omega) (by omega),
    Int.add_sub_cancel, word?_eq_some (by omega) (by omega)]

theorem fixedShare?_eq {whole : Int} {part parts : Nat} (hlo : -2 ^ 63 ≤ whole)
    (hhi : whole < 2 ^ 63) (hpart : part < parts) (hparts : parts < 2 ^ 64) :
    fixedShare? whole part parts = some ((whole * part).tdiv parts) := by
  obtain ⟨hsharelo, hsharehi⟩ := share_bounds whole (Nat.le_of_lt hpart)
  have hproductlo : -2 ^ 127 ≤ whole * part := by nlinarith
  have hproducthi : whole * part < 2 ^ 127 := by nlinarith
  have hzero : (parts : Int) ≠ 0 := by omega
  simp only [fixedShare?, Option.bind_eq_bind]
  rw [signed?_bind hproductlo hproducthi, if_neg hzero,
    signed?_eq_some (by omega) (by omega)]

namespace Stretch

def fixedMillis? (stretch : Stretch) : Option Int := do
  let length ← stretch.times.length.held?
  signed? 64 length.millis

def fixedOffset? (stretch : Stretch) (millis : Int) (block : BlockNumber) : Option Duration := do
  let gaps ← stretch.blocks.fixedGaps?
  let steps ← word? (block.toNat - stretch.blocks.first.toNat)
  let share ← fixedShare? millis steps gaps
  let offset ← signed? 64 share
  (Duration.ofMillis offset).held?

/-- The estimated time of a block of the stretch, if all numbers on the way to it fit. -/
def fixedEstimate? (stretch : Stretch) (block : BlockNumber) : Option Instant := do
  let millis ← stretch.fixedMillis?
  if block = stretch.blocks.last then some stretch.times.stop
  else (stretch.fixedOffset? millis block).bind stretch.times.start.add?

variable {stretch : Stretch}

theorem length_bounds (stretch : Stretch) :
    -1000000000 < stretch.times.length.nanos ∧
      stretch.times.length.nanos ≤ 9223372036854775807000000 :=
  Instant.since_bounds stretch.times.ordered

theorem fixedMillis?_eq (stretch : Stretch) :
    stretch.fixedMillis? = some stretch.times.length.millis := by
  obtain ⟨hlo, hhi⟩ := stretch.length_bounds
  obtain ⟨hmillislo, hmillishi⟩ := stretch.times.length.millis_bounds
  have hlongest : Duration.longest.nanos = 9223372036854775807000000 := rfl
  simp only [fixedMillis?, Option.bind_eq_bind]
  rw [Duration.held?_eq_some (by omega) (by omega), Option.bind_some,
    signed?_eq_some (by omega) (by omega)]

theorem offsetMillis_bounds {block : BlockNumber} (hin : stretch.blocks.contains block = true) :
    min 0 stretch.times.length.millis ≤ stretch.offsetMillis block ∧
      stretch.offsetMillis block ≤ max 0 stretch.times.length.millis := by
  rw [BlockRange.contains_iff, UInt64.le_iff_toNat_le, UInt64.le_iff_toNat_le] at hin
  apply share_bounds
  rw [BlockRange.gaps]
  omega

theorem fixedOffset?_eq (hsize : stretch.blocks.size < 2 ^ 64) {block : BlockNumber}
    (hin : stretch.blocks.contains block = true) (hlast : block ≠ stretch.blocks.last) :
    stretch.fixedOffset? stretch.times.length.millis block
      = some (.ofMillis (stretch.offsetMillis block)) := by
  obtain ⟨hlo, hhi⟩ := stretch.length_bounds
  obtain ⟨hmillislo, hmillishi⟩ := stretch.times.length.millis_bounds
  obtain ⟨hoffsetlo, hoffsethi⟩ := offsetMillis_bounds hin
  have hlongest : Duration.longest.nanos = 9223372036854775807000000 := rfl
  have hgaps := BlockRange.fixedGaps?_eq hsize
  rw [BlockRange.contains_iff, UInt64.le_iff_toNat_le, UInt64.le_iff_toNat_le] at hin
  rw [Ne, ← UInt64.toNat_inj] at hlast
  have hsteps : (block.toNat - stretch.blocks.first.toNat : Int)
      = (block.toNat - stretch.blocks.first.toNat : Nat) := by omega
  rw [BlockRange.size] at hsize
  have hpart : block.toNat - stretch.blocks.first.toNat < stretch.blocks.gaps := by
    rw [BlockRange.gaps]
    omega
  have hshare : fixedShare? stretch.times.length.millis
      (block.toNat - stretch.blocks.first.toNat : Nat) stretch.blocks.gaps
        = some (stretch.offsetMillis block) :=
    fixedShare?_eq (by omega) (by omega) hpart (by omega)
  have hnanos : (Duration.ofMillis (stretch.offsetMillis block)).nanos
      = stretch.offsetMillis block * 1000000 := rfl
  simp only [fixedOffset?, Option.bind_eq_bind]
  rw [hgaps, Option.bind_some, hsteps, word?_bind (by omega) (by omega), hshare, Option.bind_some,
    signed?_bind (by omega) (by omega), Duration.held?_eq_some (by omega) (by omega)]

/-- No number on the way to an estimated time fails to fit. -/
theorem fixedEstimate?_eq (hsize : stretch.blocks.size < 2 ^ 64)
    (hlatest : stretch.times.stop ≤ .latest) {block : BlockNumber}
    (hin : stretch.blocks.contains block = true) :
    stretch.fixedEstimate? block = some (stretch.estimate block) := by
  rw [fixedEstimate?, fixedMillis?_eq, estimate, Option.bind_eq_bind, Option.bind_some]
  by_cases hlast : block = stretch.blocks.last
  · rw [if_pos hlast, if_pos hlast]
  · obtain ⟨hmillislo, hmillishi⟩ := stretch.times.length.millis_bounds
    obtain ⟨hoffsetlo, hoffsethi⟩ := offsetMillis_bounds hin
    have hnanos : (Duration.ofMillis (stretch.offsetMillis block)).nanos
        = stretch.offsetMillis block * 1000000 := rfl
    obtain ⟨time, htime⟩ := Instant.exists_add? stretch.times.ordered hlatest
      (d := .ofMillis (stretch.offsetMillis block))
      (by rw [← Window.length]; omega) (by rw [← Window.length]; omega)
    rw [if_neg hlast, if_neg hlast, fixedOffset?_eq hsize hin hlast, Option.bind_some,
      Instant.addOrLatest, htime, Option.getD_some]

end Stretch

end StorageMarket
