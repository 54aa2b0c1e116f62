import StorageMarket.Range

/-!
# Estimated block times

Of a stretch of blocks only the times of the first and the last block are known. The
blocks between them are taken to be evenly spaced: each gap is the same share of the
whole time, in whole milliseconds, and an estimate is rounded towards the first
block. The last block keeps its exact time, and so does the first unless it is the
last as well.
-/

namespace StorageMarket

structure OutOfRange where
  block : BlockNumber
  range : BlockRange
deriving DecidableEq

def OutOfRange.message (fault : OutOfRange) : String :=
  s!"block {fault.block} is outside of {fault.range}"

namespace Stretch

/-- The time from the first block to a block of the stretch, in whole milliseconds. -/
def offsetMillis (stretch : Stretch) (block : BlockNumber) : Int :=
  (stretch.times.length.millis * (block.toNat - stretch.blocks.first.toNat : Nat)).tdiv
    stretch.blocks.gaps

/-- The estimated time of a block of the stretch. Only in a stretch that ends in a leap
second after `Instant.latest` can the sum be off the calendar. It has no value there and
adding would fail; here the last moment of the calendar stands in for it. -/
def estimate (stretch : Stretch) (block : BlockNumber) : Instant :=
  if block = stretch.blocks.last then stretch.times.stop
  else stretch.times.start.addOrLatest (.ofMillis (stretch.offsetMillis block))

def timeOf (stretch : Stretch) (block : BlockNumber) : Except OutOfRange Instant :=
  if stretch.blocks.contains block then .ok (stretch.estimate block)
  else .error ⟨block, stretch.blocks⟩

end Stretch

end StorageMarket
