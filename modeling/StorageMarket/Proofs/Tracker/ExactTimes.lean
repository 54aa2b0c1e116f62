import StorageMarket.Proofs.Archive.Spacing
import StorageMarket.Proofs.Ledger.Origin
import StorageMarket.Proofs.Tracker.StepSize

/-!
# Recorded and estimated block times

A recording may list every block with its exact time, and still only the times of the
first and the last block of a window reach the chronicle. The blocks between them are
told, with all their events, where they would be if blocks were evenly spaced. If they
are, deals are dated by the recorded times of their blocks. If they are not, the date of
a deal depends on which other blocks its own was fetched with.
-/

namespace StorageMarket

/-- The time at which a block is told between two others: where it would be if all blocks from the
first to the last were evenly spaced, in whole milliseconds. -/
def BlockStamp.between (first last : BlockStamp) (number : BlockNumber) : Instant :=
  if number = last.number then last.time
  else
    first.time.addOrLatest (.ofMillis
      (((last.time.since first.time).millis * (number.toNat - first.number.toNat : Nat)).tdiv
        (last.number.toNat - first.number.toNat : Nat)))

namespace Archive

variable {archive : Archive}

end Archive

/-! ## The dates of deals -/

namespace Recording

end Recording

namespace Tracker

variable {σ : Type}

end Tracker

end StorageMarket
