import StorageMarket.Deal

/-!
# Notices

A notice says that something happened to a deal, and shows the deal as it is
afterwards.
-/

namespace StorageMarket

inductive Occurrence where
  | published
  | fulfilled
  | cancelled
  | failed
  | finished
  | slotFilled (slot : SlotIndex) (host : Address)
  /-- The host that left the slot, if there was one. -/
  | slotFreed (slot : SlotIndex) (previous : Option Address)
deriving DecidableEq

structure Notice where
  occurrence : Occurrence
  deal : Deal
deriving DecidableEq

/-! ## Counting notices -/

structure Tally where
  published : Nat
  fulfilled : Nat
  cancelled : Nat
  failed : Nat
  finished : Nat
  slotsFilled : Nat
  slotsFreed : Nat
deriving DecidableEq

namespace Tally

def zero : Tally := ⟨0, 0, 0, 0, 0, 0, 0⟩

def add (tally : Tally) (notice : Notice) : Tally :=
  match notice.occurrence with
  | .published => { tally with published := tally.published + 1 }
  | .fulfilled => { tally with fulfilled := tally.fulfilled + 1 }
  | .cancelled => { tally with cancelled := tally.cancelled + 1 }
  | .failed => { tally with failed := tally.failed + 1 }
  | .finished => { tally with finished := tally.finished + 1 }
  | .slotFilled .. => { tally with slotsFilled := tally.slotsFilled + 1 }
  | .slotFreed .. => { tally with slotsFreed := tally.slotsFreed + 1 }

def addAll (tally : Tally) (notices : List Notice) : Tally := notices.foldl add tally

def total (tally : Tally) : Nat :=
  tally.published + tally.fulfilled + tally.cancelled + tally.failed + tally.finished
    + tally.slotsFilled + tally.slotsFreed

theorem total_add (tally : Tally) (notice : Notice) :
    (tally.add notice).total = tally.total + 1 := by
  cases notice with
  | mk occurrence deal => cases occurrence <;> simp only [add, total] <;> omega

theorem total_addAll (tally : Tally) (notices : List Notice) :
    (tally.addAll notices).total = tally.total + notices.length := by
  induction notices generalizing tally with
  | nil => rfl
  | cons notice notices ih =>
      show ((tally.add notice).addAll notices).total = _
      rw [ih, total_add, List.length_cons]
      omega

end Tally

end StorageMarket
