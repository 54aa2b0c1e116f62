import StorageMarket.Oracle

/-!
# Recordings

A recording holds a segment of a chain: its blocks with their times, the events they
emitted, and what was found about the proofs of each slot and period. Proofs that
are not listed were not required.
-/

namespace StorageMarket

structure BlockStamp where
  number : BlockNumber
  time : Instant
deriving DecidableEq

structure ProofEntry where
  request : RequestId
  slot : SlotIndex
  period : Period
  status : ProofStatus
deriving DecidableEq

structure Recording where
  /-- The length of a proof period, in seconds. -/
  periodSeconds : UInt64
  blocks : List BlockStamp
  events : List Event
  proofs : List ProofEntry
deriving DecidableEq

end StorageMarket
