import StorageMarket.Deal
import StorageMarket.Oracle

/-!
# Audits of proof periods

Whether a slot has to be proven in a period, and whether the proof is missing, can
only be read once the period is over. So an audit looks back: when it sees the first
block of a later period, it writes a report on each period that ended since, as of
the last block before. A period without any block is reported as of that same block.
When too many periods went by, only the latest are reported.

A report examines the deals that were running at its block. One of them may have
finished since; it is told by its finish time, which lies after that block.
-/

namespace StorageMarket

/-! ## Reports -/

structure Reading where
  request : RequestId
  slot : SlotIndex
  /-- The host of the slot when the report was written. -/
  host : Option Address
  status : ProofStatus
deriving DecidableEq

structure MissedProof where
  host : Option Address
  request : RequestId
  slot : SlotIndex
deriving DecidableEq

structure Report where
  period : Period
  /-- The block as of which the proofs were read. -/
  referenceBlock : BlockNumber
  totalSlots : Nat
  /-- How many of them had to be proven. -/
  requiredProofs : Nat
  missedProofs : List MissedProof
deriving DecidableEq

def Reading.missed? (reading : Reading) : Option MissedProof :=
  if reading.status.required && reading.status.missing then
    some ⟨reading.host, reading.request, reading.slot⟩
  else none

def Report.ofReadings (period : Period) (block : BlockNumber) (readings : List Reading) :
    Report where
  period := period
  referenceBlock := block
  totalSlots := readings.length
  requiredProofs := readings.countP fun reading => reading.status.required
  missedProofs := readings.filterMap Reading.missed?

/-! ## Where an audit stands -/

/-- The period an audit is in, and the last block it has seen. -/
structure Cursor where
  period : Period
  lastBlock : BlockNumber
  lastTime : Instant
deriving DecidableEq

/-- An audit: where it stands, the reports nobody has taken yet, and the most periods that are
reported at once. -/
structure Audit where
  cursor : Option Cursor
  pending : List Report
  maxClosed : UInt64
deriving DecidableEq

namespace Audit

def defaultMaxClosed : UInt64 := 1000

/-- An audit that has seen nothing; at least one period is reported at once. -/
def new (maxClosed : UInt64) : Audit := ⟨none, [], if maxClosed = 0 then 1 else maxClosed⟩

/-- Takes the reports, oldest first. -/
def drain (audit : Audit) : List Report × Audit := (audit.pending, { audit with pending := [] })

def commit (audit : Audit) (cursor : Option Cursor) (reports : List Report) : Audit :=
  { audit with cursor, pending := audit.pending ++ reports }

/-! ## Reading proofs -/

variable {σ : Type}

def readSlots (oracle : Oracle σ) (block : BlockNumber) (period : Period) (deal : Deal) :
    Nat → SlotIndex → Array Reading → EStateM OracleError σ (Array Reading)
  | 0, _, readings => pure readings
  | count + 1, slot, readings => do
      let status ← oracle.proofStatus deal.request slot block period
      readSlots oracle block period deal count (slot + 1)
        (readings.push ⟨deal.id, slot, deal.hosts.host? slot, status⟩)

def readDeals (oracle : Oracle σ) (block : BlockNumber) (period : Period) :
    List Deal → Array Reading → EStateM OracleError σ (Array Reading)
  | [], readings => pure readings
  | deal :: deals, readings => do
      let readings ←
        readSlots oracle block period deal deal.request.terms.slots.toNat 0 readings
      readDeals oracle block period deals readings

def writeReport (oracle : Oracle σ) (block : BlockNumber) (deals : List Deal) (period : Period) :
    EStateM OracleError σ Report := do
  let readings ← readDeals oracle block period deals #[]
  return Report.ofReadings period block readings.toList

def writeReports (oracle : Oracle σ) (block : BlockNumber) (deals : List Deal) :
    Nat → Period → Array Report → EStateM OracleError σ (Array Report)
  | 0, _, reports => pure reports
  | count + 1, period, reports => do
      let report ← writeReport oracle block deals period
      writeReports oracle block deals count (period + 1) (reports.push report)

/-! ## Seeing a block -/

/-- Whether a deal was running at a moment in the past, given that it has not failed since. -/
def wasRunning (time : Instant) (deal : Deal) : Bool :=
  (deal.stage = .started ∨ deal.stage = .finished) ∧ time < deal.finishTime

def firstClosed (maxClosed : UInt64) (current next : Period) : Period :=
  if maxClosed < next - current then next - maxClosed else current

/-- Moves a cursor on to a block, given all deals as they stand before that block: where the
cursor stands then, and the reports on the periods that ended. -/
def advance (oracle : Oracle σ) (maxClosed : UInt64) (cursor : Option Cursor)
    (block : BlockNumber) (time : Instant) (deals : List Deal) :
    EStateM OracleError σ (Cursor × List Report) := do
  let period ← oracle.periodOf time
  match cursor with
  | none => return (⟨period, block, time⟩, [])
  | some current =>
      if period ≤ current.period then
        return (⟨current.period, block, time⟩, [])
      else
        -- the deals as they stand now still tell which of them ran at the last block
        let first := firstClosed maxClosed current.period period
        let reports ← writeReports oracle current.lastBlock
          (deals.filter (wasRunning current.lastTime)) (period.toNat - first.toNat) first #[]
        return (⟨period, block, time⟩, reports.toList)

/-- Sees a block. On failure the audit stays as it was, and the same block can be seen again. -/
def observe (oracle : Oracle σ) (block : BlockNumber) (time : Instant) (deals : List Deal) :
    EStateM OracleError (σ × Audit) Unit := fun (world, audit) =>
  match advance oracle audit.maxClosed audit.cursor block time deals world with
  | .ok (cursor, reports) world => .ok () (world, audit.commit (some cursor) reports)
  | .error e world => .error e (world, audit)

end Audit

end StorageMarket
