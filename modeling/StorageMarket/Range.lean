import StorageMarket.Instant.Text
import StorageMarket.Request

/-!
# Ranges of blocks and of time

A `BlockRange` is a closed range of block numbers, a `Window` a closed range of time;
neither runs backwards. A `Stretch` is a run of blocks with the exact times of its
first and its last block.
-/

namespace StorageMarket

inductive RangeFault where
  | invertedBlocks (first last : BlockNumber)
  | invertedTimes (start stop : Instant)
deriving DecidableEq

def RangeFault.message : RangeFault → String
  | invertedBlocks first last => s!"block interval is inverted: {first} > {last}"
  | invertedTimes start stop => s!"time range is inverted: {start} > {stop}"

/-- The block numbers from `first` to `last`, both included. -/
structure BlockRange where
  first : BlockNumber
  last : BlockNumber
  ordered : first ≤ last
deriving DecidableEq

namespace BlockRange

def of (first last : BlockNumber) : Except RangeFault BlockRange :=
  if h : first ≤ last then .ok ⟨first, last, h⟩ else .error (.invertedBlocks first last)

def gaps (range : BlockRange) : Nat := range.last.toNat - range.first.toNat

def size (range : BlockRange) : Nat := range.gaps + 1

def contains (range : BlockRange) (block : BlockNumber) : Bool :=
  range.first ≤ block && block ≤ range.last

theorem contains_iff {range : BlockRange} {block : BlockNumber} :
    range.contains block = true ↔ range.first ≤ block ∧ block ≤ range.last := by
  simp [contains]

instance : ToString BlockRange := ⟨fun range => s!"[{range.first}..={range.last}]"⟩

end BlockRange

/-- The time from `start` to `stop`, both included. -/
structure Window where
  start : Instant
  stop : Instant
  ordered : start ≤ stop
deriving DecidableEq

namespace Window

def of (start stop : Instant) : Except RangeFault Window :=
  if h : start ≤ stop then .ok ⟨start, stop, h⟩ else .error (.invertedTimes start stop)

def length (window : Window) : Duration := window.stop.since window.start

instance : ToString Window := ⟨fun window => s!"[{window.start} - {window.stop}]"⟩

end Window

/-- A run of blocks, with the times of its first and its last block. -/
structure Stretch where
  blocks : BlockRange
  times : Window
deriving DecidableEq

def Stretch.describe (stretch : Stretch) : String :=
  let time (t : Instant) := String.ofList t.exchange
  "BlockSpan \x7b blocks: BlockInterval \x7b from: " ++ toString stretch.blocks.first
    ++ ", to: " ++ toString stretch.blocks.last
    ++ " \x7d, times: TimeRange \x7b from: " ++ time stretch.times.start
    ++ ", to: " ++ time stretch.times.stop ++ " \x7d \x7d"

end StorageMarket
