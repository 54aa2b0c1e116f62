import StorageMarket.Archive
import StorageMarket.Notice
import StorageMarket.Tracker

/-!
# Failures of the command line

Why a command fails, and how the failure is shown: the causes from the outermost to
the innermost, each inside the parentheses of the one it belongs to, with its data.
-/

namespace StorageMarket

inductive LoadFault where
  | noFile
  /-- The file is no recording. -/
  | json (fault : Json.Fault)
  | recording (fault : RecordingFault)
deriving DecidableEq

inductive Failure where
  | zeroStep
  | durationOutOfRange (seconds : Nat)
  | load (fault : LoadFault)
  | update (error : UpdateError)
deriving DecidableEq

/-! ## Showing data -/

namespace Shown

def cause (name part : String) : String := name ++ "(" ++ part ++ ")"

def parts : List (String × String) → String
  | [] => ""
  | [(name, part)] => name ++ ": " ++ part
  | (name, part) :: rest => name ++ ": " ++ part ++ ", " ++ parts rest

def named (name : String) (ps : List (String × String)) : String :=
  name ++ " \x7b " ++ parts ps ++ " \x7d"

def escape (c : Char) : List Char :=
  if c = '"' then ['\\', '"']
  else if c = '\\' then ['\\', '\\']
  else if c = '\n' then ['\\', 'n']
  else if c = '\r' then ['\\', 'r']
  else if c = '\t' then ['\\', 't']
  else [c]

def text (s : String) : String := String.ofList ('"' :: s.toList.flatMap escape ++ ['"'])

def time (t : Instant) : String := String.ofList t.exchange

def window (w : Window) : String :=
  named "TimeRange" [("from", time w.start), ("to", time w.stop)]

def blocks (r : BlockRange) : String :=
  named "BlockInterval" [("from", toString r.first), ("to", toString r.last)]

end Shown

open Shown

/-! ## Showing causes -/

def RangeFault.shown : RangeFault → String
  | invertedBlocks first last =>
      named "InvertedBlocks" [("from", toString first), ("to", toString last)]
  | invertedTimes start stop => named "InvertedTimes" [("from", time start), ("to", time stop)]

def RecordingFault.shown : RecordingFault → String
  | zeroPeriod => "ZeroPeriod"
  | noBlocks => "NoBlocks"
  | unorderedBlocks previous block =>
      named "UnorderedBlocks" [("previous", toString previous), ("block", toString block)]
  | timeWentBack block => named "TimestampWentBackwards" [("block", toString block)]
  | unknownBlock block => cause "UnknownBlock" (toString block)
  | inverted fault => cause "Range" fault.shown

/-- Why a recording could not be loaded; what is wrong with its text is not shown. -/
def LoadFault.shown : LoadFault → String
  | noFile =>
      cause "Io" (named "Os" [("code", "2"), ("kind", "NotFound"),
        ("message", text "No such file or directory")])
  | json _ => "Json"
  | recording fault => fault.shown

def ChronicleFault.shown : ChronicleFault → String
  | startsTooEarly start mark =>
      named "StartsBeforeHighWaterMark" [("start", time start), ("high_water_mark", time mark)]
  | stretchOutsideWindow stretch range =>
      named "SpanOutsideRange" [("span", stretch.describe), ("requested", window range)]
  | eventWithoutStretch block => named "EventWithoutSpan" [("block", toString block)]
  | eventOutsideStretch fault =>
      cause "EventOutsideInterval"
        (named "OutOfRange" [("block", toString fault.block), ("interval", blocks fault.range)])

def FetchError.shown : FetchError → String
  | unavailable reason => cause "Unavailable" (text reason)
  | undecodable reason => cause "Decode" (text reason)
  | other reason => cause "Other" reason

def OracleError.shown : OracleError → String
  | unavailable reason => cause "Unavailable" (text reason)
  | invalidConfiguration reason => cause "InvalidConfiguration" (text reason)
  | other reason => cause "Other" reason

def UpdateError.shown : UpdateError → String
  | notAdvancing target mark =>
      named "NonAdvancingUpdate" [("requested", time target), ("high_water_mark", time mark)]
  | duplicate fault =>
      cause "Registry" (cause "DuplicateRequest" (cause "RequestId" (toString fault.request)))
  | chronicle fault => cause "Timeline" fault.shown
  | fetch error => cause "Fetch" error.shown
  | oracle error => cause "Oracle" error.shown

def Failure.shown : Failure → String
  | zeroStep => "ZeroStep"
  | durationOutOfRange seconds => cause "DurationOutOfRange" (toString seconds)
  | load fault => cause "Recording" fault.shown
  | update error => cause "ChainState" error.shown

def Tally.shown (tally : Tally) : String :=
  named "ChangeCount" [
    ("new_requests", toString tally.published), ("fulfilled", toString tally.fulfilled),
    ("cancelled", toString tally.cancelled), ("failed", toString tally.failed),
    ("finished", toString tally.finished), ("slots_filled", toString tally.slotsFilled),
    ("slots_freed", toString tally.slotsFreed)]

end StorageMarket
