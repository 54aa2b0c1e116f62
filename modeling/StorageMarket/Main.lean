import StorageMarket.Command.Run
import Std.Time.DateTime.Timestamp

/-!
# The program

Reads the arguments, the file and the clock, and prints what the command answers
with: its lines on standard output, a failure on standard error. The exit code is 0,
1 for a failure and 2 for arguments that make no sense.

Following goes on until the program is stopped or an update fails for good.
-/

namespace StorageMarket.Program

def usage : String :=
  "usage: replay --input FILE [--step-seconds N]\n" ++
  "       follow --input FILE [--poll-interval-seconds N] [--finality-lag-seconds N]\n" ++
  "       --version"

/-- The text of a file, if there is one that can be read. Bytes that are no text count as an empty
one, which is no recording either. -/
def contents? (path : String) : IO (Option String) := do
  try
    let bytes ← IO.FS.readBinFile path
    return some ((String.fromUTF8? bytes).getD "")
  catch _ =>
    return none

def fail (failure : Failure) : IO UInt32 := do
  IO.eprintln s!"Error: {failure.shown}"
  return 1

def print (ran : Ran) : IO UInt32 := do
  IO.print ran.output
  match ran.failure with
  | some failure => fail failure
  | none => return 0

def now : IO Instant := do
  let reading ← Std.Time.Timestamp.now
  return (Instant.ofNanos? reading.toNanosecondsSinceUnixEpoch.val).getD Instant.latest

partial def wait (millis : Nat) : IO Unit := do
  let part := min millis 3600000
  IO.sleep part.toUInt32
  if part < millis then wait (millis - part)

partial def follow (archive : Archive) (plan : PollPlan) (tracker : Tracker) : IO UInt32 := do
  match Tracker.tick (archive.source Unit) (archive.oracle Unit) plan (← now) ((), tracker) with
  | .error e _ => fail (.update e)
  | .ok reports (_, tracker) =>
      for line in reportLines reports do
        IO.println line
      (← IO.getStdout).flush
      wait plan.interval.millis.toNat
      follow archive plan tracker

def run (command : Command) : IO UInt32 := do
  match command with
  | .version => print (command.run none [])
  | .replay input _ => print (command.run (← contents? input) [])
  | .follow input interval lag =>
      match Command.prepareFollow interval lag (← contents? input) with
      | .error failure => fail failure
      | .ok (archive, plan) => follow archive plan archive.tracker

end StorageMarket.Program

def main (arguments : List String) : IO UInt32 := do
  match StorageMarket.Command.ofArguments arguments with
  | none =>
      IO.eprintln StorageMarket.Program.usage
      return 2
  | some command => StorageMarket.Program.run command
