import StorageMarket.Audit.Format
import StorageMarket.Command
import StorageMarket.Command.Failure
import StorageMarket.Deal.Format
import StorageMarket.Poll

/-!
# Running commands

A command works on the text of a recording. It answers with the lines it prints and,
if it fails, with the failure; the lines printed before stay.

`replay` starts just before the first block and updates step by step up to the last
one. The last step may be shorter. After each step the new reports are printed, a
line each, and in the end a summary.

`follow` polls at given readings of the clock and prints the new reports in the same
way.
-/

namespace StorageMarket

/-- The archive that a text holds; no text means that there is no such file. -/
def Archive.load (contents : Option String) : Except LoadFault Archive :=
  match contents with
  | none => .error .noFile
  | some contents =>
      match Recording.ofText contents.toList with
      | .error fault => .error (.json fault)
      | .ok recording => (Archive.ofRecording recording).mapError .recording

def Tally.json (tally : Tally) : Json :=
  .object [
    ("new_requests", .number tally.published),
    ("fulfilled", .number tally.fulfilled),
    ("cancelled", .number tally.cancelled),
    ("failed", .number tally.failed),
    ("finished", .number tally.finished),
    ("slots_filled", .number tally.slotsFilled),
    ("slots_freed", .number tally.slotsFreed)]

/-- The observer of a command: a panel of a listener that writes the log and one that counts. -/
def Observer.ofCommand : Observer := .panel (.ofList [.quiet "log", .quiet "count"])

def Archive.tracker (archive : Archive) : Tracker :=
  (Tracker.start .ofCommand archive.start).withAudit (.new Audit.defaultMaxClosed)

def Tracker.tally (tracker : Tracker) : Tally := Tally.zero.addAll (tracker.observer.toldTo "count")

structure Ran where
  lines : List String
  failure : Option Failure
  /-- The notices, if the command tells about them other than in its lines. -/
  tally : Option Tally
deriving DecidableEq

namespace Ran

def fail (failure : Failure) : Ran := ⟨[], some failure, none⟩

def output (ran : Ran) : String := String.join (ran.lines.map fun line => line ++ "\n")

end Ran

def reportLines (reports : List Report) : List String :=
  reports.map fun report => report.json.toText

def secondsGiven (seconds : Nat) : Except Failure Duration :=
  match Duration.ofSeconds? seconds with
  | some d => .ok d
  | none => .error (.durationOutOfRange seconds)

/-! ## Replaying -/

/-- How far the steps of a replay go: a second or more. -/
structure Stride where
  length : Duration
  atLeastSecond : 1000000000 ≤ length.nanos

namespace Stride

/-- The target of the next step: a stride ahead, but not beyond the end. -/
def next (stride : Stride) (stop mark : Instant) : Instant :=
  match mark.add? stride.length with
  | some target => min target stop
  | none => stop

theorem next_of_some {stride : Stride} {stop mark target : Instant}
    (h : mark.add? stride.length = some target) :
    stride.next stop mark = if target ≤ stop then target else stop := by
  rw [next, h]
  rfl

theorem next_of_none {stride : Stride} {stop mark : Instant}
    (h : mark.add? stride.length = none) : stride.next stop mark = stop := by
  rw [next, h]

theorem next_le (stride : Stride) (stop mark : Instant) : stride.next stop mark ≤ stop := by
  cases hadd : mark.add? stride.length with
  | none =>
      rw [next_of_none hadd]
      exact Instant.le_refl stop
  | some target =>
      rw [next_of_some hadd]
      split
      · assumption
      · exact Instant.le_refl stop

theorem lt_next (stride : Stride) {stop mark : Instant} (h : mark < stop) :
    mark < stride.next stop mark := by
  cases hadd : mark.add? stride.length with
  | none => rwa [next_of_none hadd]
  | some target =>
      rw [next_of_some hadd]
      split
      · exact Instant.lt_of_add? stride.atLeastSecond hadd
      · exact h

end Stride

namespace Archive

structure Progress where
  tracker : Tracker
  updates : Nat
  lines : Array String

def replaySteps (archive : Archive) (stride : Stride) (progress : Progress) :
    Progress × Option UpdateError :=
  let stop := archive.times.stop
  if _h : progress.tracker.mark < stop then
    let target := stride.next stop progress.tracker.mark
    match _hupdate : Tracker.update (archive.source Unit) (archive.oracle Unit) target
        ((), progress.tracker) with
    | .error e (_, tracker) => ({ progress with tracker }, some e)
    | .ok _ (_, tracker) =>
        archive.replaySteps stride
          ⟨tracker.drain.2, progress.updates + 1, progress.lines ++ reportLines tracker.drain.1⟩
  else
    (progress, none)
termination_by (archive.times.stop.rank - progress.tracker.mark.rank).toNat
decreasing_by
  -- the update has moved the mark to the target
  have hmark : tracker.drain.2.mark = target :=
    (Tracker.mark_drain tracker).trans (Tracker.update_mark _hupdate)
  have hfurther : progress.tracker.mark.rank < target.rank := stride.lt_next _h
  have hbefore : progress.tracker.mark.rank < archive.times.stop.rank := _h
  show (archive.times.stop.rank - tracker.drain.2.mark.rank).toNat < _
  rw [hmark]
  omega

def summary (progress : Progress) : Json :=
  .object [
    ("updates", .number progress.updates),
    ("latest_block", Json.ofOption jsonUInt64 progress.tracker.latestBlock),
    ("changes", progress.tracker.tally.json),
    ("requests", .array (progress.tracker.ledger.deals.map Deal.json))]

def replay (archive : Archive) (stride : Stride) : Ran :=
  let (progress, error) := archive.replaySteps stride ⟨archive.tracker, 0, #[]⟩
  match error with
  | some e => ⟨progress.lines.toList, some (.update e), none⟩
  | none => ⟨progress.lines.toList ++ [(summary progress).toPrettyText], none, none⟩

/-! ## Following -/

def follow (archive : Archive) (plan : PollPlan) (readings : List Instant) : Ran :=
  let (polled, (_, tracker)) := Tracker.poll (archive.source Unit) (archive.oracle Unit) plan
    (fun _ => false) readings ((), archive.tracker)
  let lines := polled.batches.flatMap reportLines
  match polled.error with
  | some e => ⟨lines, some (.update e), none⟩
  | none => ⟨lines, none, some tracker.tally⟩

end Archive

/-! ## Commands -/

namespace Command

def versionLine : String := "chain-tracer 0.1.0"

def strideGiven (seconds : Nat) : Except Failure Stride :=
  if hzero : seconds = 0 then .error .zeroStep
  else
    match hgiven : Duration.ofSeconds? seconds with
    | some length => .ok ⟨length, Duration.second_le_of_ofSeconds? hzero hgiven⟩
    | none => .error (.durationOutOfRange seconds)

/-- The archive and the stride of a replay. The stride is checked before the file is looked at. -/
def prepareReplay (seconds : Nat) (contents : Option String) :
    Except Failure (Archive × Stride) := do
  let stride ← strideGiven seconds
  let archive ← (Archive.load contents).mapError .load
  return (archive, stride)

/-- The archive to follow and the plan. The lag is checked before the file is looked at. -/
def prepareFollow (interval lag : Nat) (contents : Option String) :
    Except Failure (Archive × PollPlan) := do
  let lag ← secondsGiven lag
  let archive ← (Archive.load contents).mapError .load
  return (archive, ⟨.ofSeconds interval, lag⟩)

/-- Runs a command on the contents of its file; following goes through the given readings of the
clock. -/
def run (command : Command) (contents : Option String) (readings : List Instant) : Ran :=
  match command with
  | .version => ⟨[versionLine], none, none⟩
  | .replay _ seconds =>
      match prepareReplay seconds contents with
      | .error failure => .fail failure
      | .ok (archive, stride) => archive.replay stride
  | .follow _ interval lag =>
      match prepareFollow interval lag contents with
      | .error failure => .fail failure
      | .ok (archive, plan) => archive.follow plan readings

end Command

end StorageMarket
