import Mathlib.Data.NNRat.Floor
import StorageMarket.Proofs.Archive.Start
import StorageMarket.Proofs.Command.Strides
import StorageMarket.Proofs.Tracker.Failures

/-!
# A replay comes to the end

A replay makes passes: an update to the next target, after which the new reports are
taken. `passes` writes them down, one for each target until an update fails, and what the
loop gives is read off this record (`replaySteps_eq`).

The mark before a pass is the target of the pass before. So every pass goes on, none
goes beyond the end, and there are at most as many as strides fit into the way, rounded
up. Just as many there are if no update fails, and then the end is reached.
-/

namespace StorageMarket

/-- One pass of a replay: an update to a target, and what came of it. -/
structure Pass where
  before : Tracker
  target : Instant
  result : EStateM.Result UpdateError (Unit × Tracker) Outcome

namespace Pass

def error? (pass : Pass) : Option UpdateError :=
  match pass.result with
  | .error e _ => some e
  | .ok _ _ => none

def outcome? (pass : Pass) : Option Outcome :=
  match pass.result with
  | .error _ _ => none
  | .ok outcome _ => some outcome

theorem exists_outcome {pass : Pass} (h : pass.error? = none) :
    ∃ outcome, pass.outcome? = some outcome := by
  rw [error?] at h
  split at h
  · cases h
  · next outcome _ hresult => exact ⟨outcome, by rw [outcome?, hresult]⟩

/-- The tracker after a pass. The reports are taken if the update has gone well. -/
def after (pass : Pass) : Tracker :=
  match pass.result with
  | .error _ (_, tracker) => tracker
  | .ok _ (_, tracker) => tracker.drain.2

def lines (pass : Pass) : List String :=
  match pass.result with
  | .error _ _ => []
  | .ok _ (_, tracker) => reportLines tracker.drain.1

def lastOf (tracker : Tracker) (passes : List Pass) : Tracker :=
  (passes.getLast?.map after).getD tracker

theorem lastOf_cons (tracker : Tracker) (pass : Pass) (passes : List Pass) :
    lastOf tracker (pass :: passes) = lastOf pass.after passes := by
  cases passes with
  | nil => rfl
  | cons next passes => rw [lastOf, lastOf, List.getLast?_cons_cons, List.getLast?_cons]; rfl

end Pass

namespace Archive

section Loop

variable (archive : Archive)

def pass (target : Instant) (tracker : Tracker) : Pass where
  before := tracker
  target := target
  result := Tracker.update (archive.source Unit) (archive.oracle Unit) target ((), tracker)

/-- The passes to one target after the other, until one fails. -/
def passes : List Instant → Tracker → List Pass
  | [], _ => []
  | target :: targets, tracker =>
      let first := archive.pass target tracker
      first :: if first.error?.isSome then [] else passes targets first.after

variable {archive} {target : Instant} {tracker : Tracker}

theorem passes_cons_of_error {e : UpdateError} (h : (archive.pass target tracker).error? = some e)
    (targets : List Instant) :
    archive.passes (target :: targets) tracker = [archive.pass target tracker] := by
  rw [passes, h, Option.isSome_some, if_pos rfl]

theorem passes_cons (h : (archive.pass target tracker).error? = none) (targets : List Instant) :
    archive.passes (target :: targets) tracker
      = archive.pass target tracker
        :: archive.passes targets (archive.pass target tracker).after := by
  rw [passes, h, Option.isSome_none, if_neg Bool.false_ne_true]

theorem mark_pass (h : (archive.pass target tracker).error? = none) :
    (archive.pass target tracker).after.mark = target := by
  rw [Pass.error?] at h
  split at h
  · cases h
  · next hresult =>
      rw [Pass.after, hresult]
      exact (Tracker.mark_drain _).trans (Tracker.update_mark hresult)

def Progress.through (progress : Progress) (passes : List Pass) : Progress where
  tracker := Pass.lastOf progress.tracker passes
  updates := progress.updates + (passes.filterMap Pass.outcome?).length
  lines := progress.lines ++ passes.flatMap Pass.lines

theorem Progress.through_nil (progress : Progress) : progress.through [] = progress := by
  simp [through, Pass.lastOf]

theorem Progress.through_cons_of_error {progress : Progress} {pass : Pass} {e : UpdateError}
    (h : pass.error? = some e) :
    progress.through [pass] = { progress with tracker := pass.after } := by
  rw [Pass.error?] at h
  split at h
  · next hresult => simp [through, Pass.lastOf, Pass.outcome?, Pass.lines, hresult]
  · cases h

theorem Progress.through_cons {progress : Progress} {pass : Pass} (h : pass.error? = none)
    (passes : List Pass) :
    progress.through (pass :: passes)
      = Progress.through ⟨pass.after, progress.updates + 1, progress.lines ++ pass.lines⟩
          passes := by
  obtain ⟨outcome, houtcome⟩ := Pass.exists_outcome h
  have hlines : progress.lines ++ (pass.lines ++ passes.flatMap Pass.lines)
      = progress.lines ++ pass.lines ++ passes.flatMap Pass.lines := List.foldl_append
  rw [through, through, Pass.lastOf_cons, List.filterMap_cons_some houtcome, List.length_cons,
    List.flatMap_cons, hlines, Nat.add_right_comm]
  rfl

variable (archive) (stride : Stride)

/-- The loop makes one pass and goes on with the next one, until it fails. -/
theorem replaySteps_of_lt {progress : Progress} (h : progress.tracker.mark < archive.times.stop) :
    archive.replaySteps stride progress
      = let pass := archive.pass (stride.next archive.times.stop progress.tracker.mark)
          progress.tracker
        match pass.error? with
        | some e => ({ progress with tracker := pass.after }, some e)
        | none => archive.replaySteps stride
            ⟨pass.after, progress.updates + 1, progress.lines ++ pass.lines⟩ := by
  rw [replaySteps, dif_pos h]
  dsimp only
  split
  · next hupdate => simp only [Pass.error?, Pass.after, pass, hupdate]
  · next hupdate =>
      simp only [Pass.error?, Pass.after, Pass.lines, pass, hupdate]

/-- What the loop gives is read off its passes. -/
theorem replaySteps_eq (progress : Progress) :
    archive.replaySteps stride progress
      = (progress.through (archive.passes (stride.targets archive.times.stop progress.tracker.mark)
          progress.tracker),
        (archive.passes (stride.targets archive.times.stop progress.tracker.mark)
          progress.tracker).findSome? Pass.error?) := by
  induction hmark : progress.tracker.mark using Stride.targets.induct stride archive.times.stop
    generalizing progress with
  | case2 mark hlt =>
      subst hmark
      rw [replaySteps, dif_neg hlt, stride.targets_of_not_lt hlt]
      show (progress, none) = (progress.through [], none)
      rw [progress.through_nil]
  | case1 mark hlt ih =>
      subst hmark
      rw [replaySteps_of_lt archive stride hlt, stride.targets_of_lt hlt]
      dsimp only
      cases herror : (archive.pass (stride.next archive.times.stop progress.tracker.mark)
        progress.tracker).error? with
      | some e =>
          rw [passes_cons_of_error herror, Progress.through_cons_of_error herror,
            List.findSome?_cons, herror]
      | none =>
          rw [passes_cons herror, Progress.through_cons herror, List.findSome?_cons, herror]
          exact ih ⟨_, _, _⟩ (mark_pass herror)

/-! ## What holds of every pass -/

variable {archive}

/-- Every pass is an update to one of the targets, and goes on if the targets go up. -/
theorem of_mem_passes {targets : List Instant} {tracker : Tracker}
    (h : (tracker.mark :: targets).IsChain (· < ·)) {pass : Pass}
    (hm : pass ∈ archive.passes targets tracker) :
    pass = archive.pass pass.target pass.before ∧ pass.target ∈ targets ∧
      pass.before.mark < pass.target := by
  induction targets generalizing tracker with
  | nil => cases hm
  | cons target targets ih =>
      obtain ⟨hlt, hrest⟩ := List.isChain_cons_cons.1 h
      cases herror : (archive.pass target tracker).error? with
      | some e =>
          rw [passes_cons_of_error herror, List.mem_singleton] at hm
          subst hm
          exact ⟨rfl, List.mem_cons_self, hlt⟩
      | none =>
          rw [passes_cons herror, List.mem_cons] at hm
          rcases hm with rfl | hm
          · exact ⟨rfl, List.mem_cons_self, hlt⟩
          · obtain ⟨heq, hmem, hgoes⟩ := ih (by rwa [mark_pass herror]) hm
            exact ⟨heq, List.mem_cons_of_mem target hmem, hgoes⟩

theorem ne_notAdvancing {pass : Pass} (h : pass = archive.pass pass.target pass.before)
    (hlt : pass.before.mark < pass.target) (target mark : Instant) :
    pass.error? ≠ some (.notAdvancing target mark) := by
  intro herror
  rw [Pass.error?] at herror
  split at herror
  · next hresult =>
      cases herror
      rw [h] at hresult
      exact Int.lt_irrefl _ (Int.lt_trans hlt (Tracker.lt_of_update_notAdvancing hresult))
  · cases herror

/-! ## How many passes there are -/

theorem length_passes_le (targets : List Instant) (tracker : Tracker) :
    (archive.passes targets tracker).length ≤ targets.length := by
  induction targets generalizing tracker with
  | nil => exact Nat.le_refl 0
  | cons target targets ih =>
      cases herror : (archive.pass target tracker).error? with
      | some e =>
          rw [passes_cons_of_error herror]
          exact Nat.succ_le_succ (Nat.zero_le _)
      | none =>
          rw [passes_cons herror]
          exact Nat.succ_le_succ (ih _)

/-- If all passes go well, there is one for each target, and the last target is reached. -/
theorem passes_of_findSome?_eq_none {targets : List Instant} {tracker : Tracker}
    (h : (archive.passes targets tracker).findSome? Pass.error? = none) :
    (archive.passes targets tracker).map Pass.target = targets ∧
      ((archive.passes targets tracker).filterMap Pass.outcome?).length = targets.length ∧
      (Pass.lastOf tracker (archive.passes targets tracker)).mark
        = targets.getLast?.getD tracker.mark := by
  induction targets generalizing tracker with
  | nil => exact ⟨rfl, rfl, rfl⟩
  | cons target targets ih =>
      cases herror : (archive.pass target tracker).error? with
      | some e =>
          rw [passes_cons_of_error herror, List.findSome?_cons, herror] at h
          cases h
      | none =>
          rw [passes_cons herror, List.findSome?_cons, herror] at h
          obtain ⟨htargets, hcount, hmark⟩ := ih h
          obtain ⟨outcome, houtcome⟩ := Pass.exists_outcome herror
          rw [passes_cons herror, List.map_cons, htargets, List.filterMap_cons_some houtcome,
            List.length_cons, hcount, Pass.lastOf_cons, hmark, mark_pass herror,
            List.getLast?_cons, Option.getD_some]
          exact ⟨rfl, rfl, rfl⟩

/-! ## The whole replay -/

variable (archive)

def allPasses : List Pass :=
  archive.passes (stride.targets archive.times.stop archive.start) archive.tracker

theorem replaySteps_tracker : archive.replaySteps stride ⟨archive.tracker, 0, #[]⟩
    = (Progress.through ⟨archive.tracker, 0, #[]⟩ (archive.allPasses stride),
      (archive.allPasses stride).findSome? Pass.error?) :=
  archive.replaySteps_eq stride ⟨archive.tracker, 0, #[]⟩

theorem length_targets_start : (stride.targets archive.times.stop archive.start).length
    = stride.count archive.start archive.times.stop := by
  refine stride.length_targets archive.start_le_stop fun hend => ?_
  -- there is no way to go only at the very start of the calendar
  have hprimal : archive.times.start.Primal := by
    by_contra hnot
    have hlt := archive.start_lt_of_not_primal hnot
    rw [hend] at hlt
    exact Instant.not_lt.2 archive.times.ordered hlt
  rw [← hend, archive.start_of_primal hprimal]
  exact hprimal.regular

end Loop

/-- A replay is the updates of its passes, one after the other. Each of them goes on from the mark
and not beyond the end, so none is refused as not advancing. There are no more of them than strides
fit into the way from the start to the end, rounded up. If none fails, there are just as many, and
the mark is the end. Outside of leap seconds the way is the time between the two moments. -/
theorem replay_reaches_end (archive : Archive) (stride : Stride) :
    let passes := archive.allPasses stride
    let ran := archive.replaySteps stride ⟨archive.tracker, 0, #[]⟩
    let count := stride.count archive.start archive.times.stop
    ran = (Progress.through ⟨archive.tracker, 0, #[]⟩ passes, passes.findSome? Pass.error?) ∧
      (∀ pass ∈ passes, pass = archive.pass pass.target pass.before ∧
        pass.before.mark < pass.target ∧ pass.target ≤ archive.times.stop) ∧
      (∀ target mark, ran.2 ≠ some (.notAdvancing target mark)) ∧
      passes.length ≤ count ∧
      (ran.2 = none → passes.length = count ∧ ran.1.updates = count ∧
        ran.1.tracker.mark = archive.times.stop) ∧
      (archive.start.Regular → archive.times.stop.Regular →
        count = ⌈((archive.times.stop.since archive.start).nanos : ℚ) / stride.length.nanos⌉₊) := by
  intro passes ran count
  have hran : ran = _ := archive.replaySteps_tracker stride
  have hlength : (stride.targets archive.times.stop archive.start).length = count :=
    archive.length_targets_start stride
  have hchain : (archive.tracker.mark :: stride.targets archive.times.stop archive.start).IsChain
      (· < ·) := stride.isChain_targets archive.times.stop archive.start
  refine ⟨hran, ?_, ?_, ?_, ?_, stride.count_of_regular⟩
  · intro pass hm
    obtain ⟨heq, hmem, hlt⟩ := of_mem_passes hchain hm
    exact ⟨heq, hlt, stride.le_of_mem_targets _ _ _ hmem⟩
  · intro target mark herror
    rw [hran] at herror
    obtain ⟨pass, hm, herror⟩ := List.exists_of_findSome?_eq_some herror
    obtain ⟨heq, _, hlt⟩ := of_mem_passes hchain hm
    exact ne_notAdvancing heq hlt target mark herror
  · rw [← hlength]
    exact length_passes_le _ archive.tracker
  · intro hnone
    rw [hran] at hnone ⊢
    obtain ⟨htargets, hcount, hmark⟩ := passes_of_findSome?_eq_none hnone
    refine ⟨?_, ?_, ?_⟩
    · rw [← hlength, ← htargets, List.length_map]
      rfl
    · rw [← hlength, ← hcount]
      exact Nat.zero_add _
    · exact hmark.trans (stride.getLast?_targets archive.start_le_stop)

/-- The last block of this recording is inside the leap second at the end of 2016. -/
def newYearArchive : Archive where
  recording := {
    periodSeconds := 3600
    blocks := [⟨1, ⟨1483228798, 501000000, by decide⟩⟩, ⟨2, ⟨1483228799, 1600000000, by decide⟩⟩]
    events := []
    proofs := [] }
  times := ⟨⟨1483228798, 501000000, by decide⟩, ⟨1483228799, 1600000000, by decide⟩, by decide⟩

def oneSecond : Stride := ⟨.ofSeconds 1, by decide⟩

theorem targets_newYearArchive : oneSecond.targets newYearArchive.times.stop newYearArchive.start
    = [⟨1483228799, 500000000, by decide⟩, ⟨1483228799, 1600000000, by decide⟩] := by
  have hfirst : oneSecond.next newYearArchive.times.stop newYearArchive.start
      = ⟨1483228799, 500000000, by decide⟩ := by decide
  have hsecond : oneSecond.next newYearArchive.times.stop ⟨1483228799, 500000000, by decide⟩
      = ⟨1483228799, 1600000000, by decide⟩ := by decide
  rw [Stride.targets_of_lt _ (by decide), hfirst, Stride.targets_of_lt _ (by decide), hsecond,
    Stride.targets_of_not_lt _ (by decide)]

/-- The leap second is reached in one step with the second before it: there is an update less than
the time to it, 2.1 seconds, makes one expect. -/
theorem count_ne_in_leap_second :
    Archive.ofRecording newYearArchive.recording = .ok newYearArchive ∧
      Command.strideGiven 1 = .ok oneSecond ∧
      (newYearArchive.replaySteps oneSecond ⟨newYearArchive.tracker, 0, #[]⟩).2 = none ∧
      (newYearArchive.replaySteps oneSecond ⟨newYearArchive.tracker, 0, #[]⟩).1.updates
        ≠ ⌈((newYearArchive.times.stop.since newYearArchive.start).nanos : ℚ)
            / oneSecond.length.nanos⌉₊ := by
  have hway : (newYearArchive.times.stop.since newYearArchive.start).nanos = 2100000000 := by decide
  have hstride : oneSecond.length.nanos = 1000000000 := rfl
  rw [replaySteps_tracker, allPasses, targets_newYearArchive]
  refine ⟨rfl, rfl, by decide +kernel, ?_⟩
  have hupdates : (Progress.through ⟨newYearArchive.tracker, 0, #[]⟩
      (newYearArchive.passes [⟨1483228799, 500000000, by decide⟩,
        ⟨1483228799, 1600000000, by decide⟩] newYearArchive.tracker)).updates = 2 := by
    decide +kernel
  rw [hway, hstride, hupdates]
  norm_num

end Archive

end StorageMarket
