import Mathlib.Algebra.Module.Submodule.Lattice
import Mathlib.Computability.Primrec.List
import Mathlib.Data.List.Permutation
import StorageMarket.Proofs.Tracker.Advance
import StorageMarket.Proofs.Tracker.Replay

/-!
# Each event is replayed once

A run of updates over an archive replays the events after its first mark and up to its
last, each once, in the order of their places; and the numbers of the replayed blocks go
up all the time. However the targets are chosen, nothing is lost or told twice where one
update ends and the next one begins.

What is replayed is applied. The changes that a run makes to the ledger are known from its
steps (`changesOf`): but for those that finish deals as the time goes on, they are the
changes of the replayed events, in the order of these.
-/

namespace StorageMarket

def replayed (steps : List Step) : List Block := steps.flatMap fun step => step.told.blocks

theorem replayed_cons (step : Step) (steps : List Step) :
    replayed (step :: steps) = step.told.blocks ++ replayed steps := rfl

/-! ## The changes of a run -/

/-- The changes that the steps of a run make, each up to the end of its window; `seen` is the last
block that was seen before. -/
def changesOf (seen : Option BlockNumber) : List Step → List Change
  | [] => []
  | step :: steps =>
      let latest := step.told.lastBlock?.or seen
      Replay.changesUpTo step.outcome.window.stop latest step.told.blocks ++ changesOf latest steps

/-- Whether a change is one that an event makes, and not the passing of the time. -/
def Change.isOfEvent : Change → Bool
  | .finishDue _ => false
  | .finishBefore _ => false
  | _ => true

def Block.applied (block : Block) : List Change := block.events.map (Event.change block.time)

theorem Event.isOfEvent_change (time : Instant) (event : Event) :
    (event.change time).isOfEvent = true := by
  cases event <;> rfl

theorem Block.filter_isOfEvent_changes (block : Block) :
    block.changes.filter Change.isOfEvent = block.applied := by
  have hevents : block.applied.filter Change.isOfEvent = block.applied := by
    refine List.filter_eq_self.2 fun change hm => ?_
    obtain ⟨event, _, rfl⟩ := List.mem_map.1 hm
    exact event.isOfEvent_change block.time
  rw [changes, List.filter_cons_of_neg (by simp [Change.isOfEvent]), List.filter_append, ← applied,
    hevents, List.filter_cons_of_neg (by simp [Change.isOfEvent]), List.filter_nil, List.append_nil]

theorem Replay.filter_isOfEvent_closing (target : Instant) (latest : Option BlockNumber) :
    (closing target latest).filter Change.isOfEvent = [] := by
  rw [closing]
  split <;> rfl

theorem filter_isOfEvent_changesOf (seen : Option BlockNumber) (steps : List Step) :
    (changesOf seen steps).filter Change.isOfEvent = (replayed steps).flatMap Block.applied := by
  induction steps generalizing seen with
  | nil => rfl
  | cons step steps ih =>
      rw [changesOf, List.filter_append, ih, replayed_cons, List.flatMap_append,
        Replay.changesUpTo, List.filter_append, Replay.filter_isOfEvent_closing, List.append_nil,
        List.filter_flatMap]
      simp only [Block.filter_isOfEvent_changes]

namespace Recording

/-- What is told between two moments is told up to any moment between them and then on. -/
theorem InOrder.mergeSort_eventsBetween {recording : Recording} (h : recording.InOrder)
    {start middle stop : Instant} (hstart : start ≤ middle) (hstop : middle ≤ stop) :
    (recording.eventsBetween start stop).mergeSort Event.precedes
      = (recording.eventsBetween start middle).mergeSort Event.precedes
        ++ (recording.eventsBetween middle stop).mergeSort Event.precedes := by
  rw [← filter_isBy hstop, ← filter_not_isBy hstart]
  refine Event.mergeSort_partition fun a ha b hb hearly hlate => ?_
  obtain ⟨_, block, hm, hblock, _⟩ := h.mem_eventsBetween.1 ha
  obtain ⟨_, block', hm', hblock', _⟩ := h.mem_eventsBetween.1 hb
  rw [isBy, ← hblock, h.timeOf?_of_mem hm, Option.any_some, decide_eq_true_iff] at hearly
  rw [isBy, ← hblock', h.timeOf?_of_mem hm', Option.any_some, decide_eq_false_iff_not,
    Instant.not_le] at hlate
  refine Event.place_lt_of_block_lt ?_
  rw [← hblock, ← hblock']
  exact h.number_lt_of_time_lt hm hm' (Int.lt_of_le_of_lt hearly hlate)

end Recording

namespace Tracker

variable {σ : Type}

/-- What a run over an archive has replayed between two marks. -/
structure Covers (recording : Recording) (start stop : Instant) (steps : List Step) : Prop where
  forward : start ≤ stop
  events : (replayed steps).flatMap Block.events
    = (recording.eventsBetween start stop).mergeSort Event.precedes
  numbers : (replayed steps).Pairwise fun a b => a.number < b.number
  above : ∀ block ∈ replayed steps,
    ∃ a ∈ recording.blocks, start < a.time ∧ a.number ≤ block.number
  counted : (steps.map fun step => step.outcome.events).sum
    = ((replayed steps).flatMap Block.events).length

theorem covers_nil (recording : Recording) (start : Instant) :
    Covers recording start start [] where
  forward := Instant.le_refl start
  events := by
    have hnone : recording.eventsBetween start start = [] := by
      refine List.filter_eq_nil_iff.2 fun e _ => ?_
      cases recording.timeOf? e.block with
      | none => exact Bool.noConfusion
      | some time =>
          rw [Option.any_some, decide_eq_true_iff]
          rintro ⟨hlt, hle⟩
          exact Instant.not_lt.2 hle hlt
    rw [hnone, List.mergeSort_nil]
    rfl
  numbers := List.Pairwise.nil
  above := fun _ h => absurd h List.not_mem_nil
  counted := rfl

theorem Covers.cons {archive : Archive} (h : archive.recording.InOrder) {window : Window}
    {told : Chronicle} (htells : archive.Tells window told) {outcome : Outcome}
    (hcount : outcome.events = told.events.length) {stop : Instant} {steps : List Step}
    (hrest : Covers archive.recording window.stop stop steps) :
    Covers archive.recording window.start stop (⟨told, outcome⟩ :: steps) where
  forward := Instant.le_trans window.ordered hrest.forward
  events := by
    rw [replayed_cons, List.flatMap_append, htells.orderly.flatMap_events_blocks, hrest.events,
      htells.events, ← h.mergeSort_eventsBetween window.ordered hrest.forward]
  numbers := by
    rw [replayed_cons, List.pairwise_append]
    refine ⟨htells.orderly.pairwise_numbers, hrest.numbers, ?_⟩
    intro block hblock block' hblock'
    obtain ⟨b, hb, hstop, hle⟩ := (htells.number_bounds h hblock).2
    obtain ⟨a, ha, hstart, hle'⟩ := hrest.above block' hblock'
    have hlt := h.number_lt_of_time_lt hb ha (Int.lt_of_le_of_lt hstop hstart)
    exact UInt64.lt_of_le_of_lt hle (UInt64.lt_of_lt_of_le hlt hle')
  above := by
    intro block hblock
    rw [replayed_cons, List.mem_append] at hblock
    rcases hblock with hblock | hblock
    · exact (htells.number_bounds h hblock).1
    · obtain ⟨a, ha, hstart, hle⟩ := hrest.above block hblock
      exact ⟨a, ha, Int.lt_of_le_of_lt window.ordered hstart, hle⟩
  counted := by
    rw [List.map_cons, List.sum_cons, hrest.counted, replayed_cons, List.flatMap_append,
      List.length_append, htells.orderly.flatMap_events_blocks, hcount]

theorem covers_advance {archive : Archive} (h : archive.recording.InOrder) {oracle : Oracle σ}
    {targets : List Instant} {world : σ} {tracker : Tracker} {steps : List Step}
    {last : σ × Tracker}
    (hrun : advance (archive.source σ) oracle targets (world, tracker) = .ok steps last) :
    Covers archive.recording tracker.mark (targets.getLast?.getD tracker.mark) steps := by
  induction targets generalizing world tracker steps with
  | nil =>
      cases hrun
      exact covers_nil archive.recording tracker.mark
  | cons target targets ih =>
      obtain ⟨window, told, outcome, rest, gathered, replayed, hgather, hreplay, hrest, rfl⟩ :=
        advance_cons_eq_ok.1 hrun
      obtain ⟨hstart, hstop, htells, rfl⟩ := gather_archive_eq_ok h hgather
      obtain ⟨hmark, hcount⟩ := replay_eq_ok_mark hreplay
      obtain ⟨world', tracker'⟩ := replayed
      have ih := ih hrest
      rw [hmark] at ih
      have hlast : (target :: targets).getLast?.getD tracker.mark
          = targets.getLast?.getD window.stop := by
        rw [List.getLast?_cons, Option.getD_some, hstop]
      rw [hlast, ← hstart]
      exact ih.cons h htells hcount

/-- The changes of the steps of a run are accepted, and they are all that the run does to the
ledger. -/
theorem Settled.changesOf_advance {source : Source σ} {oracle : Oracle σ} {targets : List Instant}
    {world : σ} {tracker : Tracker} (h : tracker.Settled) {last : σ × Tracker} {steps : List Step}
    (hrun : advance source oracle targets (world, tracker) = .ok steps last) :
    tracker.ledger.Accepts (changesOf tracker.latestBlock steps) ∧
      last.2.ledger = (tracker.ledger.changeAll (changesOf tracker.latestBlock steps)).2 := by
  induction targets generalizing world tracker steps with
  | nil =>
      cases hrun
      exact ⟨Ledger.accepts_nil _, rfl⟩
  | cons target targets ih =>
      obtain ⟨window, told, outcome, rest, gathered, replayed, hgather, hreplay, hrest, rfl⟩ :=
        advance_cons_eq_ok.1 hrun
      rcases gather_cases source target world tracker with
        ⟨_, _, hfail⟩ | ⟨_, _, _, world', _, _, _, _, hgathered⟩
      · rw [hfail] at hgather
        cases hgather
      · rw [hgathered] at hgather
        cases hgather
        have hsettled := h.replay_ok hreplay
        obtain ⟨haccepts, _, _, _, _, houtcome, rfl⟩ := h.replay_eq_ok.1 hreplay
        obtain ⟨hmore, hledger⟩ := ih hsettled hrest
        have hchanges : changesOf tracker.latestBlock (⟨told, outcome⟩ :: rest)
            = tracker.changesTo window.stop told
              ++ changesOf (told.lastBlock?.or tracker.latestBlock) rest := by
          rw [changesOf, houtcome]
          rfl
        rw [hchanges, Ledger.accepts_append, Ledger.changeAll_append]
        exact ⟨⟨haccepts, hmore⟩, hledger⟩

/-- A run of updates over a recording, all of which succeed, replays just the recorded events of
the blocks after the first mark and up to the last target, each once: by block, then by kind, then
as they are recorded. The numbers of the replayed blocks go up from one to the next, and the counts
of events add up to their number.

The ledger after the run is the one before, changed as the replayed blocks say. All these changes
are accepted, and those of them that do not just finish deals are the changes of the replayed
events, one for each, in the same order. -/
theorem each_event_replayed_once {recording : Recording} {archive : Archive}
    (harchive : Archive.ofRecording recording = .ok archive) {oracle : Oracle σ}
    {targets : List Instant} {world : σ} {tracker : Tracker} (hsettled : tracker.Settled)
    {steps : List Step} {last : σ × Tracker}
    (hrun : advance (archive.source σ) oracle targets (world, tracker) = .ok steps last) :
    (replayed steps).flatMap Block.events
        = (recording.eventsBetween tracker.mark
            (targets.getLast?.getD tracker.mark)).mergeSort Event.precedes ∧
      ((replayed steps).map Block.number).Pairwise (· < ·) ∧
      (steps.map fun step => step.outcome.events).sum
        = (recording.eventsBetween tracker.mark (targets.getLast?.getD tracker.mark)).length ∧
      tracker.ledger.Accepts (changesOf tracker.latestBlock steps) ∧
      last.2.ledger = (tracker.ledger.changeAll (changesOf tracker.latestBlock steps)).2 ∧
      (changesOf tracker.latestBlock steps).filter Change.isOfEvent
        = (replayed steps).flatMap fun block => block.events.map (Event.change block.time) := by
  obtain ⟨rfl, hinOrder⟩ := Archive.ofRecording_ok harchive
  have hcovers := covers_advance hinOrder hrun
  obtain ⟨haccepts, hledger⟩ := hsettled.changesOf_advance hrun
  refine ⟨hcovers.events, List.pairwise_map.2 hcovers.numbers, ?_, haccepts, hledger,
    filter_isOfEvent_changesOf _ steps⟩
  rw [hcovers.counted, hcovers.events, List.length_mergeSort]

/-- Four blocks, of which two have the same time; their events are listed in no order. -/
def sampleRecording : Recording where
  periodSeconds := 60
  blocks := [⟨1, ⟨100, 0, by decide⟩⟩, ⟨2, ⟨110, 0, by decide⟩⟩, ⟨5, ⟨110, 0, by decide⟩⟩,
    ⟨9, ⟨130, 0, by decide⟩⟩]
  events := [.fulfilled ⟨9, (Ledger.sampleRequest 1 2 100).id⟩,
    .slotFilled ⟨5, (Ledger.sampleRequest 1 2 100).id, 0, (Ledger.sampleRequest 1 2 100).client⟩,
    .published ⟨5, Ledger.sampleRequest 2 1 100⟩, .published ⟨2, Ledger.sampleRequest 1 2 100⟩]
  proofs := []

def sampleArchive : Archive :=
  ⟨sampleRecording, ⟨⟨100, 0, by decide⟩, ⟨130, 0, by decide⟩, by decide⟩⟩

/-- Updates to the time of two blocks, to the same time again, and beyond the last block. -/
def sampleRun : EStateM.Result UpdateError (Unit × Tracker) (List Step) :=
  advance (sampleArchive.source Unit) (sampleArchive.oracle Unit)
    [⟨110, 0, by decide⟩, ⟨110, 0, by decide⟩, ⟨500, 0, by decide⟩]
    ((), start .silent ⟨100, 0, by decide⟩)

def isOk {ε τ α : Type} : EStateM.Result ε τ α → Bool
  | .ok _ _ => true
  | .error _ _ => false

def stagesOf {α : Type} : EStateM.Result UpdateError (Unit × Tracker) α → List Stage
  | .ok _ (_, tracker) => tracker.ledger.deals.map Deal.stage
  | .error _ (_, tracker) => tracker.ledger.deals.map Deal.stage

theorem each_event_replayed_once_sampleRun :
    Archive.ofRecording sampleRecording = .ok sampleArchive ∧
      (start .silent ⟨100, 0, by decide⟩).Settled ∧
      ∃ steps last, sampleRun = .ok steps last ∧
        (replayed steps).flatMap Block.events = [
          .published ⟨2, Ledger.sampleRequest 1 2 100⟩,
          .published ⟨5, Ledger.sampleRequest 2 1 100⟩,
          .slotFilled ⟨5, (Ledger.sampleRequest 1 2 100).id, 0,
            (Ledger.sampleRequest 1 2 100).client⟩,
          .fulfilled ⟨9, (Ledger.sampleRequest 1 2 100).id⟩] ∧
        last.2.ledger = (Ledger.empty.changeAll (changesOf none steps)).2 ∧
        last.2.ledger.deals.map Deal.stage = [.finished, .new] := by
  have harchive : Archive.ofRecording sampleRecording = .ok sampleArchive := rfl
  have hsettled := (Reachable.start .silent ⟨100, 0, by decide⟩).settled
  have hok : isOk sampleRun = true := by cbv
  have hstages : stagesOf sampleRun = [.finished, .new] := by cbv
  refine ⟨harchive, hsettled, ?_⟩
  cases hrun : sampleRun with
  | error e state =>
      rw [hrun] at hok
      cases hok
  | ok steps last =>
      obtain ⟨hevents, _, _, _, hledger, _⟩ := each_event_replayed_once harchive hsettled hrun
      rw [hrun] at hstages
      refine ⟨steps, last, rfl, ?_, hledger, hstages⟩
      rw [hevents]
      cbv

end Tracker

end StorageMarket
