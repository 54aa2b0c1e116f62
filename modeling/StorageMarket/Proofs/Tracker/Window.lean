import StorageMarket.Proofs.Tracker.FailedUpdates
import StorageMarket.Proofs.Tracker.Pace

/-!
# The window of an update

An update asks for what happened in its window, from the mark to the target. A batch is
held against the window that it says it covers itself, and that one has to start no
earlier than the mark; where it ends is up to the source. So, whatever is answered, nothing
from before the mark is replayed, but blocks after the target may be. They are not replayed
exactly if the stretch that is answered ends by the target. Otherwise the next update can go
back behind them.
-/

namespace StorageMarket

/-- The window that was asked for holds the stretch that was answered, and no end of the stretch is
inside a leap second. -/
def Step.InWindow (step : Step) : Prop :=
  ∀ stretch, step.told.stretch = some stretch →
    stretch.Regular ∧ stretch.times.stop ≤ step.outcome.window.stop

/-- The windows of some steps follow one another, from a mark on. -/
def Abut : Instant → List Step → Prop
  | _, [] => True
  | mark, step :: steps =>
      step.outcome.window.start = mark ∧ Abut step.outcome.window.stop steps

/-- A step as it comes of a mark and a target, and of the answer of a source. -/
structure Attempt.Yields (attempt : Attempt) (mark : Instant) (step : Step) : Prop where
  start : step.outcome.window.start = mark
  stop : step.outcome.window.stop = attempt.target
  told : ∃ batch world', attempt.source.fetch step.outcome.window attempt.world = .ok batch world' ∧
    Chronicle.ofBatch batch (some mark) = .ok step.told

def Effect.outcome? : Effect → Option Outcome
  | updated outcome => some outcome
  | _ => none

def Log.outcomes (log : Log) : List Outcome := log.filterMap fun entry => entry.2.outcome?

theorem Log.outcomes_cons (use : Use) (effect : Effect) (log : Log) :
    Log.outcomes ((use, effect) :: log) = effect.outcome?.toList ++ log.outcomes := by
  rw [outcomes, List.filterMap_cons]
  cases effect.outcome? <;> rfl

namespace Tracker

/-- What an update replays, unless it fails. -/
def stepOf (tracker : Tracker) : Use → Option Step
  | .update attempt =>
      match gather attempt.source attempt.target (attempt.world, tracker) with
      | .error _ _ => none
      | .ok (window, told) state =>
          match replay attempt.oracle window told state with
          | .error _ _ => none
          | .ok outcome _ => some ⟨told, outcome⟩
  | _ => none

def steps (tracker : Tracker) : List Use → List Step
  | [] => []
  | use :: uses => (tracker.stepOf use).toList ++ (tracker.use use).2.steps uses

/-- An update fails, or it replays what the source has answered and moves on to its target. -/
theorem stepOf_update_cases (tracker : Tracker) (attempt : Attempt) :
    (tracker.stepOf (.update attempt) = none ∧
        ∃ e, (tracker.use (.update attempt)).1 = .failed e) ∨
      ∃ step, tracker.stepOf (.update attempt) = some step ∧ attempt.Yields tracker.mark step ∧
        (tracker.use (.update attempt)).1 = .updated step.outcome ∧
        (tracker.use (.update attempt)).2.mark = attempt.target := by
  rcases gather_cases attempt.source attempt.target attempt.world tracker with
    ⟨e, world', hgather⟩ | ⟨window, batch, told, world', hstart, hstop, hfetch, htold, hgather⟩
  · have hupdate : update attempt.source attempt.oracle attempt.target (attempt.world, tracker)
        = .error e (world', tracker) := by
      show EStateM.bind (gather attempt.source attempt.target)
        (fun found => replay attempt.oracle found.1 found.2) (attempt.world, tracker) = _
      rw [EStateM.bind, hgather]
    exact .inl ⟨by rw [stepOf, hgather], e, by rw [use, hupdate]⟩
  · have hupdate := (update_of_gather hgather attempt.oracle).2
    rcases replay_cases attempt.oracle window told world' tracker with
      ⟨e, _, ledger, _, hreplay⟩ | ⟨staged, _, ledger, _, hreplay⟩ <;> rw [hreplay] at hupdate
    · refine .inl ⟨?_, e, by rw [use, hupdate]⟩
      rw [stepOf, hgather]
      simp only [hreplay]
    · refine .inr ⟨⟨told, outcomeOf window told staged⟩, ?_, ?_, ?_, ?_⟩
      · rw [stepOf, hgather]
        simp only [hreplay]
      · exact ⟨hstart, hstop, batch, world', hfetch, htold⟩
      · rw [use, hupdate]
      · rw [use, hupdate]
        exact hstop

theorem outcome?_use (tracker : Tracker) (use : Use) :
    (tracker.use use).1.outcome? = (tracker.stepOf use).map Step.outcome := by
  cases use with
  | attach audit => rfl
  | drain => rfl
  | update attempt =>
      rcases tracker.stepOf_update_cases attempt with
        ⟨hnone, e, heffect⟩ | ⟨step, hsome, _, heffect, _⟩
      · rw [hnone, heffect]
        rfl
      · rw [hsome, heffect]
        rfl

/-- What a run replays is what its log says. -/
theorem outcome_steps (tracker : Tracker) (uses : List Use) :
    (tracker.steps uses).map Step.outcome = (tracker.useAll uses).1.outcomes := by
  induction uses generalizing tracker with
  | nil => rfl
  | cons use uses ih =>
      rw [steps, List.map_append, ih, useAll, Log.outcomes_cons, outcome?_use]
      cases tracker.stepOf use <;> rfl

/-- A use that replays something is an update, which takes the mark to its target. -/
theorem stepOf_eq_some {tracker : Tracker} {use : Use} {step : Step}
    (h : tracker.stepOf use = some step) :
    ∃ attempt, use = .update attempt ∧ attempt.Yields tracker.mark step ∧
      (tracker.use use).2.mark = step.outcome.window.stop := by
  cases use with
  | attach audit => exact nomatch h
  | drain => exact nomatch h
  | update attempt =>
      rcases tracker.stepOf_update_cases attempt with
        ⟨hnone, _⟩ | ⟨found, hsome, hyields, _, hmark⟩
      · rw [h] at hnone
        exact nomatch hnone
      · rw [h] at hsome
        cases hsome
        exact ⟨attempt, rfl, hyields, hmark.trans hyields.stop.symm⟩

/-- Any other use leaves the mark where it is. -/
theorem Settled.mark_of_stepOf_eq_none {tracker : Tracker} (h : tracker.Settled) {use : Use}
    (hnone : tracker.stepOf use = none) : (tracker.use use).2.mark = tracker.mark := by
  cases use with
  | attach audit => rfl
  | drain =>
      show tracker.drain.2.mark = _
      rw [Tracker.drain]
      split <;> rfl
  | update attempt =>
      rcases tracker.stepOf_update_cases attempt with ⟨_, e, hfail⟩ | ⟨step, hsome, _⟩
      · rw [h.use_failed (by rw [hfail]; rfl)]
      · rw [hsome] at hnone
        cases hnone

/-- Each step of a run comes of one of its updates and the mark at that time. -/
theorem exists_yields_of_mem_steps {tracker : Tracker} {uses : List Use} {step : Step}
    (hm : step ∈ tracker.steps uses) :
    ∃ attempt, .update attempt ∈ uses ∧ attempt.Yields step.outcome.window.start step := by
  induction uses generalizing tracker with
  | nil => exact absurd hm List.not_mem_nil
  | cons use uses ih =>
      rcases List.mem_append.1 hm with hfirst | hrest
      · obtain ⟨attempt, rfl, hyields, _⟩ := stepOf_eq_some (Option.mem_toList.1 hfirst)
        refine ⟨attempt, List.mem_cons_self, ?_⟩
        rw [hyields.start]
        exact hyields
      · obtain ⟨attempt, hmem, hyields⟩ := ih hrest
        exact ⟨attempt, List.mem_cons_of_mem _ hmem, hyields⟩

/-- In a run, each window starts where the one before has ended. -/
theorem Reachable.abut {tracker : Tracker} (h : tracker.Reachable) (uses : List Use) :
    Abut tracker.mark (tracker.steps uses) := by
  induction uses generalizing tracker with
  | nil => exact trivial
  | cons use uses ih =>
      have hrest := ih (h.use use)
      rw [steps]
      cases hstep : tracker.stepOf use with
      | none =>
          rw [h.settled.mark_of_stepOf_eq_none hstep] at hrest
          exact hrest
      | some step =>
          obtain ⟨attempt, _, hyields, hmark⟩ := stepOf_eq_some hstep
          rw [hmark] at hrest
          exact ⟨hyields.start, hrest⟩

/-- A run keeps its pace if the windows that were asked for hold what was answered. -/
theorem Reachable.paced {tracker : Tracker} (h : tracker.Reachable) {uses : List Use}
    (hin : ∀ step ∈ tracker.steps uses, step.InWindow) :
    Paced tracker.mark (tracker.steps uses) := by
  -- the mark is all that one use leaves for the next, and only a step moves it
  induction uses generalizing tracker with
  | nil => exact trivial
  | cons use uses ih =>
      rw [steps, List.forall_mem_append] at hin
      have hrest := ih (h.use use) hin.2
      rw [steps]
      cases hstep : tracker.stepOf use with
      | none =>
          rw [h.settled.mark_of_stepOf_eq_none hstep] at hrest
          exact hrest
      | some step =>
          obtain ⟨attempt, _, hyields, hmark⟩ := stepOf_eq_some hstep
          obtain ⟨batch, _, _, htold⟩ := hyields.told
          rw [hmark] at hrest
          refine ⟨?_, Chronicle.keepsTo_of_ofBatch htold ?_, hrest⟩
          · rw [← hyields.start]
            exact step.outcome.window.ordered
          · exact hin.1 step (Option.mem_toList.2 hstep)

/-- Whatever the sources answer in a run, the updates ask for one window after the other, from the
mark on. An update replays nothing from before the mark, and nothing from after the end of the
window that the answer says it covers; nothing from after the target either, exactly if the
stretch of the answer ends by then. If the windows that are asked for hold all stretches that
are answered, then the blocks of the run are replayed in the order of their times, all after
the mark that the run starts from, and those of one update after the targets of all before. -/
theorem replayed_blocks_come_after_mark {tracker : Tracker} (h : tracker.Reachable)
    (uses : List Use) :
    (tracker.steps uses).map Step.outcome = (tracker.useAll uses).1.outcomes ∧
    Abut tracker.mark (tracker.steps uses) ∧
    (∀ step ∈ tracker.steps uses,
      (∃ attempt, .update attempt ∈ uses ∧ attempt.Yields step.outcome.window.start step) ∧
      ∀ stretch, step.told.stretch = some stretch → stretch.Regular →
        (∀ block ∈ step.told.blocks,
          step.outcome.window.start < block.time ∧ block.time ≤ step.told.window.stop) ∧
        ((∀ block ∈ step.told.blocks, block.time ≤ step.outcome.window.stop)
          ↔ stretch.times.stop ≤ step.outcome.window.stop)) ∧
    ((∀ step ∈ tracker.steps uses, step.InWindow) →
      ((tracker.steps uses).flatMap fun step => step.told.blocks).Pairwise
          (fun a b => a.time ≤ b.time) ∧
        (∀ step ∈ tracker.steps uses, ∀ block ∈ step.told.blocks, tracker.mark < block.time) ∧
        (tracker.steps uses).Pairwise fun earlier later =>
          ∀ block ∈ later.told.blocks, earlier.outcome.window.stop < block.time) := by
  refine ⟨tracker.outcome_steps uses, h.abut uses, fun step hm => ?_, fun hin => ?_⟩
  · obtain ⟨attempt, hmem, hyields⟩ := exists_yields_of_mem_steps hm
    refine ⟨⟨attempt, hmem, hyields⟩, fun stretch hs hregular => ?_⟩
    obtain ⟨batch, _, _, htold⟩ := hyields.told
    refine ⟨fun block hblock => ?_, Chronicle.upTo_iff htold hs hregular⟩
    obtain ⟨hafter, hupTo⟩ := Chronicle.after_of_ofBatch htold hs hregular hblock
    exact ⟨hafter, Instant.le_trans hupTo (Chronicle.stop_le_of_ofBatch htold hs)⟩
  · have hpaced := h.paced hin
    exact ⟨hpaced.sorted, fun step hm block hblock => hpaced.after hm hblock, hpaced.apart⟩

/-! ## Sources that answer for more -/

/-- An update over a source that answers the same batch whatever it is asked. -/
def answering (batch : Batch) (target : Instant) : Attempt where
  World := Unit
  source := ⟨fun _ => pure batch⟩
  oracle := ⟨fun _ => pure 0, fun _ _ _ _ => pure .notRequired⟩
  world := ()
  target := target

theorem inWindow_of_answering {batch : Batch} {target mark : Instant} {step : Step}
    (h : (answering batch target).Yields mark step)
    (hbatch : ∀ stretch ∈ batch.stretch, stretch.Regular ∧ stretch.times.stop ≤ target) :
    step.InWindow := by
  obtain ⟨found, _, hfetch, htold⟩ := h.told
  cases hfetch
  obtain ⟨_, _, _, htold⟩ := Chronicle.ofBatch_eq_ok.1 htold
  intro stretch hs
  rw [htold] at hs
  rw [h.stop]
  exact hbatch stretch hs

def earlyBatch : Batch :=
  .ofEvents ⟨⟨300, 0, by decide⟩, ⟨320, 0, by decide⟩, by decide⟩
    (some ⟨⟨1, 1, by decide⟩, ⟨⟨310, 0, by decide⟩, ⟨310, 0, by decide⟩, by decide⟩⟩)
    [.published ⟨1, Ledger.sampleRequest 1 1 100⟩]

def lateBatch : Batch :=
  .ofEvents ⟨⟨320, 0, by decide⟩, ⟨340, 0, by decide⟩, by decide⟩
    (some ⟨⟨2, 3, by decide⟩, ⟨⟨325, 0, by decide⟩, ⟨330, 0, by decide⟩, by decide⟩⟩) []

def wholeBatch : Batch :=
  .ofEvents ⟨⟨300, 0, by decide⟩, ⟨340, 0, by decide⟩, by decide⟩
    (some ⟨⟨1, 3, by decide⟩, ⟨⟨310, 0, by decide⟩, ⟨330, 0, by decide⟩, by decide⟩⟩)
    [.published ⟨1, Ledger.sampleRequest 1 1 100⟩]

def earlyTracker : Tracker := start .silent ⟨300, 0, by decide⟩

/-- Updates to second 320 and to second 340; the first one gets the given answer. -/
def twoUpdates (first : Batch) : List Use :=
  [.update (answering first ⟨320, 0, by decide⟩), .update (answering lateBatch ⟨340, 0, by decide⟩)]

/-- The target of each step of a run, and the blocks that it replays. -/
def blocksReplayed (tracker : Tracker) (uses : List Use) :
    List (Instant × List (BlockNumber × Instant)) :=
  (tracker.steps uses).map fun step =>
    (step.outcome.window.stop, step.told.blocks.map fun block => (block.number, block.time))

theorem replayed_blocks_come_after_mark_twoUpdates :
    earlyTracker.Reachable ∧
      (∀ step ∈ earlyTracker.steps (twoUpdates earlyBatch), step.InWindow) ∧
      blocksReplayed earlyTracker (twoUpdates earlyBatch)
        = [(⟨320, 0, by decide⟩, [(1, ⟨310, 0, by decide⟩)]),
          (⟨340, 0, by decide⟩, [(2, ⟨325, 0, by decide⟩), (3, ⟨330, 0, by decide⟩)])] ∧
      ((earlyTracker.steps (twoUpdates earlyBatch)).flatMap fun step => step.told.blocks).Pairwise
        (fun a b => a.time ≤ b.time) := by
  have hreachable : earlyTracker.Reachable := Reachable.start _ _
  have hin : ∀ step ∈ earlyTracker.steps (twoUpdates earlyBatch), step.InWindow := by
    intro step hm
    obtain ⟨attempt, hmem, hyields⟩ := exists_yields_of_mem_steps hm
    rcases List.mem_pair.1 hmem with hattempt | hattempt <;> cases hattempt
    · apply inWindow_of_answering hyields
      rintro _ ⟨⟩
      decide
    · apply inWindow_of_answering hyields
      rintro _ ⟨⟩
      decide
  refine ⟨hreachable, hin, ?_, ?_⟩
  · cbv
  · exact ((replayed_blocks_come_after_mark hreachable (twoUpdates earlyBatch)).2.2.2 hin).1

/-- A source that answers for a longer window than it was asked for has blocks replayed that come
after the target. The next update goes back behind the last one, and replays two of them
once more. -/
theorem window_is_not_kept_wholeBatch :
    earlyTracker.Reachable ∧
      blocksReplayed earlyTracker (twoUpdates wholeBatch)
        = [(⟨320, 0, by decide⟩, [(1, ⟨310, 0, by decide⟩), (2, ⟨320, 0, by decide⟩),
            (3, ⟨330, 0, by decide⟩)]),
          (⟨340, 0, by decide⟩, [(2, ⟨325, 0, by decide⟩), (3, ⟨330, 0, by decide⟩)])] := by
  constructor
  · exact Reachable.start _ _
  · cbv

end Tracker

end StorageMarket
