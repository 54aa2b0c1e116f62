import StorageMarket.Proofs.Replay.Absorption
import StorageMarket.Proofs.Replay.Punctual

/-!
# The deals right after a block

A scene is a block together with the deals as its replay leaves them. If blocks are
replayed in the order of their times, then right after each of them the stages of the deals
agree with the clock: a deal that runs ends later, and one that has finished has ended by
then. So the deals that run can still be told when some of them have finished, from the
time of the block alone.
-/

namespace StorageMarket

/-- A block, and all deals right after it. -/
abbrev Scene := Block × List Deal

/-- What the replay of blocks leaves: each of them, with the deals right after it. -/
def Ledger.scenes (ledger : Ledger) : List Block → List Scene
  | [] => []
  | block :: blocks =>
      let after := (ledger.changeAll block.changes).2
      (block, after.deals) :: after.scenes blocks

def Scene.running (scene : Scene) : List Deal := scene.2.filter Deal.isRunning

namespace Ledger

theorem scenes_append (ledger : Ledger) (blocks others : List Block) :
    ledger.scenes (blocks ++ others)
      = ledger.scenes blocks
        ++ (ledger.changeAll (blocks.flatMap Block.changes)).2.scenes others := by
  induction blocks generalizing ledger with
  | nil => rfl
  | cons block blocks ih =>
      rw [List.cons_append, scenes, ih, List.flatMap_cons, changeAll_append, scenes,
        List.cons_append]

/-- Letting the time go on to a moment makes no difference to what later blocks leave. -/
theorem scenes_closing (ledger : Ledger) {now : Instant} {blocks : List Block}
    (hlater : ∀ block ∈ blocks, now < block.time) (latestBlock : Option BlockNumber) :
    (ledger.changeAll (Replay.closing now latestBlock)).2.scenes blocks
      = ledger.scenes blocks := by
  rw [Replay.closing]
  cases latestBlock.isSome with
  | false => rfl
  | true =>
      cases blocks with
      | nil => rfl
      | cons block blocks =>
          have hfinishes : (Change.finishBefore block.time).FinishesBy now :=
            hlater block List.mem_cons_self
          have hafter : ((ledger.finishDue now).2.changeAll block.changes).2
              = (ledger.changeAll block.changes).2 :=
            (equivalent_finishDue hfinishes ledger _).after
          show (ledger.finishDue now).2.scenes (block :: blocks) = _
          rw [scenes, scenes, hafter]

/-! ## Stages and the clock -/

/-- The deals that have finished have ended by a moment. -/
def FinishedBy (ledger : Ledger) (time : Instant) : Prop :=
  ∀ deal ∈ ledger.deals, deal.stage = .finished → deal.finishTime ≤ time

/-- At a moment, the stages of the deals agree with the clock. -/
structure AsOf (ledger : Ledger) (time : Instant) : Prop where
  running : ∀ deal ∈ ledger.deals, deal.stage = .started → time < deal.finishTime
  finished : ledger.FinishedBy time

theorem FinishedBy.mono {ledger : Ledger} {time later : Instant} (h : ledger.FinishedBy time)
    (hle : time ≤ later) : ledger.FinishedBy later := fun deal hm hfinished =>
  Instant.le_trans (h deal hm hfinished) hle

/-- An audit that looks back to a moment finds the deals that were running then. -/
theorem AsOf.filter_wasRunning {ledger : Ledger} {time : Instant} (h : ledger.AsOf time) :
    ledger.deals.filter (Audit.wasRunning time) = ledger.deals.filter Deal.isRunning := by
  refine List.filter_congr fun deal hm => ?_
  rw [Bool.eq_iff_iff, Deal.isRunning_iff, Audit.wasRunning, decide_eq_true_iff]
  constructor
  · rintro ⟨hrunning | hfinished, hlt⟩
    · exact hrunning
    · exact absurd hlt (Instant.not_lt.2 (h.finished deal hm hfinished))
  · intro hrunning
    exact ⟨.inl hrunning, h.running deal hm hrunning⟩

variable {ledger : Ledger} (h : ledger.Sound)
include h

/-- A change that finishes only what has ended leaves only what has ended finished. -/
theorem Sound.finishedBy_change {time : Instant} {change : Change}
    (hturns : ∀ deal : Deal, deal.Turns change .finished → deal.finishTime ≤ time)
    (hfinished : ledger.FinishedBy time) : (ledger.change change).2.FinishedBy time := by
  intro deal hm hover
  have hsound := closed_sound.change h change
  have hfate := h.fate change deal.id
  rw [find?_of_mem hsound.nodup hm] at hfate
  generalize hbefore : ledger.find? deal.id = before at hfate
  cases hfate with
  | kept => exact hfinished deal (mem_of_find? hbefore) hover
  | published request block time => cases hover
  | @revised old _ origin stage =>
      have htime : deal.finishTime = old.finishTime := congrArg Deadline.time origin.deadline
      rw [htime]
      rcases stage with hsame | hturned
      · exact hfinished old (mem_of_find? hbefore) (hsame.symm.trans hover)
      · rw [hover] at hturned
        exact hturns old hturned

theorem Sound.finishedBy_changeAll {time : Instant} {changes : List Change}
    (hturns : ∀ change ∈ changes, ∀ deal : Deal, deal.Turns change .finished →
      deal.finishTime ≤ time) (hfinished : ledger.FinishedBy time) :
    (ledger.changeAll changes).2.FinishedBy time := by
  induction changes generalizing ledger with
  | nil => exact hfinished
  | cons change changes ih =>
      rw [List.forall_mem_cons] at hturns
      exact ih (closed_sound.change h change) hturns.2
        (h.finishedBy_change hturns.1 hfinished)

/-- Right after a block the stages of the deals agree with its time, unless something had finished
before that ends later. -/
theorem Sound.asOf_block {block : Block} (hfinished : ledger.FinishedBy block.time) :
    (ledger.changeAll block.changes).2.AsOf block.time where
  running := (h.punctual block).late
  finished := h.finishedBy_changeAll
    (fun _ hm _ hturns => (Block.turns_finished hm hturns).2) hfinished

end Ledger

end StorageMarket
