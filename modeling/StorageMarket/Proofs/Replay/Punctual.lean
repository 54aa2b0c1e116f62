import StorageMarket.Proofs.Ledger.Fate
import StorageMarket.Proofs.Replay.Changes

/-!
# Deals finish in time

While a block is replayed, no running deal is finished before its time (`Patient`). As
the events of the block begin to be applied, the deals whose time was before the block
have been finished, so that nothing the block tells can make them fail; those whose time
is that of the block still run and may fail in it. After the block no deal runs whose
time has come.
-/

namespace StorageMarket

namespace Ledger

/-- From one ledger to the next, a deal becomes finished only while it runs and when its time has
come. -/
def Patient (now : Instant) (before after : Ledger) : Prop :=
  ∀ id deal, after.find? id = some deal → deal.stage = .finished →
    ∃ old, before.find? id = some old ∧
      (old.stage = .finished ∨ old.stage = .started ∧ old.finishTime ≤ now)

structure Punctual (ledger : Ledger) (block : Block) : Prop where
  /-- Whatever is done, no deal is finished before its time. -/
  patient : ∀ done change rest, block.changes = done ++ change :: rest →
    Patient block.time (ledger.changeAll done).2 ((ledger.changeAll done).2.change change).2
  /-- As the events begin to be applied, no deal runs whose time was before the block. -/
  early : ∀ deal ∈ (ledger.finishBefore block.time).2.deals, deal.stage = .started →
    block.time ≤ deal.finishTime
  /-- A deal whose time is that of the block is still as it was. -/
  onTime : ∀ deal ∈ ledger.deals, deal.stage = .started → deal.finishTime = block.time →
    deal ∈ (ledger.finishBefore block.time).2.deals
  /-- A deal that has finished, or whose time was before the block, is finished after the block,
  whatever the block tells. -/
  overdue : ∀ deal ∈ ledger.deals,
    deal.stage = .finished ∨ deal.stage = .started ∧ deal.finishTime < block.time →
    ∃ last, (ledger.changeAll block.changes).2.find? deal.id = some last ∧
      last.stage = .finished
  /-- A deal that still runs as the events begin to be applied fails if the block tells so. -/
  failing : ∀ deal ∈ (ledger.finishBefore block.time).2.deals, deal.stage = .started →
    ∀ e, .failed e ∈ block.events → e.request = deal.id →
    ∃ last, (ledger.changeAll block.changes).2.find? deal.id = some last ∧ last.stage = .failed
  /-- After the block no deal runs whose time has come. -/
  late : ∀ deal ∈ (ledger.changeAll block.changes).2.deals, deal.stage = .started →
    block.time < deal.finishTime

end Ledger

/-! ## What events can do to running deals -/

theorem Deal.Turns.ne_finished {deal : Deal} {event : Event} {time : Instant} {stage : Stage}
    (h : deal.Turns (event.change time) stage) : stage ≠ .finished := by
  rintro rfl
  cases event <;> cases h

/-- All that an event can do to a running deal is to make it fail. -/
theorem Deal.Turns.eq_failed {deal : Deal} {event : Event} {time : Instant} {stage : Stage}
    (h : deal.Turns (event.change time) stage) (hr : deal.stage = .started) : stage = .failed := by
  cases event with
  | published e => cases h
  | fulfilled e => cases h with | move own can => rw [hr] at can; cases can
  | cancelled e => cases h with | move own can => rw [hr] at can; cases can
  | failed e => cases h with | move own can => rfl
  | slotFilled e => cases h
  | slotFreed e => cases h

theorem Deal.isOver_of_finished {deal : Deal} (h : deal.stage = .finished) : deal.IsOver := by
  rw [IsOver, h]
  exact ⟨Stage.noConfusion, Stage.noConfusion⟩

theorem Deal.isOver_of_failed {deal : Deal} (h : deal.stage = .failed) : deal.IsOver := by
  rw [IsOver, h]
  exact ⟨Stage.noConfusion, Stage.noConfusion⟩

namespace Ledger

variable {ledger : Ledger} (h : ledger.Sound)
include h

/-- Events leave a running deal running, or it has failed. -/
theorem Sound.running_or_failed {x : RequestId} {deal : Deal} (hf : ledger.find? x = some deal)
    (hr : deal.stage = .started) (time : Instant) (events : List Event) :
    ∃ new, (ledger.changeAll (events.map (Event.change time))).2.find? x = some new ∧
      (new.stage = .started ∨ new.stage = .failed) := by
  induction events generalizing ledger deal with
  | nil => exact ⟨deal, hf, .inl hr⟩
  | cons event events ih =>
      have hsound := closed_sound.change h (event.change time)
      obtain ⟨new, hnew, _, hstage | hturns⟩ := (hf ▸ h.fate (event.change time) x).exists_of_some
      · exact ih hsound hnew (hstage.trans hr)
      · have hfailed := hturns.eq_failed hr
        obtain ⟨last, hlast, _, hstage⟩ :=
          hsound.find?_of_isOver hnew (Deal.isOver_of_failed hfailed) (events.map (Event.change time))
        exact ⟨last, hlast, .inr (hstage.trans hfailed)⟩

theorem Sound.find?_change_failed {x : RequestId} {deal : Deal} (hf : ledger.find? x = some deal)
    (hstage : deal.stage = .started ∨ deal.stage = .failed) :
    ∃ new, (ledger.change (.transition x .failed)).2.find? x = some new ∧ new.stage = .failed := by
  rcases hstage with hr | hfailed
  · exact ⟨_, find?_transition hf (by rw [hr]; rfl), rfl⟩
  · obtain ⟨new, hnew, _, hstage⟩ :=
      h.find?_of_isOver hf (Deal.isOver_of_failed hfailed) [.transition x .failed]
    exact ⟨new, hnew, hstage.trans hfailed⟩

end Ledger

/-- What finishes a deal while a block is replayed finds it running, and its time has come. -/
theorem Block.turns_finished {block : Block} {change : Change} (hm : change ∈ block.changes)
    {deal : Deal} (h : deal.Turns change .finished) :
    deal.stage = .started ∧ deal.finishTime ≤ block.time := by
  rw [changes, List.mem_cons, List.mem_append, List.mem_map, List.mem_singleton] at hm
  rcases hm with rfl | ⟨event, _, rfl⟩ | rfl
  · cases h with
    | overdue running due => exact ⟨running, Int.le_of_lt due⟩
  · exact absurd rfl h.ne_finished
  · cases h with
    | due running due => exact ⟨running, due⟩

namespace Ledger

/-! ## Finishing around the events of a block -/

theorem changeAll_block (ledger : Ledger) (block : Block) :
    (ledger.changeAll block.changes).2
      = (((ledger.finishBefore block.time).2.changeAll
          (block.events.map (Event.change block.time))).2.finishDue block.time).2 := by
  rw [Block.changes, changeAll, changeAll_append]
  rfl

variable {ledger : Ledger} (h : ledger.Sound)
include h

theorem Sound.patient {change : Change} {now : Instant}
    (hturns : ∀ deal : Deal, deal.Turns change .finished →
      deal.stage = .started ∧ deal.finishTime ≤ now) :
    Patient now ledger (ledger.change change).2 := by
  intro x deal hf hfinished
  have hfate := h.fate change x
  rw [hf] at hfate
  generalize ledger.find? x = before at hfate
  cases hfate with
  | kept => exact ⟨deal, rfl, .inl hfinished⟩
  | published request block time => cases hfinished
  | @revised old _ origin stage =>
      refine ⟨old, rfl, ?_⟩
      rcases stage with hsame | hturned
      · exact .inl (hsame.symm.trans hfinished)
      · rw [hfinished] at hturned
        exact .inr (hturns old hturned)

theorem Sound.patient_finishDue (now : Instant) :
    Patient now ledger (ledger.finishDue now).2 := by
  have hturns (deal : Deal) (hturned : deal.Turns (.finishDue now) .finished) :
      deal.stage = .started ∧ deal.finishTime ≤ now := by
    cases hturned with
    | due running due => exact ⟨running, due⟩
  exact h.patient hturns

/-- After the time has gone on to a moment, no deal runs whose time has come. -/
theorem Sound.lt_of_finishDue {now : Instant} {deal : Deal}
    (hm : deal ∈ (ledger.finishDue now).2.deals) (hr : deal.stage = .started) :
    now < deal.finishTime := by
  have hnot := (h.finishes_finishDue now).not_due hm hr
  rwa [decide_eq_true_iff, Instant.not_le] at hnot

theorem Sound.opened (time : Instant) : (ledger.finishBefore time).2.Sound :=
  closed_sound.change h (.finishBefore time)

/-- A deal whose time was before the block is finished before its events, and stays so. -/
theorem Sound.finished_of_overdue {block : Block} {deal : Deal} (hm : deal ∈ ledger.deals)
    (hr : deal.stage = .started) (hlt : deal.finishTime < block.time) :
    ∃ last, (ledger.changeAll block.changes).2.find? deal.id = some last ∧
      last.stage = .finished := by
  have hopened := h.opened block.time
  have hfinished : deal.finish ∈ (ledger.finishBefore block.time).2.deals :=
    (h.finishes_finishBefore block.time).finish_mem hm hr (decide_eq_true hlt)
  obtain ⟨last, hlast, _, hstage⟩ := hopened.find?_of_isOver (find?_of_mem hopened.nodup hfinished)
    (Deal.isOver_of_finished rfl)
    (block.events.map (Event.change block.time) ++ [.finishDue block.time])
  exact ⟨last, hlast, hstage⟩

/-- A deal that runs as the events begin to be applied and is told to fail has failed in the end. -/
theorem Sound.failed_of_told {block : Block} {deal : Deal}
    (hm : deal ∈ (ledger.finishBefore block.time).2.deals) (hr : deal.stage = .started)
    {e : Turn} (he : .failed e ∈ block.events) (hid : e.request = deal.id) :
    ∃ last, (ledger.changeAll block.changes).2.find? deal.id = some last ∧
      last.stage = .failed := by
  have hopened := h.opened block.time
  obtain ⟨done, rest, heq⟩ := List.append_of_mem he
  have hamid := closed_sound.changeAll hopened (done.map (Event.change block.time))
  obtain ⟨amid, hfound, hstage⟩ :=
    hopened.running_or_failed (find?_of_mem hopened.nodup hm) hr block.time done
  obtain ⟨failed, hfailed, hstage⟩ := hamid.find?_change_failed hfound hstage
  obtain ⟨last, hlast, _, hsame⟩ :=
    (closed_sound.change hamid (.transition deal.id .failed)).find?_of_isOver hfailed
      (Deal.isOver_of_failed hstage)
      (rest.map (Event.change block.time) ++ [.finishDue block.time])
  refine ⟨last, ?_, hsame.trans hstage⟩
  rw [changeAll_block, heq, List.map_append, List.map_cons, changeAll_append]
  rw [changeAll_append] at hlast
  rw [← hid] at hlast ⊢
  exact hlast

theorem Sound.punctual (block : Block) : ledger.Punctual block where
  patient done change rest heq := by
    have hm : change ∈ block.changes := by simp [heq]
    exact (closed_sound.changeAll h done).patient fun deal hturns => Block.turns_finished hm hturns
  early deal hm hr := by
    have hnot := (h.finishes_finishBefore block.time).not_due hm hr
    rwa [decide_eq_true_iff, Instant.not_lt] at hnot
  onTime deal hm _ htime := by
    refine (h.finishes_finishBefore block.time).mem_of_not_due hm ?_
    rw [htime, decide_eq_true_iff]
    exact Int.lt_irrefl _
  overdue deal hm hcases := by
    rcases hcases with hfinished | ⟨hr, hlt⟩
    · obtain ⟨last, hlast, _, hstage⟩ := h.find?_of_isOver (find?_of_mem h.nodup hm)
        (Deal.isOver_of_finished hfinished) block.changes
      exact ⟨last, hlast, hstage.trans hfinished⟩
    · exact h.finished_of_overdue hm hr hlt
  failing deal hm hr e he hid := h.failed_of_told hm hr he hid
  late deal hm hr := by
    rw [changeAll_block] at hm
    exact (closed_sound.changeAll (h.opened block.time) _).lt_of_finishDue hm hr

end Ledger

end StorageMarket
