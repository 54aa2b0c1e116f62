import StorageMarket.Proofs.Replay.Freeings
import StorageMarket.Proofs.Tracker.EachEventOnce
import StorageMarket.Proofs.Tracker.Notices
import StorageMarket.Proofs.Tracker.Window

/-!
# Slots that an observer is told of

However a tracker is used, its observer is told of no slot that the request does not have,
except that such a slot was freed. Whether that happens depends on the events alone: it does
exactly if an event that is replayed frees a slot that its request does not have, after the
request was published.
-/

namespace StorageMarket.Tracker

/-- A step of a run replays a chronicle, and that is all that its update does. -/
theorem exists_replay_of_stepOf {tracker : Tracker} {attempt : Attempt} {step : Step}
    (h : tracker.stepOf (.update attempt) = some step) :
    ∃ window world' state,
      replay attempt.oracle window step.told (world', tracker) = .ok step.outcome state ∧
        tracker.use (.update attempt) = (.updated step.outcome, state.2) := by
  rw [stepOf] at h
  rcases gather_cases attempt.source attempt.target attempt.world tracker with
    ⟨_, _, hgather⟩ | ⟨window, _, told, world', _, _, _, _, hgather⟩
  · rw [hgather] at h
    cases h
  · have hupdate := (update_of_gather hgather attempt.oracle).2
    rw [hgather] at h
    cases hreplay : replay attempt.oracle window told (world', tracker) with
    | error e state => simp only [hreplay, reduceCtorEq] at h
    | ok outcome state =>
        simp only [hreplay] at h
        cases h
        refine ⟨window, world', state, hreplay, ?_⟩
        rw [use, hupdate, hreplay]

/-- What is done with a tracker tells nothing and leaves its ledger, or it is an update that replays
a chronicle. -/
theorem Settled.use_cases {tracker : Tracker} (h : tracker.Settled) (use : Use) :
    (tracker.stepOf use = none ∧ (tracker.use use).1.notices = [] ∧
        (tracker.use use).2.ledger = tracker.ledger) ∨
      ∃ step changes, tracker.stepOf use = some step ∧
        changes = tracker.changesTo step.outcome.window.stop step.told ∧
        tracker.ledger.Accepts changes ∧
        (tracker.use use).1.notices = tracker.ledger.news changes ∧
        (tracker.use use).2.ledger = (tracker.ledger.changeAll changes).2 := by
  cases use with
  | attach audit => exact .inl ⟨rfl, rfl, rfl⟩
  | drain =>
      refine .inl ⟨rfl, rfl, ?_⟩
      show tracker.drain.2.ledger = _
      rw [Tracker.drain]
      split <;> rfl
  | update attempt =>
      rcases tracker.stepOf_update_cases attempt with ⟨hnone, e, hfail⟩ | ⟨step, hsome, _⟩
      · refine .inl ⟨hnone, ?_, ?_⟩
        · rw [hfail]
          rfl
        · rw [h.use_failed (by rw [hfail]; rfl)]
      · obtain ⟨window, world', state, hreplay, huse⟩ := exists_replay_of_stepOf hsome
        obtain ⟨haccepts, _, _, _, _, houtcome, rfl⟩ := h.replay_eq_ok.1 hreplay
        have hwindow : step.outcome.window = window := by rw [houtcome]
        have hnotices : step.outcome.notices
            = tracker.ledger.news (tracker.changesTo window.stop step.told) := by rw [houtcome]
        rw [← hwindow] at haccepts hnotices huse
        exact .inr ⟨step, _, hsome, rfl, haccepts, by rw [huse]; exact hnotices, by rw [huse]; rfl⟩

/-- What is told in a run to be freed is what the replayed events free. -/
theorem Reachable.freeings_useAll {tracker : Tracker} (h : tracker.Reachable)
    {known : List Request} (hknows : tracker.ledger.Knows known) (uses : List Use) :
    (tracker.useAll uses).1.notices.filterMap Notice.freeing?
      = freeings known ((replayed (tracker.steps uses)).flatMap Block.events) := by
  -- what is known of the requests is carried along, by the events of each step
  induction uses generalizing tracker known with
  | nil => rfl
  | cons use uses ih =>
      have ih := @ih _ (h.use use)
      have hlog : (tracker.useAll (use :: uses)).1.notices
          = (tracker.use use).1.notices ++ ((tracker.use use).2.useAll uses).1.notices := rfl
      rw [hlog, List.filterMap_append, steps]
      rcases h.settled.use_cases use with
        ⟨hstep, hsilent, hledger⟩ | ⟨step, changes, hstep, hchanges, haccepts, htold, hledger⟩
      · rw [hledger] at ih
        rw [hstep, hsilent, ih hknows]
        rfl
      · have hechoes : tracker.ledger.Echoes changes known
            (step.told.blocks.flatMap Block.events) := by
          rw [hchanges] at haccepts ⊢
          exact h.settled.sound.echoes_changesUpTo hknows haccepts
        rw [hledger] at ih
        rw [hstep, htold, hechoes.freed, ih (h.settled.sound.knows_changeAll hknows hechoes),
          ← freeings_append, ← List.flatMap_append]
        rfl

section

variable (observer : Observer) (mark : Instant) (uses : List Use)

/-- The slots that are told in a run are in range, unless they are freed and had no host. -/
theorem slot_lt_of_mem_notices {notice : Notice}
    (hm : notice ∈ ((start observer mark).useAll uses).1.notices) {slot : SlotIndex}
    (hslot : notice.occurrence.slot? = some slot)
    (hhost : notice.occurrence ≠ .slotFreed slot none) :
    slot < notice.deal.request.terms.slots := by
  have hthread := thread_useAll observer mark uses notice.deal.id
  apply hthread.slot_lt (fun deal hdeal => nomatch hdeal) notice _ slot hslot hhost
  rw [List.mem_filter]
  exact ⟨hm, decide_eq_true rfl⟩

/-- However a new tracker is used and whatever the chains answer, each listener of an observer that
stays up is told the notices of the run. These say that a slot was filled, or that a host has left
it, only if the request has the slot. The slots that they say are freed are those that the replayed
events free, of requests published by then, whatever their index. So all slots that are told of are
in range exactly if these are. -/
theorem slots_are_in_range_iff_freeings_are :
    let run := (start observer mark).useAll uses
    let freed := freeings [] ((replayed ((start observer mark).steps uses)).flatMap Block.events)
    (observer.Steady → run.2.observer.listeners.map Observer.told
        = observer.listeners.map fun listener => listener.told ++ run.1.notices) ∧
      (∀ notice ∈ run.1.notices, ∀ slot, notice.occurrence.slot? = some slot →
        notice.occurrence ≠ .slotFreed slot none → slot < notice.deal.request.terms.slots) ∧
      run.1.notices.filterMap Notice.freeing? = freed ∧
      ((∀ notice ∈ run.1.notices, notice.InRange) ↔
        ∀ freeing ∈ freed, freeing.2 < freeing.1.terms.slots) := by
  have hreachable := Reachable.start observer mark
  have hknows : (start observer mark).ledger.Knows [] := fun _ => rfl
  have hfreed := hreachable.freeings_useAll hknows uses
  refine ⟨fun hsteady => ?_, ?_, hfreed, ?_⟩
  · show ((start observer mark).useAll uses).2.observer.listeners.map Observer.told = _
    rw [observer_useAll, hsteady.told_inform]
  · intro notice hm slot hslot hhost
    exact slot_lt_of_mem_notices observer mark uses hm hslot hhost
  · show _ ↔ ∀ freeing ∈ freeings [] _, _
    rw [← hfreed]
    constructor
    · intro hrange freeing hm
      obtain ⟨⟨occurrence, deal⟩, hnotice, hfreeing⟩ := List.mem_filterMap.1 hm
      cases occurrence <;> cases hfreeing
      exact hrange _ hnotice _ rfl
    · intro hfreeings notice hm slot hslot
      by_cases hhost : notice.occurrence = .slotFreed slot none
      · have hfreeing : notice.freeing? = some (notice.deal.request, slot) := by
          rw [Notice.freeing?, hhost]
        exact hfreeings _ (List.mem_filterMap.2 ⟨notice, hm, hfreeing⟩)
      · exact slot_lt_of_mem_notices observer mark uses hm hslot hhost

end

/-- One block in which a request of two slots is published, and one in which its slot 7 is freed. -/
def strayBatch : Batch :=
  .ofEvents ⟨⟨1201, 0, by decide⟩, ⟨1220, 0, by decide⟩, by decide⟩
    (some ⟨⟨4, 5, by decide⟩, ⟨⟨1210, 0, by decide⟩, ⟨1220, 0, by decide⟩, by decide⟩⟩)
    [.published ⟨4, Ledger.sampleRequest 1 2 100⟩,
      .slotFreed ⟨5, (Ledger.sampleRequest 1 2 100).id, 7⟩]

def strayRun : Log × Tracker :=
  (start .silent strayBatch.window.start).useAll
    [.update (answering strayBatch strayBatch.window.stop)]

/-- The observer is told that slot 7 of this request was freed, although it has two slots only. -/
theorem freed_slot_is_out_of_range_strayBatch :
    ∃ notice ∈ strayRun.1.notices, notice.occurrence = .slotFreed 7 none ∧
      notice.deal.request.terms.slots = 2 ∧ ¬ notice.InRange := by
  have hnotices : strayRun.1.notices.map (fun notice =>
      (notice.occurrence, notice.deal.request.terms.slots))
        = [(.published, 2), (.slotFreed 7 none, 2)] := by cbv
  have hlast : (Occurrence.slotFreed 7 none, (2 : UInt64))
      ∈ [(.published, 2), (.slotFreed 7 none, 2)] := List.mem_cons_of_mem _ List.mem_cons_self
  rw [← hnotices] at hlast
  obtain ⟨notice, hm, htold⟩ := List.mem_map.1 hlast
  obtain ⟨hoccurrence, hslots⟩ := Prod.mk.inj htold
  refine ⟨notice, hm, hoccurrence, hslots, fun hrange => ?_⟩
  have hlt := hrange 7 (by rw [hoccurrence]; rfl)
  rw [hslots] at hlt
  revert hlt
  decide

end StorageMarket.Tracker
