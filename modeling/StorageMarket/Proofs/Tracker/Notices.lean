import Mathlib.Computability.Primrec.List
import StorageMarket.Proofs.Notice.Impression
import StorageMarket.Proofs.Observer.Steady
import StorageMarket.Proofs.Replay.Telling
import StorageMarket.Proofs.Tracker.FailedUpdates
import StorageMarket.Proofs.Tracker.Replay

/-!
# What an observer is told in a run

However a new tracker is used, its updates tell all that becomes of the deals: about each
request a thread of notices, from its publication on. An observer that stays up passes on
each of them to each of its listeners. So what a listener was told keeps to the life cycle
of requests, and a listener that sees nothing but notices knows what the tracker knows.

That some updates fail makes no difference: they tell nothing and change nothing.
-/

namespace StorageMarket

/-- How many notices the summary of an update counts. -/
def Effect.changes : Effect → Nat
  | .updated outcome => outcome.notices.length
  | _ => 0

theorem Log.length_notices (log : Log) :
    log.notices.length = (log.map fun entry => entry.2.changes).sum := by
  rw [notices, List.length_flatMap]
  congr 1
  refine List.map_congr_left fun entry _ => ?_
  cases entry.2 <;> rfl

namespace Tracker

/-- Between two states of a tracker, the notices tell what becomes of the deals, and the observer
is told them. -/
structure Tells (before : Tracker) (notices : List Notice) (after : Tracker) : Prop where
  telling : Ledger.Telling before.ledger notices after.ledger
  observer : after.observer = before.observer.inform notices

theorem Tells.refl (tracker : Tracker) : tracker.Tells [] tracker := ⟨.nil rfl, rfl⟩

theorem Tells.trans {first second third : Tracker} {notices more : List Notice}
    (h : first.Tells notices second) (h' : second.Tells more third) :
    first.Tells (notices ++ more) third where
  telling := h.telling.append h'.telling
  observer := by rw [h'.observer, h.observer, Observer.inform_append]

theorem Settled.tells_update {σ : Type} {tracker : Tracker} (h : tracker.Settled)
    {source : Source σ} {oracle : Oracle σ} {target : Instant} {world : σ} {outcome : Outcome}
    {state : σ × Tracker}
    (hok : Tracker.update source oracle target (world, tracker) = .ok outcome state) :
    tracker.Tells outcome.notices state.2 := by
  obtain ⟨window, told, world', _, hreplay⟩ := exists_replay_of_update hok
  obtain ⟨_, cursor, reports, final, _, rfl, rfl⟩ := h.replay_eq_ok.1 hreplay
  exact ⟨h.sound.telling_news _, rfl⟩

/-- Whatever is done with a tracker, its observer is told what becomes of the deals. -/
theorem Settled.tells_use {tracker : Tracker} (h : tracker.Settled) (use : Use) :
    tracker.Tells (tracker.use use).1.notices (tracker.use use).2 := by
  cases use with
  | attach audit => exact ⟨.nil rfl, rfl⟩
  | update attempt =>
      rcases tracker.use_update_cases attempt with
        ⟨e, state, hresult, huse⟩ | ⟨outcome, state, hresult, huse⟩ <;> rw [huse]
      · show tracker.Tells [] state.2
        rw [h.update_error hresult]
        exact Tells.refl tracker
      · have htold : tracker.Tells outcome.notices state.2 := h.tells_update hresult
        exact htold
  | drain =>
      show tracker.Tells [] tracker.drain.2
      rw [Tracker.drain]
      split
      · exact Tells.refl tracker
      · exact ⟨.nil rfl, rfl⟩

theorem Reachable.tells_useAll {tracker : Tracker} (h : tracker.Reachable) (uses : List Use) :
    tracker.Tells (tracker.useAll uses).1.notices (tracker.useAll uses).2 := by
  induction uses generalizing tracker with
  | nil => exact Tells.refl tracker
  | cons use uses ih => exact (h.settled.tells_use use).trans (ih (h.use use))

theorem thread_useAll (observer : Observer) (mark : Instant) (uses : List Use) (id : RequestId) :
    Thread none
      (((start observer mark).useAll uses).1.notices.filter fun notice => notice.deal.id = id)
      (((start observer mark).useAll uses).2.ledger.find? id) :=
  ((Reachable.start observer mark).tells_useAll uses).telling.thread id

theorem observer_useAll (observer : Observer) (mark : Instant) (uses : List Use) :
    ((start observer mark).useAll uses).2.observer
      = observer.inform ((start observer mark).useAll uses).1.notices :=
  ((Reachable.start observer mark).tells_useAll uses).observer

section

variable {observer : Observer} (hready : observer.Ready) (mark : Instant) (uses : List Use)

include hready

theorem names_useAll :
    ((start observer mark).useAll uses).2.observer.listeners.map Observer.name
      = observer.listeners.map Observer.name := by
  rw [observer_useAll, hready.steady.names_inform]

/-- A listener that follows a run from the beginning has been told just the notices of the run. -/
theorem told_useAll {listener : Observer}
    (hm : listener ∈ ((start observer mark).useAll uses).2.observer.listeners) :
    listener.told = ((start observer mark).useAll uses).1.notices := by
  rw [observer_useAll] at hm
  exact hready.told_inform hm

end

/-- However a new tracker is used, whatever the chains answer and whether or not its updates
succeed, its observer keeps its listeners, and all that one of them was told about a request keeps
to the life cycle of requests. A listener was told of the requests of the ledger, and of no others.

The observer must not be told anything before, and if it is a listener on its own it must not
crash; what the members of a panel do makes no difference. -/
theorem notices_follow_life_cycle {observer : Observer} (hready : observer.Ready) (mark : Instant)
    (uses : List Use) :
    let last := ((start observer mark).useAll uses).2
    last.observer.listeners.map Observer.name = observer.listeners.map Observer.name ∧
      ∀ listener ∈ last.observer.listeners, ∀ id,
        LifeCycle (listener.told.filter fun notice => notice.deal.id = id) ∧
        ((listener.told.filter fun notice => notice.deal.id = id) = []
          ↔ last.ledger.find? id = none) := by
  refine ⟨names_useAll hready mark uses, fun listener hm id => ?_⟩
  have hthread := thread_useAll observer mark uses id
  rw [told_useAll hready mark uses hm]
  exact ⟨hthread.lifeCycle, hthread.eq_nil_iff⟩

/-- A panel of a listener that crashes whenever it is told something, and one that takes all. -/
def roughPanel : Observer :=
  .panel (.ofList [.listener "rough" (fun _ _ => .crashed) [], .quiet "calm"])

theorem ready_roughPanel : roughPanel.Ready where
  steady := trivial
  untold := by
    intro listener hm
    have hm : listener ∈ [Observer.listener "rough" (fun _ _ => .crashed) [], .quiet "calm"] := hm
    rcases List.mem_pair.1 hm with rfl | rfl <;> rfl

/-- A chain that publishes a request, fills and frees one of its slots and lets it start; in its
second block it also speaks of a request that was never published. -/
def sampleTale : Source Unit where
  fetch window := pure (Batch.ofEvents window
    (some ⟨⟨61, 62, by decide⟩, ⟨⟨3301, 0, by decide⟩, ⟨3303, 0, by decide⟩, by decide⟩⟩)
    [.published ⟨61, Ledger.sampleRequest 1 2 500⟩,
      .slotFilled ⟨61, (Ledger.sampleRequest 1 2 500).id, 1, (Ledger.sampleRequest 1 2 500).client⟩,
      .slotFreed ⟨62, (Ledger.sampleRequest 1 2 500).id, 1⟩,
      .fulfilled ⟨62, (Ledger.sampleRequest 1 2 500).id⟩,
      .failed ⟨62, (Ledger.sampleRequest 2 2 500).id⟩])

/-- An update over that chain to the end of the request, and one that fails. -/
def sampleUses : List Use :=
  [.update ⟨Unit, sampleTale, sampleAttempt.oracle, (), ⟨3805, 0, by decide⟩⟩,
    .update sampleAttempt]

/-- What the listeners were told: what happened, and the stage at which the deal was shown. -/
def heard (tracker : Tracker) : List (List (Occurrence × Stage)) :=
  tracker.observer.listeners.map fun listener =>
    listener.told.map fun notice => (notice.occurrence, notice.deal.stage)

theorem notices_follow_life_cycle_sampleUses :
    roughPanel.Ready ∧
      heard ((start roughPanel default).useAll sampleUses).2
        = List.replicate 2 [(.published, .new),
          (.slotFilled 1 (Ledger.sampleRequest 1 2 500).client, .new), (.fulfilled, .started),
          (.slotFreed 1 (some (Ledger.sampleRequest 1 2 500).client), .started),
          (.finished, .finished)] ∧
      ∀ listener ∈ ((start roughPanel default).useAll sampleUses).2.observer.listeners, ∀ id,
        LifeCycle (listener.told.filter fun notice => notice.deal.id = id) := by
  refine ⟨ready_roughPanel, by cbv, fun listener hm id => ?_⟩
  exact ((notices_follow_life_cycle ready_roughPanel default sampleUses).2 listener hm id).1

/-- However a new tracker is used, what one of its observer's listeners was told tells its state:
the requests whose publication was told are those of the ledger, in order; what was told about each
request tells its deal, by the deals that were shown and by what was said to have happened alike;
and the listener was told as many notices as the updates count. -/
theorem observer_misses_nothing {observer : Observer} (hready : observer.Ready) (mark : Instant)
    (uses : List Use) :
    let run := (start observer mark).useAll uses
    run.2.observer.listeners.map Observer.name = observer.listeners.map Observer.name ∧
      ∀ listener ∈ run.2.observer.listeners,
        ((listener.told.filter fun notice => notice.occurrence = .published).map fun notice =>
          notice.deal.id) = run.2.ledger.ids ∧
        (∀ id, Accounts (listener.told.filter fun notice => notice.deal.id = id)
          (run.2.ledger.find? id)) ∧
        listener.told.length = (run.1.map fun entry => entry.2.changes).sum := by
  refine ⟨names_useAll hready mark uses, fun listener hm => ?_⟩
  rw [told_useAll hready mark uses hm]
  refine ⟨?_, fun id => ?_, Log.length_notices _⟩
  · exact ((Reachable.start observer mark).tells_useAll uses).telling.ids_eq.symm
  · exact (thread_useAll observer mark uses id).accounts

theorem observer_misses_nothing_sampleUses :
    roughPanel.Ready ∧
      (((start roughPanel default).useAll sampleUses).1.map fun entry => entry.2.changes)
        = [5, 0] ∧
      ∀ listener ∈ ((start roughPanel default).useAll sampleUses).2.observer.listeners,
        listener.told.length = 5 ∧
        Accounts (listener.told.filter fun notice =>
            notice.deal.id = (Ledger.sampleRequest 1 2 500).id)
          (((start roughPanel default).useAll sampleUses).2.ledger.find?
            (Ledger.sampleRequest 1 2 500).id) := by
  have hchanges : (((start roughPanel default).useAll sampleUses).1.map fun entry =>
      entry.2.changes) = [5, 0] := by cbv
  refine ⟨ready_roughPanel, hchanges, fun listener hm => ?_⟩
  obtain ⟨_, haccounts, hlength⟩ :=
    (observer_misses_nothing ready_roughPanel default sampleUses).2 listener hm
  rw [hchanges] at hlength
  exact ⟨hlength, haccounts _⟩

end Tracker

end StorageMarket
