import StorageMarket.Proofs.Archive.Oracle
import StorageMarket.Proofs.Replay.Acceptance
import StorageMarket.Proofs.Tracker.Advance
import StorageMarket.Proofs.Tracker.Failures
import StorageMarket.Proofs.Tracker.Replay

/-!
# When an update over a recording succeeds

Over an archive an update that does not go back finds what it asks for: there is an answer
for every window, and each answer makes a chronicle. What is left to fail is the replay.
It fails exactly if a request is published that the ledger has, or one is published twice,
or if there is an audit and some block is told before 1970, where there are no proof
periods.
-/

namespace StorageMarket

def Recording.publishedBetween (recording : Recording) (start stop : Instant) : List RequestId :=
  (recording.eventsBetween start stop).filterMap Event.publishes?

/-- A chronicle of a window publishes what is recorded for the window. -/
theorem Archive.Tells.published_perm {archive : Archive} {window : Window} {told : Chronicle}
    (h : archive.Tells window told) :
    (told.events.filterMap Event.publishes?).Perm
      (archive.recording.publishedBetween window.start window.stop) := by
  rw [h.events]
  exact (List.mergeSort_perm _ _).filterMap _

namespace Tracker

variable {σ : Type} {tracker : Tracker} {archive : Archive}

/-- The changes of a replay are accepted if what it publishes is new. -/
theorem accepts_changesTo {target : Instant} {told : Chronicle} (h : told.Orderly) :
    tracker.ledger.Accepts (tracker.changesTo target told) ↔
      (∀ id ∈ told.events.filterMap Event.publishes?, id ∉ tracker.ledger.ids) ∧
        (told.events.filterMap Event.publishes?).Nodup := by
  rw [Ledger.accepts_iff, changesTo, Replay.filterMap_changesUpTo, h.flatMap_events_blocks]

/-- A replay over an archive succeeds if its changes are accepted and the audit can see all of its
blocks. -/
theorem Settled.exists_replay_ok (h : tracker.Settled) (archive : Archive) (window : Window)
    (told : Chronicle) (world : σ) :
    (∃ outcome state, replay (archive.oracle σ) window told (world, tracker) = .ok outcome state) ↔
      tracker.ledger.Accepts (tracker.changesTo window.stop told) ∧
        (tracker.audit.isSome = true → ∀ block ∈ told.blocks, .epoch ≤ block.time) := by
  have hwatch := archive.exists_watchAll_ok tracker.audit (tracker.audit.bind Audit.cursor)
    (tracker.ledger.sights told.blocks) world
  rw [Ledger.map_fst_sights] at hwatch
  rw [← hwatch]
  constructor
  · rintro ⟨outcome, state, hok⟩
    obtain ⟨haccepts, cursor, reports, world', hall, _⟩ := h.replay_eq_ok.1 hok
    exact ⟨haccepts, ⟨cursor, reports⟩, world', hall⟩
  · rintro ⟨haccepts, ⟨cursor, reports⟩, world', hall⟩
    exact ⟨_, _, h.replay_eq_ok.2 ⟨haccepts, cursor, reports, world', hall, rfl, rfl⟩⟩

/-- What an update over an archive is told, and what it takes to replay that. -/
theorem Settled.exists_update_ok (h : tracker.Settled) (hinOrder : archive.recording.InOrder)
    {target : Instant} (hle : tracker.mark ≤ target) (world : σ) :
    ∃ batch told, archive.eventsIn ⟨tracker.mark, target, hle⟩ = .ok batch ∧
      Chronicle.ofBatch batch (some tracker.mark) = .ok told ∧
      ((∃ outcome state, Tracker.update (archive.source σ) (archive.oracle σ) target
          (world, tracker) = .ok outcome state) ↔
        ((∀ id ∈ archive.recording.publishedBetween tracker.mark target,
            id ∉ tracker.ledger.ids) ∧
          (archive.recording.publishedBetween tracker.mark target).Nodup) ∧
        (tracker.audit.isSome = true → ∀ block ∈ told.blocks, .epoch ≤ block.time)) := by
  obtain ⟨batch, told, hbatch, htold, htells⟩ :=
    Archive.tells_of_eventsIn hinOrder ⟨tracker.mark, target, hle⟩
  have hgather := gather_of_eventsIn hle hbatch htold world
  have hpublished := htells.published_perm
  refine ⟨batch, told, hbatch, htold, ?_⟩
  rw [(update_of_gather hgather (archive.oracle σ)).2, h.exists_replay_ok,
    accepts_changesTo htells.orderly, hpublished.nodup_iff]
  simp only [hpublished.mem_iff]

/-- Over an archive an update fails because it would go back, or as a replay does. -/
theorem update_archive_error (h : archive.recording.InOrder) {oracle : Oracle σ} {target : Instant}
    {world : σ} {e : UpdateError} {state : σ × Tracker}
    (hfail : update (archive.source σ) oracle target (world, tracker) = .error e state) :
    (target < tracker.mark ∧ e = .notAdvancing target tracker.mark) ∨ Replay.IsFault e := by
  rcases update_error hfail with ⟨world', hgather⟩ | hfault
  · by_cases hlt : target < tracker.mark
    · rw [gather, dif_pos hlt] at hgather
      cases hgather
      exact .inl ⟨hlt, rfl⟩
    · obtain ⟨told, _, hok⟩ := gather_archive (σ := σ) h (Instant.not_lt.1 hlt)
      rw [hok world tracker rfl] at hgather
      cases hgather
  · exact .inr hfault

/-- An update of a reachable tracker over a recording succeeds if and only if its target does not
lie before the mark, the requests that are published in between are none that the ledger has and
differ from each other, and, if there is an audit, no block of the chronicle of that window is told
before 1970. There always is such a chronicle, and an update that fails does so because it would
go back, because of a request that is published twice, or because the oracle is at a loss: never
because nothing is answered, or because what is answered makes no chronicle. -/
theorem update_succeeds_exactly {recording : Recording} {archive : Archive}
    (harchive : Archive.ofRecording recording = .ok archive) {tracker : Tracker}
    (hreachable : tracker.Reachable) (target : Instant) (world : σ) :
    ((∃ outcome state, update (archive.source σ) (archive.oracle σ) target (world, tracker)
        = .ok outcome state) ↔
      ∃ hle : tracker.mark ≤ target,
        (∀ id ∈ recording.publishedBetween tracker.mark target, id ∉ tracker.ledger.ids) ∧
        (recording.publishedBetween tracker.mark target).Nodup ∧
        ∃ batch told, archive.eventsIn ⟨tracker.mark, target, hle⟩ = .ok batch ∧
          Chronicle.ofBatch batch (some tracker.mark) = .ok told ∧
          (tracker.audit.isSome = true → ∀ block ∈ told.blocks, .epoch ≤ block.time)) ∧
    (∀ hle : tracker.mark ≤ target, ∃ batch told,
      archive.eventsIn ⟨tracker.mark, target, hle⟩ = .ok batch ∧
      Chronicle.ofBatch batch (some tracker.mark) = .ok told) ∧
    ∀ e state, update (archive.source σ) (archive.oracle σ) target (world, tracker)
        = .error e state →
      (target < tracker.mark ∧ e = .notAdvancing target tracker.mark) ∨
      (∃ fault, e = .duplicate fault) ∨ ∃ error, e = .oracle error := by
  obtain ⟨rfl, hinOrder⟩ := Archive.ofRecording_ok harchive
  refine ⟨?_, ?_, ?_⟩
  · constructor
    · rintro ⟨outcome, state, hok⟩
      have hle := mark_le_of_update hok
      obtain ⟨batch, told, hbatch, htold, hiff⟩ :=
        hreachable.settled.exists_update_ok hinOrder hle world
      obtain ⟨⟨hnew, hdistinct⟩, htimes⟩ := hiff.1 ⟨outcome, state, hok⟩
      exact ⟨hle, hnew, hdistinct, batch, told, hbatch, htold, htimes⟩
    · rintro ⟨hle, hnew, hdistinct, batch, told, hbatch, htold, htimes⟩
      obtain ⟨batch', told', hbatch', htold', hiff⟩ :=
        hreachable.settled.exists_update_ok hinOrder hle world
      rw [hbatch] at hbatch'
      cases hbatch'
      rw [htold] at htold'
      cases htold'
      exact hiff.2 ⟨⟨hnew, hdistinct⟩, htimes⟩
  · intro hle
    obtain ⟨batch, told, hbatch, htold, _⟩ :=
      hreachable.settled.exists_update_ok hinOrder hle world
    exact ⟨batch, told, hbatch, htold⟩
  · intro e state hfail
    exact update_archive_error hinOrder hfail

/-- Three blocks, the second of them before 1970 and the third one after, with a request published
in each of these two. -/
def turnRecording : Recording where
  periodSeconds := 60
  blocks := [⟨1, ⟨-3030, 0, by decide⟩⟩, ⟨2, ⟨-3010, 0, by decide⟩⟩, ⟨6, ⟨3030, 0, by decide⟩⟩]
  events := [.published ⟨6, Ledger.sampleRequest 8 1 50⟩,
    .published ⟨2, Ledger.sampleRequest 7 1 50⟩]
  proofs := []

def turnArchive : Archive :=
  ⟨turnRecording, ⟨⟨-3030, 0, by decide⟩, ⟨3030, 0, by decide⟩, by decide⟩⟩

/-- A tracker that starts between the first and the second block. -/
def turnTracker : Tracker := start .silent ⟨-3020, 0, by decide⟩

/-- When the first block of a window is told. -/
def firstTold? (archive : Archive) (window : Window) : Option Instant :=
  match archive.eventsIn window with
  | .error _ => none
  | .ok batch =>
      match Chronicle.ofBatch batch (some window.start) with
      | .error _ => none
      | .ok told => told.blocks.head?.map Block.time

/-- Without an audit the tracker comes to the last block and with one it does not. -/
theorem update_succeeds_exactly_turnRecording :
    Archive.ofRecording turnRecording = .ok turnArchive ∧
      turnTracker.Reachable ∧ (turnTracker.withAudit (.new 3)).Reachable ∧
      (∃ outcome state, update (turnArchive.source Unit) (turnArchive.oracle Unit)
        ⟨3030, 0, by decide⟩ ((), turnTracker) = .ok outcome state) ∧
      ¬ ∃ outcome state, update (turnArchive.source Unit) (turnArchive.oracle Unit)
        ⟨3030, 0, by decide⟩ ((), turnTracker.withAudit (.new 3)) = .ok outcome state := by
  have harchive : Archive.ofRecording turnRecording = .ok turnArchive := rfl
  have hreachable : turnTracker.Reachable := Reachable.start _ _
  have hreachable' : (turnTracker.withAudit (.new 3)).Reachable := hreachable.withAudit _
  obtain ⟨hsucceeds, hanswers, _⟩ :=
    update_succeeds_exactly harchive hreachable ⟨3030, 0, by decide⟩ ()
  obtain ⟨hsucceeds', _, _⟩ :=
    update_succeeds_exactly harchive hreachable' ⟨3030, 0, by decide⟩ ()
  refine ⟨harchive, hreachable, hreachable', hsucceeds.2 ?_, fun hok => ?_⟩
  · have hle : turnTracker.mark ≤ ⟨3030, 0, by decide⟩ := by decide
    obtain ⟨batch, told, hbatch, htold⟩ := hanswers hle
    refine ⟨hle, by decide, by decide, batch, told, hbatch, htold, fun haudit => ?_⟩
    cases haudit
  · obtain ⟨hle, _, _, batch, told, hbatch, htold, htimes⟩ := hsucceeds'.1 hok
    have hbatch : turnArchive.eventsIn
        ⟨⟨-3020, 0, by decide⟩, ⟨3030, 0, by decide⟩, by decide⟩ = .ok batch := hbatch
    have htold : Chronicle.ofBatch batch (some ⟨-3020, 0, by decide⟩) = .ok told := htold
    have hearly : firstTold? turnArchive
        ⟨⟨-3020, 0, by decide⟩, ⟨3030, 0, by decide⟩, by decide⟩
          = some ⟨-3010, 0, by decide⟩ := by decide +kernel
    rw [firstTold?, hbatch] at hearly
    dsimp only at hearly
    rw [htold] at hearly
    obtain ⟨block, hfirst, htime⟩ := Option.map_eq_some_iff.1 hearly
    have hepoch := htimes rfl block (List.mem_of_head? hfirst)
    rw [htime] at hepoch
    revert hepoch
    decide

end Tracker

end StorageMarket
