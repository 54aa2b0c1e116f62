import StorageMarket.Proofs.Tracker.EachEventOnce
import StorageMarket.Proofs.Tracker.StepSize

/-!
# The future does not influence the past

Two recordings may agree up to a moment and differ in any way after it. No update up to
that moment can tell them apart: it succeeds or fails in the same way, tells and reports
the same, and leaves the same tracker.

For a window that ends by that moment both have the same blocks, and so the same first
and last one, from which the times of those between are estimated. They have the same
events there too, although in the lists events of later blocks may stand anywhere
between them.
-/

namespace StorageMarket

namespace Recording

/-- The recordings answer alike for periods and proofs, and have the same blocks up to a moment
and the same events in these blocks, in the same order. -/
structure AgreeUpTo (recording other : Recording) (moment : Instant) : Prop where
  period : recording.periodSeconds = other.periodSeconds
  proofs : recording.proofs = other.proofs
  blocks : (recording.blocks.filter fun block => block.time ≤ moment)
    = other.blocks.filter fun block => block.time ≤ moment
  events : recording.events.filter (recording.isBy moment)
    = other.events.filter (other.isBy moment)

namespace AgreeUpTo

variable {recording other : Recording} {moment : Instant} (h : recording.AgreeUpTo other moment)
include h

theorem filter_blocks {start stop : Instant} (hstop : stop ≤ moment) :
    (recording.blocks.filter fun block => start < block.time ∧ block.time ≤ stop)
      = other.blocks.filter fun block => start < block.time ∧ block.time ≤ stop := by
  have hearly (block : BlockStamp)
      (hin : decide (start < block.time ∧ block.time ≤ stop) = true) :
      decide (block.time ≤ moment) = true := by
    rw [decide_eq_true_iff] at hin ⊢
    exact Instant.le_trans hin.2 hstop
  rw [← filter_filter_of_imp hearly, h.blocks, filter_filter_of_imp hearly]

theorem timeOf?_eq (hrecording : recording.InOrder) (hother : other.InOrder) {event : Event}
    (hevent : event ∈ other.events) (hby : other.isBy moment event = true) :
    recording.timeOf? event.block = other.timeOf? event.block := by
  obtain ⟨block, hm, hblock⟩ := hother.known event hevent
  rw [isBy, ← hblock, hother.timeOf?_of_mem hm, Option.any_some] at hby
  have hboth : block ∈ recording.blocks := by
    have hearly : block ∈ other.blocks.filter fun block => block.time ≤ moment :=
      List.mem_filter.2 ⟨hm, hby⟩
    rw [← h.blocks] at hearly
    exact (List.mem_filter.1 hearly).1
  rw [← hblock, hother.timeOf?_of_mem hm, hrecording.timeOf?_of_mem hboth]

theorem eventsBetween_eq (hrecording : recording.InOrder) (hother : other.InOrder)
    {start stop : Instant} (hstop : stop ≤ moment) :
    recording.eventsBetween start stop = other.eventsBetween start stop := by
  have hearly (recording : Recording) (event : Event)
      (hin : ((recording.timeOf? event.block).any fun time => start < time ∧ time ≤ stop) = true) :
      recording.isBy moment event = true := by
    rw [isBy]
    cases htime : recording.timeOf? event.block with
    | none =>
        rw [htime] at hin
        exact hin
    | some time =>
        rw [htime, Option.any_some, decide_eq_true_iff] at hin
        rw [Option.any_some, decide_eq_true_iff]
        exact Instant.le_trans hin.2 hstop
  rw [eventsBetween, eventsBetween, ← filter_filter_of_imp (hearly recording), h.events,
    ← filter_filter_of_imp (hearly other)]
  refine List.filter_congr fun event hevent => ?_
  rw [List.mem_filter] at hevent
  rw [h.timeOf?_eq hrecording hother hevent.1 hevent.2]

end AgreeUpTo

end Recording

namespace Archive

variable {archive other : Archive} {moment : Instant}

/-- For a window that ends by the moment, the archives of such recordings give one answer. -/
theorem eventsIn_eq_of_agreeUpTo (hinOrder : archive.recording.InOrder)
    (hother : other.recording.InOrder) (h : archive.recording.AgreeUpTo other.recording moment)
    {window : Window} (hstop : window.stop ≤ moment) :
    archive.eventsIn window = other.eventsIn window := by
  have hblocks : archive.blocksIn window = other.blocksIn window := by
    rw [blocksIn_eq_filter hinOrder, blocksIn_eq_filter hother, h.filter_blocks hstop]
  have hevents : archive.recording.eventsBetween window.start window.stop
      = other.recording.eventsBetween window.start window.stop :=
    h.eventsBetween_eq hinOrder hother hstop
  obtain ⟨stretch, hstretch, hanswer⟩ := exists_eventsIn hinOrder window
  obtain ⟨stretch', hstretch', hanswer'⟩ := exists_eventsIn hother window
  rw [← hblocks] at hstretch'
  rw [hanswer, hanswer', hevents, hstretch.unique hstretch']

/-- What is asked of them about periods and proofs has the same answers, too. -/
theorem oracle_eq_of_agreeUpTo (h : archive.recording.AgreeUpTo other.recording moment)
    (σ : Type) : archive.oracle σ = other.oracle σ := by
  have hperiod : archive.periodOf = other.periodOf := by
    funext time
    rw [periodOf, periodOf, h.period]
  have hproofs : archive.proofStatus = other.proofStatus := by
    funext id slot period
    rw [proofStatus, proofStatus, h.proofs]
  rw [oracle, oracle, hperiod, hproofs]

end Archive

namespace Tracker

variable {σ : Type}

/-- Makes one update after the other, also after one has failed: what comes of each, with the state
that it leaves. -/
def tryAll (source : Source σ) (oracle : Oracle σ) :
    List Instant → σ × Tracker → List (EStateM.Result UpdateError (σ × Tracker) Outcome)
  | [], _ => []
  | target :: targets, state =>
      match update source oracle target state with
      | .ok outcome after => .ok outcome after :: tryAll source oracle targets after
      | .error e after => .error e after :: tryAll source oracle targets after

/-- All that an update asks a source for is a window that ends at the target. -/
theorem update_congr {source other : Source σ} {target : Instant}
    (h : ∀ window : Window, window.stop = target → source.fetch window = other.fetch window)
    (oracle : Oracle σ) (state : σ × Tracker) :
    update source oracle target state = update other oracle target state := by
  have hgather : gather source target state = gather other target state := by
    rw [gather, gather]
    split
    · rfl
    · dsimp only
      rw [h _ rfl]
  show EStateM.bind (gather source target) _ state = EStateM.bind (gather other target) _ state
  rw [EStateM.bind, EStateM.bind, hgather]

theorem tryAll_congr {source other : Source σ} {targets : List Instant}
    (h : ∀ window : Window, window.stop ∈ targets → source.fetch window = other.fetch window)
    (oracle : Oracle σ) (state : σ × Tracker) :
    tryAll source oracle targets state = tryAll other oracle targets state := by
  induction targets generalizing state with
  | nil => rfl
  | cons target targets ih =>
      have hfirst : update source oracle target state = update other oracle target state :=
        update_congr (fun window hstop => h window (by rw [hstop]; exact List.mem_cons_self))
          oracle state
      have hrest := ih fun window hstop => h window (List.mem_cons_of_mem _ hstop)
      rw [tryAll, tryAll, hfirst]
      simp only [hrest]

/-- Over recordings that agree up to a moment, the updates of any tracker to targets up to that
moment come out the same: each with the same outcome or error, and each leaving the same tracker,
with the same ledger, observer and pending reports. -/
theorem future_does_not_influence_past {recording other : Recording} {archive archive' : Archive}
    (harchive : Archive.ofRecording recording = .ok archive)
    (harchive' : Archive.ofRecording other = .ok archive') {moment : Instant}
    (h : recording.AgreeUpTo other moment) (tracker : Tracker) {targets : List Instant}
    (htargets : ∀ target ∈ targets, target ≤ moment) (world : σ) :
    tryAll (archive.source σ) (archive.oracle σ) targets (world, tracker)
      = tryAll (archive'.source σ) (archive'.oracle σ) targets (world, tracker) := by
  obtain ⟨rfl, hinOrder⟩ := Archive.ofRecording_ok harchive
  obtain ⟨rfl, hinOrder'⟩ := Archive.ofRecording_ok harchive'
  rw [Archive.oracle_eq_of_agreeUpTo h]
  refine tryAll_congr (fun window hstop => ?_) _ _
  show Archive.ask (archive.eventsIn window) = Archive.ask (archive'.eventsIn window)
  rw [Archive.eventsIn_eq_of_agreeUpTo hinOrder hinOrder' h (htargets _ hstop)]

/-- A recording whose first two blocks are the past. -/
def longRecording : Recording where
  periodSeconds := 20
  blocks := [⟨1, ⟨4000, 0, by decide⟩⟩, ⟨2, ⟨4030, 0, by decide⟩⟩, ⟨4, ⟨4060, 0, by decide⟩⟩,
    ⟨5, ⟨4090, 0, by decide⟩⟩]
  events := [.fulfilled ⟨5, (Ledger.sampleRequest 4 2 10).id⟩,
    .published ⟨2, Ledger.sampleRequest 4 2 10⟩, .published ⟨4, Ledger.sampleRequest 5 1 10⟩,
    .fulfilled ⟨2, (Ledger.sampleRequest 4 2 10).id⟩]
  proofs := []

/-- Another one with the same past. -/
def shortRecording : Recording where
  periodSeconds := 20
  blocks := [⟨1, ⟨4000, 0, by decide⟩⟩, ⟨2, ⟨4030, 0, by decide⟩⟩, ⟨3, ⟨4070, 0, by decide⟩⟩]
  events := [.published ⟨2, Ledger.sampleRequest 4 2 10⟩,
    .fulfilled ⟨2, (Ledger.sampleRequest 4 2 10).id⟩,
    .published ⟨3, Ledger.sampleRequest 4 2 10⟩]
  proofs := []

def longArchive : Archive :=
  ⟨longRecording, ⟨⟨4000, 0, by decide⟩, ⟨4090, 0, by decide⟩, by decide⟩⟩

def shortArchive : Archive :=
  ⟨shortRecording, ⟨⟨4000, 0, by decide⟩, ⟨4070, 0, by decide⟩, by decide⟩⟩

def pastTracker : Tracker := (start .silent ⟨3990, 0, by decide⟩).withAudit (.new 3)

/-- Targets up to the last moment before the recordings differ; one goes back. -/
def pastTargets : List Instant :=
  [⟨4000, 0, by decide⟩, ⟨3995, 0, by decide⟩, ⟨4030, 0, by decide⟩, ⟨4059, 0, by decide⟩]

theorem future_does_not_influence_past_longArchive :
    Archive.ofRecording longRecording = .ok longArchive ∧
      Archive.ofRecording shortRecording = .ok shortArchive ∧
      longRecording.AgreeUpTo shortRecording ⟨4059, 0, by decide⟩ ∧
      (∀ target ∈ pastTargets, target ≤ ⟨4059, 0, by decide⟩) ∧
      (tryAll (longArchive.source Unit) (longArchive.oracle Unit) pastTargets
        ((), pastTracker)).map counts = [some (0, 0), none, some (2, 1), some (1, 0)] ∧
      tryAll (longArchive.source Unit) (longArchive.oracle Unit) pastTargets ((), pastTracker)
        = tryAll (shortArchive.source Unit) (shortArchive.oracle Unit) pastTargets
            ((), pastTracker) := by
  have hlong : Archive.ofRecording longRecording = .ok longArchive := rfl
  have hshort : Archive.ofRecording shortRecording = .ok shortArchive := rfl
  have hagree : longRecording.AgreeUpTo shortRecording ⟨4059, 0, by decide⟩ :=
    ⟨rfl, rfl, by decide, by decide⟩
  have htargets : ∀ target ∈ pastTargets, target ≤ ⟨4059, 0, by decide⟩ := by decide
  exact ⟨hlong, hshort, hagree, htargets, by cbv,
    future_does_not_influence_past hlong hshort hagree pastTracker htargets ()⟩

end Tracker

end StorageMarket
