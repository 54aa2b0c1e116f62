import StorageMarket.Proofs.Audit.Review
import StorageMarket.Proofs.Tracker.Pace
import StorageMarket.Proofs.Tracker.StepSize

/-!
# Reports describe their reference block

A report is written when the first block of a later period is replayed, often by a later
update than the block that it refers to. By then some of the deals that ran right after that
block may have finished, as blocks in between or the end of an update came past their time.
Over a recording whose times are outside of leap seconds, blocks are replayed in the order
of their times, and then the reports of a run are those of a review of its scenes: they are
about just the deals that ran right after the last block before.
-/

namespace StorageMarket

/-- A step, and the tracker that it was made from. -/
structure Leg extends Step where
  before : Tracker

namespace Leg

def blocks (leg : Leg) : List Block := leg.told.blocks

def reports (leg : Leg) : List Report := leg.outcome.reports

/-- The blocks that were replayed, each with the deals right after it. -/
def scenes (leg : Leg) : List Scene := leg.before.ledger.scenes leg.blocks

end Leg

namespace Tracker

variable {σ : Type}

/-- Updates a tracker to a target, and remembers how it stood before. -/
def walk (source : Source σ) (oracle : Oracle σ) (target : Instant) :
    EStateM UpdateError (σ × Tracker) Leg := do
  let (_, before) ← get
  let (window, told) ← gather source target
  let outcome ← replay oracle window told
  return ⟨⟨told, outcome⟩, before⟩

/-- The tracker that is remembered is the one that the update starts from. -/
theorem walk_eq (source : Source σ) (oracle : Oracle σ) :
    walk source oracle = fun target state => (do
      let (window, told) ← gather source target
      let outcome ← replay oracle window told
      return ⟨⟨told, outcome⟩, state.2⟩ : EStateM UpdateError (σ × Tracker) Leg) state := rfl

theorem toStep_walk (source : Source σ) (oracle : Oracle σ) (targets : List Instant) :
    List.map Leg.toStep <$> targets.mapM (walk source oracle) = advance source oracle targets := by
  induction targets with
  | nil => rfl
  | cons target targets ih =>
      rw [advance, ← ih, List.mapM_cons]
      funext state
      show (List.map Leg.toStep <$> _ : EStateM UpdateError (σ × Tracker) (List Step)) state = _
      simp only [walk, map_bind, bind_assoc, bind_map_left, map_pure, pure_bind, List.map_cons]
      rfl

/-- Over an archive, a leg replays what is told of the recording from the mark to the target. -/
theorem walk_archive_eq_ok {archive : Archive} (h : archive.recording.InOrder) {oracle : Oracle σ}
    {target : Instant} {world : σ} {tracker : Tracker} {leg : Leg} {state : σ × Tracker}
    (hok : walk (archive.source σ) oracle target (world, tracker) = .ok leg state) :
    ∃ window, replay oracle window leg.told (world, tracker) = .ok leg.outcome state ∧
      leg.before = tracker := by
  rw [walk_eq, state_bind_eq_ok] at hok
  obtain ⟨⟨window, told⟩, gathered, hgather, hok⟩ := hok
  obtain ⟨outcome, replayed, hreplay, hok⟩ := state_bind_eq_ok.1 hok
  cases hok
  obtain ⟨_, _, _, rfl⟩ := gather_archive_eq_ok h hgather
  exact ⟨window, hreplay, rfl⟩

/-! ## Without the ends of updates -/

section

variable {tracker : Tracker} {stop : Instant} {told : Chronicle} {blocks : List Block}
  (hlater : ∀ block ∈ blocks, stop < block.time)
include hlater

/-- After an update, later blocks leave what they would leave if it had not ended. -/
theorem scenes_moved (latestBlock : Option BlockNumber) (cursor : Option Cursor)
    (reports : List Report) :
    (tracker.moved stop latestBlock (tracker.changesTo stop told) cursor reports).ledger.scenes
        blocks
      = (tracker.ledger.changeAll (told.blocks.flatMap Block.changes)).2.scenes blocks := by
  show ((tracker.ledger.changeAll (tracker.changesTo stop told)).2.scenes blocks) = _
  rw [changesTo_eq, Ledger.changeAll_append, Ledger.scenes_closing _ hlater]

theorem Settled.watchAll_moved (h : tracker.Settled) {oracle : Oracle σ} {cursor : Option Cursor}
    {reports : List Report} {world world' : σ}
    (hwatch : Audit.watchAll oracle tracker.audit (tracker.audit.bind Audit.cursor)
      (tracker.ledger.sights told.blocks) world = .ok (cursor, reports) world')
    (latestBlock : Option BlockNumber) :
    let after := tracker.moved stop latestBlock (tracker.changesTo stop told) cursor reports
    Audit.watchAll oracle after.audit (after.audit.bind Audit.cursor) (after.ledger.sights blocks)
      = Audit.watchAll oracle tracker.audit cursor
        ((tracker.ledger.changeAll (told.blocks.flatMap Block.changes)).2.sights blocks) := by
  have hsound := Ledger.closed_sound.changeAll h.sound (told.blocks.flatMap Block.changes)
  simp only [moved]
  rw [Audit.cursor_commit hwatch, Audit.watchAll_commit, changesTo_eq, Ledger.changeAll_append,
    hsound.watchAll_closing hlater]

end

/-- The ends of updates make no difference to what blocks leave, and none to the reports. -/
theorem Settled.absorbs_walk {archive : Archive} (h : archive.recording.InOrder)
    {oracle : Oracle σ} {targets : List Instant} {tracker : Tracker} (hsettled : tracker.Settled)
    {world : σ} {legs : List Leg} {last : σ × Tracker}
    (hrun : targets.mapM (walk (archive.source σ) oracle) (world, tracker) = .ok legs last)
    (hpaced : Paced tracker.mark (legs.map Leg.toStep)) :
    legs.flatMap Leg.scenes = tracker.ledger.scenes (legs.flatMap Leg.blocks) ∧
      ∃ cursor, Audit.watchAll oracle tracker.audit (tracker.audit.bind Audit.cursor)
        (tracker.ledger.sights (legs.flatMap Leg.blocks)) world
          = .ok (cursor, legs.flatMap Leg.reports) last.1 := by
  induction targets generalizing tracker world legs with
  | nil =>
      cases hrun
      exact ⟨rfl, _, rfl⟩
  | cons target targets ih =>
      obtain ⟨leg, between, rest, hfirst, hrest, rfl⟩ := mapM_cons_eq_ok.1 hrun
      obtain ⟨window, hreplay, hbefore⟩ := walk_archive_eq_ok h hfirst
      have hsettled' := hsettled.replay_ok hreplay
      obtain ⟨_, cursor, reports, world', hwatch, houtcome, rfl⟩ := hsettled.replay_eq_ok.1 hreplay
      obtain ⟨_, _, hpaced⟩ := hpaced
      have hstop : leg.outcome.window.stop = window.stop := by rw [houtcome]
      have hreports : leg.reports = reports := by rw [Leg.reports, houtcome]
      rw [hstop] at hpaced
      obtain ⟨hscenes, next, hothers⟩ := ih hsettled' hrest hpaced
      -- the blocks of the rest come after the target, so that the tick there is absorbed
      have hlater : ∀ block ∈ rest.flatMap Leg.blocks, window.stop < block.time := by
        intro block hm
        obtain ⟨other, hother, hm⟩ := List.mem_flatMap.1 hm
        exact hpaced.after (List.mem_map_of_mem hother) hm
      rw [scenes_moved hlater] at hscenes
      rw [hsettled.watchAll_moved hlater hwatch] at hothers
      rw [List.flatMap_cons, List.flatMap_cons, List.flatMap_cons, Ledger.scenes_append,
        Ledger.sights_append, hreports, Leg.scenes, hbefore, hscenes]
      refine ⟨rfl, next, Audit.watchAll_append_eq_ok.2 ?_⟩
      exact ⟨cursor, reports, world', _, hwatch, hothers, rfl⟩

/-- Over a recording whose times are all outside of leap seconds, the reports of a run are those of
a review of its scenes, from the same answers to the same questions. Each of them refers to a
block and is about just the deals that run right after it; the next block that is replayed shows
that the period of the report is over. -/
theorem reports_describe_reference_block {recording : Recording} {archive : Archive}
    (harchive : Archive.ofRecording recording = .ok archive)
    (hregular : ∀ stamp ∈ recording.blocks, stamp.time.Regular) {oracle : Oracle σ}
    {observer : Observer} {mark : Instant} {maxClosed : UInt64} {targets : List Instant}
    {world : σ} {legs : List Leg} {last : σ × Tracker}
    (hrun : targets.mapM (walk (archive.source σ) oracle)
      (world, (start observer mark).withAudit (.new maxClosed)) = .ok legs last) :
    targets.mapM (update (archive.source σ) oracle)
        (world, (start observer mark).withAudit (.new maxClosed))
      = .ok (legs.map fun leg => leg.outcome) last ∧
    Audit.review oracle (Audit.new maxClosed).maxClosed none (legs.flatMap Leg.scenes) world
      = .ok (legs.flatMap Leg.reports) last.1 ∧
    ∀ report ∈ legs.flatMap Leg.reports, ∃ earlier scene next later,
      legs.flatMap Leg.scenes = earlier ++ scene :: next :: later ∧
      report.referenceBlock = scene.1.number ∧
      Audit.Describes oracle report scene.1.number scene.running ∧
      Audit.Ends oracle report.period next.1 := by
  obtain ⟨rfl, h⟩ := Archive.ofRecording_ok harchive
  have hsettled : ((start observer mark).withAudit (.new maxClosed)).Settled :=
    ((Reachable.start observer mark).withAudit _).settled
  have hadvance : advance (archive.source σ) oracle targets
      (world, (start observer mark).withAudit (.new maxClosed))
        = .ok (legs.map Leg.toStep) last := by
    rw [← toStep_walk]
    exact state_map_of_ok (List.map Leg.toStep) hrun
  have hpaced := paced_advance h hregular hadvance
  have hsorted := hpaced.sorted
  rw [List.flatMap_map] at hsorted
  obtain ⟨hscenes, cursor, hwatch⟩ := hsettled.absorbs_walk h hrun hpaced
  have hrecalls : Audit.Recalls none none Ledger.empty := .nothing rfl
  have hreview : Audit.review oracle (Audit.new maxClosed).maxClosed none
      (legs.flatMap Leg.scenes) world = .ok (legs.flatMap Leg.reports) last.1 := by
    have hsame := hrecalls.watchAll_eq_review Ledger.Sound.empty hsorted (fun _ hm => nomatch hm)
      oracle (.new maxClosed)
    rw [hscenes]
    exact (congrFun hsame.symm world).trans (state_map_of_ok Prod.snd hwatch)
  refine ⟨?_, hreview, fun report hm => ?_⟩
  · rw [← outcome_advance, state_map_of_ok _ hadvance, List.map_map]
    rfl
  · rcases Audit.describes_of_review hreview hm with
      ⟨_, hnone, _⟩ | ⟨earlier, scene, next, later, heq, hdescribes, hends⟩
    · exact nomatch hnone
    · refine ⟨earlier, scene, next, later, heq, ?_, hdescribes, hends⟩
      obtain ⟨answers, _, _, _, hreport⟩ := hdescribes
      rw [hreport]
      rfl

def slotsRunning (scene : Scene) : Nat :=
  (scene.running.map fun deal => deal.request.terms.slots.toNat).sum

/-- Of a run that went well: for each report the block that it refers to and the slots that it has
examined, and for each scene its block and the slots of the deals that run. -/
def slotsOf : EStateM.Result UpdateError (Unit × Tracker) (List Leg) →
    Option (List (BlockNumber × Nat) × List (BlockNumber × Nat))
  | .error _ _ => none
  | .ok legs _ => some
      ((legs.flatMap Leg.reports).map fun report => (report.referenceBlock, report.totalSlots),
        (legs.flatMap Leg.scenes).map fun scene => (scene.1.number, slotsRunning scene))

theorem reports_describe_reference_block_steadyArchive :
    Archive.ofRecording steadyRecording = .ok steadyArchive ∧
      (∀ stamp ∈ steadyRecording.blocks, stamp.time.Regular) ∧
      slotsOf ((steadyStops ++ [steadyEnd]).mapM
          (walk (steadyArchive.source Unit) (steadyArchive.oracle Unit)) ((), steadyTracker))
        = some ([(3, 2)], [(2, 2), (3, 2), (4, 0), (5, 0)]) ∧
      ∃ legs last, (steadyStops ++ [steadyEnd]).mapM
          (walk (steadyArchive.source Unit) (steadyArchive.oracle Unit)) ((), steadyTracker)
            = .ok legs last ∧
        ∀ report ∈ legs.flatMap Leg.reports, ∃ earlier scene next later,
          legs.flatMap Leg.scenes = earlier ++ scene :: next :: later ∧
          report.referenceBlock = scene.1.number ∧
          Audit.Describes (steadyArchive.oracle Unit) report scene.1.number scene.running ∧
          Audit.Ends (steadyArchive.oracle Unit) report.period next.1 := by
  have harchive : Archive.ofRecording steadyRecording = .ok steadyArchive := rfl
  have hregular : ∀ stamp ∈ steadyRecording.blocks, stamp.time.Regular := by decide
  have hslots : slotsOf ((steadyStops ++ [steadyEnd]).mapM
      (walk (steadyArchive.source Unit) (steadyArchive.oracle Unit)) ((), steadyTracker))
        = some ([(3, 2)], [(2, 2), (3, 2), (4, 0), (5, 0)]) := by
    rw [walk_eq]
    cbv
  refine ⟨harchive, hregular, hslots, ?_⟩
  cases hrun : (steadyStops ++ [steadyEnd]).mapM
      (walk (steadyArchive.source Unit) (steadyArchive.oracle Unit)) ((), steadyTracker) with
  | error e state =>
      rw [hrun] at hslots
      cases hslots
  | ok legs last =>
      obtain ⟨_, _, hreports⟩ := reports_describe_reference_block harchive hregular hrun
      exact ⟨legs, last, rfl, hreports⟩

/-! ## A night with a leap second -/

/-- The last recorded block but one is inside a leap second. The deal of the first two blocks ends
right after that second, at midnight. -/
def midnightRecording : Recording where
  periodSeconds := 7
  blocks := [⟨0, ⟨1483228797, 0, by decide⟩⟩, ⟨1, ⟨1483228798, 0, by decide⟩⟩,
    ⟨2, ⟨1483228799, 0, by decide⟩⟩, ⟨5, ⟨1483228799, 1999000000, by decide⟩⟩,
    ⟨6, ⟨1483228805, 0, by decide⟩⟩]
  events := [.published ⟨0, Ledger.sampleRequest 1 2 3⟩,
    .fulfilled ⟨1, (Ledger.sampleRequest 1 2 3).id⟩]
  proofs := []

def midnightArchive : Archive :=
  ⟨midnightRecording, ⟨⟨1483228797, 0, by decide⟩, ⟨1483228805, 0, by decide⟩, by decide⟩⟩

def midnightTracker : Tracker := (start .silent ⟨1483228740, 0, by decide⟩).withAudit (.new 3)

/-- Stops at all recorded blocks but the third. -/
def midnightStops : List Instant :=
  [⟨1483228797, 0, by decide⟩, ⟨1483228798, 0, by decide⟩, ⟨1483228799, 1999000000, by decide⟩,
    ⟨1483228805, 0, by decide⟩]

/-- The fourth block is told after midnight, and the fifth one before. So the deal has finished when
the fifth block is replayed, and the report that refers to it examines the two slots of the
deal all the same. -/
theorem finished_deals_are_examined_midnightRecording :
    Archive.ofRecording midnightRecording = .ok midnightArchive ∧
      slotsOf (midnightStops.mapM
          (walk (midnightArchive.source Unit) (midnightArchive.oracle Unit)) ((), midnightTracker))
        = some ([(5, 2)], [(0, 0), (1, 2), (2, 2), (3, 2), (4, 0), (5, 0), (6, 0)]) := by
  constructor
  · rfl
  · decide +kernel

end Tracker

end StorageMarket
