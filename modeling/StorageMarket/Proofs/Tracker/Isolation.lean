import StorageMarket.Proofs.Ledger.Isolation
import StorageMarket.Proofs.Tracker.EachEventOnce
import StorageMarket.Proofs.Tracker.StepSize

/-!
# Requests do not influence each other

From a recording all events may be taken that are not about a given request. Its blocks
stay, so the same blocks are told with the same times, each with just those of its
events that are about the request, in their order. The changes of a replay are then
those that concern the request, and `Sound.isolated` says what follows for the deal of
the request and for the notices about it.

What is compared is a run of updates that all succeed. Without the other requests fewer
things can go wrong: a replay fails only if a request is published twice.
-/

namespace StorageMarket

/-! ## What is left of a recording -/

def Block.only (x : RequestId) (block : Block) : Block :=
  { block with events := block.events.filter fun event => event.request = x }

theorem Event.concerns_change (x : RequestId) (time : Instant) (event : Event) :
    (event.change time).concerns x = decide (event.request = x) := by
  cases event <;> rfl

/-- A block without the other events makes the changes that concern the request. -/
theorem Block.changes_only (x : RequestId) (block : Block) :
    (block.only x).changes = block.changes.filter (Change.concerns x) := by
  have hevents : (block.events.map (Event.change block.time)).filter (Change.concerns x)
      = (block.events.filter fun event => event.request = x).map (Event.change block.time) := by
    rw [List.filter_map]
    refine congrArg _ (List.filter_congr fun event _ => ?_)
    exact Event.concerns_change x block.time event
  rw [changes, changes, List.filter_cons_of_pos rfl, List.filter_append, hevents]
  rfl

namespace Recording

/-- The recording with those of its events that are about a request. -/
def only (x : RequestId) (recording : Recording) : Recording :=
  { recording with events := recording.events.filter fun event => event.request = x }

theorem InOrder.only {recording : Recording} (h : recording.InOrder) (x : RequestId) :
    (recording.only x).InOrder where
  period := h.period
  nonempty := h.nonempty
  ordered := h.ordered
  known e he := h.known e (List.mem_filter.1 he).1

theorem eventsBetween_only (recording : Recording) (x : RequestId) (start stop : Instant) :
    (recording.only x).eventsBetween start stop
      = (recording.eventsBetween start stop).filter fun event => event.request = x := by
  show (recording.events.filter _).filter _ = (recording.events.filter _).filter _
  rw [List.filter_filter, List.filter_filter]
  exact List.filter_congr fun event _ => Bool.and_comm ..

end Recording

namespace Archive.Tells

variable {archive alone : Archive} {x : RequestId} {window : Window} {told told' : Chronicle}
  (hrecording : alone.recording = archive.recording.only x)
  (h : archive.Tells window told) (h' : alone.Tells window told')
include hrecording h h'

theorem stretch_only : told'.stretch = told.stretch := by
  have hblocks : alone.blocksIn window = archive.blocksIn window := by
    rw [blocksIn, blocksIn, hrecording]
    rfl
  have hstretch : Stretches (archive.blocksIn window) told.stretch := h.stretch
  have hstretch' : Stretches (alone.blocksIn window) told'.stretch := h'.stretch
  rw [hblocks] at hstretch'
  exact hstretch'.unique hstretch

/-- Of its events those about the request are told, in the same order. -/
theorem events_only : told'.events = told.events.filter fun event => event.request = x := by
  rw [h'.events, h.events, hrecording, Recording.eventsBetween_only, Event.mergeSort_filter]

theorem blocks_only : told'.blocks = told.blocks.map (Block.only x) := by
  have hstretch := stretch_only hrecording h h'
  cases hs : told.stretch with
  | none =>
      rw [hs] at hstretch
      rw [Chronicle.blocks, Chronicle.blocks, hs, hstretch]
      rfl
  | some stretch =>
      rw [hs] at hstretch
      rw [h.orderly.blocks_eq_map hs, h'.orderly.blocks_eq_map hstretch, List.map_map,
        events_only hrecording h h']
      refine List.map_congr_left fun number _ => ?_
      show Chronicle.blockOf _ _ _ = Block.only x (Chronicle.blockOf _ _ _)
      rw [Chronicle.blockOf, Chronicle.blockOf, Block.only, List.filter_filter, List.filter_filter]
      simp only [Bool.and_comm]

/-- What remains to be done are the changes that concern the request. -/
theorem changesUpTo_only (target : Instant) (latestBlock : Option BlockNumber) :
    Replay.changesUpTo target latestBlock told'.blocks
      = (Replay.changesUpTo target latestBlock told.blocks).filter (Change.concerns x) := by
  have hclosing : (Replay.closing target latestBlock).filter (Change.concerns x)
      = Replay.closing target latestBlock := by
    rw [Replay.closing]
    split <;> rfl
  have hblocks : (told.blocks.map (Block.only x)).flatMap Block.changes
      = (told.blocks.flatMap Block.changes).filter (Change.concerns x) := by
    rw [List.flatMap_map, List.filter_flatMap]
    simp only [Block.changes_only]
  rw [Replay.changesUpTo, Replay.changesUpTo, blocks_only hrecording h h', List.filter_append,
    hclosing, hblocks]

end Archive.Tells

namespace Tracker

variable {σ : Type}

/-- Two trackers without an audit that are at the same moment and have the same deal of a
request. -/
structure AlikeAbout (x : RequestId) (tracker other : Tracker) : Prop where
  settled : tracker.Settled
  settled' : other.Settled
  mark : other.mark = tracker.mark
  latestBlock : other.latestBlock = tracker.latestBlock
  audit : tracker.audit = none
  audit' : other.audit = none
  deal : other.ledger.find? x = tracker.ledger.find? x

end Tracker

def Outcome.about (x : RequestId) (outcome : Outcome) : List Notice :=
  outcome.notices.filter (Notice.isAbout x)

namespace Tracker

/-! ## One update -/

section

variable {x : RequestId} {tracker other : Tracker} (h : tracker.AlikeAbout x other)
  {archive alone : Archive} (hrecording : alone.recording = archive.recording.only x)
include h hrecording

/-- What succeeds over all events succeeds over those about a request, and does the same to it. -/
theorem AlikeAbout.replay {window : Window} {told told' : Chronicle}
    (htells : archive.Tells window told) (htells' : alone.Tells window told')
    (oracle oracle' : Oracle σ) {world : σ} {outcome : Outcome} {state : σ × Tracker}
    (hok : Tracker.replay oracle window told (world, tracker) = .ok outcome state) :
    ∃ outcome' other', Tracker.replay oracle' window told' (world, other)
        = .ok outcome' (state.1, other') ∧
      state.2.AlikeAbout x other' ∧ outcome'.about x = outcome.about x := by
  have hnext := h.settled.replay_ok hok
  obtain ⟨haccepts, cursor, reports, world', hwatch, rfl, rfl⟩ := h.settled.replay_eq_ok.1 hok
  rw [h.audit, Audit.watchAll_none] at hwatch
  cases hwatch
  have hlast : told'.lastBlock?.or other.latestBlock = told.lastBlock?.or tracker.latestBlock := by
    rw [h.latestBlock, Chronicle.lastBlock?, htells.stretch_only hrecording htells',
      ← Chronicle.lastBlock?]
  have hchanges : other.changesTo window.stop told'
      = (tracker.changesTo window.stop told).filter (Change.concerns x) := by
    rw [changesTo, changesTo, hlast, htells.changesUpTo_only hrecording htells']
  obtain ⟨haccepts', hdeal, hnews⟩ := h.settled.sound.isolated h.settled'.sound h.deal haccepts
  rw [← hchanges] at haccepts' hdeal hnews
  have hwatch' : Audit.watchAll oracle' other.audit (other.audit.bind Audit.cursor)
      (other.ledger.sights told'.blocks) world = .ok (none, []) world := by
    rw [h.audit', Audit.watchAll_none]
    rfl
  have hok' := h.settled'.replay_eq_ok.2 ⟨haccepts', none, [], world, hwatch', rfl, rfl⟩
  refine ⟨_, _, hok', ⟨hnext, h.settled'.replay_ok hok', rfl, hlast, ?_, ?_, hdeal⟩, hnews⟩
  · rw [moved, h.audit]
    rfl
  · rw [moved, h.audit']
    rfl

theorem AlikeAbout.update (hinOrder : archive.recording.InOrder) (oracle oracle' : Oracle σ)
    {target : Instant} {world : σ} {outcome : Outcome} {state : σ × Tracker}
    (hok : Tracker.update (archive.source σ) oracle target (world, tracker) = .ok outcome state) :
    ∃ outcome' other', Tracker.update (alone.source σ) oracle' target (world, other)
        = .ok outcome' (state.1, other') ∧
      state.2.AlikeAbout x other' ∧ outcome'.about x = outcome.about x := by
  have hinOrder' : alone.recording.InOrder := by
    rw [hrecording]
    exact hinOrder.only x
  have hle : tracker.mark ≤ target := mark_le_of_update hok
  obtain ⟨told, htells, hupdate⟩ := update_archive (σ := σ) hinOrder oracle hle
  obtain ⟨told', htells', hupdate'⟩ := update_archive (σ := σ) hinOrder' oracle' hle
  rw [hupdate world tracker rfl] at hok
  obtain ⟨outcome', other', hok', halike⟩ := h.replay hrecording htells htells' oracle oracle' hok
  refine ⟨outcome', other', ?_, halike⟩
  rw [hupdate' world other h.mark, hok']

end

/-! ## Runs -/

structure Visit where
  outcome : Outcome
  after : Tracker

def visit (source : Source σ) (oracle : Oracle σ) (target : Instant) :
    EStateM UpdateError (σ × Tracker) Visit := fun state =>
  match update source oracle target state with
  | .ok outcome after => .ok ⟨outcome, after.2⟩ after
  | .error e after => .error e after

theorem visit_eq_ok {source : Source σ} {oracle : Oracle σ} {target : Instant}
    {state after : σ × Tracker} {visited : Visit} :
    visit source oracle target state = .ok visited after ↔
      ∃ outcome, update source oracle target state = .ok outcome after ∧
        visited = ⟨outcome, after.2⟩ := by
  rw [visit]
  cases update source oracle target state with
  | ok outcome left =>
      constructor
      · intro h
        cases h
        exact ⟨outcome, rfl, rfl⟩
      · rintro ⟨_, hok, rfl⟩
        cases hok
        rfl
  | error e left =>
      constructor
      · intro h
        cases h
      · rintro ⟨_, hok, _⟩
        cases hok

/-- Both visits found the request in the same state, and told the same about it. -/
def Visit.SameFor (x : RequestId) (visited other : Visit) : Prop :=
  other.after.ledger.find? x = visited.after.ledger.find? x ∧
    other.outcome.about x = visited.outcome.about x

theorem AlikeAbout.visits {x : RequestId} {tracker other : Tracker} (h : tracker.AlikeAbout x other)
    {archive alone : Archive} (hrecording : alone.recording = archive.recording.only x)
    (hinOrder : archive.recording.InOrder) (oracle oracle' : Oracle σ) {targets : List Instant}
    {world : σ} {visits : List Visit} {last : σ × Tracker}
    (hrun : targets.mapM (visit (archive.source σ) oracle) (world, tracker) = .ok visits last) :
    ∃ visits' last', targets.mapM (visit (alone.source σ) oracle') (world, other)
        = .ok visits' last' ∧ List.Forall₂ (Visit.SameFor x) visits visits' := by
  induction targets generalizing tracker other world visits with
  | nil =>
      cases hrun
      exact ⟨[], _, rfl, .nil⟩
  | cons target targets ih =>
      obtain ⟨visited, between, rest, hfirst, hrest, rfl⟩ := mapM_cons_eq_ok.1 hrun
      obtain ⟨outcome, hok, rfl⟩ := visit_eq_ok.1 hfirst
      obtain ⟨outcome', other', hok', halike, hsame⟩ :=
        h.update hrecording hinOrder oracle oracle' hok
      obtain ⟨rest', last', hrest', hall⟩ := ih halike hrest
      refine ⟨⟨outcome', other'⟩ :: rest', last', mapM_cons_eq_ok.2
        ⟨_, _, _, visit_eq_ok.2 ⟨outcome', hok', rfl⟩, hrest', rfl⟩, .cons ⟨?_, hsame⟩ hall⟩
      exact halike.deal

/-- If the updates of a tracker without an audit all succeed over a recording, they all succeed
over what is left of it without the events of other requests. After each of them, the request is
in the same state as with all events, and the same was told about it, in the same order. -/
theorem requests_do_not_influence_each_other {recording : Recording} {archive : Archive}
    (harchive : Archive.ofRecording recording = .ok archive) (observer : Observer)
    (mark : Instant) {targets : List Instant} {world : σ} {visits : List Visit}
    {last : σ × Tracker}
    (hrun : targets.mapM (visit (archive.source σ) (archive.oracle σ))
      (world, start observer mark) = .ok visits last) (x : RequestId) :
    ∃ alone visits' last', Archive.ofRecording (recording.only x) = .ok alone ∧
      targets.mapM (visit (alone.source σ) (alone.oracle σ)) (world, start observer mark)
        = .ok visits' last' ∧
      List.Forall₂ (fun visited visited' =>
        visited'.after.ledger.find? x = visited.after.ledger.find? x ∧
          visited'.outcome.notices.filter (Notice.isAbout x)
            = visited.outcome.notices.filter (Notice.isAbout x)) visits visits' := by
  obtain ⟨rfl, hinOrder⟩ := Archive.ofRecording_ok harchive
  obtain ⟨alone, halone⟩ := Archive.exists_archive (hinOrder.only x)
  have hsettled : (start observer mark).Settled := (Reachable.start observer mark).settled
  have halike : (start observer mark).AlikeAbout x (start observer mark) :=
    ⟨hsettled, hsettled, rfl, rfl, rfl, rfl, rfl⟩
  obtain ⟨visits', last', hrun', hsame⟩ := halike.visits (Archive.ofRecording_ok halone).1 hinOrder
    (archive.oracle σ) (alone.oracle σ) hrun
  exact ⟨alone, visits', last', halone, hrun', hsame⟩

/-- Two requests that run at the same time, and finish in the same update. -/
def busyRecording : Recording where
  periodSeconds := 60
  blocks := [⟨1, ⟨3000, 0, by decide⟩⟩, ⟨2, ⟨3010, 0, by decide⟩⟩, ⟨3, ⟨3060, 0, by decide⟩⟩]
  events := [.slotFilled ⟨2, (Ledger.sampleRequest 6 2 30).id, 1,
      (Ledger.sampleRequest 7 2 30).client⟩,
    .published ⟨1, Ledger.sampleRequest 6 2 30⟩, .published ⟨1, Ledger.sampleRequest 7 2 30⟩,
    .fulfilled ⟨2, (Ledger.sampleRequest 7 2 30).id⟩,
    .fulfilled ⟨2, (Ledger.sampleRequest 6 2 30).id⟩]
  proofs := []

def busyArchive : Archive :=
  ⟨busyRecording, ⟨⟨3000, 0, by decide⟩, ⟨3060, 0, by decide⟩, by decide⟩⟩

/-- Updates after the second block and after the third. -/
def busyRun : EStateM.Result UpdateError (Unit × Tracker) (List Visit) :=
  [⟨3010, 0, by decide⟩, ⟨3100, 0, by decide⟩].mapM
    (visit (busyArchive.source Unit) (busyArchive.oracle Unit))
    ((), start .silent ⟨2990, 0, by decide⟩)

/-- How many notices each update has told, and how many of them about a request. -/
def noticesOf (x : RequestId) :
    EStateM.Result UpdateError (Unit × Tracker) (List Visit) → List (Nat × Nat)
  | .ok visits _ =>
      visits.map fun visited => (visited.outcome.notices.length, (visited.outcome.about x).length)
  | .error _ _ => []

theorem requests_do_not_influence_each_other_busyRun :
    Archive.ofRecording busyRecording = .ok busyArchive ∧
      noticesOf (Ledger.sampleRequest 6 2 30).id busyRun = [(5, 3), (2, 1)] ∧
      ∃ visits last, busyRun = .ok visits last ∧
        ∃ alone visits' last',
          Archive.ofRecording (busyRecording.only (Ledger.sampleRequest 6 2 30).id) = .ok alone ∧
          [⟨3010, 0, by decide⟩, ⟨3100, 0, by decide⟩].mapM
            (visit (alone.source Unit) (alone.oracle Unit))
            ((), start .silent ⟨2990, 0, by decide⟩) = .ok visits' last' ∧
          List.Forall₂ (Visit.SameFor (Ledger.sampleRequest 6 2 30).id) visits visits' := by
  have harchive : Archive.ofRecording busyRecording = .ok busyArchive := rfl
  have hcounts : noticesOf (Ledger.sampleRequest 6 2 30).id busyRun = [(5, 3), (2, 1)] := by cbv
  refine ⟨harchive, hcounts, ?_⟩
  cases hrun : busyRun with
  | error e state =>
      rw [hrun] at hcounts
      cases hcounts
  | ok visits last =>
      obtain ⟨alone, visits', last', halone, hrun', hsame⟩ :=
        requests_do_not_influence_each_other harchive .silent _ hrun
          (Ledger.sampleRequest 6 2 30).id
      exact ⟨visits, last, rfl, alone, visits', last', halone, hrun', hsame⟩

end Tracker

end StorageMarket
